import ChampSim.Packet

/-!
# ChampSim.Core.Requests

The packets that a core sends to its TLBs and first-level caches (`src/ooo_cpu.cc`).

* `LsqEntry` — `LSQ_ENTRY`, an entry of the load queue or of the store queue.
* `fetchTranslation`, `fetchLine` — `fetch_instruction`, to `ITLB` and `L1I`.
* `storeTranslation`, `loadTranslation` — `operate_lsq`, to `DTLB`.
* `loadData`, `storeData` — `execute_load`, to `L1D`, and `retire_rob`, to the `WQ` of `L1D`.
-/

namespace ChampSim
namespace Core

structure LsqEntry where
  instrId : Nat
  producerId : Nat
  virtualAddress : Nat
  physicalAddress : Nat
  ip : Nat
  eventCycle : Nat
  robIndex : Nat
  dataIndex : Nat
  translated : Progress
  fetched : Progress
  /-- `asid[1]`. -/
  asid : Nat
deriving DecidableEq

def LsqEntry.empty : LsqEntry where
  instrId := 0
  producerId := u64Max
  virtualAddress := 0
  physicalAddress := 0
  ip := 0
  eventCycle := 0
  robIndex := 0
  dataIndex := 0
  translated := .idle
  fetched := .idle
  asid := 255

/-- The page that `DTLB` looks up. With `knob_cloudsuite` the process is part of it. -/
def LsqEntry.page (cloudsuite : Bool) (e : LsqEntry) : Nat :=
  if cloudsuite then (e.virtualAddress / 2 ^ 12 * 2 ^ 9) % 2 ^ 64 ||| e.asid
  else e.virtualAddress / 2 ^ 12

section Packets

variable (numCpus cpu : Nat)

/-- The fields that all packets of the load and store queues have in common. -/
def lsqPacket (e : LsqEntry) (address fullAddr eventCycle : Nat) (type : PacketType) : Packet :=
  { Packet.empty numCpus with
    fillLevel := 1
    fillL1d := true
    cpu := cpu
    dataIndex := e.dataIndex
    address := address
    fullAddr := fullAddr
    instrId := e.instrId
    robIndex := e.robIndex
    ip := e.ip
    type := type
    eventCycle := eventCycle }

def storeTranslation (cloudsuite : Bool) (sqIndex : Nat) (e : LsqEntry) : Packet :=
  { lsqPacket numCpus cpu e (e.page cloudsuite) e.virtualAddress e.eventCycle .rfo with
    tlbAccess := true
    sqIndex := sqIndex }

def loadTranslation (cloudsuite : Bool) (lqIndex : Nat) (e : LsqEntry) : Packet :=
  { lsqPacket numCpus cpu e (e.page cloudsuite) e.virtualAddress e.eventCycle .load with
    lqIndex := lqIndex }

def loadData (lqIndex : Nat) (e : LsqEntry) : Packet :=
  { lsqPacket numCpus cpu e (e.physicalAddress / 2 ^ 6) e.physicalAddress e.eventCycle .load with
    lqIndex := lqIndex }

/-- The store leaves the queue; its index only travels along. -/
def storeData (cycle sqIndex : Nat) (e : LsqEntry) : Packet :=
  { lsqPacket numCpus cpu e (e.physicalAddress / 2 ^ 6) e.physicalAddress cycle .rfo with
    sqIndex := sqIndex }

/-- A code packet of `fetch_instruction`. -/
def fetchPacket (address fullAddr ip robIndex cycle : Nat) : Packet :=
  { Packet.empty numCpus with
    instruction := true
    isData := false
    fillLevel := 1
    fillL1i := true
    cpu := cpu
    address := address
    fullAddr := fullAddr
    instrId := 0
    robIndex := robIndex
    ip := ip
    type := .load
    eventCycle := cycle }

def fetchTranslation (ip i cycle : Nat) : Packet :=
  { fetchPacket numCpus cpu (ip / 2 ^ 12) ip ip i cycle with tlbAccess := true }

def fetchLine (ip instructionPa cycle : Nat) : Packet :=
  { fetchPacket numCpus cpu (instructionPa / 2 ^ 6) instructionPa ip 0 cycle with
    instructionPa := instructionPa }

end Packets

end Core
end ChampSim
