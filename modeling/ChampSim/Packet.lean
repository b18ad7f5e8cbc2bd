import ChampSim.Lib.Ring
import Mathlib.Data.Finset.Basic

/-!
# ChampSim.Packet

Messages between the levels of the memory hierarchy and the queues that hold them (`inc/block.h`,
`src/block.cc`).

* `add64`, `sub64` — `uint64_t` arithmetic. Cycles and addresses are natural numbers; only sums and
  differences of cycles can wrap.
* `Packet`         — `PACKET`, with the fields that a modelled function reads. The
  `*_index_depend_on_me` sets are finite sets, which is what `fastset` represents.
* `PacketQueue`    — `PACKET_QUEUE`: a ring and the cursors and counters kept with it.
* `checkQueue`, `addQueue`, `removeQueue` — a failed assertion is `none`.
-/

namespace ChampSim

def u64Max : Nat := 2 ^ 64 - 1

def add64 (a b : Nat) : Nat := (a + b) % 2 ^ 64

def sub64 (a b : Nat) : Nat := (a + 2 ^ 64 - b % 2 ^ 64) % 2 ^ 64

/-- The access types `LOAD`, `RFO`, `PREFETCH` and `WRITEBACK`. -/
inductive PacketType where
  | load
  | rfo
  | prefetch
  | writeback
deriving DecidableEq, Repr

/-- The progress marks 0, `INFLIGHT` and `COMPLETED`. -/
inductive Progress where
  | idle
  | inflight
  | completed
deriving DecidableEq, Repr

structure Packet where
  instruction : Bool
  isData : Bool
  fillL1i : Bool
  fillL1d : Bool
  tlbAccess : Bool
  scheduled : Bool
  fillLevel : Int
  pfOriginLevel : Int
  robIndex : Int
  delta : Int
  depth : Int
  signature : Int
  confidence : Int
  pfMetadata : Nat
  instrMerged : Bool
  loadMerged : Bool
  storeMerged : Bool
  returned : Progress
  type : PacketType
  robIndexDependOnMe : Finset Nat
  lqIndexDependOnMe : Finset Nat
  sqIndexDependOnMe : Finset Nat
  cpu : Nat
  dataIndex : Nat
  lqIndex : Nat
  sqIndex : Nat
  address : Nat
  fullAddr : Nat
  instructionPa : Nat
  dataPa : Nat
  data : Nat
  instrId : Nat
  ip : Nat
  eventCycle : Nat
  cycleEnqueued : Nat
deriving DecidableEq

/-- The constructor of `PACKET`. It leaves `pf_metadata`, `pf_origin_level` and `data_pa` as they
are; they are 0 here. -/
def Packet.empty (numCpus : Nat) : Packet where
  instruction := false
  isData := true
  fillL1i := false
  fillL1d := false
  tlbAccess := false
  scheduled := false
  fillLevel := -1
  pfOriginLevel := 0
  robIndex := -1
  delta := 0
  depth := 0
  signature := 0
  confidence := 0
  pfMetadata := 0
  instrMerged := false
  loadMerged := false
  storeMerged := false
  returned := .idle
  type := .load
  robIndexDependOnMe := ∅
  lqIndexDependOnMe := ∅
  sqIndexDependOnMe := ∅
  cpu := numCpus
  dataIndex := 0
  lqIndex := 0
  sqIndex := 0
  address := 0
  fullAddr := 0
  instructionPa := 0
  dataPa := 0
  data := 0
  instrId := 0
  ip := 0
  eventCycle := u64Max
  cycleEnqueued := 0

@[simp] theorem Packet.empty_address (n : Nat) : (Packet.empty n).address = 0 := rfl
@[simp] theorem Packet.empty_scheduled (n : Nat) : (Packet.empty n).scheduled = false := rfl
@[simp] theorem Packet.empty_returned (n : Nat) : (Packet.empty n).returned = .idle := rfl
@[simp] theorem Packet.empty_eventCycle (n : Nat) : (Packet.empty n).eventCycle = u64Max := rfl

/-- `l1dWq` stands for `NAME == "L1D_WQ"`, the one use made of the name. -/
structure PacketQueue extends Lib.Ring Packet where
  l1dWq : Bool
  numReturned : Nat
  nextFillIndex : Nat
  nextScheduleIndex : Nat
  nextProcessIndex : Nat
  nextFillCycle : Nat
  nextScheduleCycle : Nat
  nextProcessCycle : Nat
  access : Nat
  forward : Nat
  merged : Nat
  toCache : Nat
  rowBufferHit : Nat
  rowBufferMiss : Nat
  full : Nat

namespace PacketQueue

def new (numCpus size : Nat) (l1dWq : Bool) : PacketQueue where
  size := size
  head := 0
  tail := 0
  occupancy := 0
  entry := fun _ => Packet.empty numCpus
  l1dWq := l1dWq
  numReturned := 0
  nextFillIndex := 0
  nextScheduleIndex := 0
  nextProcessIndex := 0
  nextFillCycle := u64Max
  nextScheduleCycle := u64Max
  nextProcessCycle := u64Max
  access := 0
  forward := 0
  merged := 0
  toCache := 0
  rowBufferHit := 0
  rowBufferMiss := 0
  full := 0

/-- The first index in `lo .. hi - 1` that satisfies `p`. -/
def findFrom (p : Nat → Bool) (lo hi : Nat) : Option Nat :=
  (List.range' lo (hi - lo)).find? p

def sameKey (q : PacketQueue) (packet : Packet) (i : Nat) : Bool :=
  if q.l1dWq then (q.entry i).fullAddr == packet.fullAddr
  else (q.entry i).address == packet.address

/-- `none` is the source's -1. -/
def checkQueue (q : PacketQueue) (packet : Packet) : Option Nat :=
  if q.head = q.tail ∧ q.occupancy = 0 then none
  else if q.head < q.tail then findFrom (q.sameKey packet) q.head q.tail
  else (findFrom (q.sameKey packet) q.head q.size).or (findFrom (q.sameKey packet) 0 q.tail)

def addQueue (q : PacketQueue) (packet : Packet) : Option PacketQueue :=
  if q.occupancy ≠ 0 ∧ q.head = q.tail then none
  else some { q with toRing := q.toRing.push packet }

/-- The entry removed is the one at `i`, whatever the head is; the head steps all the same. -/
def removeQueue (numCpus : Nat) (q : PacketQueue) (i : Nat) : Option PacketQueue :=
  if q.occupancy = 0 ∧ q.head = q.tail then none
  else some { q with
    entry := Function.update q.entry i (Packet.empty numCpus)
    occupancy := q.occupancy - 1
    head := Lib.Ring.next q.size q.head }

def setEntry (q : PacketQueue) (i : Nat) (p : Packet) : PacketQueue :=
  { q with entry := Function.update q.entry i p }

@[simp] theorem setEntry_size (q : PacketQueue) (i : Nat) (p : Packet) :
    (q.setEntry i p).size = q.size := rfl
@[simp] theorem setEntry_entry (q : PacketQueue) (i : Nat) (p : Packet) :
    (q.setEntry i p).entry = Function.update q.entry i p := rfl
@[simp] theorem setEntry_occupancy (q : PacketQueue) (i : Nat) (p : Packet) :
    (q.setEntry i p).occupancy = q.occupancy := rfl

theorem findFrom_eq_some {p : Nat → Bool} {lo hi i : Nat} :
    findFrom p lo hi = some i ↔ p i ∧ lo ≤ i ∧ i < hi ∧ ∀ j, lo ≤ j → j < i → p j = false := by
  simp only [findFrom, List.find?_range'_eq_some]
  constructor
  · rintro ⟨hp, hmem, hmin⟩
    have := List.mem_range'_1.mp hmem
    refine ⟨hp, by omega, by omega, fun j hlo hj => ?_⟩
    simpa using hmin j hlo hj
  · rintro ⟨hp, hlo, hhi, hmin⟩
    refine ⟨hp, List.mem_range'_1.mpr (by omega), fun j hlj hj => ?_⟩
    simp [hmin j hlj hj]

theorem findFrom_eq_none {p : Nat → Bool} {lo hi : Nat} :
    findFrom p lo hi = none ↔ ∀ j, lo ≤ j → j < hi → p j = false := by
  simp only [findFrom, List.find?_eq_none, List.mem_range'_1]
  constructor
  · intro h j hlo hhi
    simpa using h j (by omega)
  · intro h j hj
    simp [h j hj.1 (by omega)]

end PacketQueue
end ChampSim
