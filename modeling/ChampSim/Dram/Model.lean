import ChampSim.Packet
import ChampSim.Lib.Scan
import ChampSim.Lib.Run

/-!
# ChampSim.Dram.Model

`MEMORY_CONTROLLER` (`src/dram_controller.cc`): requests wait in a read and a write queue per
channel, are scheduled to banks, and leave when their data has crossed the channel's bus.

* `Config`     — the `DRAM_*` constants and the latencies set in `main`.
* `Controller` — the state. `RQ` and `WQ`, and `scheduled_reads` and `scheduled_writes`, are one
  field each, indexed by `QueueId`. `log` records what leaves the controller and has no counterpart.
* `addRq`, `addWq`, `operate` — the interface. `none` is a failed assertion or a counter that goes
  below zero.
* `Op`, `step` — one call, with the global variables it reads.

`current_core_cycle` is a function of the cpu number. An empty slot carries `NUM_CPUS` as its cpu,
so `operate` also reads the word behind that array, and nothing is known about its value.
-/

namespace ChampSim
namespace Dram

/-- The address fields and their `LOG2_*` constants. -/
structure Geometry where
  channels : Nat
  log2Channels : Nat
  ranks : Nat
  log2Ranks : Nat
  banks : Nat
  log2Banks : Nat
  columns : Nat
  log2Columns : Nat
  rows : Nat
  log2Rows : Nat

structure Config extends Geometry where
  tRP : Nat
  tRCD : Nat
  tCAS : Nat
  dbusReturnTime : Nat
  dbusTurnAroundTime : Nat
  rqSize : Nat
  wqSize : Nat
  numCpus : Nat

def Config.writeHighWm (c : Config) : Nat := (c.wqSize * 7) >>> 3
def Config.writeLowWm (c : Config) : Nat := (c.wqSize * 3) >>> 2

/-- The constants of `champsim.h` and `dram_controller.h`, without `knob_low_bandwidth`. -/
def Config.default : Config where
  channels := 1
  log2Channels := 0
  ranks := 1
  log2Ranks := 0
  banks := 8
  log2Banks := 3
  columns := 128
  log2Columns := 7
  rows := 65536
  log2Rows := 16
  tRP := 50
  tRCD := 50
  tCAS := 50
  dbusReturnTime := 8
  dbusTurnAroundTime := 30
  rqSize := 64
  wqSize := 64
  numCpus := 1

/-- `(uint32_t) (address >> shift) & (bound - 1)`, and 0 for a field of no bits. -/
def Geometry.field (log2 bound shift address : Nat) : Nat :=
  if log2 = 0 then 0 else ((address >>> shift) % 2 ^ 32) &&& (bound - 1)

def Geometry.dramGetChannel (g : Geometry) (address : Nat) : Nat :=
  field g.log2Channels g.channels 0 address

def Geometry.dramGetBank (g : Geometry) (address : Nat) : Nat :=
  field g.log2Banks g.banks g.log2Channels address

def Geometry.dramGetColumn (g : Geometry) (address : Nat) : Nat :=
  field g.log2Columns g.columns (g.log2Banks + g.log2Channels) address

def Geometry.dramGetRank (g : Geometry) (address : Nat) : Nat :=
  field g.log2Ranks g.ranks (g.log2Columns + g.log2Banks + g.log2Channels) address

def Geometry.dramGetRow (g : Geometry) (address : Nat) : Nat :=
  field g.log2Rows g.rows (g.log2Ranks + g.log2Columns + g.log2Banks + g.log2Channels) address

/-- The indices of `bank_request`. -/
structure Loc where
  channel : Nat
  rank : Nat
  bank : Nat
deriving DecidableEq

def Geometry.loc (g : Geometry) (address : Nat) : Loc :=
  ⟨g.dramGetChannel address, g.dramGetRank address, g.dramGetBank address⟩

/-- `BANK_REQUEST`; `requestIndex = none` is the source's -1. -/
structure BankRequest where
  cycleAvailable : Nat
  openRow : Nat
  working : Bool
  workingType : PacketType
  rowBufferHit : Bool
  isWrite : Bool
  isRead : Bool
  requestIndex : Option Nat

def u32Max : Nat := 2 ^ 32 - 1

def BankRequest.new : BankRequest where
  cycleAvailable := 0
  openRow := u32Max
  working := false
  workingType := .load
  rowBufferHit := false
  isWrite := false
  isRead := false
  requestIndex := none

inductive QueueId where
  | rq
  | wq
deriving DecidableEq, Repr

def QueueId.other : QueueId → QueueId
  | .rq => .wq
  | .wq => .rq

inductive Level where
  | icache
  | dcache
deriving DecidableEq, Repr

/-- What leaves the controller. -/
inductive Event where
  /-- `return_data` from `add_rq` before the warm-up is over. -/
  | dummy (level : Level) (packet : Packet)
  /-- `return_data` from `add_rq` with the data of a queued write. -/
  | forward (level : Level) (packet : Packet)
  /-- `process` completes an entry: a read is returned to the upper level's dcache, a write ends. -/
  | served (queue : QueueId) (packet : Packet) (cycle : Nat)

structure Controller where
  bank : Loc → BankRequest
  queue : QueueId → Nat → PacketQueue
  scheduled : QueueId → Nat → Nat
  writeMode : Nat → Bool
  dbusCycleAvailable : Nat → Nat
  dbusCycleCongested : Nat → Nat
  /-- Indexed by access type, with `none` for the row and the column `NUM_TYPES`. -/
  dbusCongested : Option PacketType → Option PacketType → Nat
  access : PacketType → Nat
  hit : PacketType → Nat
  log : List Event

def Config.size (c : Config) : QueueId → Nat
  | .rq => c.rqSize
  | .wq => c.wqSize

def Controller.new (c : Config) : Controller where
  bank := fun _ => .new
  queue := fun w _ => .new c.numCpus (c.size w) false
  scheduled := fun _ _ => 0
  writeMode := fun _ => false
  dbusCycleAvailable := fun _ => 0
  dbusCycleCongested := fun _ => 0
  dbusCongested := fun _ _ => 0
  access := fun _ => 0
  hit := fun _ => 0
  log := []

namespace Controller

variable (c : Config) (m : Controller) (cycle : Nat → Nat)

def setQueue (w : QueueId) (ch : Nat) (q : PacketQueue) : Controller :=
  { m with queue := Function.update m.queue w (Function.update (m.queue w) ch q) }

def setBank (l : Loc) (b : BankRequest) : Controller :=
  { m with bank := Function.update m.bank l b }

def record (e : Event) : Controller := { m with log := e :: m.log }

def incrScheduled (w : QueueId) (ch : Nat) : Controller :=
  { m with
    scheduled := Function.update m.scheduled w
      (Function.update (m.scheduled w) ch (m.scheduled w ch + 1)) }

/-- `scheduled_reads[ch]--` or `scheduled_writes[ch]--`. -/
def decrScheduled (w : QueueId) (ch : Nat) : Option Controller :=
  if m.scheduled w ch = 0 then none
  else some { m with
    scheduled := Function.update m.scheduled w
      (Function.update (m.scheduled w) ch (m.scheduled w ch - 1)) }

/-- The queue that is being served: `WQ` in write mode, `RQ` otherwise. -/
def active (ch : Nat) : QueueId := if m.writeMode ch then .wq else .rq

/-! ## The cursors -/

def awaiting (q : PacketQueue) (i : Nat) : Bool :=
  (q.entry i).address != 0 && !(q.entry i).scheduled

def scanSchedule (q : PacketQueue) : Nat × Option Nat :=
  Lib.scanMin (awaiting q) (fun i => (q.entry i).eventCycle) u64Max q.size

def scanProcess (q : PacketQueue) : Nat × Option Nat :=
  Lib.scanMin (fun i => (q.entry i).scheduled) (fun i => (q.entry i).eventCycle) u64Max q.size

def updateScheduleCycle (q : PacketQueue) : PacketQueue :=
  { q with
    nextScheduleCycle := (scanSchedule q).1
    nextScheduleIndex := (scanSchedule q).2.getD q.size }

def updateProcessCycle (q : PacketQueue) : PacketQueue :=
  { q with
    nextProcessCycle := (scanProcess q).1
    nextProcessIndex := (scanProcess q).2.getD q.size }

/-! ## Switching between reads and writes -/

/-- The body of `reset_remain_requests` for a scheduled entry. -/
def resetEntry (w : QueueId) (ch i : Nat) : Option Controller :=
  let p := (m.queue w ch).entry i
  let l := c.loc p.address
  let b := m.bank l
  let openRow :=
    if sub64 b.cycleAvailable c.tCAS ≤ cycle p.cpu then c.dramGetRow p.address else u32Max
  let b' : BankRequest :=
    { b with
      openRow := openRow
      requestIndex := none
      rowBufferHit := false
      working := false
      cycleAvailable := cycle p.cpu }
  let q' := (m.queue w ch).setEntry i { p with scheduled := false, eventCycle := cycle p.cpu }
  let m' := m.setQueue w ch q'
  if b.isWrite then (m'.setBank l { b' with isWrite := false }).decrScheduled .wq ch
  else if b.isRead then (m'.setBank l { b' with isRead := false }).decrScheduled .rq ch
  else some (m'.setBank l b')

/-- The loop of `reset_remain_requests` over the first `k` slots. -/
def resetEntries (w : QueueId) (ch : Nat) : Nat → Option Controller
  | 0 => some m
  | k + 1 =>
    (resetEntries w ch k).bind fun m =>
      if ((m.queue w ch).entry k).scheduled then m.resetEntry c cycle w ch k else some m

def updateCursors (w : QueueId) (ch : Nat) : Controller :=
  m.setQueue w ch (updateProcessCycle (updateScheduleCycle (m.queue w ch)))

def resetRemainRequests (w : QueueId) (ch : Nat) : Option Controller :=
  (m.resetEntries c cycle w ch (m.queue w ch).size).bind fun m =>
    let m := (m.updateCursors .rq ch).updateCursors .wq ch
    if m.scheduled w ch ≠ 0 then none else some m

/-- Flip the mode of the channel, un-schedule the queue `w` that was served, and turn the bus. -/
def turnAround (w : QueueId) (ch : Nat) : Option Controller :=
  let m : Controller := { m with writeMode := Function.update m.writeMode ch (w == QueueId.rq) }
  (m.resetRemainRequests c cycle w ch).map fun m : Controller =>
    { m with
      dbusCycleAvailable := Function.update m.dbusCycleAvailable ch
        (add64 (m.dbusCycleAvailable ch) c.dbusTurnAroundTime) }

def switchMode (ch : Nat) : Option Controller :=
  let rq := m.queue .rq ch
  let wq := m.queue .wq ch
  if m.writeMode ch = false ∧
      (wq.occupancy ≥ c.writeHighWm ∨ (rq.occupancy = 0 ∧ wq.occupancy > 0)) then
    m.turnAround c cycle .rq ch
  else if m.writeMode ch = true ∧
      (wq.occupancy = 0 ∨ (rq.occupancy ≠ 0 ∧ wq.occupancy < c.writeLowWm)) then
    m.turnAround c cycle .wq ch
  else some m

/-! ## Scheduling -/

def bankFree (q : PacketQueue) (i : Nat) : Bool :=
  !(m.bank (c.loc (q.entry i).address)).working

def rowOpen (q : PacketQueue) (i : Nat) : Bool :=
  (m.bank (c.loc (q.entry i).address)).openRow == c.dramGetRow (q.entry i).address

/-- The two searches of `schedule`: the oldest entry that hits an open row, else the oldest entry
whose bank is free. -/
def oldest (q : PacketQueue) : Option (Nat × Bool) :=
  let key := fun i => (q.entry i).eventCycle
  match (Lib.scanMin (fun i => awaiting q i && m.bankFree c q i && m.rowOpen c q i)
      key u64Max q.size).2 with
  | some i => some (i, true)
  | none =>
    ((Lib.scanMin (fun i => awaiting q i && m.bankFree c q i) key u64Max q.size).2).map (·, false)

def latency (rowBufferHit : Bool) : Nat :=
  if rowBufferHit then c.tCAS else c.tRP + c.tRCD + c.tCAS

/-- What `schedule` does with the entry it picked. -/
def scheduleEntry (w : QueueId) (ch i : Nat) (rowBufferHit : Bool) : Controller :=
  let p := (m.queue w ch).entry i
  let l := c.loc p.address
  let ready := add64 (cycle p.cpu) (latency c rowBufferHit)
  let b : BankRequest :=
    { m.bank l with
      working := true
      workingType := p.type
      cycleAvailable := ready
      requestIndex := some i
      rowBufferHit := rowBufferHit
      isWrite := w == QueueId.wq
      isRead := w == QueueId.rq
      openRow := c.dramGetRow p.address }
  let q := (m.queue w ch).setEntry i { p with scheduled := true, eventCycle := ready }
  (((m.setBank l b).incrScheduled w l.channel).setQueue w ch q).updateCursors w ch

def schedule (w : QueueId) (ch : Nat) : Controller :=
  match m.oldest c (m.queue w ch) with
  | none => m
  | some (i, rowBufferHit) => m.scheduleEntry c cycle w ch i rowBufferHit

/-! ## Processing -/

/-- The data has crossed the bus: the bank is free again and the entry is removed. -/
def complete (w : QueueId) (ch i : Nat) : Option Controller :=
  let p := (m.queue w ch).entry i
  let l := c.loc p.address
  let b := m.bank l
  let available := add64 (cycle p.cpu) c.dbusReturnTime
  let b' : BankRequest :=
    { b with
      requestIndex := none
      rowBufferHit := false
      working := false
      isWrite := false
      isRead := false }
  let sent := if w = .rq then { p with eventCycle := available } else p
  let q := m.queue w ch
  let q := if b.rowBufferHit then { q with rowBufferHit := q.rowBufferHit + 1 }
    else { q with rowBufferMiss := q.rowBufferMiss + 1 }
  let m := { m with
    dbusCycleAvailable := Function.update m.dbusCycleAvailable l.channel available }
  ((m.setBank l b').decrScheduled w l.channel).bind fun m =>
    (q.removeQueue c.numCpus i).map fun q =>
      (m.setQueue w ch (updateProcessCycle q)).record (.served w sent (cycle p.cpu))

/-- The bus is taken: the bank waits for it. -/
def congest (w : QueueId) (ch i : Nat) : Controller :=
  let p := (m.queue w ch).entry i
  let l := c.loc p.address
  let b := m.bank l
  let busy := m.dbusCycleAvailable l.channel
  let bump := fun (f : Option PacketType → Option PacketType → Nat) x y =>
    Function.update f x (Function.update (f x) y (f x y + 1))
  { m.setBank l { b with cycleAvailable := busy } with
    dbusCycleCongested := Function.update m.dbusCycleCongested l.channel
      (add64 (m.dbusCycleCongested l.channel) (sub64 busy (cycle p.cpu)))
    dbusCongested :=
      bump (bump (bump (bump m.dbusCongested none none) none (some p.type))
        (some b.workingType) none) (some b.workingType) (some p.type) }

def process (w : QueueId) (ch : Nat) : Option Controller :=
  let q := m.queue w ch
  let i := q.nextProcessIndex
  let p := q.entry i
  let l := c.loc p.address
  if i = q.size then none
  else if (m.bank l).requestIndex ≠ some i then none
  else if (m.bank l).cycleAvailable ≤ cycle p.cpu then
    if m.dbusCycleAvailable l.channel ≤ cycle p.cpu then m.complete c cycle w ch i
    else some (m.congest c cycle w ch i)
  else some m

/-! ## operate -/

/-- The two steps of `operate` for one queue, taken when it is the active one. -/
def serve (w : QueueId) (ch : Nat) : Option Controller :=
  if m.active ch = w then
    let q := m.queue w ch
    let m :=
      if q.nextScheduleIndex < q.size ∧
          q.nextScheduleCycle ≤ cycle (q.entry q.nextScheduleIndex).cpu then
        m.schedule c cycle w ch
      else m
    let q := m.queue w ch
    if q.nextProcessIndex < q.size ∧
        q.nextProcessCycle ≤ cycle (q.entry q.nextProcessIndex).cpu then
      m.process c cycle w ch
    else some m
  else some m

def operateChannel (ch : Nat) : Option Controller :=
  (m.switchMode c cycle ch).bind fun m =>
    (m.serve c cycle .wq ch).bind fun m => m.serve c cycle .rq ch

def operateChannels : Nat → Option Controller
  | 0 => some m
  | k + 1 => (operateChannels k).bind fun m => m.operateChannel c cycle k

def operate : Option Controller := m.operateChannels c cycle c.channels

/-! ## Arrivals -/

def checkDramQueue (q : PacketQueue) (packet : Packet) : Option Nat :=
  PacketQueue.findFrom (fun i => (q.entry i).address == packet.address) 0 q.size

def emptyIndex (q : PacketQueue) : Option Nat :=
  PacketQueue.findFrom (fun i => (q.entry i).address == 0) 0 q.size

/-- A new entry goes to the first empty slot; without one it is dropped. -/
def enqueue (w : QueueId) (ch : Nat) (packet : Packet) : Controller :=
  let q := m.queue w ch
  let q := match emptyIndex q with
    | none => q
    | some i => { q.setEntry i packet with occupancy := q.occupancy + 1 }
  m.setQueue w ch (updateScheduleCycle q)

/-- `return_data` to the levels whose flags the packet carries. -/
def respond (event : Level → Packet → Event) (packet : Packet) : Controller :=
  let m := if packet.instruction then m.record (event .icache packet) else m
  if packet.isData then m.record (event .dcache packet) else m

def addRq (allWarmupComplete : Nat) (packet : Packet) : Controller × Option Nat :=
  if allWarmupComplete < c.numCpus then (m.respond .dummy packet, none)
  else
    let ch := c.dramGetChannel packet.address
    match checkDramQueue (m.queue .wq ch) packet with
    | some i =>
      let wq := m.queue .wq ch
      let rq := m.queue .rq ch
      let m := m.respond .forward { packet with data := (wq.entry i).data }
      let m := { m with
        access := Function.update m.access .rfo (m.access .rfo + 1)
        hit := Function.update m.hit .rfo (m.hit .rfo + 1) }
      ((m.setQueue .wq ch { wq with forward := wq.forward + 1 }).setQueue .rq ch
        { rq with access := rq.access + 1 }, none)
    | none =>
      match checkDramQueue (m.queue .rq ch) packet with
      | some i => (m, some i)
      | none => (m.enqueue .rq ch packet, none)

def addWq (allWarmupComplete : Nat) (packet : Packet) : Controller × Option Nat :=
  if allWarmupComplete < c.numCpus then (m, none)
  else
    let ch := c.dramGetChannel packet.address
    match checkDramQueue (m.queue .wq ch) packet with
    | some i => (m, some i)
    | none => (m.enqueue .wq ch packet, none)

end Controller

/-- A call, with the globals `all_warmup_complete` and `current_core_cycle` as it finds them. -/
inductive Op where
  | addRq (allWarmupComplete : Nat) (packet : Packet)
  | addWq (allWarmupComplete : Nat) (packet : Packet)
  | operate (cycle : Nat → Nat)

def step (c : Config) (m : Controller) : Op → Option Controller
  | .addRq warm packet => some (m.addRq c warm packet).1
  | .addWq warm packet => some (m.addWq c warm packet).1
  | .operate cycle => m.operate c cycle

end Dram
end ChampSim
