import ChampSim.Core.Pipeline
import ChampSim.Core.Requests
import ChampSim.Lib.Feed

/-!
# ChampSim.O3.Model

The whole of `O3_CPU` (`inc/ooo_cpu.h`): its state, what it sees of the memory system, and the
scheduling and execution of instructions (`src/ooo_cpu.cc`).

* `Cpu`               — the rings of `Core.State`, the load and store queues, `STA`, the ready lists
  and the counters.
* `Memory`            — the calls on the TLBs and first-level caches, for any memory state `μ`.
* `doScheduling`, `scheduleInstruction` — register dependences.
* `doExecution`, `executeInstruction`   — issue from `RTE0` and `RTE1`.
* `regRawRelease`, `completeExecution`  — the end of an instruction.

`rte .zero` is `RTE0` and `rte .one` is `RTE1`, and so for `rtl` and `rts`. A failed assertion is
`none`. `cycle` is `current_core_cycle`.
-/

namespace ChampSim
namespace O3

open Lib ChampSim.Core

def lqSize : Nat := 128

def sqSize : Nat := 72

def numInstrDestinationsSparc : Nat := 4

def staSize : Nat := robSize * numInstrDestinationsSparc

def execWidth : Nat := 6

def lqWidth : Nat := 2

def sqWidth : Nat := 2

def schedulerSize : Nat := 128

def branchMispredictPenalty : Nat := 1

def add32 (a b : Nat) : Nat := (a + b) % 2 ^ 32

def sub32 (a b : Nat) : Nat := (a + 2 ^ 32 - b % 2 ^ 32) % 2 ^ 32

structure Config extends Core.Config where
  execLatency : Nat
  numCpus : Nat

inductive Half where
  | zero
  | one
deriving DecidableEq, Repr

structure Cpu (μ : Type) extends Core.State where
  cycle : Nat
  nextSchedule : Nat
  lq : Lib.Ring LsqEntry
  sq : Lib.Ring LsqEntry
  sta : Feed
  rte : Half → Feed
  rtl : Half → Feed
  rts : Half → Feed
  inflightRegExecutions : Nat
  inflightMemExecutions : Nat
  completedExecutions : Nat
  mem : μ

def Cpu.init {μ : Type} (mem : μ) : Cpu μ where
  toState := .init
  cycle := 0
  nextSchedule := 0
  lq := ⟨lqSize, 0, 0, 0, fun _ => .empty⟩
  sq := ⟨sqSize, 0, 0, 0, fun _ => .empty⟩
  sta := .new staSize u64Max
  rte := fun _ => .new robSize robSize
  rtl := fun _ => .new lqSize lqSize
  rts := fun _ => .new sqSize sqSize
  inflightRegExecutions := 0
  inflightMemExecutions := 0
  completedExecutions := 0
  mem := mem

/-- The structures whose `PROCESSED` queue `update_rob` reads. -/
inductive Server where
  | itlb
  | l1i
  | dtlb
  | l1d
deriving DecidableEq, Repr

/-- `addRq` tells whether the request was taken (its result is not -2). -/
structure Memory (μ : Type) where
  addRq : Server → Nat → Packet → μ → Option (Bool × μ)
  /-- `L1D.add_wq`. -/
  addWq : Nat → Packet → μ → Option μ
  /-- `L1D.WQ.occupancy`. -/
  wqOccupancy : μ → Nat
  wqSize : Nat
  /-- The head of `PROCESSED` when its `event_cycle` has come. -/
  processed : Server → Nat → μ → Option Packet
  removeProcessed : Server → μ → Option μ
  /-- `operate_cache`. -/
  operate : Nat → μ → Option μ

/-- The answers of a cycle that come from outside the core and its caches. -/
structure Env where
  /-- `stall_cycle` lies in the future. -/
  stalled : Bool
  warmupComplete : Bool
  /-- `DECODE_LATENCY`, which `finish_warmup` sets. -/
  decodeLatency : Nat
  vaToPa : OooModelInstr → Nat
  predictBranch : OooModelInstr → UInt8

/-- The configuration of the decode stage. -/
def Config.decode (c : Config) (env : Env) : Core.Config :=
  { c.toConfig with decodeLatency := env.decodeLatency }

def modifyLsq (r : Lib.Ring LsqEntry) (i : Nat) (f : LsqEntry → LsqEntry) : Lib.Ring LsqEntry :=
  { r with entry := Function.update r.entry i (f (r.entry i)) }

/-- What `ITERATE_SET(i, a, n)` goes through. -/
def expand (a : Finset Nat) (n : Nat) : List Nat := (List.range n).filter (· ∈ a)

variable {μ : Type}

def Cpu.modifyRob (s : Cpu μ) (i : Nat) (f : OooModelInstr → OooModelInstr) : Cpu μ :=
  { s with rob := modify s.rob i f }

def Cpu.modifyLq (s : Cpu μ) (i : Nat) (f : LsqEntry → LsqEntry) : Cpu μ :=
  { s with lq := modifyLsq s.lq i f }

def Cpu.modifySq (s : Cpu μ) (i : Nat) (f : LsqEntry → LsqEntry) : Cpu μ :=
  { s with sq := modifyLsq s.sq i f }

def Cpu.pushRte (s : Cpu μ) (h : Half) (i : Nat) : Cpu μ :=
  { s with rte := Function.update s.rte h ((s.rte h).push i) }

def Cpu.popRte (s : Cpu μ) (h : Half) : Cpu μ :=
  { s with rte := Function.update s.rte h (s.rte h).pop }

def Cpu.pushRtl (s : Cpu μ) (h : Half) (i : Nat) : Cpu μ :=
  { s with rtl := Function.update s.rtl h ((s.rtl h).push i) }

def Cpu.popRtl (s : Cpu μ) (h : Half) : Cpu μ :=
  { s with rtl := Function.update s.rtl h (s.rtl h).pop }

def Cpu.pushRts (s : Cpu μ) (h : Half) (i : Nat) : Cpu μ :=
  { s with rts := Function.update s.rts h ((s.rts h).push i) }

def Cpu.popRts (s : Cpu μ) (h : Half) : Cpu μ :=
  { s with rts := Function.update s.rts h (s.rts h).pop }

/-! ## Walking the ROB -/

/-- `hi, hi - 1, .., lo`. -/
def downFrom (hi lo : Nat) : List Nat := (List.range' lo (hi + 1 - lo)).reverse

/-- The slots that the dependency checks visit, from the entry before `robIndex` back to the head. -/
def priors (r : Lib.Ring OooModelInstr) (robIndex : Nat) : List Nat :=
  let prior := if robIndex = 0 then r.size - 1 else robIndex - 1
  if robIndex = r.head then []
  else if r.head ≤ prior then downFrom prior r.head
  else downFrom prior 0 ++ downFrom (r.size - 1) r.head

/-- The first of the two loops from the head to `limit`; the second one follows a wrap. -/
def upTo (r : Lib.Ring OooModelInstr) (limit : Nat) : List Nat :=
  if r.head < limit then List.range' r.head (limit - r.head)
  else List.range' r.head (r.size - r.head)

def wrapped (r : Lib.Ring OooModelInstr) (limit : Nat) : List Nat :=
  if r.head < limit then [] else List.range limit

/-- The test with which the stages leave an empty ROB alone. -/
def robEmpty (r : Lib.Ring OooModelInstr) : Prop := r.head = r.tail ∧ r.occupancy = 0

instance robEmpty.decidable (r : Lib.Ring OooModelInstr) : Decidable (robEmpty r) :=
  inferInstanceAs (Decidable (_ ∧ _))

/-! ## Scheduling -/

/-- Does `prior` write the register that source `j` of `current` reads? -/
def writesSource (c : Config) (prior current : OooModelInstr) (j : Nat) : Bool :=
  (List.range c.maxInstrDestinations).any fun i =>
    prior.destinationRegisters i != 0 &&
      prior.destinationRegisters i == current.sourceRegisters j

/-- The consumer at `current` is entered under its source `j`. -/
def recordConsumer (current j : Nat) (x : OooModelInstr) : OooModelInstr :=
  { x with
    registersInstrsDependOnMe := insert current x.registersInstrsDependOnMe
    registersIndexDependOnMe := Function.update x.registersIndexDependOnMe j
      (insert current (x.registersIndexDependOnMe j))
    regRawProducer := true }

def awaitProducer (id j : Nat) (x : OooModelInstr) : OooModelInstr :=
  { x with
    regReady := false
    producerId := id
    numRegDependent := x.numRegDependent + 1
    regRawChecked := Function.update x.regRawChecked j true }

def regRawDependency (c : Config) (prior current j : Nat) (r : Lib.Ring OooModelInstr) :
    Lib.Ring OooModelInstr :=
  if writesSource c (r.entry prior) (r.entry current) j then
    modify (modify r prior (recordConsumer current j)) current
      (awaitProducer (r.entry prior).instrId j)
  else r

/-- The inner loop, over the sources of the instruction at `current`. -/
def regDependencyOn (c : Config) (current : Nat) (r : Lib.Ring OooModelInstr) (prior : Nat) :
    Lib.Ring OooModelInstr :=
  if (r.entry prior).executed ≠ .completed then
    (List.range numInstrSources).foldl (fun r j =>
      if (r.entry current).sourceRegisters j ≠ 0 ∧ (r.entry current).regRawChecked j = false then
        regRawDependency c prior current j r
      else r) r
  else r

def regDependency (c : Config) (robIndex : Nat) (r : Lib.Ring OooModelInstr) :
    Lib.Ring OooModelInstr :=
  (priors r robIndex).foldl (regDependencyOn c robIndex) r

def addLatency (cycle latency : Nat) (x : OooModelInstr) : OooModelInstr :=
  { x with
    eventCycle :=
      if x.eventCycle < cycle then add64 cycle latency else add64 x.eventCycle latency }

/-- `rob_index` joins a ready list; the slot written must hold the mark. -/
def addReady (h : Half) (robIndex : Nat) (s : Cpu μ) : Option (Cpu μ) :=
  if (s.rte h).slot (s.rte h).tail < robSize then none else some (s.pushRte h robIndex)

def doScheduling (c : Config) (robIndex : Nat) (s : Cpu μ) : Option (Cpu μ) :=
  let rob := regDependency c robIndex (modify s.rob robIndex fun x => { x with regReady := true })
  let s := { s with
    rob := rob
    nextSchedule := if robIndex = s.rob.size - 1 then 0 else robIndex + 1 }
  if (rob.entry robIndex).isMemory then
    some (s.modifyRob robIndex fun x => { x with scheduled := .inflight })
  else
    let s := s.modifyRob robIndex fun x =>
      addLatency s.cycle c.schedulingLatency { x with scheduled := .completed }
    if (rob.entry robIndex).regReady then addReady .one robIndex s else some s

/-- After `numSearched` entries. -/
def scheduleLoop (c : Config) : List Nat → Nat → Cpu μ → Option (Cpu μ)
  | [], _, s => some s
  | i :: is, numSearched, s =>
    let x := s.rob.entry i
    if x.fetched ≠ .completed ∨ x.eventCycle > s.cycle ∨ numSearched ≥ schedulerSize then some s
    else if x.scheduled = .idle then (doScheduling c i s).bind (scheduleLoop c is (numSearched + 1))
    else scheduleLoop c is (numSearched + 1) s

/-- `ROB.next_fetch[1]`; nothing sets it. -/
def nextFetch : Nat := 0

def scheduleInstruction (c : Config) (s : Cpu μ) : Option (Cpu μ) :=
  if robEmpty s.rob then some s
  else scheduleLoop c (upTo s.rob nextFetch ++ wrapped s.rob nextFetch) 0 s

/-! ## Execution -/

def doExecution (c : Config) (robIndex : Nat) (s : Cpu μ) : Cpu μ :=
  { s.modifyRob robIndex fun x =>
      addLatency s.cycle c.execLatency { x with executed := .inflight } with
    inflightRegExecutions := add32 s.inflightRegExecutions 1 }

/-- `n` rounds are left, after `issued` issues. -/
def executeLoop (c : Config) (h : Half) : Nat → Nat → Cpu μ → Nat × Cpu μ
  | 0, issued, s => (issued, s)
  | n + 1, issued, s =>
    if issued < execWidth then
      let execIndex := (s.rte h).front
      if execIndex < robSize then
        if (s.rob.entry execIndex).eventCycle ≤ s.cycle then
          executeLoop c h n (issued + 1) ((doExecution c execIndex s).popRte h)
        else executeLoop c h n issued s
      else (issued, s)
    else (issued, s)

def executeInstruction (c : Config) (s : Cpu μ) : Cpu μ :=
  if robEmpty s.rob then s
  else
    let (issued, s) := executeLoop c .zero (robSize - 1) 0 s
    (executeLoop c .one (robSize - 1) issued s).2

/-! ## Completion -/

/-- The producer of source `j` of the instruction at `i` is done. -/
def releaseOne (i : Nat) (s : Cpu μ) : Option (Cpu μ) :=
  let s := s.modifyRob i fun x => { x with numRegDependent := x.numRegDependent - 1 }
  if (s.rob.entry i).numRegDependent = 0 then
    if (s.rob.entry i).isMemory then
      some (s.modifyRob i fun x => { x with regReady := true, scheduled := .inflight })
    else
      addReady .zero i (s.modifyRob i fun x => { x with regReady := true, scheduled := .completed })
  else some s

/-- The inner loop, over the sources `js`. -/
def releaseSources (robIndex i : Nat) : List Nat → Cpu μ → Option (Cpu μ)
  | [], s => some s
  | j :: js, s =>
    if i ∈ (s.rob.entry robIndex).registersIndexDependOnMe j then
      (releaseOne i s).bind (releaseSources robIndex i js)
    else releaseSources robIndex i js s

def releaseAll (robIndex : Nat) : List Nat → Cpu μ → Option (Cpu μ)
  | [], s => some s
  | i :: is, s =>
    (releaseSources robIndex i (List.range numInstrSources) s).bind (releaseAll robIndex is)

def regRawRelease (robIndex : Nat) (s : Cpu μ) : Option (Cpu μ) :=
  releaseAll robIndex (expand (s.rob.entry robIndex).registersInstrsDependOnMe robSize) s

/-- What both branches of `complete_execution` do once the counter has been lowered. -/
def finishExecution (robIndex : Nat) (s : Cpu μ) : Option (Cpu μ) :=
  let s := { s with completedExecutions := add64 s.completedExecutions 1 }
  let x := s.rob.entry robIndex
  (if x.regRawProducer then regRawRelease robIndex s else some s).map fun s =>
    if x.branchMispredicted then
      { s with fetchResumeCycle := add64 s.cycle branchMispredictPenalty }
    else s

def markExecuted (robIndex : Nat) (s : Cpu μ) : Cpu μ :=
  s.modifyRob robIndex fun x => { x with executed := .completed }

def completeExecution (robIndex : Nat) (s : Cpu μ) : Option (Cpu μ) :=
  let x := s.rob.entry robIndex
  if x.isMemory = false then
    if x.executed = .inflight ∧ x.eventCycle ≤ s.cycle then
      finishExecution robIndex { markExecuted robIndex s with
        inflightRegExecutions := sub32 s.inflightRegExecutions 1 }
    else some s
  else if x.numMemOps = 0 then
    if x.executed = .inflight ∧ x.eventCycle ≤ s.cycle then
      finishExecution robIndex { markExecuted robIndex s with
        inflightMemExecutions := sub32 s.inflightMemExecutions 1 }
    else some s
  else some s

end O3
end ChampSim
