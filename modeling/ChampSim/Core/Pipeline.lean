import ChampSim.Core.Instr
import ChampSim.Lib.Run

/-!
# ChampSim.Core.Pipeline

The in-order part of `O3_CPU` and the core's share of the main loop (`src/ooo_cpu.cc`,
`src/main.cc`): reading the trace, fetch, decode, dispatch and retirement.

* `State`             — the three rings, the trace cursor, the fetch stall and the retired ids.
* `CycleEnv`          — what a cycle meets outside: the clock, stalls, TLB and cache answers, branch
  predictions, and the marks that the out-of-order stages leave on the instructions in flight.
* `readFromTrace`, `fetchInstruction`, `decodeAndDispatch`, `retireRob` — the stages.
* `stages`, `cycle`   — one pass of the main loop over the core.

A failed assertion is `none`. The out-of-order stages between retirement and decode are a `Marking`:
they rewrite entries in place and keep their `instr_id` and `ip`.
-/

namespace ChampSim
namespace Core

open Lib

def fetchWidth : Nat := 6

def decodeWidth : Nat := 6

def retireWidth : Nat := 4

def robSize : Nat := 352

def logPageSize : Nat := 12

structure Config where
  knobCloudsuite : Bool
  cpu : Nat
  schedulingLatency : Nat
  decodeLatency : Nat

/-- `NUM_INSTR_DESTINATIONS_SPARC` or `NUM_INSTR_DESTINATIONS`. -/
def Config.maxInstrDestinations (c : Config) : Nat := if c.knobCloudsuite then 4 else 2

/-- A trace holds at least one record: `read_from_trace` starts over at its end. -/
structure Trace where
  records : List InputInstr
  nonempty : records ≠ []

structure Marking where
  mark : Nat → OooModelInstr → OooModelInstr
  key_mark : ∀ i x, (mark i x).key = x.key

def Marking.unmarked : Marking := ⟨fun _ x => x, fun _ _ => rfl⟩

structure CycleEnv where
  currentCoreCycle : Nat
  /-- `stall_cycle` lies in the future. -/
  stalled : Bool
  warmupComplete : Bool
  /-- `L1D.WQ.occupancy` at each round of `retire_rob`. -/
  wqOccupancy : Nat → Nat
  wqSize : Nat
  ifetchMarks : Marking
  robMarks : Marking
  /-- The value that `complete_execution` stores, if it stores one. -/
  fetchResume : Option Nat
  /-- Whether `ITLB.add_rq` and `L1I.add_rq` take the request of round `i`. -/
  itlbAccepts : Nat → Bool
  l1iAccepts : Nat → Bool
  vaToPa : OooModelInstr → Nat
  predictBranch : OooModelInstr → UInt8

structure State where
  ifetchBuffer : Lib.Ring OooModelInstr
  decodeBuffer : Lib.Ring OooModelInstr
  rob : Lib.Ring OooModelInstr
  instrUniqueId : Nat
  /-- The record that the next `fread` reads. -/
  filePos : Nat
  nextInstr : InputInstr
  fetchStall : Bool
  fetchResumeCycle : Nat
  /-- The ids passed to `handle_retire`, oldest first. -/
  retired : List Nat

def State.init : State where
  ifetchBuffer := ⟨fetchWidth * 2, 0, 0, 0, fun _ => .empty⟩
  decodeBuffer := ⟨decodeWidth * 3, 0, 0, 0, fun _ => .empty⟩
  rob := ⟨robSize, 0, 0, 0, fun _ => .empty⟩
  instrUniqueId := 0
  filePos := 0
  nextInstr := .empty
  fetchStall := false
  fetchResumeCycle := 0
  retired := []

/-! ## Entering a ring -/

/-- Rewrite the entry at `i`. -/
def modify (r : Lib.Ring OooModelInstr) (i : Nat) (f : OooModelInstr → OooModelInstr) :
    Lib.Ring OooModelInstr :=
  { r with entry := Function.update r.entry i (f (r.entry i)) }

def setEventCycle (cycle : Nat) (x : OooModelInstr) : OooModelInstr := { x with eventCycle := cycle }

/-- The common part of the three: the 'is not empty index' check, then a write at the tail. -/
def addToRing (r : Lib.Ring OooModelInstr) (x : OooModelInstr) : Option (Lib.Ring OooModelInstr) :=
  if (r.entry r.tail).instrId ≠ 0 then none else some (r.push x)

def addToRob (env : CycleEnv) (r : Lib.Ring OooModelInstr) (x : OooModelInstr) :
    Option (Lib.Ring OooModelInstr) :=
  (addToRing r (setEventCycle env.currentCoreCycle x)).bind fun r' =>
    if x.ip = 0 then none else some r'

/-- The instruction is marked translated at once, with the address `va_to_pa` gives. -/
def ifetchEntry (env : CycleEnv) (x : OooModelInstr) : OooModelInstr :=
  { x with
    eventCycle := env.currentCoreCycle
    instructionPa :=
      env.vaToPa x / 2 ^ logPageSize * 2 ^ logPageSize + x.ip % 2 ^ logPageSize
    translated := .completed
    fetched := .idle }

def addToIfetchBuffer (env : CycleEnv) (r : Lib.Ring OooModelInstr) (x : OooModelInstr) :
    Option (Lib.Ring OooModelInstr) :=
  addToRing r (ifetchEntry env x)

def addToDecodeBuffer (env : CycleEnv) (r : Lib.Ring OooModelInstr) (x : OooModelInstr) :
    Option (Lib.Ring OooModelInstr) :=
  addToRing r (setEventCycle env.currentCoreCycle x)

/-! ## Reading the trace -/

/-- One successful `fread` and the copy into an instruction; `none` at the end of the file. -/
def readRecord (c : Config) (t : Trace) (s : State) : Option (OooModelInstr × State) :=
  t.records[s.filePos]?.map fun r =>
    if c.knobCloudsuite then
      (ofCloudsuite c.maxInstrDestinations s.instrUniqueId r, { s with filePos := s.filePos + 1 })
    else
      let current := if s.instrUniqueId = 0 then r else s.nextInstr
      (ofStandard c.maxInstrDestinations c.cpu s.instrUniqueId current r,
        { s with filePos := s.filePos + 1, nextInstr := r })

/-- The branch prediction for the entry at `index`: the new `instrs_to_read_this_cycle`, and the
state. -/
def predict (env : CycleEnv) (index instrsToRead : Nat) (s : State) : Nat × State :=
  let x := s.ifetchBuffer.entry index
  if x.isBranch = 0 then (instrsToRead, s)
  else if x.branchTaken ≠ env.predictBranch x then
    if env.warmupComplete then
      (0, { s with
        fetchStall := true
        ifetchBuffer := modify s.ifetchBuffer index fun x => { x with branchMispredicted := true } })
    else (instrsToRead, s)
  else if env.predictBranch x = 1 then (0, s)
  else (instrsToRead, s)

/-- The reading loop. Running out of `fuel` is `none`. -/
def readLoop (c : Config) (t : Trace) (env : CycleEnv) : Nat → Nat → Nat → State → Option State
  | 0, _, _, _ => none
  | fuel + 1, numReads, instrsToRead, s =>
    match readRecord c t s with
    | none => readLoop c t env fuel numReads instrsToRead { s with filePos := 0 }
    | some (x, s) =>
      if s.ifetchBuffer.occupancy < s.ifetchBuffer.size then
        (addToIfetchBuffer env s.ifetchBuffer x).bind fun r =>
          let (instrsToRead, s') :=
            predict env s.ifetchBuffer.tail instrsToRead { s with ifetchBuffer := r }
          let s' := { s' with instrUniqueId := add64 s'.instrUniqueId 1 }
          if numReads + 1 ≥ instrsToRead ∨ s'.ifetchBuffer.occupancy = s'.ifetchBuffer.size then
            some s'
          else readLoop c t env fuel (numReads + 1) instrsToRead s'
      else
        readLoop c t env fuel numReads instrsToRead
          { s with instrUniqueId := add64 s.instrUniqueId 1 }

/-- Each read takes at most two rounds, one of them at the end of the file. -/
def readFromTrace (c : Config) (t : Trace) (env : CycleEnv) (s : State) : Option State :=
  readLoop c t env (2 * fetchWidth) 0 fetchWidth s

/-! ## Fetch -/

/-- An accepted ITLB request covers every untranslated entry of the page. -/
def requestTranslation (env : CycleEnv) (i index : Nat) (r : Lib.Ring OooModelInstr) :
    Lib.Ring OooModelInstr :=
  if (r.entry index).translated = .idle ∧ env.itlbAccepts i then
    { r with
      entry := fun j =>
        let x := r.entry j
        if x.ip / 2 ^ logPageSize = (r.entry index).ip / 2 ^ logPageSize ∧ x.translated = .idle then
          { x with translated := .inflight, fetched := .idle }
        else x }
  else r

/-- An accepted L1I request covers every entry of the cache line. -/
def requestLine (env : CycleEnv) (i index : Nat) (r : Lib.Ring OooModelInstr) : Lib.Ring OooModelInstr :=
  if (r.entry index).translated = .completed ∧ (r.entry index).fetched = .idle ∧
      env.l1iAccepts i then
    { r with
      entry := fun j =>
        let x := r.entry j
        if x.ip / 64 = (r.entry index).ip / 64 then
          { x with translated := .completed, fetched := .inflight }
        else x }
  else r

/-- `k` rounds of the scan are left. -/
def requestLoop (env : CycleEnv) : Nat → Nat → Lib.Ring OooModelInstr → Lib.Ring OooModelInstr
  | 0, _, r => r
  | k + 1, index, r =>
    if (r.entry index).ip = 0 then r
    else
      let i := r.size - (k + 1)
      let r := requestLine env i index (requestTranslation env i index r)
      let index := Ring.next r.size index
      if index = r.head then r else requestLoop env k index r

/-- `n` rounds of the loop that sends fetched instructions to the decode stage are left. -/
def sendToDecode (env : CycleEnv) : Nat → State → Option State
  | 0, s => some s
  | n + 1, s =>
    let x := s.ifetchBuffer.entry s.ifetchBuffer.head
    if x.ip = 0 then some s
    else if x.translated = .completed ∧ x.fetched = .completed then
      if s.decodeBuffer.occupancy < s.decodeBuffer.size then
        (addToDecodeBuffer env s.decodeBuffer x).bind fun r =>
          sendToDecode env n { s with
            decodeBuffer := modify r s.decodeBuffer.tail (setEventCycle 0)
            ifetchBuffer := s.ifetchBuffer.pop .empty }
      else some s
    else sendToDecode env n s

/-- Fetching goes on once the penalty of the mispredicted branch has passed. -/
def resumeFetch (env : CycleEnv) (s : State) : State :=
  if s.fetchStall ∧ env.currentCoreCycle ≥ s.fetchResumeCycle ∧ s.fetchResumeCycle ≠ 0 then
    { s with fetchStall := false, fetchResumeCycle := 0 }
  else s

def fetchInstruction (env : CycleEnv) (s : State) : Option State :=
  let s := resumeFetch env s
  if s.ifetchBuffer.occupancy = 0 then some s
  else
    sendToDecode env decodeWidth { s with
      ifetchBuffer := requestLoop env s.ifetchBuffer.size s.ifetchBuffer.head s.ifetchBuffer }

/-! ## Decode and dispatch -/

/-- `k` rounds of the loop are left, after `count` dispatches. -/
def dispatchLoop (env : CycleEnv) : Nat → Nat → State → Option State
  | 0, _, s => some s
  | k + 1, count, s =>
    let x := s.decodeBuffer.entry s.decodeBuffer.head
    if x.ip = 0 then some s
    else if (¬ env.warmupComplete ∧ s.rob.occupancy < s.rob.size) ∨
        (x.eventCycle ≠ 0 ∧ x.eventCycle < env.currentCoreCycle ∧ s.rob.occupancy < s.rob.size) then
      (addToRob env s.rob x).bind fun r =>
        let s' := { s with
          rob := modify r s.rob.tail (setEventCycle env.currentCoreCycle)
          decodeBuffer := s.decodeBuffer.pop .empty }
        if count + 1 ≥ decodeWidth then some s' else dispatchLoop env k (count + 1) s'
    else some s

/-- The loop that applies the decode latency: `k` rounds are left, after `count` decodes. -/
def decodeLoop (c : Config) (env : CycleEnv) :
    Nat → Nat → Nat → Lib.Ring OooModelInstr → Lib.Ring OooModelInstr
  | 0, _, _, r => r
  | k + 1, count, index, r =>
    if (r.entry r.head).ip = 0 then r
    else
      let fresh := (r.entry index).eventCycle = 0
      let r :=
        if fresh then modify r index (setEventCycle (add64 env.currentCoreCycle c.decodeLatency))
        else r
      let count := if fresh then count + 1 else count
      if index = r.tail then r
      else if count ≥ decodeWidth then r
      else decodeLoop c env k count (Ring.next r.size index) r

def decodeAndDispatch (c : Config) (env : CycleEnv) (s : State) : Option State :=
  (dispatchLoop env s.decodeBuffer.size 0 s).map fun s =>
    { s with
      decodeBuffer := decodeLoop c env s.decodeBuffer.size 0 s.decodeBuffer.head s.decodeBuffer }

/-! ## Retirement -/

/-- `n` rounds are left. -/
def retireLoop (c : Config) (env : CycleEnv) : Nat → State → State
  | 0, s => s
  | n + 1, s =>
    let x := s.rob.entry s.rob.head
    if x.ip = 0 then s
    else if x.executed ≠ .completed then s
    else
      let numStore :=
        ((List.range c.maxInstrDestinations).filter fun i => x.destinationMemory i ≠ 0).length
      if numStore ≠ 0 ∧ ¬ env.wqOccupancy (retireWidth - (n + 1)) + numStore ≤ env.wqSize then s
      else
        retireLoop c env n { s with
          rob := s.rob.pop .empty
          retired := s.retired ++ [x.instrId] }

def retireRob (c : Config) (env : CycleEnv) (s : State) : State := retireLoop c env retireWidth s

/-! ## A cycle -/

def Marking.apply (m : Marking) (r : Lib.Ring OooModelInstr) : Lib.Ring OooModelInstr :=
  { r with entry := fun i => m.mark i (r.entry i) }

/-- `update_rob`, scheduling, execution and the memory operations, as the rings see them. -/
def outOfOrder (env : CycleEnv) (s : State) : State :=
  { s with
    ifetchBuffer := env.ifetchMarks.apply s.ifetchBuffer
    rob := env.robMarks.apply s.rob
    fetchResumeCycle := env.fetchResume.getD s.fetchResumeCycle }

/-- The stages, with their guards in the main loop. -/
inductive Stage where
  | retire
  | outOfOrder
  | decode
  | fetch
  | read
deriving DecidableEq, Repr

def Stage.perform (c : Config) (t : Trace) (env : CycleEnv) (s : State) : Stage → Option State
  | .retire =>
    let x := s.rob.entry s.rob.head
    some (if x.executed = .completed ∧ x.eventCycle ≤ env.currentCoreCycle then retireRob c env s
      else s)
  | .outOfOrder => some (Core.outOfOrder env s)
  | .decode => if s.decodeBuffer.occupancy > 0 then decodeAndDispatch c env s else some s
  | .fetch => fetchInstruction env s
  | .read =>
    if s.ifetchBuffer.occupancy < s.ifetchBuffer.size ∧ ¬ s.fetchStall then readFromTrace c t env s
    else some s

def stages : List Stage := [.retire, .outOfOrder, .decode, .fetch, .read]

def cycle (c : Config) (t : Trace) (s : State) (env : CycleEnv) : Option State :=
  if env.stalled then some s else run (Stage.perform c t env) s stages

end Core
end ChampSim
