import ChampSim.O3.Lsq
import ChampSim.Lib.Run

/-!
# ChampSim.O3.Cycle

The main loop over a core (`src/main.cc`), with the stages that join the in-order part of
`Core.Pipeline` to the queues.

* `readFromTrace`    — `Core.readLoop` with the `STA` update.
* `fetchInstruction` — with the ITLB and the L1I behind `Memory`.
* `retireRob`        — with the `L1D` writes and the release of the store queue.
* `updateRob`        — the four answers and the completion scan.
* `phases`, `cycle`  — one pass of the main loop.
-/

namespace ChampSim
namespace O3

open Lib ChampSim.Core

variable {μ : Type}

/-! ## Reading the trace -/

/-- The stages of `Core.Pipeline` that are used as they are ask for the clock and the predictor. -/
def Env.front (env : Env) (cycle : Nat) : CycleEnv where
  currentCoreCycle := cycle
  stalled := env.stalled
  warmupComplete := env.warmupComplete
  wqOccupancy := fun _ => 0
  wqSize := 0
  ifetchMarks := .unmarked
  robMarks := .unmarked
  fetchResume := none
  itlbAccepts := fun _ => false
  l1iAccepts := fun _ => false
  vaToPa := env.vaToPa
  predictBranch := env.predictBranch

/-- The destinations `i` with a store. -/
def storeIndices (c : Config) (x : OooModelInstr) : List Nat :=
  (List.range c.maxInstrDestinations).filter fun i => x.destinationMemory i ≠ 0

/-- The `STA` update for `n` stores. The check passes whenever head and tail agree. -/
def updateSta (id : Nat) : Nat → Feed → Option Feed
  | 0, sta => some sta
  | n + 1, sta =>
    if sta.slot sta.tail < u64Max ∧ sta.head ≠ sta.tail then none
    else updateSta id n (sta.push id)

/-- The instruction `x` of the record just read is predicted once it stands in `r`, at the old tail:
the new `instrs_to_read_this_cycle`, and the state. -/
def entered (env : Env) (instrsToRead : Nat) (r : Lib.Ring OooModelInstr) (s : Cpu μ) :
    Nat × Cpu μ :=
  let (instrsToRead, front) :=
    predict (env.front s.cycle) s.ifetchBuffer.tail instrsToRead { s.toState with ifetchBuffer := r }
  (instrsToRead, { s with
    toState := { front with instrUniqueId := add64 front.instrUniqueId 1 } })

/-- `Core.readLoop` with the `STA` update. -/
def readLoop (c : Config) (t : Trace) (env : Env) : Nat → Nat → Nat → Cpu μ → Option (Cpu μ)
  | 0, _, _, _ => none
  | fuel + 1, numReads, instrsToRead, s =>
    match readRecord c.toConfig t s.toState with
    | none => readLoop c t env fuel numReads instrsToRead { s with filePos := 0 }
    | some (x, front) =>
      (updateSta x.instrId (storeIndices c x).length s.sta).bind fun sta =>
        let s := { s with toState := front, sta := sta }
        if s.ifetchBuffer.occupancy < s.ifetchBuffer.size then
          (addToIfetchBuffer (env.front s.cycle) s.ifetchBuffer x).bind fun r =>
            let (instrsToRead, s) := entered env instrsToRead r s
            if numReads + 1 ≥ instrsToRead ∨ s.ifetchBuffer.occupancy = s.ifetchBuffer.size then
              some s
            else readLoop c t env fuel (numReads + 1) instrsToRead s
        else
          readLoop c t env fuel numReads instrsToRead
            { s with instrUniqueId := add64 s.instrUniqueId 1 }

def readFromTrace (c : Config) (t : Trace) (env : Env) (s : Cpu μ) : Option (Cpu μ) :=
  readLoop c t env (2 * fetchWidth) 0 fetchWidth s

/-! ## Fetch -/

def requestTranslation (M : Memory μ) (c : Config) (i index : Nat) (s : Cpu μ) : Option (Cpu μ) :=
  let ip := (s.ifetchBuffer.entry index).ip
  if (s.ifetchBuffer.entry index).translated = .idle then
    (M.addRq .itlb s.cycle (fetchTranslation c.numCpus c.cpu ip i s.cycle) s.mem).map
      fun (accepted, mem) =>
        let s := { s with mem := mem }
        if accepted then
          { s with ifetchBuffer := { s.ifetchBuffer with
              entry := fun j =>
                let x := s.ifetchBuffer.entry j
                if x.ip / 2 ^ logPageSize = ip / 2 ^ logPageSize ∧ x.translated = .idle then
                  { x with translated := .inflight, fetched := .idle }
                else x } }
        else s
  else some s

def requestLine (M : Memory μ) (c : Config) (index : Nat) (s : Cpu μ) : Option (Cpu μ) :=
  let x := s.ifetchBuffer.entry index
  if x.translated = .completed ∧ x.fetched = .idle then
    (M.addRq .l1i s.cycle (fetchLine c.numCpus c.cpu x.ip x.instructionPa s.cycle) s.mem).map
      fun (accepted, mem) =>
        let s := { s with mem := mem }
        if accepted then
          { s with ifetchBuffer := { s.ifetchBuffer with
              entry := fun j =>
                let y := s.ifetchBuffer.entry j
                if y.ip / 64 = x.ip / 64 then
                  { y with translated := .completed, fetched := .inflight }
                else y } }
        else s
  else some s

/-- `k` rounds of the scan are left. -/
def requestLoop (M : Memory μ) (c : Config) : Nat → Nat → Cpu μ → Option (Cpu μ)
  | 0, _, s => some s
  | k + 1, index, s =>
    if (s.ifetchBuffer.entry index).ip = 0 then some s
    else
      (requestTranslation M c (s.ifetchBuffer.size - (k + 1)) index s).bind fun s =>
        (requestLine M c index s).bind fun s =>
          let index := Ring.next s.ifetchBuffer.size index
          if index = s.ifetchBuffer.head then some s else requestLoop M c k index s

/-- The part of a stage that works on the rings alone. -/
def onFront (f : State → Option State) (s : Cpu μ) : Option (Cpu μ) :=
  (f s.toState).map fun front => { s with toState := front }

def fetchInstruction (M : Memory μ) (c : Config) (env : Env) (s : Cpu μ) : Option (Cpu μ) :=
  let s := { s with toState := resumeFetch (env.front s.cycle) s.toState }
  if s.ifetchBuffer.occupancy = 0 then some s
  else
    (requestLoop M c s.ifetchBuffer.size s.ifetchBuffer.head s).bind
      (onFront (sendToDecode (env.front s.cycle) decodeWidth))

/-! ## Completion -/

/-- From the ITLB: every entry of the page is translated. -/
def completeInstrTranslation (p : Packet) (r : Lib.Ring OooModelInstr) : Lib.Ring OooModelInstr :=
  { r with
    entry := fun j =>
      let x := r.entry j
      if x.ip / 2 ^ logPageSize = p.ip / 2 ^ logPageSize then
        { x with
          translated := .completed
          fetched := .idle
          instructionPa := pageOffset p.instructionPa x.ip }
      else x }

/-- From the L1I: every entry of the line is fetched. -/
def completeInstrLine (p : Packet) (r : Lib.Ring OooModelInstr) : Lib.Ring OooModelInstr :=
  { r with
    entry := fun j =>
      let x := r.entry j
      if x.ip / 64 = p.ip / 64 then { x with translated := .completed, fetched := .completed }
      else x }

def completeInstrFetch (M : Memory μ) (server : Server) (p : Packet) (s : Cpu μ) :
    Option (Cpu μ) :=
  (M.removeProcessed server s.mem).map fun mem =>
    { s with
      mem := mem
      ifetchBuffer :=
        if server = .itlb then completeInstrTranslation p s.ifetchBuffer
        else completeInstrLine p s.ifetchBuffer }

/-- One of the four tests at the start of `update_rob`. -/
def answer (M : Memory μ) (s : Cpu μ) (server : Server) : Option (Cpu μ) :=
  match M.processed server s.cycle s.mem with
  | none => some s
  | some p =>
    if server = .itlb ∨ server = .l1i then completeInstrFetch M server p s
    else completeDataFetch M server p s

def completeAll : List Nat → Cpu μ → Option (Cpu μ)
  | [], s => some s
  | i :: is, s => (completeExecution i s).bind (completeAll is)

def servers : List Server := [.itlb, .l1i, .dtlb, .l1d]

def updateRob (M : Memory μ) (s : Cpu μ) : Option (Cpu μ) :=
  (run (answer M) s servers).bind fun s =>
    if s.inflightRegExecutions > 0 ∨ s.inflightMemExecutions > 0 then
      completeAll (upTo s.rob s.rob.tail ++ wrapped s.rob s.rob.tail) s
    else some s

/-! ## Retirement -/

/-- The stores of a retiring instruction are written to the L1D. -/
def writeStores (M : Memory μ) (c : Config) (x : OooModelInstr) : List Nat → Cpu μ → Option (Cpu μ)
  | [], s => some s
  | i :: is, s =>
    let sqIndex := x.sqIndex i
    (M.addWq s.cycle (storeData c.numCpus c.cpu s.cycle sqIndex (s.sq.entry sqIndex)) s.mem).bind
      fun mem => writeStores M c x is { s with mem := mem }

/-- The entry named by `sqIndex` is cleared and the head steps, whatever it is. -/
def releaseStore (sqIndex : Nat) (r : Lib.Ring LsqEntry) : Lib.Ring LsqEntry :=
  { modifyLsq r sqIndex fun _ => LsqEntry.empty with
    occupancy := r.occupancy - 1
    head := Ring.next r.size r.head }

def releaseStores (c : Config) (x : OooModelInstr) (r : Lib.Ring LsqEntry) : Lib.Ring LsqEntry :=
  (List.range c.maxInstrDestinations).foldl (fun r i =>
    if x.sqIndex i ≠ uint32Max then releaseStore (x.sqIndex i) r else r) r

/-- The head leaves the ROB. -/
def releaseHead (c : Config) (s : Cpu μ) : Cpu μ :=
  let x := s.rob.entry s.rob.head
  { s with
    sq := releaseStores c x s.sq
    rob := s.rob.pop .empty
    retired := s.retired ++ [x.instrId]
    completedExecutions := sub64 s.completedExecutions 1 }

/-- `n` rounds are left. -/
def retireLoop (M : Memory μ) (c : Config) : Nat → Cpu μ → Option (Cpu μ)
  | 0, s => some s
  | n + 1, s =>
    let x := s.rob.entry s.rob.head
    if x.ip = 0 then some s
    else if x.executed ≠ .completed then some s
    else
      let stores := storeIndices c x
      if stores.length ≠ 0 ∧ ¬ M.wqOccupancy s.mem + stores.length ≤ M.wqSize then some s
      else
        (writeStores M c x stores s).bind fun s => retireLoop M c n (releaseHead c s)

def retireRob (M : Memory μ) (c : Config) (s : Cpu μ) : Option (Cpu μ) :=
  retireLoop M c retireWidth s

/-! ## A cycle -/

/-- The calls that the main loop makes on a core, with their guards. -/
inductive Phase where
  | retire
  | update
  | schedule
  | execute
  | scheduleMemory
  | executeMemory
  | decode
  | fetch
  | read
deriving DecidableEq, Repr

def executeMemoryInstruction (M : Memory μ) (c : Config) (s : Cpu μ) : Option (Cpu μ) :=
  (operateLsq M c s).bind fun s => (M.operate s.cycle s.mem).map fun mem => { s with mem := mem }

def Phase.perform (M : Memory μ) (c : Config) (t : Trace) (env : Env) (s : Cpu μ) :
    Phase → Option (Cpu μ)
  | .retire =>
    let x := s.rob.entry s.rob.head
    if x.executed = .completed ∧ x.eventCycle ≤ s.cycle then retireRob M c s else some s
  | .update => updateRob M s
  | .schedule =>
    let x := s.rob.entry s.nextSchedule
    if x.scheduled = .idle ∧ x.eventCycle ≤ s.cycle then scheduleInstruction c s else some s
  | .execute => some (executeInstruction c s)
  | .scheduleMemory => scheduleMemoryInstruction c s
  | .executeMemory => executeMemoryInstruction M c s
  | .decode =>
    if s.decodeBuffer.occupancy > 0 then
      onFront (decodeAndDispatch (c.decode env) (env.front s.cycle)) s
    else some s
  | .fetch => fetchInstruction M c env s
  | .read =>
    if s.ifetchBuffer.occupancy < s.ifetchBuffer.size ∧ ¬ s.fetchStall then
      readFromTrace c t env s
    else some s

def phases : List Phase :=
  [.retire, .update, .schedule, .execute, .update, .scheduleMemory, .executeMemory, .update,
    .decode, .fetch, .read]

def Cpu.tick (s : Cpu μ) : Cpu μ := { s with cycle := add64 s.cycle 1 }

/-- `NUM_CPUS` cores take turns; the lower levels work between the cycles of a core. -/
structure Turn (μ : Type) extends Env where
  outside : μ → Option μ

def cycle (M : Memory μ) (c : Config) (t : Trace) (s : Cpu μ) (turn : Turn μ) : Option (Cpu μ) :=
  (turn.outside s.mem).bind fun mem =>
    let s := Cpu.tick { s with mem := mem }
    if turn.stalled then some s else run (Phase.perform M c t turn.toEnv) s phases

end O3
end ChampSim
