import ChampSim.O3.Model

/-!
# ChampSim.O3.Lsq

The load and store queues of `O3_CPU` (`src/ooo_cpu.cc`).

* `addLoadQueue`, `addStoreQueue`  — a memory operand enters its queue.
* `checkAndAddLsq`, `scheduleMemoryInstruction` — the operands of the scheduled instructions.
* `executeStore`                   — a translated store, and the loads that wait for it.
* `operateLsq`                     — the four loops over the ready lists.
* `completeDataFetch`              — an answer of the DTLB or the L1D.
* `finishMemOp`                    — the count of an instruction's open operands, lowered with the
  same test in all five places.
-/

namespace ChampSim
namespace O3

open Lib ChampSim.Core

variable {μ : Type}

/-! ## Entering the queues -/

/-- `num_mem_ops--`, the assertion and the zero test. -/
def finishMemOp (robIndex cycle : Nat) (s : Cpu μ) : Option (Cpu μ) :=
  let s := s.modifyRob robIndex fun x =>
    { x with numMemOps := x.numMemOps - 1, eventCycle := cycle }
  if (s.rob.entry robIndex).numMemOps < 0 then none
  else if (s.rob.entry robIndex).numMemOps = 0 then
    some { s with inflightMemExecutions := add32 s.inflightMemExecutions 1 }
  else some s

def releaseLoadQueue (lqIndex : Nat) (s : Cpu μ) : Cpu μ :=
  { s with
    lq := { modifyLsq s.lq lqIndex fun _ => LsqEntry.empty with occupancy := s.lq.occupancy - 1 } }

/-- Does `prior` store to the address `a`? -/
def storesTo (c : Config) (prior : OooModelInstr) (a : Nat) : Bool :=
  (List.range c.maxInstrDestinations).any fun i =>
    prior.destinationMemory i != 0 && prior.destinationMemory i == a

def memRawDependency (c : Config) (prior current dataIndex lqIndex : Nat) (s : Cpu μ) : Cpu μ :=
  if storesTo c (s.rob.entry prior) ((s.rob.entry current).sourceMemory dataIndex) then
    (s.modifyRob prior fun x =>
        { x with
          memoryInstrsDependOnMe := insert current x.memoryInstrsDependOnMe
          isProducer := true }).modifyLq lqIndex fun e =>
      { e with producerId := (s.rob.entry prior).instrId, translated := .inflight }
  else s

/-- The loops stop at the first producer found. -/
def findProducer (c : Config) (robIndex dataIndex lqIndex : Nat) (s : Cpu μ) : Cpu μ :=
  (priors s.rob robIndex).foldl (fun s i =>
    if (s.lq.entry lqIndex).producerId ≠ u64Max then s
    else memRawDependency c i robIndex dataIndex lqIndex s) s

/-- The search for the store to forward from. A later store to the same address resets the load. -/
def forwardLoop (robIndex lqIndex : Nat) : List Nat → Cpu μ → Option Nat × Cpu μ
  | [], s => (none, s)
  | i :: is, s =>
    let l := s.lq.entry lqIndex
    let e := s.sq.entry i
    if e.virtualAddress ≠ 0 ∧ e.virtualAddress = l.virtualAddress then
      if robIndex ≠ s.rob.head ∧ l.producerId = e.instrId then (some i, s)
      else if l.producerId = u64Max ∧ l.instrId ≤ e.instrId then
        forwardLoop robIndex lqIndex is
          (s.modifyLq lqIndex fun l =>
            { l with physicalAddress := 0, translated := .idle, fetched := .idle })
      else forwardLoop robIndex lqIndex is s
    else forwardLoop robIndex lqIndex is s

/-- The block of one address with the offset of the other. -/
def blockOffset (page offset : Nat) : Nat := page / 2 ^ 6 * 2 ^ 6 ||| offset % 2 ^ 6

/-- The store at `sqIndex` gives its data to the load. -/
def forwardFrom (lqIndex sqIndex : Nat) (s : Cpu μ) : Option (Cpu μ) :=
  let e := s.sq.entry sqIndex
  if e.fetched = .completed ∧ e.eventCycle ≤ s.cycle then
    let s := s.modifyLq lqIndex fun l =>
      { l with
        physicalAddress := blockOffset e.physicalAddress l.virtualAddress
        translated := .completed
        fetched := .completed }
    (finishMemOp (s.lq.entry lqIndex).robIndex s.cycle s).map (releaseLoadQueue lqIndex)
  else some s

/-- The entry that `add_load_queue` writes into the slot it found. -/
def loadEntry (c : Config) (robIndex dataIndex cycle : Nat) (x : OooModelInstr) (e : LsqEntry) :
    LsqEntry :=
  { e with
    instrId := x.instrId
    virtualAddress := x.sourceMemory dataIndex
    ip := x.ip
    dataIndex := dataIndex
    robIndex := robIndex
    asid := (x.asid 1).toNat
    eventCycle := add64 cycle c.schedulingLatency }

/-- The load takes the slot `lqIndex`. -/
def enterLoad (c : Config) (robIndex dataIndex lqIndex : Nat) (s : Cpu μ) : Cpu μ :=
  { s.modifyRob robIndex fun x =>
      { x with lqIndex := Function.update x.lqIndex dataIndex lqIndex } with
    lq := { modifyLsq s.lq lqIndex (loadEntry c robIndex dataIndex s.cycle (s.rob.entry robIndex)) with
      occupancy := s.lq.occupancy + 1 } }

/-- The last part of `add_load_queue`: a load without a producer goes to `RTL0`. -/
def loadAdded (robIndex dataIndex lqIndex : Nat) (s : Cpu μ) : Cpu μ :=
  let s := s.modifyRob robIndex fun x =>
    { x with sourceAdded := Function.update x.sourceAdded dataIndex true }
  let l := s.lq.entry lqIndex
  if l.virtualAddress ≠ 0 ∧ l.producerId = u64Max then s.pushRtl .zero lqIndex else s

def addLoadQueue (c : Config) (robIndex dataIndex : Nat) (s : Cpu μ) : Option (Cpu μ) :=
  (PacketQueue.findFrom (fun i => (s.lq.entry i).virtualAddress == 0) 0 s.lq.size).bind
    fun lqIndex =>
      let s := findProducer c robIndex dataIndex lqIndex (enterLoad c robIndex dataIndex lqIndex s)
      let (forwardingIndex, s) := forwardLoop robIndex lqIndex (List.range s.sq.size) s
      (match forwardingIndex with
        | some sqIndex => forwardFrom lqIndex sqIndex s
        | none => some s).map (loadAdded robIndex dataIndex lqIndex)

def storeEntry (c : Config) (robIndex dataIndex cycle : Nat) (x : OooModelInstr) (e : LsqEntry) :
    LsqEntry :=
  { e with
    instrId := x.instrId
    virtualAddress := x.destinationMemory dataIndex
    ip := x.ip
    dataIndex := dataIndex
    robIndex := robIndex
    asid := (x.asid 1).toNat
    eventCycle := add64 cycle c.schedulingLatency }

def addStoreQueue (c : Config) (robIndex dataIndex : Nat) (s : Cpu μ) : Option (Cpu μ) :=
  let sqIndex := s.sq.tail
  if (s.sq.entry sqIndex).virtualAddress ≠ 0 then none
  else
    let s := { s.modifyRob robIndex fun x =>
        { x with
          sqIndex := Function.update x.sqIndex dataIndex sqIndex
          destinationAdded := Function.update x.destinationAdded dataIndex true } with
      sq := s.sq.push (storeEntry c robIndex dataIndex s.cycle (s.rob.entry robIndex)
        (s.sq.entry sqIndex))
      sta := s.sta.pop }
    some (s.pushRts .zero sqIndex)

/-! ## Scheduling memory instructions -/

/-- The number of operands that were not added, and the state. -/
def addLoads (c : Config) (robIndex : Nat) : List Nat → Nat → Cpu μ → Option (Nat × Cpu μ)
  | [], missing, s => some (missing, s)
  | i :: is, missing, s =>
    let x := s.rob.entry robIndex
    if x.sourceMemory i = 0 ∨ x.sourceAdded i then addLoads c robIndex is missing s
    else if s.lq.occupancy < s.lq.size then
      (addLoadQueue c robIndex i s).bind (addLoads c robIndex is missing)
    else addLoads c robIndex is (missing + 1) s

def addStores (c : Config) (robIndex : Nat) : List Nat → Nat → Cpu μ → Option (Nat × Cpu μ)
  | [], missing, s => some (missing, s)
  | i :: is, missing, s =>
    let x := s.rob.entry robIndex
    if x.destinationMemory i = 0 ∨ x.destinationAdded i then addStores c robIndex is missing s
    else if s.sq.occupancy < s.sq.size ∧ s.sta.front = x.instrId then
      (addStoreQueue c robIndex i s).bind (addStores c robIndex is missing)
    else addStores c robIndex is (missing + 1) s

def checkAndAddLsq (c : Config) (robIndex : Nat) (s : Cpu μ) : Option (Nat × Cpu μ) :=
  (addLoads c robIndex (List.range numInstrSources) 0 s).bind fun (missing, s) =>
    addStores c robIndex (List.range c.maxInstrDestinations) missing s

/-- All operands are in the queues. -/
def memoryScheduled (robIndex : Nat) (s : Cpu μ) : Cpu μ :=
  s.modifyRob robIndex fun x =>
    { x with
      scheduled := .completed
      executed := if x.executed = .idle then .inflight else x.executed }

def doMemoryScheduling (c : Config) (robIndex : Nat) (s : Cpu μ) : Option (Cpu μ) :=
  (checkAndAddLsq c robIndex s).map fun (notAvailable, s) =>
    if notAvailable = 0 then memoryScheduled robIndex s else s

/-- One of the two loops. `numSearched` goes on from the first to the second. -/
def memoryLoop (c : Config) : List Nat → Nat → Cpu μ → Option (Nat × Cpu μ)
  | [], numSearched, s => some (numSearched, s)
  | i :: is, numSearched, s =>
    let x := s.rob.entry i
    if x.isMemory = false then memoryLoop c is numSearched s
    else if x.fetched ≠ .completed ∨ x.eventCycle > s.cycle ∨ numSearched ≥ schedulerSize then
      some (numSearched, s)
    else if x.regReady ∧ x.scheduled = .inflight then
      (doMemoryScheduling c i s).bind (memoryLoop c is (numSearched + 1))
    else memoryLoop c is numSearched s

def scheduleMemoryInstruction (c : Config) (s : Cpu μ) : Option (Cpu μ) :=
  if robEmpty s.rob then some s
  else
    (memoryLoop c (upTo s.rob s.nextSchedule) 0 s).bind fun (numSearched, s') =>
      (memoryLoop c (wrapped s.rob s.nextSchedule) numSearched s').map Prod.snd

/-! ## Executing loads and stores -/

/-- The load `lqIndex`, source `j` of the instruction at `dependent`, gets the data of the store. -/
def resolveLoad (robIndex sqIndex dependent j lqIndex : Nat) (s : Cpu μ) : Option (Cpu μ) :=
  if lqIndex ≥ s.lq.size then none
  else if (s.lq.entry lqIndex).producerId ≠ (s.sq.entry sqIndex).instrId then none
  else
    let s := s.modifyLq lqIndex fun l =>
      { l with
        physicalAddress := blockOffset (s.sq.entry sqIndex).physicalAddress l.virtualAddress
        translated := .completed
        fetched := .completed
        eventCycle := s.cycle }
    (finishMemOp (s.lq.entry lqIndex).robIndex s.cycle s).map fun s =>
      let s := releaseLoadQueue lqIndex s
      if j = numInstrSources - 1 then
        s.modifyRob robIndex fun x =>
          { x with memoryInstrsDependOnMe := insert dependent x.memoryInstrsDependOnMe }
      else s

/-- The inner loop, over the sources `js` of the instruction at `dependent`. -/
def resolveSources (robIndex sqIndex dependent : Nat) : List Nat → Cpu μ → Option (Cpu μ)
  | [], s => some s
  | j :: js, s =>
    let x := s.rob.entry dependent
    if x.sourceMemory j ≠ 0 ∧ x.sourceAdded j ∧
        x.sourceMemory j = (s.sq.entry sqIndex).virtualAddress then
      (resolveLoad robIndex sqIndex dependent j (x.lqIndex j) s).bind
        (resolveSources robIndex sqIndex dependent js)
    else resolveSources robIndex sqIndex dependent js s

def resolveDependents (robIndex sqIndex : Nat) : List Nat → Cpu μ → Option (Cpu μ)
  | [], s => some s
  | dependent :: ds, s =>
    (resolveSources robIndex sqIndex dependent (List.range numInstrSources) s).bind
      (resolveDependents robIndex sqIndex ds)

def executeStore (robIndex sqIndex : Nat) (s : Cpu μ) : Option (Cpu μ) :=
  let s := s.modifySq sqIndex fun e => { e with fetched := .completed, eventCycle := s.cycle }
  (finishMemOp robIndex s.cycle s).bind fun s =>
    let x := s.rob.entry robIndex
    if x.isProducer then
      resolveDependents robIndex sqIndex (expand x.memoryInstrsDependOnMe robSize) s
    else some s

section Operate

variable (M : Memory μ) (c : Config)

/-- `RTS0`: stores ask the DTLB. `n` rounds are left, after `issued` issues. -/
def translateStores : Nat → Nat → Cpu μ → Option (Nat × Cpu μ)
  | 0, issued, s => some (issued, s)
  | n + 1, issued, s =>
    if issued < sqWidth then
      let sqIndex := (s.rts .zero).front
      if sqIndex < sqSize then
        let e := s.sq.entry sqIndex
        if e.eventCycle ≤ s.cycle then
          (M.addRq .dtlb s.cycle (storeTranslation c.numCpus c.cpu c.knobCloudsuite sqIndex e)
              s.mem).bind fun (accepted, mem) =>
            let s := { s with mem := mem }
            if accepted then
              translateStores n (issued + 1)
                ((s.modifySq sqIndex fun e => { e with translated := .inflight }).popRts .zero)
            else some (issued, s)
        else translateStores n issued s
      else some (issued, s)
    else some (issued, s)

/-- `RTS1`: translated stores execute. -/
def executeStores : Nat → Nat → Cpu μ → Option (Nat × Cpu μ)
  | 0, issued, s => some (issued, s)
  | n + 1, issued, s =>
    if issued < sqWidth then
      let sqIndex := (s.rts .one).front
      if sqIndex < sqSize then
        let e := s.sq.entry sqIndex
        if e.eventCycle ≤ s.cycle then
          (executeStore e.robIndex sqIndex s).bind fun s =>
            executeStores n (issued + 1) (s.popRts .one)
        else executeStores n issued s
      else some (issued, s)
    else some (issued, s)

/-- `RTL0`: loads ask the DTLB. -/
def translateLoads : Nat → Nat → Cpu μ → Option (Nat × Cpu μ)
  | 0, issued, s => some (issued, s)
  | n + 1, issued, s =>
    if issued < lqWidth then
      let lqIndex := (s.rtl .zero).front
      if lqIndex < lqSize then
        let e := s.lq.entry lqIndex
        if e.eventCycle ≤ s.cycle then
          (M.addRq .dtlb s.cycle (loadTranslation c.numCpus c.cpu c.knobCloudsuite lqIndex e)
              s.mem).bind fun (accepted, mem) =>
            let s := { s with mem := mem }
            if accepted then
              translateLoads n (issued + 1)
                ((s.modifyLq lqIndex fun e => { e with translated := .inflight }).popRtl .zero)
            else some (issued, s)
        else translateLoads n issued s
      else some (issued, s)
    else some (issued, s)

def executeLoad (lqIndex : Nat) (s : Cpu μ) : Option (Bool × Cpu μ) :=
  (M.addRq .l1d s.cycle (loadData c.numCpus c.cpu lqIndex (s.lq.entry lqIndex)) s.mem).map
    fun (accepted, mem) =>
      let s := { s with mem := mem }
      (accepted, if accepted then s.modifyLq lqIndex fun e => { e with fetched := .inflight } else s)

/-- `RTL1`: translated loads ask the L1D. A refusal is not the end of the loop. -/
def executeLoads : Nat → Nat → Cpu μ → Option (Nat × Cpu μ)
  | 0, issued, s => some (issued, s)
  | n + 1, issued, s =>
    if issued < lqWidth then
      let lqIndex := (s.rtl .one).front
      if lqIndex < lqSize then
        if (s.lq.entry lqIndex).eventCycle ≤ s.cycle then
          (executeLoad M c lqIndex s).bind fun (accepted, s) =>
            if accepted then executeLoads n (issued + 1) (s.popRtl .one)
            else executeLoads n issued s
        else executeLoads n issued s
      else some (issued, s)
    else some (issued, s)

def operateLsq (s : Cpu μ) : Option (Cpu μ) :=
  (translateStores M c (sqSize - 1) 0 s).bind fun (issued, s) =>
    (executeStores (sqSize - 1) issued s).bind fun (_, s) =>
      (translateLoads M c (lqSize - 1) 0 s).bind fun (issued, s) =>
        (executeLoads M c (lqSize - 1) issued s).map Prod.snd

end Operate

/-! ## Answers of the memory system -/

/-- The slot that holds `instr_id`; an empty ROB gives its size. -/
def checkRob (r : Lib.Ring OooModelInstr) (instrId : Nat) : Option Nat :=
  if robEmpty r then some r.size
  else (upTo r r.tail ++ wrapped r r.tail).find? fun i => (r.entry i).instrId == instrId

def pageOffset (page offset : Nat) : Nat := page * 2 ^ logPageSize % 2 ^ 64 ||| offset % 2 ^ logPageSize

def translateEntry (dataPa cycle : Nat) (e : LsqEntry) : LsqEntry :=
  { e with
    translated := .completed
    physicalAddress := pageOffset dataPa e.virtualAddress
    eventCycle := cycle }

/-- The store at `i` is translated and may execute. -/
def storeTranslated (dataPa i : Nat) (s : Cpu μ) : Cpu μ :=
  (s.modifySq i (translateEntry dataPa s.cycle)).pushRts .one i

/-- The load at `i` is translated and may ask the L1D. -/
def loadTranslated (dataPa i : Nat) (s : Cpu μ) : Cpu μ :=
  (s.modifyLq i (translateEntry dataPa s.cycle)).pushRtl .one i

def handleMergedTranslation (p : Packet) (s : Cpu μ) : Cpu μ :=
  let s :=
    if p.storeMerged then
      (expand p.sqIndexDependOnMe s.sq.size).foldl (fun s i => storeTranslated p.dataPa i s) s
    else s
  if p.loadMerged then
    (expand p.lqIndexDependOnMe s.lq.size).foldl (fun s i => loadTranslated p.dataPa i s) s
  else s

/-- The data of the load at `lqIndex` has come, for the instruction at `robIndex`. -/
def loadReturned (lqIndex robIndex eventCycle : Nat) (s : Cpu μ) : Option (Cpu μ) :=
  let s := s.modifyLq lqIndex fun e => { e with fetched := .completed, eventCycle := s.cycle }
  (finishMemOp robIndex eventCycle s).map (releaseLoadQueue lqIndex)

def mergedLoads : List Nat → Cpu μ → Option (Cpu μ)
  | [], s => some s
  | i :: is, s => (loadReturned i (s.lq.entry i).robIndex s.cycle s).bind (mergedLoads is)

def handleMergedLoad (p : Packet) (s : Cpu μ) : Option (Cpu μ) :=
  mergedLoads (expand p.lqIndexDependOnMe s.lq.size) s

/-- An answer that is not for a store names the ROB slot of its instruction. -/
def answerChecked (p : Packet) (s : Cpu μ) : Prop :=
  p.type ≠ .rfo → checkRob s.rob p.instrId = some p.robIndex.toNat

instance answerChecked.decidable (p : Packet) (s : Cpu μ) : Decidable (answerChecked p s) :=
  inferInstanceAs (Decidable (_ → _))

/-- From the DTLB. -/
def completeTranslation (p : Packet) (s : Cpu μ) : Cpu μ :=
  let s := handleMergedTranslation p
    (if p.type = .rfo then storeTranslated p.dataPa p.sqIndex s
    else loadTranslated p.dataPa p.lqIndex s)
  s.modifyRob p.robIndex.toNat fun x => { x with eventCycle := p.eventCycle }

/-- From the L1D. -/
def completeLoad (p : Packet) (s : Cpu μ) : Option (Cpu μ) :=
  if p.type = .rfo then handleMergedLoad p s
  else if p.storeMerged then none
  else (loadReturned p.lqIndex p.robIndex.toNat p.eventCycle s).bind (handleMergedLoad p)

/-- The packet is the head of `PROCESSED`, which is removed at the end. -/
def completeDataFetch (M : Memory μ) (server : Server) (p : Packet) (s : Cpu μ) : Option (Cpu μ) :=
  if answerChecked p s then
    (if server = .dtlb then some (completeTranslation p s) else completeLoad p s).bind fun s =>
      (M.removeProcessed server s.mem).map fun mem => { s with mem := mem }
  else none

end O3
end ChampSim
