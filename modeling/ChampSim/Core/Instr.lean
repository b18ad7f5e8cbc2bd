import ChampSim.Packet

/-!
# ChampSim.Core.Instr

Instructions (`inc/instruction.h`) and how `read_from_trace` builds one from a trace record.

* `InputInstr`     — `input_instr` and `cloudsuite_instr`; the two differ in `MAX_INSTR_DESTINATIONS`,
  and only the second has an `asid`.
* `OooModelInstr`  — `ooo_model_instr`, with the fields that a modelled function reads.
* `classify`       — the branch type, from the special registers read and written.
* `ofStandard`, `ofCloudsuite` — the two ways a record is copied.
* `OooModelInstr.Empty` — what the 'is not empty index' checks and the stage loops test.
-/

namespace ChampSim
namespace Core

def numInstrSources : Nat := 4

def regStackPointer : UInt8 := 6

def regFlags : UInt8 := 25

def regInstructionPointer : UInt8 := 26

def uint32Max : Nat := 2 ^ 32 - 1

inductive BranchType where
  | notBranch
  | directJump
  | indirect
  | conditional
  | directCall
  | indirectCall
  | return
  | other
deriving DecidableEq, Repr

structure InputInstr where
  ip : Nat
  isBranch : UInt8
  branchTaken : UInt8
  destinationRegisters : Nat → UInt8
  sourceRegisters : Nat → UInt8
  destinationMemory : Nat → Nat
  sourceMemory : Nat → Nat
  asid : Nat → UInt8

def InputInstr.empty : InputInstr where
  ip := 0
  isBranch := 0
  branchTaken := 0
  destinationRegisters := fun _ => 0
  sourceRegisters := fun _ => 0
  destinationMemory := fun _ => 0
  sourceMemory := fun _ => 0
  asid := fun _ => 255

structure OooModelInstr where
  instrId : Nat
  ip : Nat
  producerId : Nat
  eventCycle : Nat
  isBranch : UInt8
  isMemory : Bool
  branchTaken : UInt8
  branchMispredicted : Bool
  translated : Progress
  asid : Nat → UInt8
  sourceAdded : Nat → Bool
  destinationAdded : Nat → Bool
  isProducer : Bool
  regRawProducer : Bool
  regReady : Bool
  regRawChecked : Nat → Bool
  branchType : BranchType
  branchTarget : Nat
  fetched : Progress
  scheduled : Progress
  numRegOps : Int
  numMemOps : Int
  numRegDependent : Int
  executed : Progress
  destinationRegisters : Nat → UInt8
  sourceRegisters : Nat → UInt8
  registersInstrsDependOnMe : Finset Nat
  registersIndexDependOnMe : Nat → Finset Nat
  instructionPa : Nat
  destinationMemory : Nat → Nat
  sourceMemory : Nat → Nat
  memoryInstrsDependOnMe : Finset Nat
  lqIndex : Nat → Nat
  sqIndex : Nat → Nat

def OooModelInstr.empty : OooModelInstr where
  instrId := 0
  ip := 0
  producerId := 0
  eventCycle := 0
  isBranch := 0
  isMemory := false
  branchTaken := 0
  branchMispredicted := false
  translated := .idle
  asid := fun _ => 255
  sourceAdded := fun _ => false
  destinationAdded := fun _ => false
  isProducer := false
  regRawProducer := false
  regReady := false
  regRawChecked := fun _ => false
  branchType := .notBranch
  branchTarget := 0
  fetched := .idle
  scheduled := .idle
  numRegOps := 0
  numMemOps := 0
  numRegDependent := 0
  executed := .idle
  destinationRegisters := fun _ => 0
  sourceRegisters := fun _ => 0
  registersInstrsDependOnMe := ∅
  registersIndexDependOnMe := fun _ => ∅
  instructionPa := 0
  destinationMemory := fun _ => 0
  sourceMemory := fun _ => 0
  memoryInstrsDependOnMe := ∅
  lqIndex := fun _ => uint32Max
  sqIndex := fun _ => uint32Max

/-! ## From a record to an instruction -/

structure RegisterUse where
  readsSp : Bool
  writesSp : Bool
  readsFlags : Bool
  readsIp : Bool
  writesIp : Bool
  readsOther : Bool

/-- `maxDestinations` is `MAX_INSTR_DESTINATIONS`: 2, or 4 with `knob_cloudsuite`. -/
def registerUse (maxDestinations : Nat) (r : InputInstr) : RegisterUse :=
  let writes (reg : UInt8) := (List.range maxDestinations).any fun i =>
    r.destinationRegisters i == reg
  let reads (reg : UInt8) := (List.range numInstrSources).any fun i => r.sourceRegisters i == reg
  { readsSp := reads regStackPointer
    writesSp := writes regStackPointer
    readsFlags := reads regFlags
    readsIp := reads regInstructionPointer
    writesIp := writes regInstructionPointer
    readsOther := (List.range numInstrSources).any fun i =>
      r.sourceRegisters i != 0 && r.sourceRegisters i != regStackPointer &&
        r.sourceRegisters i != regFlags && r.sourceRegisters i != regInstructionPointer }

def classify (u : RegisterUse) : BranchType :=
  if !u.readsSp && !u.readsFlags && u.writesIp && !u.readsOther then .directJump
  else if !u.readsSp && !u.readsFlags && u.writesIp && u.readsOther then .indirect
  else if !u.readsSp && u.readsIp && !u.writesSp && u.writesIp && u.readsFlags && !u.readsOther then
    .conditional
  else if u.readsSp && u.readsIp && u.writesSp && u.writesIp && !u.readsFlags && !u.readsOther then
    .directCall
  else if u.readsSp && u.readsIp && u.writesSp && u.writesIp && !u.readsFlags && u.readsOther then
    .indirectCall
  else if u.readsSp && !u.readsIp && u.writesSp && u.writesIp then .return
  else if u.writesIp then .other
  else .notBranch

/-- What writes the instruction pointer is a branch of some type. -/
theorem classify_notBranch (u : RegisterUse) : classify u = .notBranch ↔ u.writesIp = false := by
  obtain ⟨readsSp, writesSp, readsFlags, readsIp, writesIp, readsOther⟩ := u
  revert readsSp writesSp readsFlags readsIp writesIp readsOther
  decide

/-- The types for which `branch_taken` is set to 1 whatever the trace says. -/
def BranchType.alwaysTaken : BranchType → Bool
  | .directJump | .indirect | .directCall | .indirectCall | .return => true
  | .notBranch | .conditional | .other => false

def countNonzero (n : Nat) (nonzero : Nat → Bool) : Int := ((List.range n).filter nonzero).length

/-- The fields that both formats copy. -/
def ofRecord (maxDestinations id : Nat) (r : InputInstr) : OooModelInstr :=
  let numMemOps :=
    countNonzero maxDestinations (fun i => r.destinationMemory i != 0) +
      countNonzero numInstrSources (fun i => r.sourceMemory i != 0)
  { OooModelInstr.empty with
    instrId := id
    ip := r.ip
    isBranch := r.isBranch
    branchTaken := r.branchTaken
    destinationRegisters := fun i => if i < maxDestinations then r.destinationRegisters i else 0
    sourceRegisters := fun i => if i < numInstrSources then r.sourceRegisters i else 0
    destinationMemory := fun i => if i < maxDestinations then r.destinationMemory i else 0
    sourceMemory := fun i => if i < numInstrSources then r.sourceMemory i else 0
    numRegOps :=
      countNonzero maxDestinations (fun i => r.destinationRegisters i != 0) +
        countNonzero numInstrSources (fun i => r.sourceRegisters i != 0)
    numMemOps := numMemOps
    isMemory := numMemOps > 0 }

def ofCloudsuite (maxDestinations id : Nat) (r : InputInstr) : OooModelInstr :=
  { ofRecord maxDestinations id r with asid := r.asid }

/-- The standard format looks one record ahead for the target of a taken branch. -/
def ofStandard (maxDestinations cpu id : Nat) (current next : InputInstr) : OooModelInstr :=
  let type := classify (registerUse maxDestinations current)
  let base := ofRecord maxDestinations id current
  let isBranch := if type = .notBranch then base.isBranch else 1
  let branchTaken := if type.alwaysTaken then 1 else base.branchTaken
  { base with
    asid := fun _ => UInt8.ofNat cpu
    branchType := type
    isBranch := isBranch
    branchTaken := branchTaken
    branchTarget := if isBranch = 1 ∧ branchTaken = 1 then next.ip else 0 }

/-! ## Empty slots -/

/-- A slot that no instruction occupies. Its progress marks and cycle may be stale. -/
def OooModelInstr.Empty (x : OooModelInstr) : Prop := x.instrId = 0 ∧ x.ip = 0

instance (x : OooModelInstr) : Decidable x.Empty := inferInstanceAs (Decidable (_ ∧ _))

/-- The part of an instruction that no stage changes. -/
def OooModelInstr.key (x : OooModelInstr) : Nat × Nat := (x.instrId, x.ip)

@[simp] theorem empty_empty : OooModelInstr.empty.Empty := ⟨rfl, rfl⟩

theorem empty_iff_key {x : OooModelInstr} : x.Empty ↔ x.key = (0, 0) := by
  simp [OooModelInstr.Empty, OooModelInstr.key]

theorem Empty.of_key {x y : OooModelInstr} (h : x.key = y.key) (hx : x.Empty) : y.Empty := by
  rw [empty_iff_key] at hx ⊢
  exact h ▸ hx

end Core
end ChampSim
