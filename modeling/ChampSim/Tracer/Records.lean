import Mathlib.Algebra.GroupWithZero.Nat
import Mathlib.Data.UInt
import ChampSim.Core.Instr
import ChampSim.Lib.Distinct
import ChampSim.Lib.Run

/-!
# ChampSim.Tracer.Records

The tracer (`tracer/champsim_tracer.cpp`): what it writes for the instructions that a program
executes.

* `Executed`        — an instruction, with what its analysis routines are called with.
* `State`, `Knobs` — the global variables and the switches.
* `beginInstruction`, `branchOrNot`, `regRead`, `regWrite`, `memoryRead`, `memoryWrite`,
  `endInstruction` — the routines; `instruction` calls them in the order in which they are inserted.
* `record`          — the record that should be written.
* `traced_record`   — while tracing, it is.
* `trace_is_window` — into the file go the records of the window that the switches choose, and the
  operands in a record are distinct.
-/

namespace ChampSim
namespace Tracer

open Lib
open ChampSim.Core (InputInstr)

def numInstrDestinations : Nat := 2
def numInstrSources : Nat := 4

structure MemOperand where
  addr : Nat
  isRead : Bool
  isWritten : Bool

structure Executed where
  ip : Nat
  /-- `IARG_BRANCH_TAKEN`, of a branch. -/
  branch : Option Nat
  regReads : List Nat
  regWrites : List Nat
  memOperands : List MemOperand

structure Knobs where
  skipInstructions : Nat
  traceInstructions : Nat

structure State where
  instrCount : Nat
  tracingOn : Bool
  currInstr : InputInstr
  /-- What this run appends to the file, which is opened with `ab`. -/
  out : List InputInstr
  outputFileClosed : Bool
  exited : Bool

def State.init : State where
  instrCount := 0
  tracingOn := false
  currInstr := .empty
  out := []
  outputFileClosed := false
  exited := false

/-! ## Analysis routines -/

def beginInstruction (k : Knobs) (s : State) (ip : Nat) : State :=
  let s := { s with instrCount := add64 s.instrCount 1 }
  let s :=
    if s.instrCount > k.skipInstructions then
      if s.instrCount > add64 k.traceInstructions k.skipInstructions then
        { s with tracingOn := false }
      else { s with tracingOn := true }
    else s
  if s.tracingOn then { s with currInstr := { InputInstr.empty with ip := ip } } else s

/-- Not only while tracing. -/
def branchOrNot (s : State) (taken : Nat) : State :=
  { s with currInstr :=
    { s.currInstr with
      isBranch := 1
      branchTaken := if taken ≠ 0 then 1 else s.currInstr.branchTaken } }

def regRead (s : State) (r : Nat) : State :=
  if s.tracingOn then
    { s with currInstr :=
      { s.currInstr with
        sourceRegisters := note numInstrSources s.currInstr.sourceRegisters (UInt8.ofNat r) } }
  else s

def regWrite (s : State) (r : Nat) : State :=
  if s.tracingOn then
    { s with currInstr :=
      { s.currInstr with
        destinationRegisters :=
          note numInstrDestinations s.currInstr.destinationRegisters (UInt8.ofNat r) } }
  else s

def memoryRead (s : State) (addr : Nat) : State :=
  if s.tracingOn then
    { s with currInstr :=
      { s.currInstr with sourceMemory := note numInstrSources s.currInstr.sourceMemory addr } }
  else s

def memoryWrite (s : State) (addr : Nat) : State :=
  if s.tracingOn then
    { s with currInstr :=
      { s.currInstr with
        destinationMemory := note numInstrDestinations s.currInstr.destinationMemory addr } }
  else s

def endInstruction (k : Knobs) (s : State) : State :=
  if s.instrCount > k.skipInstructions then
    if s.instrCount ≤ add64 k.traceInstructions k.skipInstructions then
      { s with tracingOn := true, out := s.out ++ [s.currInstr] }
    else { s with tracingOn := false, outputFileClosed := true, exited := true }
  else s

def memOperand (s : State) (o : MemOperand) : State :=
  let s := if o.isRead then memoryRead s o.addr else s
  if o.isWritten then memoryWrite s o.addr else s

/-- The calls between the first and the last. -/
def analyse (s : State) (e : Executed) : State :=
  let s := e.branch.elim s (branchOrNot s)
  let s := e.regReads.foldl regRead s
  let s := e.regWrites.foldl regWrite s
  e.memOperands.foldl memOperand s

/-- After `exit` nothing is called. -/
def instruction (k : Knobs) (s : State) (e : Executed) : State :=
  if s.exited then s else endInstruction k (analyse (beginInstruction k s e.ip) e)

/-! ## The record of an instruction -/

def Executed.reads (e : Executed) : List Nat :=
  (e.memOperands.filter (·.isRead)).map MemOperand.addr

def Executed.writes (e : Executed) : List Nat :=
  (e.memOperands.filter (·.isWritten)).map MemOperand.addr

/-- The first distinct values other than 0, as many as there are places for. -/
def places {α : Type} [DecidableEq α] [Zero α] (n : Nat) (xs : List α) (i : Nat) : α :=
  ((firsts xs).take n).getD i 0

def record (e : Executed) : InputInstr :=
  { InputInstr.empty with
    ip := e.ip
    isBranch := if e.branch.isSome then 1 else 0
    branchTaken := if e.branch.elim false (· != 0) then 1 else 0
    destinationRegisters := places numInstrDestinations (e.regWrites.map UInt8.ofNat)
    sourceRegisters := places numInstrSources (e.regReads.map UInt8.ofNat)
    destinationMemory := places numInstrDestinations e.writes
    sourceMemory := places numInstrSources e.reads }

/-! ## While tracing -/

section Traced

variable {s : State}

theorem regReads_traced (hon : s.tracingOn = true) (rs : List Nat) : rs.foldl regRead s =
    { s with currInstr :=
      { s.currInstr with
        sourceRegisters :=
          (rs.map UInt8.ofNat).foldl (note numInstrSources) s.currInstr.sourceRegisters } } := by
  induction rs generalizing s with
  | nil => rfl
  | cons r rs ih =>
    have hfirst : regRead s r = { s with currInstr :=
        { s.currInstr with
          sourceRegisters := note numInstrSources s.currInstr.sourceRegisters (UInt8.ofNat r) } } :=
      if_pos hon
    rw [List.foldl_cons, hfirst]
    exact ih hon

theorem regWrites_traced (hon : s.tracingOn = true) (rs : List Nat) : rs.foldl regWrite s =
    { s with currInstr :=
      { s.currInstr with
        destinationRegisters := (rs.map UInt8.ofNat).foldl (note numInstrDestinations)
          s.currInstr.destinationRegisters } } := by
  induction rs generalizing s with
  | nil => rfl
  | cons r rs ih =>
    have hfirst : regWrite s r = { s with currInstr :=
        { s.currInstr with
          destinationRegisters :=
            note numInstrDestinations s.currInstr.destinationRegisters (UInt8.ofNat r) } } :=
      if_pos hon
    rw [List.foldl_cons, hfirst]
    exact ih hon

theorem memOperands_traced (hon : s.tracingOn = true) (os : List MemOperand) :
    os.foldl memOperand s = { s with currInstr :=
      { s.currInstr with
        sourceMemory := ((os.filter (·.isRead)).map MemOperand.addr).foldl (note numInstrSources)
          s.currInstr.sourceMemory
        destinationMemory := ((os.filter (·.isWritten)).map MemOperand.addr).foldl
          (note numInstrDestinations) s.currInstr.destinationMemory } } := by
  induction os generalizing s with
  | nil => rfl
  | cons o os ih =>
    have hon' : (memOperand s o).tracingOn = true := by
      unfold memOperand memoryRead memoryWrite
      cases o.isRead <;> cases o.isWritten <;> simp [hon]
    rw [List.foldl_cons, ih hon']
    unfold memOperand memoryRead memoryWrite
    cases hr : o.isRead <;> cases hw : o.isWritten <;> simp [hon, hr, hw]

/-- What is written of a traced instruction is its record. -/
theorem traced_record (hon : s.tracingOn = true) (e : Executed)
    (hfresh : s.currInstr = { InputInstr.empty with ip := e.ip }) :
    analyse s e = { s with currInstr := record e } := by
  obtain ⟨count, on, curr, out, closed, exited⟩ := s
  obtain rfl : curr = _ := hfresh
  have hbranch : e.branch.elim
      (State.mk count on { InputInstr.empty with ip := e.ip } out closed exited)
      (branchOrNot ⟨count, on, { InputInstr.empty with ip := e.ip }, out, closed, exited⟩) =
      ⟨count, on, { InputInstr.empty with
        ip := e.ip
        isBranch := if e.branch.isSome then 1 else 0
        branchTaken := if e.branch.elim false (· != 0) then 1 else 0 }, out, closed, exited⟩ := by
    cases e.branch with
    | none => simp [InputInstr.empty]
    | some taken =>
      unfold branchOrNot
      by_cases h0 : taken = 0 <;> simp [h0, InputInstr.empty]
  unfold analyse
  rw [hbranch]
  dsimp only
  rw [regReads_traced (by exact hon), regWrites_traced (by exact hon),
    memOperands_traced (by exact hon)]
  simp only [InputInstr.empty, notes_eq]
  rfl

end Traced

/-! ## The file -/

/-- The tracer after the instructions `es`, before or after it has ended the program. -/
structure Window (k : Knobs) (es : List Executed) (s : State) : Prop where
  out : s.out = ((es.drop k.skipInstructions).take k.traceInstructions).map record
  exited : s.exited = decide (k.skipInstructions + k.traceInstructions < es.length)
  closed : s.outputFileClosed = s.exited
  count : s.exited = false → s.instrCount = es.length
  tracing : s.exited = false → s.tracingOn = decide (k.skipInstructions < es.length)

variable {k : Knobs} {es : List Executed} {s : State}

theorem window_init (k : Knobs) : Window k [] .init where
  out := by simp [State.init]
  exited := by simp [State.init]
  closed := rfl
  count := fun _ => rfl
  tracing := by simp [State.init]

/-- Before the window only the branch marks of a record that is never written are touched. -/
theorem analyse_skipped (hoff : s.tracingOn = false) (e : Executed) :
    ∃ r, analyse s e = { s with currInstr := r } := by
  have hkeep : ∀ {α : Type} (f : State → α → State) (xs : List α),
      (∀ t : State, t.tracingOn = false → ∀ x, f t x = t) → ∀ t : State, t.tracingOn = false →
        xs.foldl f t = t := by
    intro α f xs hf
    induction xs with
    | nil => exact fun _ _ => rfl
    | cons x xs ih =>
      intro t ht
      rw [List.foldl_cons, hf t ht]
      exact ih t ht
  obtain ⟨r, hr⟩ : ∃ r, e.branch.elim s (branchOrNot s) = { s with currInstr := r } := by
    cases e.branch with
    | none => exact ⟨s.currInstr, rfl⟩
    | some taken => exact ⟨_, rfl⟩
  refine ⟨r, ?_⟩
  unfold analyse
  rw [hr]
  dsimp only
  rw [hkeep regRead _ (fun t ht x => by simp [regRead, ht]) { s with currInstr := r } hoff,
    hkeep regWrite _ (fun t ht x => by simp [regWrite, ht]) { s with currInstr := r } hoff]
  exact hkeep memOperand _
    (fun t ht x => by simp [memOperand, memoryRead, memoryWrite, ht]) { s with currInstr := r } hoff

section Step

variable {e : Executed}

theorem add64_knobs (hfit : k.skipInstructions + k.traceInstructions + 1 < 2 ^ 64) :
    add64 k.traceInstructions k.skipInstructions = k.skipInstructions + k.traceInstructions := by
  unfold add64
  omega

theorem Window.length_le (h : Window k es s) (hexit : s.exited = false) :
    es.length ≤ k.skipInstructions + k.traceInstructions := by
  have hpast := h.exited
  rw [hexit] at hpast
  simpa using hpast.symm

theorem Window.count_succ (hfit : k.skipInstructions + k.traceInstructions + 1 < 2 ^ 64)
    (h : Window k es s) (hexit : s.exited = false) : add64 s.instrCount 1 = es.length + 1 := by
  have hle := h.length_le hexit
  rw [h.count hexit]
  unfold add64
  omega

/-- The program has ended. -/
theorem window_exited (h : Window k es s) (hexit : s.exited = true) :
    Window k (es ++ [e]) (instruction k s e) := by
  have hlen : (es ++ [e]).length = es.length + 1 := by simp
  unfold instruction
  rw [hexit]
  have hpast : k.skipInstructions + k.traceInstructions < es.length := by
    have := h.exited
    rw [hexit] at this
    simpa using this.symm
  refine ⟨?_, ?_, h.closed, fun hf => ?_, fun hf => ?_⟩
  · show s.out = _
    rw [h.out, List.drop_append_of_le_length (by omega), List.take_append_of_le_length]
    simp only [List.length_drop]
    omega
  · show s.exited = _
    rw [hexit, hlen]
    simp
    omega
  · simp [hexit] at hf
  · simp [hexit] at hf

/-- The window is not reached. -/
theorem window_skipped (hfit : k.skipInstructions + k.traceInstructions + 1 < 2 ^ 64)
    (h : Window k es s) (hexit : s.exited = false) (hskip : es.length + 1 ≤ k.skipInstructions) :
    Window k (es ++ [e]) (instruction k s e) := by
  have hlen : (es ++ [e]).length = es.length + 1 := by simp
  have hcount := h.count_succ hfit hexit
  unfold instruction
  simp only [hexit, Bool.false_eq_true, if_false]
  have hoff : s.tracingOn = false := by
    rw [h.tracing hexit]
    simp
    omega
  have hbegin : beginInstruction k s e.ip = { s with instrCount := es.length + 1 } := by
    unfold beginInstruction
    simp [hcount, show ¬ k.skipInstructions < es.length + 1 by omega, hoff]
  rw [hbegin]
  obtain ⟨r, hr⟩ := analyse_skipped (s := { s with instrCount := es.length + 1 }) hoff e
  rw [hr]
  unfold endInstruction
  rw [if_neg (show ¬ es.length + 1 > k.skipInstructions by omega)]
  refine ⟨?_, ?_, h.closed, fun _ => hlen.symm, fun _ => ?_⟩
  · show s.out = _
    rw [h.out, List.drop_eq_nil_of_le (by omega), List.drop_eq_nil_of_le (by omega)]
  · show s.exited = _
    rw [hexit, hlen]
    simp
    omega
  · show s.tracingOn = _
    rw [hoff, hlen]
    simp
    omega

/-- In the window. -/
theorem window_traced (hfit : k.skipInstructions + k.traceInstructions + 1 < 2 ^ 64)
    (h : Window k es s) (hexit : s.exited = false) (hskip : k.skipInstructions < es.length + 1)
    (hin : es.length + 1 ≤ k.skipInstructions + k.traceInstructions) :
    Window k (es ++ [e]) (instruction k s e) := by
  have hlen : (es ++ [e]).length = es.length + 1 := by simp
  have hcount := h.count_succ hfit hexit
  have hsum := add64_knobs hfit
  unfold instruction
  simp only [hexit, Bool.false_eq_true, if_false]
  have hbegin : beginInstruction k s e.ip = { s with
      instrCount := es.length + 1
      tracingOn := true
      currInstr := { InputInstr.empty with ip := e.ip } } := by
    unfold beginInstruction
    simp [hcount, hsum, show k.skipInstructions < es.length + 1 by omega,
      show ¬ k.skipInstructions + k.traceInstructions < es.length + 1 by omega]
  rw [hbegin, traced_record rfl e rfl]
  unfold endInstruction
  rw [hsum, if_pos (show es.length + 1 > k.skipInstructions by omega), if_pos hin]
  refine ⟨?_, ?_, h.closed, fun _ => hlen.symm, fun _ => ?_⟩
  · show s.out ++ [record e] = _
    rw [h.out, List.drop_append_of_le_length (by omega), List.take_of_length_le,
      List.take_of_length_le]
    · simp
    · simp only [List.length_append, List.length_drop, List.length_singleton]
      omega
    · simp only [List.length_drop]
      omega
  · show s.exited = _
    rw [hexit, hlen]
    simp
    omega
  · show true = _
    rw [hlen]
    simp
    omega

/-- The first instruction after the window ends the program. -/
theorem window_ended (hfit : k.skipInstructions + k.traceInstructions + 1 < 2 ^ 64)
    (h : Window k es s) (hexit : s.exited = false)
    (hout : k.skipInstructions + k.traceInstructions < es.length + 1) :
    Window k (es ++ [e]) (instruction k s e) := by
  have hbefore := h.length_le hexit
  have hlen : (es ++ [e]).length = es.length + 1 := by simp
  have hcount := h.count_succ hfit hexit
  have hsum := add64_knobs hfit
  unfold instruction
  simp only [hexit, Bool.false_eq_true, if_false]
  have hbegin : beginInstruction k s e.ip = { s with
      instrCount := es.length + 1
      tracingOn := false } := by
    unfold beginInstruction
    simp [hcount, hsum, show k.skipInstructions < es.length + 1 by omega,
      show k.skipInstructions + k.traceInstructions < es.length + 1 by omega]
  rw [hbegin]
  obtain ⟨r, hr⟩ := analyse_skipped
    (s := { s with instrCount := es.length + 1, tracingOn := false }) rfl e
  rw [hr]
  unfold endInstruction
  rw [hsum, if_pos (show es.length + 1 > k.skipInstructions by omega), if_neg (Nat.not_le.mpr hout)]
  refine ⟨?_, ?_, rfl, by simp, by simp⟩
  · show s.out = _
    rw [h.out, List.drop_append_of_le_length (by omega), List.take_append_of_le_length]
    simp only [List.length_drop]
    omega
  · show true = _
    rw [hlen]
    simp
    omega

theorem instruction_window (hfit : k.skipInstructions + k.traceInstructions + 1 < 2 ^ 64)
    (h : Window k es s) (e : Executed) : Window k (es ++ [e]) (instruction k s e) := by
  cases hexit : s.exited with
  | true => exact window_exited h hexit
  | false =>
    rcases Nat.lt_or_ge k.skipInstructions (es.length + 1) with hskip | hskip
    · rcases Nat.lt_or_ge (k.skipInstructions + k.traceInstructions) (es.length + 1) with hout | hin
      · exact window_ended hfit h hexit hout
      · exact window_traced hfit h hexit hskip hin
    · exact window_skipped hfit h hexit hskip

end Step

theorem window (hfit : k.skipInstructions + k.traceInstructions + 1 < 2 ^ 64)
    (es : List Executed) : Window k es (es.foldl (instruction k) .init) := by
  induction es using List.reverseRecOn with
  | nil => exact window_init k
  | append_singleton es e ih =>
    rw [List.foldl_append]
    exact instruction_window hfit ih e

/-- Into the file go the records of the instructions after those skipped, as many as asked for; the
program ends at the first instruction after them. No record has an operand other than 0 twice. -/
theorem trace_is_window (hfit : k.skipInstructions + k.traceInstructions + 1 < 2 ^ 64)
    (es : List Executed) :
    (es.foldl (instruction k) .init).out =
        ((es.drop k.skipInstructions).take k.traceInstructions).map record ∧
      ((es.foldl (instruction k) .init).exited = true ↔
        k.skipInstructions + k.traceInstructions < es.length) ∧
      ∀ r ∈ (es.foldl (instruction k) .init).out, ∀ i j,
        (r.sourceMemory i = r.sourceMemory j → r.sourceMemory i ≠ 0 → i = j) ∧
        (r.destinationMemory i = r.destinationMemory j → r.destinationMemory i ≠ 0 → i = j) ∧
        (r.sourceRegisters i = r.sourceRegisters j → r.sourceRegisters i ≠ 0 → i = j) ∧
        (r.destinationRegisters i = r.destinationRegisters j →
          r.destinationRegisters i ≠ 0 → i = j) := by
  have hwindow := window hfit es
  refine ⟨hwindow.out, ?_, fun r hr i j => ?_⟩
  · rw [hwindow.exited]
    exact decide_eq_true_iff
  · rw [hwindow.out] at hr
    obtain ⟨e, -, rfl⟩ := List.mem_map.mp hr
    exact ⟨firsts_distinct, firsts_distinct, firsts_distinct, firsts_distinct⟩

/-- One instruction is skipped, one traced; the third one ends the program. -/
theorem second_traced :
    let load : Executed := ⟨0x400, none, [3, 3, 5], [3], [⟨0x7000, true, true⟩]⟩
    let jump : Executed := ⟨0x404, some 1, [26], [26], []⟩
    let s := [jump, load, jump].foldl (instruction ⟨1, 1⟩) .init
    s.out = [record load] ∧ s.exited = true := by
  intro load jump s
  have h := trace_is_window (k := ⟨1, 1⟩) (by decide) [jump, load, jump]
  exact ⟨h.1, h.2.1.mpr (by simp)⟩

end Tracer
end ChampSim
