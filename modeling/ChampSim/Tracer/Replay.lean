import ChampSim.Core.Stream
import ChampSim.Lib.Codec
import ChampSim.Tracer.Records

/-!
# ChampSim.Tracer.Replay

From the executed program through the trace file to the fetch buffer of the simulator.

* `layout m n`        — a record with `m` destinations and `n` sources in bytes, as the compiler lays
  out the two structures.
* `traceInstrFormat`, `inputInstr` — what the tracer writes, and what `read_from_trace` reads.
* `record_holds`      — nothing of a record is lost in the file.
* `file_records`      — the simulator finds the records that the tracer has written.
* `Replays`           — an instruction handed over is one that was executed, with the branch marks
  that the simulator makes of it.
* `trace_replayed`    — the instructions handed over are those that were executed.
-/

namespace ChampSim
namespace Tracer

open Lib
open ChampSim.Core (InputInstr OooModelInstr TakenBranch handedRun delivered recordBody stream)

/-! ## The file -/

/-- The fields in their order; with their sizes none needs padding. -/
def layout (m n : Nat) : Codec InputInstr :=
  ((Codec.word 8).pair <| Codec.byte.pair <| Codec.byte.pair <| (Codec.byte.array m 0).pair <|
    (Codec.byte.array n 0).pair <| ((Codec.word 8).array m 0).pair <|
      (Codec.word 8).array n 0).iso
    (fun p =>
      { InputInstr.empty with
        ip := p.1
        isBranch := p.2.1
        branchTaken := p.2.2.1
        destinationRegisters := p.2.2.2.1
        sourceRegisters := p.2.2.2.2.1
        destinationMemory := p.2.2.2.2.2.1
        sourceMemory := p.2.2.2.2.2.2 })
    (fun r => (r.ip, r.isBranch, r.branchTaken, r.destinationRegisters, r.sourceRegisters,
      r.destinationMemory, r.sourceMemory))
    (fun r => r.asid = InputInstr.empty.asid)
    (fun r h => by
      cases r
      cases h
      rfl)

/-- `trace_instr_format_t` (`tracer/champsim_tracer.cpp`). -/
def traceInstrFormat : Codec InputInstr := layout numInstrDestinations numInstrSources

/-- `input_instr` (`inc/instruction.h`). -/
def inputInstr : Codec InputInstr := layout 2 Core.numInstrSources

example : inputInstr.width = 64 := rfl

/-- Addresses are 64-bit numbers. -/
structure Executed.Addressable (e : Executed) : Prop where
  ip : e.ip < 2 ^ 64
  operands : ∀ o ∈ e.memOperands, o.addr < 2 ^ 64

section Places

variable {α : Type} [DecidableEq α] [Zero α] {n i : Nat} {xs : List α}

theorem places_outside (hi : n ≤ i) : places n xs i = 0 := by
  have hlen : ((firsts xs).take n).length ≤ i := (List.length_take_le n _).trans hi
  unfold places
  rw [List.getD_eq_getElem?_getD, List.getElem?_eq_none hlen]
  rfl

theorem places_of_all {P : α → Prop} (hxs : ∀ x ∈ xs, P x) (hzero : P 0) : P (places n xs i) := by
  unfold places
  rw [List.getD_eq_getElem?_getD]
  cases hget : ((firsts xs).take n)[i]? with
  | none => exact hzero
  | some x =>
    have hx : x ∈ firsts xs := List.mem_of_mem_take (List.mem_of_getElem? hget)
    exact hxs x (mem_firsts.mp hx).1

end Places

theorem record_holds {e : Executed} (h : e.Addressable) : traceInstrFormat.Holds (record e) := by
  have haddr : ∀ {p : MemOperand → Bool} {x}, x ∈ (e.memOperands.filter p).map MemOperand.addr →
      x < 256 ^ 8 := by
    intro p x hx
    obtain ⟨o, ho, rfl⟩ := List.mem_map.mp hx
    exact h.operands o (List.mem_filter.mp ho).1
  have hzero : 0 < 256 ^ 8 := by decide
  refine ⟨rfl, h.ip, trivial, trivial, ⟨fun _ _ => trivial, fun i hi => places_outside hi⟩,
    ⟨fun _ _ => trivial, fun i hi => places_outside hi⟩,
    ⟨fun i _ => ?_, fun i hi => places_outside hi⟩,
    ⟨fun i _ => ?_, fun i hi => places_outside hi⟩⟩
  · exact places_of_all (P := (· < 256 ^ 8)) (fun x hx => haddr hx) hzero
  · exact places_of_all (P := (· < 256 ^ 8)) (fun x hx => haddr hx) hzero

variable {k : Knobs} {es : List Executed}

/-- The instructions that are traced. -/
def traced (k : Knobs) (es : List Executed) : List Executed :=
  (es.drop k.skipInstructions).take k.traceInstructions

theorem file_records (hfit : k.skipInstructions + k.traceInstructions + 1 < 2 ^ 64)
    (haddr : ∀ e ∈ es, e.Addressable) :
    inputInstr.records (traceInstrFormat.write (es.foldl (instruction k) .init).out) =
      (traced k es).map record := by
  rw [(window hfit es).out]
  have hold : ∀ r ∈ (traced k es).map record, traceInstrFormat.Holds r := by
    intro r hr
    obtain ⟨e, he, rfl⟩ := List.mem_map.mp hr
    exact record_holds (haddr e (List.mem_of_mem_drop (List.mem_of_mem_take he)))
  have hrest : ([] : List UInt8).length < traceInstrFormat.width := by decide
  have hread := traceInstrFormat.records_write (by decide) hold hrest
  rw [List.append_nil] at hread
  exact hread

/-! ## The simulator -/

/-- The simulator does not ask the tracer what kind of branch it was: it looks at the registers. -/
def Executed.branchType (e : Executed) : Core.BranchType :=
  Core.classify (Core.registerUse numInstrDestinations (record e))

/-- One of the first distinct registers written is the instruction pointer. -/
def Executed.writesIp (e : Executed) : Bool :=
  (List.range numInstrDestinations).any fun i =>
    places numInstrDestinations (e.regWrites.map UInt8.ofNat) i == Core.regInstructionPointer

def Executed.taken (e : Executed) : Bool := e.branch.elim false (· != 0)

theorem branchType_notBranch (e : Executed) :
    e.branchType = .notBranch ↔ e.writesIp = false := by
  have huse : (Core.registerUse numInstrDestinations (record e)).writesIp = e.writesIp := rfl
  rw [← huse]
  exact Core.classify_notBranch _

/-- `x` is the instruction `e`, and `e'` was executed after it. The branches of the types that are
always taken count as taken also when they were not. -/
structure Replays (x : OooModelInstr) (e e' : Executed) : Prop where
  ip : x.ip = e.ip
  sourceRegisters : x.sourceRegisters = places numInstrSources (e.regReads.map UInt8.ofNat)
  destinationRegisters :
    x.destinationRegisters = places numInstrDestinations (e.regWrites.map UInt8.ofNat)
  sourceMemory : x.sourceMemory = places numInstrSources e.reads
  destinationMemory : x.destinationMemory = places numInstrDestinations e.writes
  branchType : x.branchType = e.branchType
  isBranch : x.isBranch = if e.branch.isSome || e.writesIp then 1 else 0
  branchTaken : x.branchTaken = if e.taken || e.branchType.alwaysTaken then 1 else 0
  target : TakenBranch x → x.branchTarget = e'.ip

variable {c : Core.Config} {t : Core.Trace}

theorem cut_places {α : Type} [DecidableEq α] [Zero α] (n : Nat) (xs : List α) :
    (fun i => if i < n then places n xs i else 0) = places n xs := by
  funext i
  split
  · rfl
  · rename_i hi
    exact (places_outside (Nat.not_lt.mp hi)).symm

/-- A record becomes the instruction that it was made of. -/
theorem ofStandard_replays (hdest : c.maxInstrDestinations = numInstrDestinations) (id : Nat)
    (e e' : Executed) :
    Replays (Core.ofStandard c.maxInstrDestinations c.cpu id (record e) (record e')) e e' := by
  rw [hdest]
  have hbranch : (Core.ofStandard numInstrDestinations c.cpu id (record e) (record e')).isBranch =
      if e.branchType = .notBranch then (record e).isBranch else 1 := rfl
  have htaken : (Core.ofStandard numInstrDestinations c.cpu id (record e) (record e')).branchTaken =
      if e.branchType.alwaysTaken then 1 else (record e).branchTaken := rfl
  have hrecord : (record e).isBranch = if e.branch.isSome then 1 else 0 := rfl
  have hrecord' : (record e).branchTaken = if e.taken then 1 else 0 := rfl
  refine ⟨rfl, cut_places _ _, cut_places _ _, cut_places _ _, cut_places _ _, rfl, ?_, ?_,
    fun h => if_pos h⟩
  · rw [hbranch, hrecord]
    by_cases hip : e.writesIp = true
    · have hne : e.branchType ≠ .notBranch := by
        rw [Ne, branchType_notBranch, hip]
        decide
      rw [if_neg hne, hip, Bool.or_true, if_pos rfl]
    · have hip : e.writesIp = false := Bool.eq_false_of_not_eq_true hip
      rw [if_pos ((branchType_notBranch e).mpr hip), hip, Bool.or_false]
  · rw [htaken, hrecord']
    cases e.branchType.alwaysTaken <;> simp

/-- A jump on a register and the instruction pointer that was not taken is handed over as taken. -/
example : (Core.ofStandard 2 0 1 (record ⟨0x400, some 0, [10, 26], [26], []⟩)
    (record ⟨0x402, none, [], [], []⟩)).branchTaken = 1 := by decide

theorem stream_record {es : List Executed} (ht : t.records = es.map record) (j : Nat) :
    ∃ e, es[j % es.length]? = some e ∧ stream t j = record e := by
  have hpos : 0 < es.length := by
    have hne := t.nonempty
    rw [ht] at hne
    exact List.length_pos_iff.mpr fun h => hne (by rw [h]; rfl)
  have hlt : j % es.length < es.length := Nat.mod_lt _ hpos
  refine ⟨es[j % es.length], List.getElem?_eq_getElem hlt, ?_⟩
  unfold stream
  rw [ht, List.length_map, List.getD_eq_getElem?_getD, List.getElem?_map,
    List.getElem?_eq_getElem hlt]
  rfl

/-- The simulator runs over a file that held nothing before the program was traced. From the second
instruction on, those that it hands to the core are the traced ones in the order in which they were
executed, over and over: each with its address, the operands that fit, the branch marks of
`Replays`, and as target of a taken branch the address of the instruction executed next. -/
theorem trace_replayed (hfit : k.skipInstructions + k.traceInstructions + 1 < 2 ^ 64)
    (haddr : ∀ e ∈ es, e.Addressable) (hstandard : c.knobCloudsuite = false)
    (hdest : c.maxInstrDestinations = numInstrDestinations)
    (ht : t.records =
      inputInstr.records (traceInstrFormat.write (es.foldl (instruction k) .init).out))
    (envs : List Core.CycleEnv) {j : Nat} {x : OooModelInstr} (hj : (j + 1) % 2 ^ 64 ≠ 0)
    (hx : (handedRun c t Core.State.init envs)[j + 1]? = some x) :
    ∃ e e', (traced k es)[j % (traced k es).length]? = some e ∧
      (traced k es)[(j + 1) % (traced k es).length]? = some e' ∧ Replays x e e' := by
  rw [file_records hfit haddr] at ht
  obtain ⟨e, he, hrecord⟩ := stream_record ht j
  obtain ⟨e', he', hrecord'⟩ := stream_record ht (j + 1)
  obtain ⟨-, rfl⟩ := (Core.getElem?_handedRun hstandard envs).mp hx
  refine ⟨e, e', he, he', ?_⟩
  unfold delivered
  rw [if_neg hj, Nat.add_sub_cancel, hrecord, hrecord']
  exact ofStandard_replays hdest _ e e'

/-- A load and a jump are traced, and handed over in turn. -/
theorem loadJump_replayed :
    let load : Executed := ⟨0x400, none, [3, 3, 5], [3], [⟨0x7000, true, true⟩]⟩
    let jump : Executed := ⟨0x404, some 1, [26], [26], []⟩
    ∃ (t : Core.Trace) (x : OooModelInstr), t.records = inputInstr.records
        (traceInstrFormat.write ([load, jump].foldl (instruction ⟨0, 2⟩) .init).out) ∧
      (handedRun ⟨false, 0, 0, 2⟩ t Core.State.init [Core.quietCycle])[2]? = some x ∧
      Replays x jump load := by
  intro load jump
  have haddr : ∀ e ∈ [load, jump], e.Addressable := by
    intro e he
    rcases List.mem_pair.mp he with rfl | rfl
    · exact ⟨by decide, by decide⟩
    · exact ⟨by decide, by decide⟩
  have hrecords : inputInstr.records
      (traceInstrFormat.write ([load, jump].foldl (instruction ⟨0, 2⟩) .init).out) =
        (traced ⟨0, 2⟩ [load, jump]).map record := file_records (by decide) haddr
  let t : Core.Trace := ⟨[load, jump].map record, List.cons_ne_nil _ _⟩
  have hlen : (handedRun ⟨false, 0, 0, 2⟩ t Core.State.init [Core.quietCycle]).length = 6 := by
    decide +kernel
  have hx := List.getElem?_eq_getElem (l := handedRun ⟨false, 0, 0, 2⟩ t Core.State.init
    [Core.quietCycle]) (i := 2) (by rw [hlen]; decide)
  obtain ⟨e, e', he, he', hreplays⟩ := trace_replayed (k := ⟨0, 2⟩)
    (c := ⟨false, 0, 0, 2⟩) (t := t) (j := 1) (by decide) haddr rfl rfl hrecords.symm
    [Core.quietCycle] (by decide) hx
  have hlength : (traced ⟨0, 2⟩ [load, jump]).length = 2 := rfl
  rw [hlength] at he he'
  have hfirst : some jump = some e := he
  have hsecond : some load = some e' := he'
  cases hfirst
  cases hsecond
  exact ⟨t, _, hrecords.symm, hx, hreplays⟩

end Tracer
end ChampSim
