import ChampSim.CodeInfo.Numbering
import ChampSim.Lib.Bound
import Mathlib.Data.List.Induction
import Mathlib.Data.List.Lex

/-!
# ChampSim.CodeInfo.Table

The table of `src/codeinfo/llvm_info.cc` that maps a program counter to a range of IR instructions.

* `build`         — the constructor of `llvm_info` from the parsed `.crl` file on: the ranges of
  each function, the two sentinels, the sort.
* `getLlvmInstrs` — the lookup.
* `Exact`         — what the lookup should answer at one pc.

A function's address range ends before `high_pc`, and the lookup takes `high_pc` in. `exact_iff`
says at which addresses that shows.
-/

namespace ChampSim
namespace CodeInfo

open Lib

section Table

/-! ## The constructor -/

/-- `correl_info`. -/
structure CorrelInfo where
  bb : UInt32
  instr : UInt16
  pcStart : UInt64
deriving DecidableEq

/-- The functions of an `llvm::Module`: instructions know their function, a name is one
function's. -/
structure Module (φ ι : Type*) where
  getFunction : String → Option φ
  body : φ → List (List ι)
  parent : ι → φ
  parent_body : ∀ f, ∀ block ∈ body f, ∀ x ∈ block, parent x = f
  name_inj : ∀ n m f, getFunction n = some f → getFunction m = some f → n = m

/-- What `read_dbg_file` returns; a map's keys are distinct. -/
structure ParsedObjs where
  byFunc : List (String × List CorrelInfo)
  frange : String → Option (UInt64 × UInt64)
  nodup : (byFunc.map (·.1)).Nodup

/-- `map_info`. -/
abbrev MapInfo (ι : Type*) := UInt64 × List ι

structure LlvmInfo (φ ι : Type*) where
  addrOffset : UInt64
  correl : List (MapInfo ι)
  funcStarts : φ → UInt64 × UInt64

variable {φ ι : Type*} (isDebug : ι → Bool)

/-- The loop that gathers the instructions up to the one a `correl_info` names. `none` is a
dereference at the end of the function; `fuel` bounds the rounds. -/
def gather : Nat → Iter ι → CorrelInfo → Option (List ι × Iter ι)
  | 0, _, _ => none
  | fuel + 1, it, cinfo =>
    it.numbered.bind fun v =>
      (it.advance isDebug).bind fun it' =>
        let isMatch := v.bb = cinfo.bb ∧ v.instr = cinfo.instr
        if it'.done ∨ isMatch then some ([v.inst], it')
        else (gather fuel it' cinfo).map fun out => (v.inst :: out.1, out.2)

/-- The entries of one function, each under its own start. -/
def entries (fuel : Nat) : Iter ι → List CorrelInfo → Option (List (MapInfo ι))
  | _, [] => some []
  | it, cinfo :: cinfos =>
    (gather isDebug fuel it cinfo).bind fun out =>
      (entries fuel out.2 cinfos).map fun es => (cinfo.pcStart, out.1) :: es

/-- The first entry takes in the prologue. -/
def fromPrologue (low : UInt64) : List (MapInfo ι) → List (MapInfo ι)
  | [] => []
  | e :: es => (low, e.2) :: es

/-- What the constructor makes of one function. -/
structure Loaded (φ ι : Type*) where
  func : φ
  low : UInt64
  high : UInt64
  correl : List (MapInfo ι)
deriving DecidableEq

variable (m : Module φ ι)

/-- One round of the loop over `fmap`; the assertion that the function has a range is the inner
`none`. -/
def loadFunc (f : φ) (range : Option (UInt64 × UInt64)) (cinfos : List CorrelInfo) :
    Option (Loaded φ ι) :=
  range.bind fun range =>
    (entries isDebug ((insts (m.body f)).length + 1) (Iter.new isDebug (m.body f)) cinfos).map
      fun es => ⟨f, range.1, range.2, fromPrologue range.1 es⟩

/-- The loop over `fmap`; names without a function are skipped. -/
def load (frange : String → Option (UInt64 × UInt64)) :
    List (String × List CorrelInfo) → Option (List (Loaded φ ι))
  | [] => some []
  | (name, cinfos) :: fmap =>
    match m.getFunction name with
    | none => load frange fmap
    | some f =>
      (loadFunc isDebug m f (frange name) cinfos).bind fun l => (load frange fmap).map (l :: ·)

/-! ## The ranges of one function -/

section Loading

/-- The iterator is at its end, or has fewer instructions ahead than before. -/
theorem advance_spec (it : Iter ι) (hd : it.done = false) (hne : it.rest ≠ []) :
    ∃ it', it.advance isDebug = some it' ∧
      (it'.done = true ∨
        it'.done = false ∧ it'.rest ≠ [] ∧ it'.rest.length < it.rest.length) := by
  obtain ⟨rest, bb, bbNum, iNum, done⟩ := it
  subst hd
  cases rest with
  | nil => exact absurd rfl hne
  | cons x rest =>
    have hlen : (skipDebug isDebug rest).length ≤ rest.length :=
      (List.dropWhile_sublist _).length_le
    cases hskip : skipDebug isDebug rest with
    | nil => exact ⟨⟨[], bb, bbNum, iNum, true⟩, by simp [Iter.advance, hskip], .inl rfl⟩
    | cons y rest' =>
      rw [hskip, List.length_cons] at hlen
      by_cases hbb : bb ≠ none ∧ some y.1 ≠ bb
      · refine ⟨⟨y :: rest', some y.1, bbNum + 1, 0, false⟩, ?_, .inr ⟨rfl, by simp, ?_⟩⟩
        · simp [Iter.advance, hskip, hbb]
        · rw [List.length_cons, List.length_cons]
          omega
      · refine ⟨⟨y :: rest', some y.1, bbNum, iNum + 1, false⟩, ?_, .inr ⟨rfl, by simp, ?_⟩⟩
        · simp only [Iter.advance, hskip, if_neg hbb]
          rfl
        · rw [List.length_cons, List.length_cons]
          omega

/-- The bound on the rounds is never what ends the loop. -/
theorem gather_isSome (fuel : Nat) (it : Iter ι) (cinfo : CorrelInfo) (hd : it.done = false)
    (hne : it.rest ≠ []) (hlen : it.rest.length < fuel) :
    (gather isDebug fuel it cinfo).isSome := by
  induction fuel generalizing it with
  | zero => omega
  | succ fuel ih =>
    obtain ⟨it', hadv, hnext⟩ := advance_spec isDebug it hd hne
    obtain ⟨x, rest, hrest⟩ := List.exists_cons_of_ne_nil hne
    have hnum : it.numbered = some ⟨x.2, it.bbNum, it.iNum⟩ := by simp [Iter.numbered, hrest]
    simp only [gather, hnum, hadv, Option.bind_some]
    split
    · rfl
    · next hstop =>
      rw [Option.isSome_map]
      cases hnext with
      | inl hdone => exact absurd (.inl hdone) hstop
      | inr hmore => exact ih it' hmore.1 hmore.2.1 (by omega)

variable {isDebug} {m}

theorem mem_skipDebug {l : List (Nat × ι)} {x : Nat × ι} (h : x ∈ skipDebug isDebug l) : x ∈ l :=
  (List.dropWhile_sublist _).mem h

theorem mem_advance {it it' : Iter ι} (h : it.advance isDebug = some it') {x : Nat × ι}
    (hx : x ∈ it'.rest) : x ∈ it.rest := by
  unfold Iter.advance at h
  split at h
  · cases h
    exact hx
  · split at h
    · cases h
    · next y rest hrest =>
      rw [hrest]
      split at h
      · cases h
        cases hx
      · next parent z rest' hskip =>
        have hmem : x ∈ skipDebug isDebug rest := by
          rw [hskip]
          split at h <;> cases h <;> exact hx
        exact List.mem_cons_of_mem _ (mem_skipDebug hmem)

/-- A range is never empty and holds instructions the iterator had ahead. -/
theorem gather_spec {fuel : Nat} {it it' : Iter ι} {cinfo : CorrelInfo} {r : List ι}
    (h : gather isDebug fuel it cinfo = some (r, it')) :
    r ≠ [] ∧ (∀ x ∈ r, x ∈ it.rest.map (·.2)) ∧ ∀ x ∈ it'.rest, x ∈ it.rest := by
  induction fuel generalizing it r with
  | zero => cases h
  | succ fuel ih =>
    simp only [gather, Option.bind_eq_some_iff] at h
    obtain ⟨v, hv, it₁, hadv, h⟩ := h
    have hvmem : v.inst ∈ it.rest.map (·.2) := by
      simp only [Iter.numbered, Option.map_eq_some_iff] at hv
      obtain ⟨x, hx, rfl⟩ := hv
      exact List.mem_map_of_mem (List.mem_of_head? hx)
    split at h
    · simp only [Option.some.injEq, Prod.mk.injEq] at h
      obtain ⟨rfl, rfl⟩ := h
      refine ⟨List.cons_ne_nil _ _, ?_, fun x hx => mem_advance hadv hx⟩
      intro x hx
      rwa [List.mem_singleton.1 hx]
    · simp only [Option.map_eq_some_iff, Prod.mk.injEq] at h
      obtain ⟨⟨r', it₂⟩, hrest, rfl, rfl⟩ := h
      obtain ⟨-, hmem, hsub⟩ := ih hrest
      refine ⟨List.cons_ne_nil _ _, ?_, fun x hx => mem_advance hadv (hsub x hx)⟩
      intro x hx
      cases List.mem_cons.1 hx with
      | inl heq => rwa [heq]
      | inr htail =>
        obtain ⟨y, hy, rfl⟩ := List.mem_map.1 (hmem x htail)
        exact List.mem_map_of_mem (mem_advance hadv hy)

theorem entries_spec {fuel : Nat} {it : Iter ι} {cinfos : List CorrelInfo}
    {es : List (MapInfo ι)} (h : entries isDebug fuel it cinfos = some es) :
    es.map (·.1) = cinfos.map (·.pcStart) ∧
      ∀ e ∈ es, e.2 ≠ [] ∧ ∀ x ∈ e.2, x ∈ it.rest.map (·.2) := by
  induction cinfos generalizing it es with
  | nil =>
    cases h
    exact ⟨rfl, fun e he => by cases he⟩
  | cons cinfo cinfos ih =>
    simp only [entries, Option.bind_eq_some_iff, Option.map_eq_some_iff] at h
    obtain ⟨⟨r, it'⟩, hgather, es', hes', rfl⟩ := h
    obtain ⟨hne, hmem, hsub⟩ := gather_spec hgather
    obtain ⟨hstarts, hrest⟩ := ih hes'
    refine ⟨by simp [hstarts], ?_⟩
    intro e he
    cases List.mem_cons.1 he with
    | inl heq =>
      rw [heq]
      exact ⟨hne, hmem⟩
    | inr htail =>
      refine ⟨(hrest e htail).1, ?_⟩
      intro x hx
      obtain ⟨y, hy, rfl⟩ := List.mem_map.1 ((hrest e htail).2 x hx)
      exact List.mem_map_of_mem (hsub y hy)

theorem parent_insts (f : φ) {x : ι} (h : x ∈ (insts (m.body f)).map (·.2)) :
    m.parent x = f := by
  simp only [insts, List.mem_map, List.mem_flatMap] at h
  obtain ⟨_, ⟨⟨block, k⟩, hblock, y, hy, rfl⟩, rfl⟩ := h
  exact m.parent_body f block (List.fst_mem_of_mem_zipIdx hblock) y hy

/-- What the constructor keeps of a function whose starts are in its address range. -/
structure Loaded.Wf (m : Module φ ι) (l : Loaded φ ι) : Prop where
  parent : ∀ e ∈ l.correl, e.2.getLast?.map m.parent = some l.func
  first : l.correl ≠ [] → ∃ e ∈ l.correl, e.1 = l.low
  inside : ∀ e ∈ l.correl, l.low ≤ e.1 ∧ e.1 < l.high

theorem loadFunc_wf {f : φ} {range : Option (UInt64 × UInt64)} {cinfos : List CorrelInfo}
    {l : Loaded φ ι} (h : loadFunc isDebug m f range cinfos = some l)
    (hin : ∀ r ∈ range, ∀ c ∈ cinfos, r.1 ≤ c.pcStart ∧ c.pcStart < r.2) :
    l.func = f ∧ range = some (l.low, l.high) ∧ l.Wf m := by
  simp only [loadFunc, Option.bind_eq_some_iff, Option.map_eq_some_iff] at h
  obtain ⟨r, rfl, es, hes, rfl⟩ := h
  refine ⟨rfl, rfl, ?_⟩
  obtain ⟨hstarts, hranges⟩ := entries_spec hes
  have hparent : ∀ e ∈ es, e.2.getLast?.map m.parent = some f := by
    intro e he
    obtain ⟨hne, hmem⟩ := hranges e he
    rw [List.getLast?_eq_getLast_of_ne_nil hne, Option.map_some]
    have hlast := hmem _ (List.getLast_mem hne)
    obtain ⟨y, hy, hyx⟩ := List.mem_map.1 hlast
    rw [← hyx, parent_insts f (List.mem_map_of_mem (mem_skipDebug hy))]
  have hinside : ∀ e ∈ es, r.1 ≤ e.1 ∧ e.1 < r.2 := by
    intro e he
    have hmem : e.1 ∈ cinfos.map (·.pcStart) := by
      rw [← hstarts]
      exact List.mem_map_of_mem he
    obtain ⟨c, hc, hce⟩ := List.mem_map.1 hmem
    rw [← hce]
    exact hin r rfl c hc
  cases es with
  | nil =>
    refine ⟨?_, fun h => absurd rfl h, ?_⟩
    · intro e he
      cases he
    · intro e he
      cases he
  | cons e es =>
    have hhead := hinside e List.mem_cons_self
    refine ⟨?_, fun _ => ⟨_, List.mem_cons_self, rfl⟩, ?_⟩
    · intro e' he'
      cases List.mem_cons.1 he' with
      | inl heq =>
        rw [heq]
        exact hparent e List.mem_cons_self
      | inr htail => exact hparent e' (List.mem_cons_of_mem _ htail)
    · intro e' he'
      cases List.mem_cons.1 he' with
      | inl heq =>
        rw [heq]
        exact ⟨UInt64.le_refl _, UInt64.lt_of_le_of_lt hhead.1 hhead.2⟩
      | inr htail => exact hinside e' (List.mem_cons_of_mem _ htail)

theorem load_spec {frange : String → Option (UInt64 × UInt64)}
    {fmap : List (String × List CorrelInfo)} {ls : List (Loaded φ ι)}
    (h : load isDebug m frange fmap = some ls) {l : Loaded φ ι} (hl : l ∈ ls) :
    ∃ name cinfos f, (name, cinfos) ∈ fmap ∧ m.getFunction name = some f ∧
      loadFunc isDebug m f (frange name) cinfos = some l := by
  induction fmap generalizing ls with
  | nil =>
    cases h
    cases hl
  | cons entry fmap ih =>
    obtain ⟨name, cinfos⟩ := entry
    rw [load] at h
    cases hf : m.getFunction name with
    | none =>
      rw [hf] at h
      obtain ⟨n, cs, g, hmem, hrest⟩ := ih h hl
      exact ⟨n, cs, g, List.mem_cons_of_mem _ hmem, hrest⟩
    | some f =>
      simp only [hf, Option.bind_eq_some_iff, Option.map_eq_some_iff] at h
      obtain ⟨l₁, hl₁, ls', hls', rfl⟩ := h
      cases List.mem_cons.1 hl with
      | inl heq =>
        rw [heq]
        exact ⟨name, cinfos, f, List.mem_cons_self, hf, hl₁⟩
      | inr htail =>
        obtain ⟨n, cs, g, hmem, hrest⟩ := ih hls' htail
        exact ⟨n, cs, g, List.mem_cons_of_mem _ hmem, hrest⟩

end Loading

/-! ## The table -/

def sentinel : UInt64 := 0x200000000000

variable [LinearOrder ι] [DecidableEq φ]

/-- `operator<=` of a pair of a start and a vector of pointers. -/
def mapInfoLe (e e' : MapInfo ι) : Bool := e.1 < e'.1 ∨ e.1 = e'.1 ∧ e.2 ≤ e'.2

def funcStarts (ls : List (Loaded φ ι)) : φ → UInt64 × UInt64 :=
  ls.foldl (fun starts l => Function.update starts l.func (l.low, l.high)) fun _ => (0, 0)

def tableOf (addrOffset : UInt64) (ls : List (Loaded φ ι)) : LlvmInfo φ ι where
  addrOffset := addrOffset
  correl := (ls.flatMap Loaded.correl ++ [(0, []), (sentinel, [])]).mergeSort mapInfoLe
  funcStarts := funcStarts ls

def build (addrOffset : UInt64) (objs : ParsedObjs) : Option (LlvmInfo φ ι) :=
  (load isDebug m objs.frange objs.byFunc).map (tableOf addrOffset)

/-! ## The lookup -/

/-- `none` is the null pointer; the table is never empty and starts at 0. -/
def getLlvmInstrs (t : LlvmInfo φ ι) (pc : UInt64) : Option (List ι) :=
  let realAddr := pc - t.addrOffset
  match lastWhile (fun e => !decide (realAddr < e.1)) t.correl with
  | none => none
  | some e =>
    match e.2.getLast? with
    | none => none
    | some instr =>
      let addrRange := t.funcStarts (m.parent instr)
      if addrRange.1 ≤ realAddr ∧ realAddr ≤ addrRange.2 then some e.2 else none

/-! ## What it should answer -/

def Loaded.Covers (l : Loaded φ ι) (a : UInt64) : Prop := l.correl ≠ [] ∧ l.low ≤ a ∧ a < l.high

/-- The lookup at `pc` gives a range exactly within a function that has some, and then that
function's last one that starts at or before the address. -/
def Exact (ls : List (Loaded φ ι)) (t : LlvmInfo φ ι) (pc : UInt64) : Prop :=
  match getLlvmInstrs m t pc with
  | some r =>
    ∃ l ∈ ls, l.Covers (pc - t.addrOffset) ∧
      ∃ e ∈ l.correl, r = e.2 ∧ e.1 ≤ pc - t.addrOffset ∧
        ∀ e' ∈ l.correl, e'.1 ≤ pc - t.addrOffset → e'.1 ≤ e.1
  | none => ∀ l ∈ ls, ¬l.Covers (pc - t.addrOffset)

/-- `a` is the end of a function, and the function's last range is the last one before it. -/
def AtEnd (ls : List (Loaded φ ι)) (a : UInt64) : Prop :=
  ∃ l ∈ ls, l.correl ≠ [] ∧ a = l.high ∧ (∀ l' ∈ ls, ¬l'.Covers a) ∧
    (a < sentinel ∨ ∃ e ∈ l.correl, sentinel ≤ e.1)

/-- `a` is in a function, and the second sentinel stands before it and after the function's ranges
up to it. -/
def PastSentinel (ls : List (Loaded φ ι)) (a : UInt64) : Prop :=
  ∃ l ∈ ls, l.Covers a ∧ sentinel ≤ a ∧ ∀ e ∈ l.correl, e.1 ≤ a → e.1 < sentinel

/-! ## The order of the table -/

omit [DecidableEq φ] in
theorem mapInfoLe_iff (e e' : MapInfo ι) :
    mapInfoLe e e' = true ↔ e.1.toNat < e'.1.toNat ∨ e.1 = e'.1 ∧ e.2 ≤ e'.2 := by
  simp [mapInfoLe, UInt64.lt_iff_toNat_lt]

theorem mapInfoLe_fst {e e' : MapInfo ι} (h : mapInfoLe e e' = true) :
    e.1.toNat ≤ e'.1.toNat := by
  rw [mapInfoLe_iff] at h
  cases h with
  | inl hlt => omega
  | inr heq => rw [heq.1]

theorem mapInfoLe_trans (a b c : MapInfo ι) (h : mapInfoLe a b = true) (h' : mapInfoLe b c = true) :
    mapInfoLe a c = true := by
  rw [mapInfoLe_iff] at h h' ⊢
  cases h with
  | inl hlt =>
    cases h' with
    | inl hlt' => exact .inl (by omega)
    | inr heq' => exact .inl (heq'.1 ▸ hlt)
  | inr heq =>
    cases h' with
    | inl hlt' => exact .inl (heq.1 ▸ hlt')
    | inr heq' => exact .inr ⟨heq.1.trans heq'.1, le_trans heq.2 heq'.2⟩

theorem mapInfoLe_total (a b : MapInfo ι) : (mapInfoLe a b || mapInfoLe b a) = true := by
  rw [Bool.or_eq_true, mapInfoLe_iff, mapInfoLe_iff]
  by_cases heq : a.1 = b.1
  · cases le_total a.2 b.2 with
    | inl hle => exact .inl (.inr ⟨heq, hle⟩)
    | inr hle => exact .inr (.inr ⟨heq.symm, hle⟩)
  · have hne : a.1.toNat ≠ b.1.toNat := fun h => heq (UInt64.toNat_inj.1 h)
    omega

/-- The range the binary search stops at: the greatest that starts at or before the address. -/
theorem lastWhile_table (addrOffset a : UInt64) (ls : List (Loaded φ ι)) :
    ∃ e, lastWhile (fun e => !decide (a < e.1)) (tableOf addrOffset ls).correl = some e ∧
      (e = (0, []) ∨ e = (sentinel, []) ∨ ∃ l ∈ ls, e ∈ l.correl) ∧ e.1 ≤ a ∧
      (∀ l ∈ ls, ∀ e' ∈ l.correl, e'.1 ≤ a → mapInfoLe e' e = true) ∧
      (sentinel ≤ a → mapInfoLe (sentinel, []) e = true) := by
  have hsorted : (tableOf addrOffset ls).correl.Pairwise fun e e' => mapInfoLe e e' = true :=
    List.pairwise_mergeSort mapInfoLe_trans mapInfoLe_total _
  have hmono : ∀ e e' : MapInfo ι, mapInfoLe e e' = true → (!decide (a < e'.1)) = true →
      (!decide (a < e.1)) = true := by
    intro e e' hle he'
    have hfst := mapInfoLe_fst hle
    simp only [Bool.not_eq_true', decide_eq_false_iff_not, UInt64.not_lt,
      UInt64.le_iff_toNat_le] at he' ⊢
    omega
  have hrefl : ∀ e : MapInfo ι, mapInfoLe e e = true := by
    intro e
    rw [mapInfoLe_iff]
    exact .inr ⟨rfl, le_rfl⟩
  have hmem : ∀ e : MapInfo ι, e ∈ (tableOf addrOffset ls).correl ↔
      (∃ l ∈ ls, e ∈ l.correl) ∨ e = (0, []) ∨ e = (sentinel, []) := by
    intro e
    simp [tableOf, List.mem_mergeSort]
  obtain ⟨e, he⟩ := lastWhile_isSome (p := fun e : MapInfo ι => !decide (a < e.1)) hsorted hmono
    ((hmem (0, [])).2 (.inr (.inl rfl))) (by simp)
  obtain ⟨hin, hpe, hgreatest⟩ := lastWhile_eq_some hrefl hsorted hmono he
  refine ⟨e, he, ?_, by simpa using hpe, ?_, ?_⟩
  · cases (hmem e).1 hin with
    | inl hl => exact .inr (.inr hl)
    | inr hs =>
      cases hs with
      | inl h0 => exact .inl h0
      | inr h1 => exact .inr (.inl h1)
  · intro l hl e' he' hle
    exact hgreatest e' ((hmem e').2 (.inl ⟨l, hl, he'⟩)) (by simpa using hle)
  · intro hle
    exact hgreatest _ ((hmem _).2 (.inr (.inr rfl))) (by simpa using hle)

omit [LinearOrder ι] in
theorem funcStarts_mem {ls : List (Loaded φ ι)} {l : Loaded φ ι} (hl : l ∈ ls) :
    ∃ l' ∈ ls, l'.func = l.func ∧ funcStarts ls l.func = (l'.low, l'.high) := by
  induction ls using List.reverseRecOn with
  | nil => cases hl
  | append_singleton ls x ih =>
    rw [funcStarts, List.foldl_append, List.foldl_cons, List.foldl_nil]
    by_cases hx : l.func = x.func
    · refine ⟨x, by simp, hx.symm, ?_⟩
      rw [hx, Function.update_self]
    · rw [Function.update_of_ne hx]
      have hmem : l ∈ ls := by
        cases List.mem_append.1 hl with
        | inl h => exact h
        | inr h => exact absurd (congrArg Loaded.func (List.mem_singleton.1 h)) hx
      obtain ⟨l', hl', hrest⟩ := ih hmem
      exact ⟨l', List.mem_append_left _ hl', hrest⟩

/-! ## Exactness -/

/-- Disjoint address ranges, with the starts inside. -/
structure Placed (objs : ParsedObjs) : Prop where
  disjoint : ∀ n n' r r', n ≠ n' → objs.frange n = some r → objs.frange n' = some r' →
    ∀ a, ¬(r.1 ≤ a ∧ a < r.2 ∧ r'.1 ≤ a ∧ a < r'.2)
  inside : ∀ n cinfos r, (n, cinfos) ∈ objs.byFunc → objs.frange n = some r →
    ∀ c ∈ cinfos, r.1 ≤ c.pcStart ∧ c.pcStart < r.2

/-- The functions of a table, no two alike. -/
structure Apart (m : Module φ ι) (ls : List (Loaded φ ι)) : Prop where
  wf : ∀ l ∈ ls, l.Wf m
  func : ∀ l ∈ ls, ∀ l' ∈ ls, l.func = l'.func → l = l'
  range : ∀ l ∈ ls, ∀ l' ∈ ls, ∀ a, l.low ≤ a → a < l.high → l'.low ≤ a → a < l'.high → l = l'

variable {isDebug m}

omit [LinearOrder ι] [DecidableEq φ] in
theorem Placed.apart {objs : ParsedObjs} (h : Placed objs) {ls : List (Loaded φ ι)}
    (hload : load isDebug m objs.frange objs.byFunc = some ls) : Apart m ls := by
  have hspec : ∀ l ∈ ls, ∃ name cinfos, (name, cinfos) ∈ objs.byFunc ∧
      m.getFunction name = some l.func ∧ objs.frange name = some (l.low, l.high) ∧ l.Wf m ∧
      loadFunc isDebug m l.func (objs.frange name) cinfos = some l := by
    intro l hl
    obtain ⟨name, cinfos, f, hmem, hf, hl⟩ := load_spec hload hl
    obtain ⟨rfl, hrange, hwf⟩ := loadFunc_wf hl fun r hr => h.inside name cinfos r hmem hr
    exact ⟨name, cinfos, hmem, hf, hrange, hwf, hl⟩
  have hname : ∀ l ∈ ls, ∀ l' ∈ ls, ∀ name cinfos cinfos', (name, cinfos) ∈ objs.byFunc →
      (name, cinfos') ∈ objs.byFunc → m.getFunction name = some l.func →
      m.getFunction name = some l'.func →
      loadFunc isDebug m l.func (objs.frange name) cinfos = some l →
      loadFunc isDebug m l'.func (objs.frange name) cinfos' = some l' → l = l' := by
    intro l _ l' _ name cinfos cinfos' hmem hmem' hf hf' hl hl'
    have hcs : (name, cinfos) = (name, cinfos') :=
      List.inj_on_of_nodup_map objs.nodup hmem hmem' rfl
    cases hcs
    rw [hf] at hf'
    rw [Option.some.inj hf', hl'] at hl
    exact (Option.some.inj hl).symm
  refine ⟨fun l hl => ?_, fun l hl l' hl' hfunc => ?_, fun l hl l' hl' a ha₁ ha₂ ha₃ ha₄ => ?_⟩
  · obtain ⟨_, _, _, _, _, hwf, _⟩ := hspec l hl
    exact hwf
  · obtain ⟨n, cs, hmem, hf, _, _, heq⟩ := hspec l hl
    obtain ⟨n', cs', hmem', hf', _, _, heq'⟩ := hspec l' hl'
    have hn : n = n' := m.name_inj n n' _ hf (hfunc ▸ hf')
    cases hn
    exact hname l hl l' hl' n cs cs' hmem hmem' hf hf' heq heq'
  · obtain ⟨n, cs, hmem, hf, hr, _, heq⟩ := hspec l hl
    obtain ⟨n', cs', hmem', hf', hr', _, heq'⟩ := hspec l' hl'
    by_cases hn : n = n'
    · cases hn
      exact hname l hl l' hl' n cs cs' hmem hmem' hf hf' heq heq'
    · exact absurd ⟨ha₁, ha₂, ha₃, ha₄⟩ (h.disjoint n n' _ _ hn hr hr' a)

variable {addrOffset pc : UInt64} {ls : List (Loaded φ ι)}

/-- When the search stops at a range of `l`, the end of `l` decides. -/
theorem Apart.lookup (h : Apart m ls) {l : Loaded φ ι} (hl : l ∈ ls) {e : MapInfo ι}
    (he : e ∈ l.correl) (hle : e.1 ≤ pc - addrOffset)
    (hlast : lastWhile (fun e => !decide (pc - addrOffset < e.1)) (tableOf addrOffset ls).correl =
      some e) :
    getLlvmInstrs m (tableOf addrOffset ls) pc =
      if pc - addrOffset ≤ l.high then some e.2 else none := by
  have hparent := (h.wf l hl).parent e he
  obtain ⟨x, hx, hxp⟩ := Option.map_eq_some_iff.1 hparent
  obtain ⟨l', hl', hfunc, hstarts⟩ := funcStarts_mem hl
  rw [h.func l' hl' l hl hfunc] at hstarts
  have hlow := UInt64.le_trans ((h.wf l hl).inside e he).1 hle
  have hoff : (tableOf addrOffset ls).addrOffset = addrOffset := rfl
  have hfs : (tableOf addrOffset ls).funcStarts l.func = (l.low, l.high) := hstarts
  simp only [getLlvmInstrs, hoff, hlast, hx, hxp, hfs, hlow, true_and]

omit [DecidableEq φ] in
/-- No range of another function lies between a range the search stops at and the address. -/
theorem Apart.eq_of_low (h : Apart m ls) {l l' : Loaded φ ι} (hl : l ∈ ls) (hl' : l' ∈ ls)
    {e : MapInfo ι} (he : e ∈ l.correl) {a : UInt64}
    (hgreatest : ∀ l ∈ ls, ∀ e' ∈ l.correl, e'.1 ≤ a → mapInfoLe e' e = true)
    (hne : l'.correl ≠ []) (hlow : l'.low ≤ a) (hlt : e.1 < l'.high) : l = l' := by
  obtain ⟨e', he', hstart⟩ := (h.wf l' hl').first hne
  have hfst := mapInfoLe_fst (hgreatest l' hl' e' he' (hstart ▸ hlow))
  have hinside := (h.wf l hl).inside e he
  refine h.range l hl l' hl' e.1 hinside.1 hinside.2 ?_ hlt
  rw [UInt64.le_iff_toNat_le, ← hstart]
  exact hfst

/-- The search stops at a range of `l`. -/
theorem Apart.exact_of_range (h : Apart m ls) {l : Loaded φ ι} (hl : l ∈ ls) {e : MapInfo ι}
    (he : e ∈ l.correl) (hle : e.1 ≤ pc - addrOffset)
    (hlast : lastWhile (fun e => !decide (pc - addrOffset < e.1)) (tableOf addrOffset ls).correl =
      some e)
    (hgreatest : ∀ l ∈ ls, ∀ e' ∈ l.correl, e'.1 ≤ pc - addrOffset → mapInfoLe e' e = true)
    (hsentinel : sentinel ≤ pc - addrOffset → mapInfoLe (sentinel, []) e = true) :
    Exact m ls (tableOf addrOffset ls) pc ↔
      ¬AtEnd ls (pc - addrOffset) ∧ ¬PastSentinel ls (pc - addrOffset) := by
  have hoff : (tableOf addrOffset ls).addrOffset = addrOffset := rfl
  have hinside := (h.wf l hl).inside e he
  have hlow := UInt64.le_trans hinside.1 hle
  have hcovers : ∀ l' ∈ ls, l'.Covers (pc - addrOffset) → l' = l := by
    intro l' hl' hcov
    exact (h.eq_of_low hl hl' he hgreatest hcov.1 hcov.2.1
      (UInt64.lt_of_le_of_lt hle hcov.2.2)).symm
  have hpast : ¬PastSentinel ls (pc - addrOffset) := by
    rintro ⟨l', hl', hcov, hsent, hall⟩
    have hfst : sentinel.toNat ≤ e.1.toNat := mapInfoLe_fst (hsentinel hsent)
    have hlt := hall e (hcovers l' hl' hcov ▸ he) hle
    rw [UInt64.lt_iff_toNat_lt] at hlt
    omega
  rw [Exact, h.lookup hl he hle hlast, hoff]
  by_cases hhigh : pc - addrOffset ≤ l.high
  · rw [if_pos hhigh]
    by_cases hlt : pc - addrOffset < l.high
    · have hcov : l.Covers (pc - addrOffset) := ⟨List.ne_nil_of_mem he, hlow, hlt⟩
      refine ⟨fun _ => ⟨?_, hpast⟩, fun _ => ⟨l, hl, hcov, e, he, rfl, hle, ?_⟩⟩
      · rintro ⟨_, _, _, _, hnone, _⟩
        exact hnone l hl hcov
      · intro e' he' hle'
        rw [UInt64.le_iff_toNat_le]
        exact mapInfoLe_fst (hgreatest l hl e' he' hle')
    · have heq : pc - addrOffset = l.high :=
        UInt64.le_antisymm hhigh (UInt64.not_lt.1 hlt)
      have hnone : ∀ l' ∈ ls, ¬l'.Covers (pc - addrOffset) := by
        intro l' hl' hcov
        have hll := hcovers l' hl' hcov
        exact hlt (hll ▸ hcov.2.2)
      constructor
      · rintro ⟨l', hl', hcov, -⟩
        exact absurd hcov (hnone l' hl')
      · intro hcond
        refine absurd ⟨l, hl, List.ne_nil_of_mem he, heq, hnone, ?_⟩ hcond.1
        by_cases hsent : pc - addrOffset < sentinel
        · exact .inl hsent
        · refine .inr ⟨e, he, ?_⟩
          rw [UInt64.le_iff_toNat_le]
          exact mapInfoLe_fst (hsentinel (UInt64.not_lt.1 hsent))
  · rw [if_neg hhigh]
    have hgt : l.high < pc - addrOffset := UInt64.not_le.1 hhigh
    refine ⟨fun _ => ⟨?_, hpast⟩, fun _ l' hl' hcov => ?_⟩
    · rintro ⟨l', hl', hne, hend, -⟩
      have hlt : e.1 < l'.high := hend ▸ UInt64.lt_trans hinside.2 hgt
      obtain ⟨e', he', hstart⟩ := (h.wf l' hl').first hne
      have hlow' : l'.low ≤ pc - addrOffset := by
        rw [hend, ← hstart]
        exact UInt64.le_of_lt ((h.wf l' hl').inside e' he').2
      rw [h.eq_of_low hl hl' he hgreatest hne hlow' hlt, ← hend] at hgt
      exact UInt64.lt_irrefl _ hgt
    · rw [hcovers l' hl' hcov] at hcov
      exact hhigh (UInt64.le_of_lt hcov.2.2)

/-- The search stops at a sentinel, whose range is empty. -/
theorem lookup_sentinel {e : MapInfo ι} (he : e.2 = [])
    (hlast : lastWhile (fun e => !decide (pc - addrOffset < e.1)) (tableOf addrOffset ls).correl =
      some e) : getLlvmInstrs m (tableOf addrOffset ls) pc = none := by
  have hoff : (tableOf addrOffset ls).addrOffset = addrOffset := rfl
  simp only [getLlvmInstrs, hoff, hlast, he, List.getLast?_nil]

omit [DecidableEq φ] in
/-- A sentinel stands before the ranges of its own start. -/
theorem Apart.lt_sentinel (h : Apart m ls) {l : Loaded φ ι} (hl : l ∈ ls) {e : MapInfo ι}
    (he : e ∈ l.correl) {start : UInt64} (hle : mapInfoLe e (start, []) = true) : e.1 < start := by
  rw [mapInfoLe_iff] at hle
  cases hle with
  | inl hlt => exact UInt64.lt_iff_toNat_lt.2 hlt
  | inr heq =>
    have hparent := (h.wf l hl).parent e he
    have hnil : e.2 = [] := by
      have hle := heq.2
      cases hr : e.2 with
      | nil => rfl
      | cons x xs =>
        rw [hr] at hle
        exact absurd (List.nil_lt_cons x xs) (not_lt.2 hle)
    rw [hnil] at hparent
    cases hparent

theorem Apart.exact_of_zero (h : Apart m ls)
    (hlast : lastWhile (fun e => !decide (pc - addrOffset < e.1)) (tableOf addrOffset ls).correl =
      some (0, []))
    (hgreatest : ∀ l ∈ ls, ∀ e' ∈ l.correl, e'.1 ≤ pc - addrOffset →
      mapInfoLe e' (0, []) = true) :
    Exact m ls (tableOf addrOffset ls) pc ↔
      ¬AtEnd ls (pc - addrOffset) ∧ ¬PastSentinel ls (pc - addrOffset) := by
  have hnone : ∀ l ∈ ls, l.correl ≠ [] → ¬l.low ≤ pc - addrOffset := by
    intro l hl hne hlow
    obtain ⟨e, he, hstart⟩ := (h.wf l hl).first hne
    have hlt := h.lt_sentinel hl he (hgreatest l hl e he (hstart ▸ hlow))
    exact UInt64.not_lt_zero hlt
  rw [Exact, lookup_sentinel rfl hlast]
  refine ⟨fun _ => ⟨?_, ?_⟩, fun _ l hl hcov => hnone l hl hcov.1 hcov.2.1⟩
  · rintro ⟨l, hl, hne, hend, -⟩
    obtain ⟨e, he, hstart⟩ := (h.wf l hl).first hne
    refine hnone l hl hne ?_
    rw [hend, ← hstart]
    exact UInt64.le_of_lt ((h.wf l hl).inside e he).2
  · rintro ⟨l, hl, hcov, -⟩
    exact hnone l hl hcov.1 hcov.2.1

theorem Apart.exact_of_sentinel (h : Apart m ls) (hle : sentinel ≤ pc - addrOffset)
    (hlast : lastWhile (fun e => !decide (pc - addrOffset < e.1)) (tableOf addrOffset ls).correl =
      some (sentinel, []))
    (hgreatest : ∀ l ∈ ls, ∀ e' ∈ l.correl, e'.1 ≤ pc - addrOffset →
      mapInfoLe e' (sentinel, []) = true) :
    Exact m ls (tableOf addrOffset ls) pc ↔
      ¬AtEnd ls (pc - addrOffset) ∧ ¬PastSentinel ls (pc - addrOffset) := by
  have hbelow : ∀ l ∈ ls, ∀ e ∈ l.correl, e.1 ≤ pc - addrOffset → e.1 < sentinel :=
    fun l hl e he hea => h.lt_sentinel hl he (hgreatest l hl e he hea)
  rw [Exact, lookup_sentinel rfl hlast]
  constructor
  · intro hnone
    refine ⟨?_, ?_⟩
    · rintro ⟨l, hl, _, hend, _, hs⟩
      cases hs with
      | inl hlt => exact UInt64.not_lt.2 hle hlt
      | inr hex =>
        obtain ⟨e, he, hse⟩ := hex
        have hlt := ((h.wf l hl).inside e he).2
        have hea : e.1 ≤ pc - addrOffset := hend ▸ UInt64.le_of_lt hlt
        exact UInt64.not_lt.2 hse (hbelow l hl e he hea)
    · rintro ⟨l, hl, hcov, -⟩
      exact hnone l hl hcov
  · intro hcond l hl hcov
    exact hcond.2 ⟨l, hl, hcov, hle, hbelow l hl⟩

theorem Apart.exact (h : Apart m ls) (addrOffset pc : UInt64) :
    Exact m ls (tableOf addrOffset ls) pc ↔
      ¬AtEnd ls (pc - addrOffset) ∧ ¬PastSentinel ls (pc - addrOffset) := by
  obtain ⟨e, hlast, hmem, hle, hgreatest, hsentinel⟩ :=
    lastWhile_table addrOffset (pc - addrOffset) ls
  cases hmem with
  | inl hzero =>
    subst hzero
    exact h.exact_of_zero hlast hgreatest
  | inr hrest =>
    cases hrest with
    | inl hsent =>
      subst hsent
      exact h.exact_of_sentinel hle hlast hgreatest
    | inr hrange =>
      obtain ⟨l, hl, he⟩ := hrange
      exact h.exact_of_range hl he hle hlast hgreatest hsentinel

/-- The lookup is exact except at the end of a function that nothing follows, and past the second
sentinel in a function that starts before it. -/
theorem exact_iff (objs : ParsedObjs) (hplaced : Placed objs)
    (hload : load isDebug m objs.frange objs.byFunc = some ls) (addrOffset pc : UInt64) :
    build isDebug m addrOffset objs = some (tableOf addrOffset ls) ∧
      (Exact m ls (tableOf addrOffset ls) pc ↔
        ¬AtEnd ls (pc - addrOffset) ∧ ¬PastSentinel ls (pc - addrOffset)) :=
  ⟨by rw [build, hload, Option.map_some], (hplaced.apart hload).exact addrOffset pc⟩

/-! ## One function of two instructions -/

def oneFunc : Module Nat Nat where
  getFunction n := if n = "main" then some 0 else none
  body f := if f = 0 then [[0, 1]] else []
  parent _ := 0
  parent_body f block hblock x _ := by
    split at hblock
    · next hf => exact hf.symm
    · cases hblock
  name_inj n n' f h h' := by
    simp only [Option.ite_none_right_eq_some] at h h'
    rw [h.1, h'.1]

def oneFuncObjs : ParsedObjs where
  byFunc := [("main", [⟨0, 0, 0x12⟩, ⟨0, 1, 0x14⟩])]
  frange n := if n = "main" then some (0x10, 0x20) else none
  nodup := List.nodup_singleton _

def oneFuncLoaded : Loaded Nat Nat := ⟨0, 0x10, 0x20, [(0x10, [0]), (0x14, [1])]⟩

theorem load_oneFunc :
    load (fun _ => false) oneFunc oneFuncObjs.frange oneFuncObjs.byFunc = some [oneFuncLoaded] := by
  decide

theorem placed_oneFunc : Placed oneFuncObjs := by
  refine ⟨?_, ?_⟩
  · intro n n' r r' hne hr hr'
    simp only [oneFuncObjs, Option.ite_none_right_eq_some] at hr hr'
    exact absurd (hr.1.trans hr'.1.symm) hne
  · intro n cinfos r hmem hr
    simp only [oneFuncObjs, Option.ite_none_right_eq_some, Option.some.injEq] at hr
    obtain ⟨-, rfl⟩ := hr
    simp only [oneFuncObjs, List.mem_singleton, Prod.mk.injEq] at hmem
    obtain ⟨-, rfl⟩ := hmem
    decide

theorem exact_iff_prologue :
    Exact oneFunc [oneFuncLoaded] (tableOf 0x400000 [oneFuncLoaded]) 0x400011 := by
  refine (exact_iff oneFuncObjs placed_oneFunc load_oneFunc 0x400000 0x400011).2.2 ⟨?_, ?_⟩
  · rintro ⟨l, hl, -, hend, -⟩
    rw [List.mem_singleton.1 hl] at hend
    exact absurd hend (by decide)
  · rintro ⟨l, -, -, hle, -⟩
    exact absurd hle (by decide)

/-- The first address after the function is taken for one of its own. -/
theorem end_taken_in : ¬Exact oneFunc [oneFuncLoaded] (tableOf 0 [oneFuncLoaded]) 0x20 := by
  intro h
  refine (((placed_oneFunc.apart load_oneFunc).exact 0 0x20).1 h).1 ?_
  refine ⟨oneFuncLoaded, List.mem_singleton_self _, List.cons_ne_nil _ _, by decide, ?_, ?_⟩
  · rintro l hl ⟨-, -, hlt⟩
    rw [List.mem_singleton.1 hl] at hlt
    exact absurd hlt (by decide)
  · exact .inl (by decide)

end Table

end CodeInfo
end ChampSim
