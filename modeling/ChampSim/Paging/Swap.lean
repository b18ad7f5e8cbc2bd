import ChampSim.Paging.Bijection
import ChampSim.Cache.Levels

/-!
# ChampSim.Paging.Swap

What a page swap invalidates.

* `System`, `translate` — the page tables with the caches of all cores, and `va_to_pa` on both. The
  calling core's own caches and the LLC are told, with the victim's key and its lines.
* `Distinct`  — no set holds a tag twice.
* `Stale`     — a valid entry that translates to the page under the victim's key, or a valid line of
  the page.
* `Flushed`   — nothing stale is left, and nothing else has changed.
* `Reached`   — the calling core is the only one with stale entries, and its TLBs hold the victim's
  key as it stands in the page table, without taking it for a page of their own.
* `swap_flushed_iff` — a swap flushes exactly when everything stale is reached.
-/

namespace ChampSim
namespace Paging

open Lib
open Cache (Level Hierarchy Block)

variable {ρ : Type}

structure System (ρ : Type) where
  paging : State
  memory : Hierarchy ρ

/-! ## The swap branch of `va_to_pa` -/

/-- `(mapped_ppage << 6) | i`, the address of line `i` of a page. -/
def line (ppage i : Nat) : Nat := ppage * 2 ^ 6 % 2 ^ 64 ||| i

def invalidate (numCpus cpu address : Nat) (l : Level) (m : Hierarchy ρ) : Hierarchy ρ :=
  { m with
    ofCore := Function.update m.ofCore l (Function.update (m.ofCore l) cpu
      (Cache.invalidateEntry (l.config numCpus cpu) (m.ofCore l cpu) address)) }

def invalidateLine (numCpus cpu : Nat) (m : Hierarchy ρ) (address : Nat) : Hierarchy ρ :=
  let m := invalidate numCpus cpu address .l1i m
  let m := invalidate numCpus cpu address .l1d m
  let m := invalidate numCpus cpu address .l2c m
  { m with llc := Cache.invalidateEntry (Cache.llc numCpus) m.llc address }

def invalidateSwapped (numCpus cpu nru ppage : Nat) (m : Hierarchy ρ) : Hierarchy ρ :=
  let m := invalidate numCpus cpu nru .itlb m
  let m := invalidate numCpus cpu nru .dtlb m
  let m := invalidate numCpus cpu nru .stlb m
  ((List.range 64).map (line ppage)).foldl (invalidateLine numCpus cpu) m

/-- The key that loses its page, and the page. -/
def evicted (c : Config) (s : State) (call : Call) : Option (Nat × Nat) :=
  (victim c s call).bind fun nru => (s.pageTable.lookup nru).map (nru, ·)

def flush (numCpus cpu : Nat) (m : Hierarchy ρ) : Option (Nat × Nat) → Hierarchy ρ
  | some (nru, ppage) => invalidateSwapped numCpus cpu nru ppage m
  | none => m

def translate (c : Config) (sys : System ρ) (call : Call) : Option (Nat × System ρ) :=
  (vaToPa c sys.paging call).map fun r =>
    (r.1, ⟨r.2, flush c.numCpus call.cpu sys.memory (evicted c sys.paging call)⟩)

/-! ## One cache -/

/-- The tags of the valid ways of a set differ. -/
def Distinct (k : Cache.Config) (s : Cache.State ρ) : Prop :=
  ∀ set, ∀ w₁ < k.numWay, ∀ w₂ < k.numWay, (s.block set w₁).valid = true →
    (s.block set w₂).valid = true → (s.block set w₁).tag = (s.block set w₂).tag → w₁ = w₂

/-- A lookup of one of the addresses finds this way. -/
def Found (k : Cache.Config) (s : Cache.State ρ) (as : List Nat) (set way : Nat) : Prop :=
  way < k.numWay ∧ (s.block set way).valid = true ∧ (s.block set way).tag ∈ as ∧
    k.getSet (s.block set way).tag = set

section Cache

variable {k : Cache.Config} {s : Cache.State ρ}

theorem setBlock_block (s : Cache.State ρ) (set way : Nat) (b : Block) (set' way' : Nat) :
    (s.setBlock set way b).block set' way' =
      if set' = set ∧ way' = way then b else s.block set' way' := by
  by_cases hset : set' = set
  · subst hset
    by_cases hway : way' = way
    · simp [Cache.State.setBlock, hway]
    · simp [Cache.State.setBlock, hway]
  · simp [Cache.State.setBlock, hset]

theorem invalidateEntry_valid (h : Distinct k s) (address set way : Nat) :
    (Found k s [address] set way ∧ (Cache.invalidateEntry k s address).block set way =
      { s.block set way with valid := false }) ∨
    (¬ Found k s [address] set way ∧
      (Cache.invalidateEntry k s address).block set way = s.block set way) := by
  unfold Cache.invalidateEntry
  split
  · rename_i w hw
    obtain ⟨hlt, hv, ht⟩ : w < k.numWay ∧ (s.block (k.getSet address) w).valid = true ∧
        (s.block (k.getSet address) w).tag = address := by
      have hp := List.find?_some hw
      simp only [Bool.and_eq_true, beq_iff_eq] at hp
      exact ⟨List.mem_range.mp (List.mem_of_find?_eq_some hw), hp⟩
    rw [setBlock_block]
    by_cases hat : set = k.getSet address ∧ way = w
    · obtain ⟨rfl, rfl⟩ := hat
      exact .inl ⟨⟨hlt, hv, by simp [ht], by rw [ht]⟩, if_pos ⟨rfl, rfl⟩⟩
    · refine .inr ⟨?_, if_neg hat⟩
      rintro ⟨hlt', hv', ht', hset⟩
      have ht' : (s.block set way).tag = address := by simpa using ht'
      rw [ht'] at hset
      subst hset
      exact hat ⟨rfl, h _ way hlt' w hlt hv' hv (ht'.trans ht.symm)⟩
  · rename_i hnone
    refine .inr ⟨?_, rfl⟩
    rintro ⟨hlt, hv, ht, hset⟩
    have ht : (s.block set way).tag = address := by simpa using ht
    rw [ht] at hset
    subst hset
    have hp := List.find?_eq_none.mp hnone way (List.mem_range.mpr hlt)
    simp [hv, ht] at hp

theorem invalidateEntry_tag (h : Distinct k s) (address set way : Nat) :
    ((Cache.invalidateEntry k s address).block set way).tag = (s.block set way).tag := by
  rcases invalidateEntry_valid h address set way with ⟨-, hb⟩ | ⟨-, hb⟩ <;> rw [hb]

theorem valid_of_invalidateEntry (h : Distinct k s) {address set way : Nat}
    (hv : ((Cache.invalidateEntry k s address).block set way).valid = true) :
    (s.block set way).valid = true := by
  rcases invalidateEntry_valid h address set way with ⟨-, hb⟩ | ⟨-, hb⟩
  · rw [hb] at hv
    cases hv
  · rwa [hb] at hv

theorem Distinct.invalidateEntry (h : Distinct k s) (address : Nat) :
    Distinct k (Cache.invalidateEntry k s address) := by
  intro set w₁ hw₁ w₂ hw₂ hv₁ hv₂ ht
  rw [invalidateEntry_tag h, invalidateEntry_tag h] at ht
  exact h set w₁ hw₁ w₂ hw₂ (valid_of_invalidateEntry h hv₁) (valid_of_invalidateEntry h hv₂) ht

/-- After invalidating a list of addresses, exactly the ways found there are invalid. -/
theorem invalidateAll_block (as : List Nat) (h : Distinct k s) (set way : Nat) :
    (Found k s as set way ∧ (as.foldl (Cache.invalidateEntry k) s).block set way =
      { s.block set way with valid := false }) ∨
    (¬ Found k s as set way ∧
      (as.foldl (Cache.invalidateEntry k) s).block set way = s.block set way) := by
  induction as generalizing s with
  | nil => exact .inr ⟨fun hf => by simpa using hf.2.2.1, rfl⟩
  | cons a as ih =>
    rw [List.foldl_cons]
    rcases invalidateEntry_valid h a set way with ⟨hfound, hb⟩ | ⟨hfound, hb⟩
    · left
      refine ⟨⟨hfound.1, hfound.2.1, ?_, hfound.2.2.2⟩, ?_⟩
      · have ha : (s.block set way).tag = a := by simpa using hfound.2.2.1
        simp [ha]
      · rcases ih (h.invalidateEntry a) with ⟨hf, -⟩ | ⟨-, hrest⟩
        · have hv := hf.2.1
          rw [hb] at hv
          cases hv
        · rw [hrest, hb]
    · have hiff : Found k (Cache.invalidateEntry k s a) as set way ↔ Found k s (a :: as) set way := by
        unfold Found
        rw [hb]
        constructor
        · rintro ⟨hlt, hv, ht, hset⟩
          exact ⟨hlt, hv, List.mem_cons_of_mem _ ht, hset⟩
        · rintro ⟨hlt, hv, ht, hset⟩
          rcases List.mem_cons.mp ht with ha | ht
          · exact absurd ⟨hlt, hv, by simp [ha], hset⟩ hfound
          · exact ⟨hlt, hv, ht, hset⟩
      rw [← hiff, ← hb]
      exact ih (h.invalidateEntry a)

end Cache

/-! ## The hierarchy -/

/-- What a swap invalidates at a level of the calling core. -/
def targets (nru ppage : Nat) (l : Level) : List Nat :=
  if l.isTlb then [nru] else (List.range 64).map (line ppage)

theorem invalidate_ofCore (numCpus cpu address : Nat) (l : Level) (m : Hierarchy ρ) (l' : Level)
    (o : Nat) : (invalidate numCpus cpu address l m).ofCore l' o =
      if l' = l ∧ o = cpu then
        Cache.invalidateEntry (l.config numCpus cpu) (m.ofCore l cpu) address
      else m.ofCore l' o := by
  by_cases hl : l' = l
  · subst hl
    by_cases ho : o = cpu
    · simp [invalidate, ho]
    · simp [invalidate, ho]
  · simp [invalidate, hl]

theorem invalidateLine_ofCore (numCpus cpu address : Nat) (m : Hierarchy ρ) (l : Level) (o : Nat) :
    (invalidateLine numCpus cpu m address).ofCore l o =
      if l.isTlb = false ∧ o = cpu then
        Cache.invalidateEntry (l.config numCpus cpu) (m.ofCore l cpu) address
      else m.ofCore l o := by
  cases l <;> simp [invalidateLine, invalidate_ofCore, Level.isTlb]

theorem invalidateLines_ofCore (numCpus cpu : Nat) (as : List Nat) (m : Hierarchy ρ) (l : Level)
    (o : Nat) : (as.foldl (invalidateLine numCpus cpu) m).ofCore l o =
      if l.isTlb = false ∧ o = cpu then
        as.foldl (Cache.invalidateEntry (l.config numCpus cpu)) (m.ofCore l cpu)
      else m.ofCore l o := by
  induction as generalizing m with
  | nil =>
    simp only [List.foldl_nil]
    split
    · rename_i h
      rw [h.2]
    · rfl
  | cons a as ih =>
    simp only [List.foldl_cons]
    rw [ih]
    split
    · rename_i h
      rw [invalidateLine_ofCore, if_pos ⟨h.1, rfl⟩]
    · rename_i h
      rw [invalidateLine_ofCore, if_neg h]

theorem invalidateLines_llc (numCpus cpu : Nat) (as : List Nat) (m : Hierarchy ρ) :
    (as.foldl (invalidateLine numCpus cpu) m).llc =
      as.foldl (Cache.invalidateEntry (Cache.llc numCpus)) m.llc := by
  induction as generalizing m with
  | nil => rfl
  | cons a as ih =>
    simp only [List.foldl_cons]
    rw [ih]
    rfl

/-- The calling core's caches lose their targets, those of the other cores keep everything. -/
theorem invalidateSwapped_ofCore (numCpus cpu nru ppage : Nat) (m : Hierarchy ρ) (l : Level)
    (o : Nat) : (invalidateSwapped numCpus cpu nru ppage m).ofCore l o =
      if o = cpu then
        (targets nru ppage l).foldl (Cache.invalidateEntry (l.config numCpus cpu))
          (m.ofCore l cpu)
      else m.ofCore l o := by
  unfold invalidateSwapped
  rw [invalidateLines_ofCore]
  by_cases ho : o = cpu
  · subst ho
    cases l <;> simp [invalidate_ofCore, Level.isTlb, targets]
  · simp [invalidate_ofCore, ho]

theorem invalidateSwapped_llc (numCpus cpu nru ppage : Nat) (m : Hierarchy ρ) :
    (invalidateSwapped numCpus cpu nru ppage m).llc =
      ((List.range 64).map (line ppage)).foldl (Cache.invalidateEntry (Cache.llc numCpus)) m.llc :=
  invalidateLines_llc ..

/-! ## Stale entries -/

/-- The page-table key of a virtual page of a core. -/
def keyOf (numCpus cpu vpage : Nat) : Option Nat :=
  (highBitMask numCpus cpu).map (vpage ||| ·)

def OfPage (ppage address : Nat) : Prop := address ∈ (List.range 64).map (line ppage)

/-- The block of core `o` translates under the key, or holds a line of the page. -/
def Copies (numCpus nru ppage : Nat) (l : Level) (o : Nat) (b : Block) : Prop :=
  if l.isTlb then b.data = ppage ∧ keyOf numCpus o b.tag = some nru else OfPage ppage b.tag

/-- The block belongs to the key or to the page. -/
def Belongs (numCpus nru ppage : Nat) (l : Level) (o : Nat) (b : Block) : Prop :=
  if l.isTlb then b.data = ppage ∨ keyOf numCpus o b.tag = some nru else OfPage ppage b.tag

def Stale (numCpus nru ppage : Nat) (l : Level) (o : Nat) (s : Cache.State ρ) (set way : Nat) :
    Prop :=
  way < (l.config numCpus o).numWay ∧ (s.block set way).valid = true ∧
    Copies numCpus nru ppage l o (s.block set way)

def StaleLlc (numCpus ppage : Nat) (s : Cache.State ρ) (set way : Nat) : Prop :=
  way < (Cache.llc numCpus).numWay ∧ (s.block set way).valid = true ∧
    OfPage ppage (s.block set way).tag

structure Flushed (numCpus nru ppage : Nat) (m m' : Hierarchy ρ) : Prop where
  core : ∀ l, ∀ o < numCpus, ∀ set way, ¬ Stale numCpus nru ppage l o (m'.ofCore l o) set way
  llc : ∀ set way, ¬ StaleLlc numCpus ppage m'.llc set way
  frame : ∀ l, ∀ o < numCpus, ∀ set way,
    (m'.ofCore l o).block set way = (m.ofCore l o).block set way ∨
      Belongs numCpus nru ppage l o ((m.ofCore l o).block set way)
  frameLlc : ∀ set way, m'.llc.block set way = m.llc.block set way ∨
    OfPage ppage (m.llc.block set way).tag

structure Reached (numCpus cpu nru ppage : Nat) (m : Hierarchy ρ) : Prop where
  /-- What is stale is the calling core's, in its set, and a TLB has it under the key itself. -/
  core : ∀ l, ∀ o < numCpus, ∀ set way, Stale numCpus nru ppage l o (m.ofCore l o) set way →
    o = cpu ∧ (l.config numCpus o).getSet ((m.ofCore l o).block set way).tag = set ∧
      (l.isTlb = true → ((m.ofCore l o).block set way).tag = nru)
  llc : ∀ set way, StaleLlc numCpus ppage m.llc set way →
    (Cache.llc numCpus).getSet (m.llc.block set way).tag = set
  /-- What the calling core's TLBs have under the key itself is the victim's. -/
  own : ∀ l : Level, l.isTlb = true → ∀ set way,
    Found (l.config numCpus cpu) (m.ofCore l cpu) [nru] set way →
      Belongs numCpus nru ppage l cpu ((m.ofCore l cpu).block set way)

/-- Tags are distinct everywhere. -/
structure AllDistinct (numCpus : Nat) (m : Hierarchy ρ) : Prop where
  core : ∀ l, ∀ o < numCpus, Distinct (l.config numCpus o) (m.ofCore l o)
  llc : Distinct (Cache.llc numCpus) m.llc

section Flush

variable {numCpus cpu nru ppage : Nat} {m : Hierarchy ρ}

theorem targets_cache {l : Level} (hl : l.isTlb = false) :
    targets nru ppage l = (List.range 64).map (line ppage) := by
  simp [targets, hl]

theorem targets_tlb {l : Level} (hl : l.isTlb = true) : targets nru ppage l = [nru] := by
  simp [targets, hl]

/-- A stale entry of the calling core that stands where it is looked for is found. -/
theorem found_of_stale {l : Level} {o set way : Nat} {s : Cache.State ρ}
    (h : Stale numCpus nru ppage l o s set way)
    (hset : (l.config numCpus o).getSet (s.block set way).tag = set)
    (htag : l.isTlb = true → (s.block set way).tag = nru) :
    Found (l.config numCpus o) s (targets nru ppage l) set way := by
  refine ⟨h.1, h.2.1, ?_, hset⟩
  cases hl : l.isTlb with
  | true =>
    rw [targets_tlb hl]
    exact List.mem_singleton.mpr (htag hl)
  | false =>
    rw [targets_cache hl]
    have hc := h.2.2
    simp only [Copies, hl, Bool.false_eq_true, if_false] at hc
    exact hc

/-- What is found is stale or, in a TLB, has the key for its tag. -/
theorem belongs_of_found (h : ∀ l : Level, l.isTlb = true → ∀ set way,
      Found (l.config numCpus cpu) (m.ofCore l cpu) [nru] set way →
        Belongs numCpus nru ppage l cpu ((m.ofCore l cpu).block set way))
    {l : Level} {set way : Nat}
    (hf : Found (l.config numCpus cpu) (m.ofCore l cpu) (targets nru ppage l) set way) :
    Belongs numCpus nru ppage l cpu ((m.ofCore l cpu).block set way) := by
  cases hl : l.isTlb with
  | true =>
    rw [targets_tlb hl] at hf
    exact h l hl set way hf
  | false =>
    rw [targets_cache hl] at hf
    simp only [Belongs, hl, Bool.false_eq_true, if_false]
    exact hf.2.2.1

theorem Reached.flushed (hd : AllDistinct numCpus m) (hcpu : cpu < numCpus)
    (h : Reached numCpus cpu nru ppage m) :
    Flushed numCpus nru ppage m (invalidateSwapped numCpus cpu nru ppage m) where
  core := by
    intro l o ho set way hstale
    rw [invalidateSwapped_ofCore] at hstale
    by_cases hoc : o = cpu
    · subst hoc
      rw [if_pos rfl] at hstale
      rcases invalidateAll_block (targets nru ppage l) (hd.core l o ho) set way with
        ⟨-, hb⟩ | ⟨hnot, hb⟩
      · have hv := hstale.2.1
        rw [hb] at hv
        cases hv
      · have hbefore : Stale numCpus nru ppage l o (m.ofCore l o) set way := by
          unfold Stale at hstale ⊢
          rwa [hb] at hstale
        obtain ⟨-, hset, htag⟩ := h.core l o ho set way hbefore
        exact hnot (found_of_stale hbefore hset htag)
    · rw [if_neg hoc] at hstale
      exact hoc (h.core l o ho set way hstale).1
  llc := by
    intro set way hstale
    rw [invalidateSwapped_llc] at hstale
    rcases invalidateAll_block ((List.range 64).map (line ppage)) hd.llc set way with
      ⟨-, hb⟩ | ⟨hnot, hb⟩
    · have hv := hstale.2.1
      rw [hb] at hv
      cases hv
    · unfold StaleLlc at hstale
      rw [hb] at hstale
      exact hnot ⟨hstale.1, hstale.2.1, hstale.2.2, h.llc set way hstale⟩
  frame := by
    intro l o ho set way
    rw [invalidateSwapped_ofCore]
    by_cases hoc : o = cpu
    · subst hoc
      rw [if_pos rfl]
      rcases invalidateAll_block (targets nru ppage l) (hd.core l o ho) set way with
        ⟨hf, -⟩ | ⟨-, hb⟩
      · exact .inr (belongs_of_found h.own hf)
      · exact .inl hb
    · rw [if_neg hoc]
      exact .inl rfl
  frameLlc := by
    intro set way
    rw [invalidateSwapped_llc]
    rcases invalidateAll_block ((List.range 64).map (line ppage)) hd.llc set way with
      ⟨hf, -⟩ | ⟨-, hb⟩
    · exact .inr hf.2.2.1
    · exact .inl hb

theorem Flushed.reached (hd : AllDistinct numCpus m) (hcpu : cpu < numCpus)
    (h : Flushed numCpus nru ppage m (invalidateSwapped numCpus cpu nru ppage m)) :
    Reached numCpus cpu nru ppage m where
  core := by
    intro l o ho set way hstale
    have hgone := h.core l o ho set way
    rw [invalidateSwapped_ofCore] at hgone
    by_cases hoc : o = cpu
    · subst hoc
      rw [if_pos rfl] at hgone
      rcases invalidateAll_block (targets nru ppage l) (hd.core l o ho) set way with
        ⟨hf, -⟩ | ⟨-, hb⟩
      · refine ⟨rfl, hf.2.2.2, fun hl => ?_⟩
        have hmem := hf.2.2.1
        rw [targets_tlb hl] at hmem
        exact List.mem_singleton.mp hmem
      · refine absurd ?_ hgone
        unfold Stale at hstale ⊢
        rwa [hb]
    · rw [if_neg hoc] at hgone
      exact absurd hstale hgone
  llc := by
    intro set way hstale
    have hgone := h.llc set way
    rw [invalidateSwapped_llc] at hgone
    rcases invalidateAll_block ((List.range 64).map (line ppage)) hd.llc set way with
      ⟨hf, -⟩ | ⟨-, hb⟩
    · exact hf.2.2.2
    · refine absurd ?_ hgone
      unfold StaleLlc at hstale ⊢
      rwa [hb]
  own := by
    intro l hl set way hf
    have hframe := h.frame l cpu hcpu set way
    rw [invalidateSwapped_ofCore, if_pos rfl, targets_tlb hl] at hframe
    rcases invalidateAll_block [nru] (hd.core l cpu hcpu) set way with ⟨-, hb⟩ | ⟨hnot, -⟩
    · rcases hframe with hsame | hbelongs
      · rw [hb] at hsame
        have hv := congrArg Block.valid hsame
        simp only [hf.2.1] at hv
        cases hv
      · exact hbelongs
    · exact absurd hf hnot

end Flush

theorem translate_memory {c : Config} {sys sys' : System ρ} {call : Call} {pa nru ppage : Nat}
    (h : translate c sys call = some (pa, sys'))
    (hswap : evicted c sys.paging call = some (nru, ppage)) :
    sys'.memory = invalidateSwapped c.numCpus call.cpu nru ppage sys.memory := by
  obtain ⟨r, -, he⟩ := Option.map_eq_some_iff.mp h
  rw [hswap, Prod.mk.injEq] at he
  rw [← he.2]
  rfl

theorem translate_of_vaToPa {c : Config} {call : Call} {s : State}
    (h : (vaToPa c s call).isSome = true) (m : Hierarchy ρ) :
    ∃ pa sys', translate c ⟨s, m⟩ call = some (pa, sys') := by
  obtain ⟨r, hs⟩ := Option.isSome_iff_exists.mp h
  have hr : translate c ⟨s, m⟩ call =
      some (r.1, ⟨r.2, flush c.numCpus call.cpu m (evicted c s call)⟩) := by
    rw [translate, hs, Option.map_some]
  exact ⟨_, _, hr⟩

/-- A call that takes page `ppage` from the key `nru` leaves no stale copy and disturbs nothing else
exactly when every stale copy is the calling core's, or in the LLC, and its TLBs have the victim, and
nothing else, under the key itself. -/
theorem swap_flushed_iff (c : Config) (sys sys' : System ρ) (call : Call) (pa nru ppage : Nat)
    (hcpu : call.cpu < c.numCpus) (hd : AllDistinct c.numCpus sys.memory)
    (hswap : evicted c sys.paging call = some (nru, ppage))
    (h : translate c sys call = some (pa, sys')) :
    Flushed c.numCpus nru ppage sys.memory sys'.memory ↔
      Reached c.numCpus call.cpu nru ppage sys.memory := by
  rw [translate_memory h hswap]
  exact ⟨fun hf => hf.reached hd hcpu, fun hr => hr.flushed hd hcpu⟩

/-! ## Two cores -/

/-- Two cores and one page of memory, which page 1 of core 0 holds. -/
def twoCores : Config := ⟨2, 1, by decide⟩

def onePage : State :=
  { State.init with
    pageTable := Finmap.singleton 1 7
    inverseTable := Finmap.singleton 7 1
    allocatedPages := 1 }

/-- Page 2 of the core. -/
def touch (cpu : Nat) : Call := ⟨cpu, 8192, 2, false, 0, [], 0⟩

def emptyMemory : Hierarchy Unit where
  ofCore := fun l o => Cache.State.init (Cache.lru (l.config 2 o))
  llc := Cache.State.init (Cache.lru (Cache.llc 2))

/-- Line 0 of page 7. -/
def pageLine : Block :=
  { Block.new 0 with valid := true, tag := 448, address := 448, fullAddr := 28672 }

/-- It is in the L1D of core 0. -/
def cachedLine : Hierarchy Unit :=
  { emptyMemory with
    ofCore := Function.update emptyMemory.ofCore .l1d (Function.update (emptyMemory.ofCore .l1d) 0
      ((emptyMemory.ofCore .l1d 0).setBlock 0 0 pageLine)) }

theorem cachedLine_block : (cachedLine.ofCore .l1d 0).block 0 0 = pageLine := by
  simp [cachedLine, setBlock_block]

/-- Nothing else is valid in the caches of the cores. -/
theorem cachedLine_valid {l : Level} {o set way : Nat}
    (hv : ((cachedLine.ofCore l o).block set way).valid = true) :
    l = .l1d ∧ o = 0 ∧ set = 0 ∧ way = 0 := by
  by_cases hl : l = .l1d
  · subst hl
    by_cases ho : o = 0
    · subst ho
      by_cases hat : set = 0 ∧ way = 0
      · exact ⟨rfl, rfl, hat⟩
      · simp only [cachedLine, Function.update_self, setBlock_block, if_neg hat] at hv
        cases hv
    · simp only [cachedLine, Function.update_self, Function.update_of_ne ho] at hv
      cases hv
  · simp only [cachedLine, Function.update_of_ne hl] at hv
    cases hv

theorem cachedLine_distinct : AllDistinct 2 cachedLine := by
  refine ⟨?_, fun set w₁ _ w₂ _ hv => by cases hv⟩
  intro l o ho set w₁ hw₁ w₂ hw₂ hv₁ hv₂ _
  rw [(cachedLine_valid hv₁).2.2.2, (cachedLine_valid hv₂).2.2.2]

theorem cachedLine_stale : Stale 2 1 7 .l1d 0 (cachedLine.ofCore .l1d 0) 0 0 := by
  have hpage : OfPage 7 pageLine.tag := by
    unfold OfPage
    decide
  unfold Stale
  rw [cachedLine_block]
  exact ⟨by decide, rfl, hpage⟩

/-- Core 0 can find its line. -/
theorem cachedLine_reached : Reached 2 0 1 7 cachedLine where
  core := by
    intro l o ho set way hstale
    obtain ⟨rfl, rfl, rfl, rfl⟩ := cachedLine_valid hstale.2.1
    refine ⟨rfl, ?_, fun htlb => absurd htlb (by decide)⟩
    rw [cachedLine_block]
    decide
  llc := by
    intro set way hstale
    cases hstale.2.1
  own := by
    intro l hl set way hf
    obtain ⟨rfl, -⟩ := cachedLine_valid hf.2.1
    exact absurd hl (by decide)

/-- Core 0 takes its own page away, and with it the line. -/
theorem swap_flushed_iff_cached :
    ∃ pa sys', translate twoCores ⟨onePage, cachedLine⟩ (touch 0) = some (pa, sys') ∧
      Stale 2 1 7 .l1d 0 (cachedLine.ofCore .l1d 0) 0 0 ∧ Flushed 2 1 7 cachedLine sys'.memory := by
  have hsome : (vaToPa twoCores onePage (touch 0)).isSome = true := by decide
  obtain ⟨pa, sys', h⟩ := translate_of_vaToPa hsome cachedLine
  have hevicted : evicted twoCores onePage (touch 0) = some (1, 7) := by decide
  have hflushed := swap_flushed_iff twoCores ⟨onePage, cachedLine⟩ sys' (touch 0) pa 1 7 (by decide)
    cachedLine_distinct hevicted h
  exact ⟨pa, sys', h, cachedLine_stale, hflushed.mpr cachedLine_reached⟩

/-- Core 1 takes the page, and core 0 keeps the line. -/
theorem swap_leaves_line :
    ∃ pa sys', translate twoCores ⟨onePage, cachedLine⟩ (touch 1) = some (pa, sys') ∧
      evicted twoCores onePage (touch 1) = some (1, 7) ∧ AllDistinct 2 cachedLine ∧
        ¬ Flushed 2 1 7 cachedLine sys'.memory := by
  have hsome : (vaToPa twoCores onePage (touch 1)).isSome = true := by decide
  obtain ⟨pa, sys', h⟩ := translate_of_vaToPa hsome cachedLine
  have hevicted : evicted twoCores onePage (touch 1) = some (1, 7) := by decide
  have hl1d : sys'.memory.ofCore .l1d 0 = cachedLine.ofCore .l1d 0 := by
    rw [translate_memory h hevicted, invalidateSwapped_ofCore, if_neg (by decide)]
  refine ⟨pa, sys', h, hevicted, cachedLine_distinct, fun hf => ?_⟩
  have hstale : Stale 2 1 7 .l1d 0 (sys'.memory.ofCore .l1d 0) 0 0 := by
    rw [hl1d]
    exact cachedLine_stale
  exact hf.core .l1d 0 (by decide) 0 0 hstale

end Paging
end ChampSim
