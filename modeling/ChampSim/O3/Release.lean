import ChampSim.O3.Dataflow

/-!
# ChampSim.O3.Release

The end of an instruction: the consumers that it has recorded are released.

* `owing r p i`      — how many sources of the consumer at `i` wait for the producer at `p`.
* `Freed`            — what a release may change in an entry.
* `releaseOne_flow`, `releaseAll_flow` — one decrement, and all of them.
* `completeExecution_flow`  — the counts are exact again, and no slot of a ready list was taken.
-/

namespace ChampSim
namespace O3

open Lib ChampSim.Core

variable {μ : Type}

/-- An entry without what a release writes. -/
def unreleased (x : OooModelInstr) : OooModelInstr :=
  { x with numRegDependent := 0, regReady := false, scheduled := .idle }

structure Freed (x x' : OooModelInstr) : Prop where
  same : unreleased x' = unreleased x
  idle : x.scheduled = .idle → x' = x
  ready : x.regReady = true → x' = x
  memory : x.isMemory = true → x'.scheduled = x.scheduled ∨
    (x'.scheduled = .inflight ∧ x'.regReady = true)

theorem Freed.refl (x : OooModelInstr) : Freed x x :=
  ⟨rfl, fun _ => rfl, fun _ => rfl, fun _ => .inl rfl⟩

theorem Freed.trans {x x' x'' : OooModelInstr} (h : Freed x x') (h' : Freed x' x'') :
    Freed x x'' where
  same := h'.same.trans h.same
  idle := by
    intro hx
    have heq := h.idle hx
    subst heq
    exact h'.idle hx
  ready := by
    intro hx
    have heq := h.ready hx
    subst heq
    exact h'.ready hx
  memory := by
    intro hx
    have hm : x'.isMemory = x.isMemory := congrArg (·.isMemory) h.same
    rcases h'.memory (hm.trans hx) with hs | hs
    · rcases h.memory hx with ht | ⟨ht, hr⟩
      · exact .inl (hs.trans ht)
      · have heq := h'.ready hr
        subst heq
        exact .inr ⟨ht, hr⟩
    · exact .inr hs

/-- A release writes the ROB and the ready lists only. -/
structure Released (s s' : Cpu μ) : Prop where
  shape : Ring.Alike unreleased s.rob s'.rob
  freed : ∀ k, Freed (s.rob.entry k) (s'.rob.entry k)
  rest : s' = { s with rob := s'.rob, rte := s'.rte }

theorem Released.refl (s : Cpu μ) : Released s s := ⟨.refl .., fun _ => .refl _, rfl⟩

theorem Released.trans {s s' s'' : Cpu μ} (h : Released s s') (h' : Released s' s'') :
    Released s s'' where
  shape := h.shape.trans h'.shape
  freed := fun k => (h.freed k).trans (h'.freed k)
  rest := by rw [h'.rest, h.rest]

/-- One entry was freed. -/
theorem released_modify {s : Cpu μ} {i : Nat} {x : OooModelInstr} {rte : Half → Feed}
    (h : Freed (s.rob.entry i) x) :
    Released s { s with rob := modify s.rob i fun _ => x, rte := rte } where
  shape := .of_update h.same
  freed := by
    intro k
    by_cases hk : k = i
    · subst hk
      show Freed _ ((modify s.rob k fun _ => x).entry k)
      rw [modify_self]
      exact h
    · show Freed _ ((modify s.rob i fun _ => x).entry k)
      rw [modify_ne hk]
      exact .refl _
  rest := rfl

/-! ## One consumer -/

section One

variable {owed : Nat → Nat} {r : Lib.Ring OooModelInstr} {i m : Nat} {x : OooModelInstr}

/-- The count of the entry at `i` goes down with what is owed to it. -/
theorem Linked.lower (h : Linked r owed) (hi : r.Live i) (howed : owed i = m + 1)
    (hcount : x.numRegDependent = (r.entry i).numRegDependent - 1)
    (hlinks : (links x).2 = (links (r.entry i)).2) :
    Linked (modify r i fun _ => x) (Function.update owed i m) := by
  have ha : Ring.Alike (fun y => (links y).2) r (modify r i fun _ => x) := alike_modify hlinks
  have hexec : ∀ p, (((modify r i fun _ => x).entry p).executed = .completed ↔
      (r.entry p).executed = .completed) := by
    intro p
    have hbeq : (((modify r i fun _ => x).entry p).executed == .completed) =
      ((r.entry p).executed == .completed) := congrArg (·.1) (ha.entry p)
    rw [← beq_iff_eq, hbeq, beq_iff_eq]
  have hinstrs : ∀ p, ((modify r i fun _ => x).entry p).registersInstrsDependOnMe =
      (r.entry p).registersInstrsDependOnMe := fun p => congrArg (·.2.1) (ha.entry p)
  have hindex : ∀ p, ((modify r i fun _ => x).entry p).registersIndexDependOnMe =
      (r.entry p).registersIndexDependOnMe := fun p => congrArg (·.2.2.1) (ha.entry p)
  have hproducer : ∀ p, ((modify r i fun _ => x).entry p).regRawProducer =
      (r.entry p).regRawProducer := fun p => congrArg (·.2.2.2) (ha.entry p)
  refine ⟨h.window.modify hi _, fun p j k hk => ?_, fun p j k hk => ?_, fun k hk => ?_⟩
  · rw [hindex] at hk
    exact h.older p j k hk
  · rw [hindex] at hk
    rw [hinstrs, hproducer]
    exact h.listed p j k hk
  · rw [pairs_congr ha.size hexec fun p j => by rw [hindex]]
    have hold := h.count k hk
    by_cases hki : k = i
    · subst hki
      rw [modify_self, hcount, hold, Function.update_self, howed]
      push_cast
      omega
    · rw [modify_ne hki, Function.update_of_ne hki]
      exact hold

theorem Dep.lower (h : Dep owed r) (hi : r.Live i) (howed : owed i = m + 1)
    (hcount : x.numRegDependent = (r.entry i).numRegDependent - 1)
    (hlinks : (links x).2 = (links (r.entry i)).2) (hidle : x.scheduled ≠ .idle)
    (hproper : Proper x) : Dep (Function.update owed i m) (Core.modify r i fun _ => x) := by
  have hindex : ∀ p, ((Core.modify r i fun _ => x).entry p).registersIndexDependOnMe =
      (r.entry p).registersIndexDependOnMe := fun p => congrArg (·.2.2.1)
        ((alike_modify (π := fun y => (links y).2) (f := fun _ => x) hlinks).entry p)
  refine .of_proper (h.linked.lower hi howed hcount hlinks) (fun p j k hk => ?_) fun k => ?_
  · rw [hindex] at hk
    by_cases hki : k = i
    · subst hki
      rw [modify_self]
      exact hidle
    · rw [modify_ne hki]
      exact h.scheduled p j k hk
  · by_cases hki : k = i
    · subst hki
      rw [modify_self]
      exact hproper
    · rw [modify_ne hki]
      exact h.proper k

end One

section Release

variable {s : Cpu μ} {l : Half → List Nat} {owed : Nat → Nat} {i m : Nat}

/-- The consumer with its count lowered. -/
def lowered (x : OooModelInstr) : OooModelInstr :=
  { x with numRegDependent := x.numRegDependent - 1 }

/-- The consumer with its last producer gone. -/
def released (done : Progress) (x : OooModelInstr) : OooModelInstr :=
  { lowered x with regReady := true, scheduled := done }

theorem modify_modify (r : Lib.Ring OooModelInstr) (i : Nat) (f g : OooModelInstr → OooModelInstr) :
    modify (modify r i f) i g = modify r i fun _ => g (f (r.entry i)) := by
  simp [Core.modify]

theorem releaseOne_waits (h : (lowered (s.rob.entry i)).numRegDependent ≠ 0) :
    releaseOne i s = some { s with rob := modify s.rob i fun _ => lowered (s.rob.entry i) } := by
  unfold releaseOne
  dsimp only
  rw [if_neg]
  · rfl
  · simpa [Cpu.modifyRob, lowered] using h

theorem releaseOne_memory (h : (lowered (s.rob.entry i)).numRegDependent = 0)
    (hm : (s.rob.entry i).isMemory = true) :
    releaseOne i s =
      some { s with rob := modify s.rob i fun _ => released .inflight (s.rob.entry i) } := by
  have hself : ((s.modifyRob i lowered).rob.entry i) = lowered (s.rob.entry i) := modify_self ..
  unfold releaseOne
  dsimp only
  change (if ((s.modifyRob i lowered).rob.entry i).numRegDependent = 0 then
    if ((s.modifyRob i lowered).rob.entry i).isMemory = true then _ else _ else _) = _
  rw [hself, if_pos h, if_pos (show (lowered (s.rob.entry i)).isMemory = true from hm)]
  simp only [Cpu.modifyRob, modify_modify]
  rfl

theorem releaseOne_ready (h : (lowered (s.rob.entry i)).numRegDependent = 0)
    (hm : (s.rob.entry i).isMemory = false)
    (hfree : (s.rte .zero).slot (s.rte .zero).tail = robSize) :
    releaseOne i s = some { s with
      rob := modify s.rob i fun _ => released .completed (s.rob.entry i)
      rte := Function.update s.rte .zero ((s.rte .zero).push i) } := by
  have hself : ((s.modifyRob i lowered).rob.entry i) = lowered (s.rob.entry i) := modify_self ..
  unfold releaseOne
  dsimp only
  change (if ((s.modifyRob i lowered).rob.entry i).numRegDependent = 0 then
    if ((s.modifyRob i lowered).rob.entry i).isMemory = true then _ else _ else _) = _
  have hmem : ¬ (lowered (s.rob.entry i)).isMemory = true := by
    show ¬ (s.rob.entry i).isMemory = true
    rw [hm]
    exact Bool.false_ne_true
  rw [hself, if_pos h, if_neg hmem]
  simp only [Cpu.modifyRob, modify_modify, addReady]
  rw [if_neg (hfree ▸ lt_irrefl robSize)]
  rfl

/-- A consumer that something is owed to does not wait for issue, and is not issued. -/
theorem Dep.not_ready (h : Dep owed s.rob) (hi : s.rob.Live i)
    (hs : (s.rob.entry i).scheduled ≠ .idle) (howed : owed i = m + 1) :
    (s.rob.entry i).regReady = false ∧ (s.rob.entry i).executed = .idle := by
  have hcount := h.linked.count i hi
  have hready : (s.rob.entry i).regReady = false := by
    by_contra hne
    have hzero := (h.ready i hs).mp (by simpa using hne)
    omega
  refine ⟨hready, ?_⟩
  by_contra hne
  rw [h.issued i hne] at hready
  cases hready

theorem releaseOne_flow (h : Dep owed s.rob) (hl : Lists s.rob s.rte l) (hi : s.rob.Live i)
    (hs : (s.rob.entry i).scheduled ≠ .idle) (howed : owed i = m + 1) :
    ∃ s' l', releaseOne i s = some s' ∧ Dep (Function.update owed i m) s'.rob ∧
      Lists s'.rob s'.rte l' ∧ Released s s' := by
  obtain ⟨hready, hexec⟩ := h.not_ready hi hs howed
  have hnot : ¬ Waiting s.rob i := fun hwait => by
    have hr := hwait.ready
    rw [hready] at hr
    cases hr
  have hold : ∀ {k : Nat} (x : OooModelInstr), k ≠ i →
      (Waiting (modify s.rob i fun _ => x) k ↔ Waiting s.rob k) := fun x hk => waiting_modify hk _
  by_cases hzero : (lowered (s.rob.entry i)).numRegDependent = 0
  · cases hm : (s.rob.entry i).isMemory with
    | true =>
      have hdep := h.lower (x := released .inflight (s.rob.entry i)) hi howed rfl rfl
        (fun hx => by cases hx)
        ⟨fun hx => (by cases hx), fun _ => ⟨fun _ => hzero, fun _ => rfl⟩, fun _ => rfl⟩
      refine ⟨_, l, releaseOne_memory hzero hm, hdep, hl.congr fun k => ?_,
        released_modify ⟨rfl, fun hx => absurd hx hs, fun hx => ?_, fun _ => .inr ⟨rfl, rfl⟩⟩⟩
      · by_cases hk : k = i
        · subst hk
          refine ⟨fun hwait => ?_, fun hwait => absurd hwait hnot⟩
          have hmem := hwait.memory
          rw [modify_self] at hmem
          exact absurd (hm.symm.trans hmem) (by decide)
        · exact hold _ hk
      · rw [hready] at hx
        cases hx
    | false =>
      obtain ⟨-, hfree⟩ := hl.room h.linked.window hi hnot .zero
      have hdep := h.lower (x := released .completed (s.rob.entry i)) hi howed rfl rfl
        (fun hx => by cases hx)
        ⟨fun hx => (by cases hx), fun _ => ⟨fun _ => hzero, fun _ => rfl⟩, fun _ => rfl⟩
      have hwaiting : ∀ k, Waiting (modify s.rob i fun _ =>
          released .completed (s.rob.entry i)) k ↔ Waiting s.rob k ∨ k = i := by
        intro k
        by_cases hk : k = i
        · subst hk
          have hself := modify_self s.rob k fun _ => released .completed (s.rob.entry k)
          refine ⟨fun _ => .inr rfl, fun _ => ⟨hi, ?_, ?_, ?_, ?_⟩⟩
          · rw [hself]
            exact hm
          · rw [hself]
            exact fun hx => by cases hx
          · rw [hself]
            rfl
          · rw [hself]
            exact hexec
        · exact (hold _ hk).trans (or_iff_left hk).symm
      have hpush := hl.push h.linked.window hi hnot .zero hwaiting
      refine ⟨_, _, releaseOne_ready hzero hm hfree, hdep, hpush,
        released_modify ⟨rfl, fun hx => absurd hx hs, fun hx => ?_, fun hx => ?_⟩⟩
      · rw [hready] at hx
        cases hx
      · rw [hm] at hx
        cases hx
  · have hdep := h.lower (x := lowered (s.rob.entry i)) hi howed rfl rfl hs
      ⟨fun hx => absurd hx hs, fun _ => ⟨fun hx => ?_, fun hx => absurd hx hzero⟩,
        fun hx => absurd hexec hx⟩
    · refine ⟨_, l, releaseOne_waits hzero, hdep, hl.congr fun k => ?_,
        released_modify ⟨rfl, fun hx => absurd hx hs, fun hx => ?_, fun _ => .inl rfl⟩⟩
      · by_cases hk : k = i
        · subst hk
          refine ⟨fun hwait => ?_, fun hwait => absurd hwait hnot⟩
          have hr := hwait.ready
          rw [modify_self] at hr
          exact absurd (hready.symm.trans hr) (by decide)
        · exact hold _ hk
      · rw [hready] at hx
        cases hx
    · have hr : (s.rob.entry i).regReady = true := hx
      rw [hready] at hr
      cases hr

/-! ## All consumers -/

/-- The sources, of those in `js`, for which the consumer at `i` waits for `p`. -/
def owingOf (r : Lib.Ring OooModelInstr) (p i : Nat) (js : List Nat) : Nat :=
  (js.filter fun j => i ∈ (r.entry p).registersIndexDependOnMe j).length

def owing (r : Lib.Ring OooModelInstr) (p i : Nat) : Nat :=
  owingOf r p i (List.range numInstrSources)

theorem Released.index {s s' : Cpu μ} (h : Released s s') (p : Nat) :
    (s'.rob.entry p).registersIndexDependOnMe = (s.rob.entry p).registersIndexDependOnMe :=
  congrArg (·.registersIndexDependOnMe) (h.shape.entry p)

theorem Released.owing {s s' : Cpu μ} (h : Released s s') (p i : Nat) (js : List Nat) :
    owingOf s'.rob p i js = owingOf s.rob p i js := by
  unfold owingOf
  rw [h.index]

theorem releaseSources_flow (p i : Nat) (js : List Nat) :
    ∀ {s : Cpu μ} {l : Half → List Nat} {owed : Nat → Nat} {m : Nat}, Dep owed s.rob →
      Lists s.rob s.rte l → owed i = m + owingOf s.rob p i js →
      ∃ s' l', releaseSources p i js s = some s' ∧ Dep (Function.update owed i m) s'.rob ∧
        Lists s'.rob s'.rte l' ∧ Released s s' := by
  induction js with
  | nil =>
    intro s l owed m h hl howed
    have hsame : Function.update owed i m = owed := by
      rw [show m = owed i from howed.symm]
      exact Function.update_eq_self i owed
    exact ⟨s, l, rfl, by rw [hsame]; exact h, hl, .refl s⟩
  | cons j js ih =>
    intro s l owed m h hl howed
    by_cases hj : i ∈ (s.rob.entry p).registersIndexDependOnMe j
    · have hsplit : owingOf s.rob p i (j :: js) = owingOf s.rob p i js + 1 := by
        simp [owingOf, hj]
      obtain ⟨s₁, l₁, hrun, hdep, hlists, hrel⟩ := releaseOne_flow
        (m := m + owingOf s.rob p i js) h hl (h.linked.older p j i hj).2.1
        (h.scheduled p j i hj) (by omega)
      obtain ⟨s₂, l₂, hrun', hdep', hlists', hrel'⟩ := ih (m := m) hdep hlists
        (by rw [Function.update_self, hrel.owing])
      refine ⟨s₂, l₂, ?_, ?_, hlists', hrel.trans hrel'⟩
      · simp only [releaseSources, if_pos hj, hrun]
        exact hrun'
      · rwa [Function.update_idem] at hdep'
    · have hsame : owingOf s.rob p i (j :: js) = owingOf s.rob p i js := by
        simp [owingOf, hj]
      obtain ⟨s', l', hrun, hrest⟩ := ih (m := m) h hl (hsame ▸ howed)
      exact ⟨s', l', by simp only [releaseSources, if_neg hj, hrun], hrest⟩

theorem releaseAll_flow (p : Nat) (is : List Nat) :
    ∀ {s : Cpu μ} {l : Half → List Nat} {owed : Nat → Nat}, is.Nodup → Dep owed s.rob →
      Lists s.rob s.rte l → (∀ i ∈ is, owed i = owing s.rob p i) → (∀ i ∉ is, owed i = 0) →
      ∃ s' l', releaseAll p is s = some s' ∧ Dep (fun _ => 0) s'.rob ∧
        Lists s'.rob s'.rte l' ∧ Released s s' := by
  induction is with
  | nil =>
    intro s l owed _ h hl _ hout
    have hzero : owed = fun _ => 0 := funext fun i => hout i List.not_mem_nil
    exact ⟨s, l, rfl, hzero ▸ h, hl, .refl s⟩
  | cons i is ih =>
    intro s l owed hnodup h hl hin hout
    obtain ⟨hi, hnodup⟩ := List.nodup_cons.mp hnodup
    obtain ⟨s₁, l₁, hrun, hdep, hlists, hrel⟩ := releaseSources_flow p i
      (List.range numInstrSources) (m := 0) h hl (by
        rw [hin i List.mem_cons_self]
        exact (Nat.zero_add _).symm)
    have hin₁ : ∀ k ∈ is, Function.update owed i 0 k = owing s₁.rob p k := by
      intro k hk
      have hki : k ≠ i := by
        rintro rfl
        exact hi hk
      rw [Function.update_of_ne hki, hin k (List.mem_cons_of_mem i hk)]
      exact (hrel.owing p k _).symm
    have hout₁ : ∀ k ∉ is, Function.update owed i 0 k = 0 := by
      intro k hk
      by_cases hki : k = i
      · subst hki
        exact Function.update_self ..
      · rw [Function.update_of_ne hki]
        exact hout k fun hmem => (List.mem_cons.mp hmem).elim hki hk
    obtain ⟨s₂, l₂, hrun', hdep', hlists', hrel'⟩ := ih hnodup hdep hlists hin₁ hout₁
    refine ⟨s₂, l₂, ?_, hdep', hlists', hrel.trans hrel'⟩
    simp only [releaseAll, hrun]
    exact hrun'

end Release

/-! ## The end of an instruction -/

section Complete

variable {r : Lib.Ring OooModelInstr} {s : Cpu μ} {l : Half → List Nat} {p i : Nat}

def markCompleted (x : OooModelInstr) : OooModelInstr := { x with executed := .completed }

theorem executed_markCompleted {k : Nat} (hk : k ≠ p) :
    ((modify r p markCompleted).entry k).executed = (r.entry k).executed := by rw [modify_ne hk]

theorem index_markCompleted (k : Nat) :
    ((modify r p markCompleted).entry k).registersIndexDependOnMe =
      (r.entry k).registersIndexDependOnMe :=
  congrArg (·.registersIndexDependOnMe)
    ((alike_modify (π := fun x => { x with executed := .idle }) (f := markCompleted) rfl).entry k)

/-- The pairs of a producer that is done no longer count. -/
theorem card_pairs_completed (hp : p < r.size) (hexec : (r.entry p).executed ≠ .completed) :
    (pairs r i).card = (pairs (modify r p markCompleted) i).card + owing r p i := by
  have hsplit : pairs r i = pairs (modify r p markCompleted) i ∪
      ((Finset.range numInstrSources).filter fun j =>
        i ∈ (r.entry p).registersIndexDependOnMe j).map ⟨(p, ·), Prod.mk_right_injective p⟩ := by
    ext ⟨q, j⟩
    simp only [Finset.mem_union, mem_pairs, Finset.mem_map, Finset.mem_filter, Finset.mem_range,
      Function.Embedding.coeFn_mk, Prod.mk.injEq, index_markCompleted]
    constructor
    · rintro ⟨hlt, hx, hi⟩
      by_cases hq : q = p
      · subst hq
        exact .inr ⟨j, ⟨hlt.2, hi⟩, rfl, rfl⟩
      · exact .inl ⟨hlt, by rwa [executed_markCompleted hq], hi⟩
    · rintro (⟨hlt, hx, hi⟩ | ⟨k, ⟨hk, hi⟩, rfl, rfl⟩)
      · by_cases hq : q = p
        · subst hq
          rw [modify_self] at hx
          exact absurd rfl hx
        · rw [executed_markCompleted hq] at hx
          exact ⟨hlt, hx, hi⟩
      · exact ⟨⟨hp, hk⟩, hexec, hi⟩
  have hdisjoint : Disjoint (pairs (modify r p markCompleted) i)
      (((Finset.range numInstrSources).filter fun j =>
        i ∈ (r.entry p).registersIndexDependOnMe j).map ⟨(p, ·), Prod.mk_right_injective p⟩) := by
    rw [Finset.disjoint_left]
    rintro ⟨q, j⟩ hmem hmap
    obtain ⟨k, -, heq⟩ := Finset.mem_map.mp hmap
    obtain ⟨rfl, -⟩ := Prod.mk.inj heq
    have hx := (mem_pairs.mp hmem).2.1
    rw [modify_self] at hx
    exact hx rfl
  rw [hsplit, Finset.card_union_of_disjoint hdisjoint, Finset.card_map]
  rfl

theorem Dep.complete (h : Dep (fun _ => 0) r) (hp : r.Live p)
    (hexec : (r.entry p).executed = .inflight) :
    Dep (owing r p) (Core.modify r p markCompleted) := by
  have hsched : (r.entry p).scheduled ≠ .idle := by
    intro hidle
    have hx := (h.fresh p hidle).2.1
    rw [hexec] at hx
    cases hx
  have hscheduled : ∀ k, ((Core.modify r p markCompleted).entry k).scheduled =
      (r.entry k).scheduled := fun k => congrArg (·.scheduled)
    ((alike_modify (π := fun x => { x with executed := .idle }) (f := markCompleted) rfl).entry k)
  have hlisted : ∀ k, ((Core.modify r p markCompleted).entry k).registersInstrsDependOnMe =
      (r.entry k).registersInstrsDependOnMe ∧
      ((Core.modify r p markCompleted).entry k).regRawProducer = (r.entry k).regRawProducer ∧
      ((Core.modify r p markCompleted).entry k).numRegDependent = (r.entry k).numRegDependent := by
    intro k
    have hsame := (alike_modify (π := fun x => { x with executed := .idle }) (r := r) (i := p)
      (f := markCompleted) rfl).entry k
    exact ⟨congrArg (·.registersInstrsDependOnMe) hsame, congrArg (·.regRawProducer) hsame,
      congrArg (·.numRegDependent) hsame⟩
  refine .of_proper ⟨h.linked.window.modify hp _, fun q j i hi => ?_, fun q j i hi => ?_,
    fun i hi => ?_⟩ (fun q j i hi => ?_) fun k => ?_
  · rw [index_markCompleted] at hi
    exact h.linked.older q j i hi
  · rw [index_markCompleted] at hi
    rw [(hlisted q).1, (hlisted q).2.1]
    exact h.linked.listed q j i hi
  · rw [(hlisted i).2.2, h.linked.count i hi, card_pairs_completed
      (h.linked.window.size ▸ h.linked.window.lt_size hp) (by rw [hexec]; decide)]
    rfl
  · rw [index_markCompleted] at hi
    rw [hscheduled]
    exact h.scheduled q j i hi
  · by_cases hk : k = p
    · subst hk
      rw [modify_self]
      have hproper := h.proper k
      exact ⟨fun hx => absurd hx hsched, hproper.ready,
        fun _ => hproper.issued (by rw [hexec]; decide)⟩
    · rw [modify_ne hk]
      exact h.proper k

/-- What `complete_execution` does to the state, when it does something. -/
structure Done (p : Nat) (s s' : Cpu μ) : Prop where
  inflight : (s.rob.entry p).executed = .inflight
  due : (s.rob.entry p).eventCycle ≤ s.cycle
  operands : (s.rob.entry p).isMemory = true → (s.rob.entry p).numMemOps = 0
  shape : Ring.Alike unreleased (modify s.rob p markCompleted) s'.rob
  freed : ∀ k, Freed ((modify s.rob p markCompleted).entry k) (s'.rob.entry k)
  rest : s' = { s with
    rob := s'.rob
    rte := s'.rte
    fetchResumeCycle :=
      if (s.rob.entry p).branchMispredicted then add64 s.cycle branchMispredictPenalty
      else s.fetchResumeCycle
    inflightRegExecutions :=
      if (s.rob.entry p).isMemory then s.inflightRegExecutions
      else sub32 s.inflightRegExecutions 1
    inflightMemExecutions :=
      if (s.rob.entry p).isMemory then sub32 s.inflightMemExecutions 1
      else s.inflightMemExecutions
    completedExecutions := add64 s.completedExecutions 1 }

/-- A consumer that `p` owes something is in the set that the release goes through. -/
theorem Dep.mem_expand {owed : Nat → Nat} (h : Dep owed r) (hi : owing r p i ≠ 0) :
    (r.entry p).regRawProducer = true ∧
      i ∈ expand (r.entry p).registersInstrsDependOnMe robSize := by
  obtain ⟨j, hj⟩ := List.exists_mem_of_length_pos (Nat.pos_of_ne_zero hi)
  have hmem : i ∈ (r.entry p).registersIndexDependOnMe j := by
    simpa using (List.mem_filter.mp hj).2
  obtain ⟨hlisted, hproducer⟩ := h.linked.listed p j i hmem
  refine ⟨hproducer, List.mem_filter.mpr ⟨List.mem_range.mpr ?_, by simpa using hlisted⟩⟩
  exact h.linked.window.lt_size (h.linked.older p j i hmem).2.1

theorem finishExecution_flow (h : Dep (owing s.rob p) s.rob) (hl : Lists s.rob s.rte l) :
    ∃ s' l', finishExecution p s = some s' ∧ Dep (fun _ => 0) s'.rob ∧ Lists s'.rob s'.rte l' ∧
      Ring.Alike unreleased s.rob s'.rob ∧ (∀ k, Freed (s.rob.entry k) (s'.rob.entry k)) ∧
      s' = { s with
        rob := s'.rob
        rte := s'.rte
        fetchResumeCycle :=
          if (s.rob.entry p).branchMispredicted then add64 s.cycle branchMispredictPenalty
          else s.fetchResumeCycle
        completedExecutions := add64 s.completedExecutions 1 } := by
  have hrelease : ∃ t l', (if (s.rob.entry p).regRawProducer = true then
        regRawRelease p { s with completedExecutions := add64 s.completedExecutions 1 }
      else some { s with completedExecutions := add64 s.completedExecutions 1 }) = some t ∧
      Dep (fun _ => 0) t.rob ∧ Lists t.rob t.rte l' ∧
      Released { s with completedExecutions := add64 s.completedExecutions 1 } t := by
    split
    · refine releaseAll_flow p _ (List.nodup_range.filter _) h hl (fun i _ => rfl) fun i hi => ?_
      by_contra hne
      exact hi (h.mem_expand hne).2
    · rename_i hproducer
      have hzero : owing s.rob p = fun _ => 0 := funext fun i => by
        by_contra hne
        exact hproducer (h.mem_expand hne).1
      exact ⟨_, l, rfl, by rw [← hzero]; exact h, hl, .refl _⟩
  obtain ⟨t, l', hrun, hdep, hlists, hrel⟩ := hrelease
  have hfinish : finishExecution p s = some (if (s.rob.entry p).branchMispredicted = true then
      { t with fetchResumeCycle := add64 t.cycle branchMispredictPenalty } else t) := by
    simp only [finishExecution]
    rw [hrun]
    rfl
  have hrest := hrel.rest
  cases hb : (s.rob.entry p).branchMispredicted with
  | true =>
    rw [hb, if_pos rfl] at hfinish
    refine ⟨_, l', hfinish, hdep, hlists, hrel.shape, hrel.freed, ?_⟩
    rw [hrest]
    rfl
  | false =>
    rw [hb, if_neg Bool.false_ne_true] at hfinish
    refine ⟨_, l', hfinish, hdep, hlists, hrel.shape, hrel.freed, ?_⟩
    rw [hrest]
    rfl

theorem completeExecution_flow (h : Dep (fun _ => 0) s.rob) (hl : Lists s.rob s.rte l) (p : Nat) :
    ∃ s' l', completeExecution p s = some s' ∧ Dep (fun _ => 0) s'.rob ∧
      Lists s'.rob s'.rte l' ∧ (s' = s ∨ Done p s s') := by
  by_cases hdue : (s.rob.entry p).executed = .inflight ∧ (s.rob.entry p).eventCycle ≤ s.cycle
  · have hlive : s.rob.Live p := h.linked.window.live_of (·.executed) (fun _ => rfl) (by
      rw [hdue.1]
      decide)
    have hdep := h.complete hlive hdue.1
    have howing : owing s.rob p = owing (modify s.rob p markCompleted) p := funext fun i => by
      unfold owing owingOf
      rw [index_markCompleted]
    rw [howing] at hdep
    have hlists : Lists (modify s.rob p markCompleted) s.rte l := hl.congr fun k => by
      by_cases hk : k = p
      · subst hk
        refine ⟨fun hwait => ?_, fun hwait => ?_⟩
        · have hx := hwait.executed
          rw [modify_self] at hx
          cases hx
        · have hx := hwait.executed
          rw [hdue.1] at hx
          cases hx
      · exact waiting_modify hk _
    cases hm : (s.rob.entry p).isMemory with
    | false =>
      obtain ⟨s', l', hrun, hdep', hlists', hshape, hfreed, hrest⟩ := finishExecution_flow
        (s := { s with
          rob := modify s.rob p markCompleted
          inflightRegExecutions := sub32 s.inflightRegExecutions 1 }) hdep hlists
      refine ⟨s', l', ?_, hdep', hlists', .inr ⟨hdue.1, hdue.2, fun hx => ?_, hshape, hfreed, ?_⟩⟩
      · unfold completeExecution
        rw [if_pos hm, if_pos hdue]
        exact hrun
      · rw [hm] at hx
        cases hx
      · rw [hrest]
        simp [hm, modify_self, markCompleted]
    | true =>
      by_cases hops : (s.rob.entry p).numMemOps = 0
      · obtain ⟨s', l', hrun, hdep', hlists', hshape, hfreed, hrest⟩ := finishExecution_flow
          (s := { s with
            rob := modify s.rob p markCompleted
            inflightMemExecutions := sub32 s.inflightMemExecutions 1 }) hdep hlists
        refine ⟨s', l', ?_, hdep', hlists', .inr ⟨hdue.1, hdue.2, fun _ => hops, hshape, hfreed,
          ?_⟩⟩
        · unfold completeExecution
          rw [if_neg (by rw [hm]; decide), if_pos hops, if_pos hdue]
          exact hrun
        · rw [hrest]
          simp [hm, modify_self, markCompleted]
      · refine ⟨s, l, ?_, h, hl, .inl rfl⟩
        unfold completeExecution
        rw [if_neg (by rw [hm]; decide), if_neg hops]
  · refine ⟨s, l, ?_, h, hl, .inl rfl⟩
    unfold completeExecution
    dsimp only
    rw [if_neg hdue, if_neg hdue, ite_self, ite_self]

end Complete

end O3
end ChampSim
