import ChampSim.Cache.Writes

/-!
# ChampSim.Cache.Dirty

A dirty block is valid, as long as no valid dirty block is invalidated.

* `DirtyValid` — every dirty block is valid.
* `Spares`     — no block of the lines named is valid and dirty.
* `write_live` — one write, under both.
* `run_dirtyValid`, `writeback_live` — whole runs, and what a further act writes back.
* `writeback_stale` — a line is invalidated while dirty, and written back when its way is used
  again.
-/

namespace ChampSim
namespace Cache

open Lib

variable {ρ : Type} {c : Config}

def DirtyValid (s : State ρ) : Prop :=
  ∀ set way, (s.block set way).dirty = true → (s.block set way).valid = true

def Spares (c : Config) (A : List Nat) (s : State ρ) : Prop :=
  ∀ a ∈ A, ∀ way < c.numWay, (s.block (c.getSet a) way).valid = true →
    (s.block (c.getSet a) way).tag = a → (s.block (c.getSet a) way).dirty = false

instance (A : List Nat) (s : State ρ) : Decidable (Spares c A s) :=
  inferInstanceAs (Decidable (∀ a ∈ A, ∀ way < c.numWay, _ → _ → _))

section Marks

variable {A : List Nat} {Z D : Prop} {s s' : State ρ}

theorem sent_of_calls (h : s'.calls = s.calls) : s'.sent = s.sent := by
  simp [State.sent, h]

theorem DirtyValid.congr (h : DirtyValid s)
    (hline : ∀ set way, (s'.block set way).line = (s.block set way).line) : DirtyValid s' := by
  intro set way hd
  have hl := hline set way
  simp only [Block.line, Line.mk.injEq] at hl
  rw [hl.1]
  exact h set way (hl.2.1 ▸ hd)

theorem Spares.congr (h : Spares c A s)
    (hline : ∀ set way, (s'.block set way).line = (s.block set way).line) : Spares c A s' := by
  intro a ha way hway hv ht
  have hl := hline (c.getSet a) way
  simp only [Block.line, Line.mk.injEq] at hl
  rw [hl.2.1]
  exact h a ha way hway (hl.1 ▸ hv) (hl.2.2.1 ▸ ht)

/-- One block gets a new value. -/
theorem DirtyValid.setBlock (h : DirtyValid s) {set way : Nat} {b : Block}
    (hb : b.dirty = true → b.valid = true) : DirtyValid (s.setBlock set way b) := by
  intro i j hd
  by_cases hi : i = set
  · subst hi
    by_cases hj : j = way
    · subst hj
      simp only [State.setBlock, Function.update_self] at hd ⊢
      exact hb hd
    · simp only [State.setBlock, Function.update_self, Function.update_of_ne hj] at hd ⊢
      exact h i j hd
  · simp only [State.setBlock, Function.update_of_ne hi] at hd ⊢
    exact h i j hd

theorem Spares.setBlock (h : Spares c A s) {set way : Nat} {b : Block}
    (hb : b.valid = true → b.dirty = false) : Spares c A (s.setBlock set way b) := by
  intro a ha j hj hv ht
  by_cases hi : c.getSet a = set
  · by_cases hjw : j = way
    · simp only [State.setBlock, hi, hjw, Function.update_self] at hv ⊢
      exact hb hv
    · simp only [State.setBlock, hi, Function.update_self, Function.update_of_ne hjw] at hv ht ⊢
      exact hi ▸ h a ha j hj (by rw [hi]; exact hv) (by rw [hi]; exact ht)
  · simp only [State.setBlock, Function.update_of_ne hi] at hv ht ⊢
    exact h a ha j hj hv ht

theorem invalidateEntry_live (hd : DirtyValid s) (hs : Spares c A s) {a : Nat} (ha : a ∈ A) :
    DirtyValid (invalidateEntry c s a) ∧ Spares c A (invalidateEntry c s a) := by
  unfold invalidateEntry
  split
  · rename_i way hhit
    obtain ⟨hway, hv, ht⟩ := checkHit_some hhit
    -- the block found is clean, so clearing `valid` leaves it so
    have hclean := hs a ha way hway hv ht
    refine ⟨hd.setBlock fun hdirty => ?_, hs.setBlock fun hvalid => ?_⟩
    · exact absurd (hclean.symm.trans hdirty) (by simp)
    · exact absurd hvalid (by simp)
  · exact ⟨hd, hs⟩

theorem fillCache_setBlock {set way : Nat} {p : Packet} (h : fillCache c s set way p = some s') :
    ∃ t b, s' = State.setBlock t set way b ∧ t.block = s.block ∧ t.calls = s.calls ∧
      b.dirty = false ∧ b.valid = true := by
  unfold fillCache at h
  split at h
  · cases h
  · cases h
    exact ⟨_, _, rfl, rfl, rfl, rfl, rfl⟩

theorem addMshr_keeps (s : State ρ) (p : Packet) :
    (addMshr c s p).block = s.block ∧ (addMshr c s p).calls = s.calls := by
  unfold addMshr
  split <;> exact ⟨rfl, rfl⟩

theorem write_sent (h : Write c Z A D s s') : s'.sent = s.sent := by
  cases h with
  | kept hline hmshr hsent => exact hsent
  | invalidated ha =>
    refine sent_of_calls ?_
    unfold invalidateEntry
    split <;> rfl
  | filled h =>
    obtain ⟨t, b, rfl, -, hcalls, -⟩ := fillCache_setBlock h
    exact sent_of_calls hcalls
  | dirtied | merged => rfl
  | @allocated p => exact sent_of_calls (addMshr_keeps s p).2
  | returned h0 h =>
    obtain ⟨i, -, rfl⟩ := Option.map_eq_some_iff.mp h
    rfl
  | removed hi h0 h =>
    obtain ⟨q, -, rfl⟩ := Option.map_eq_some_iff.mp h
    rfl

theorem write_live (hD : D → A = []) (hd : DirtyValid s) (hs : Spares c A s)
    (h : Write c Z A D s s') : DirtyValid s' ∧ Spares c A s' := by
  cases h with
  | kept hline hmshr hsent => exact ⟨hd.congr hline, hs.congr hline⟩
  | invalidated ha => exact invalidateEntry_live hd hs ha
  | filled h =>
    obtain ⟨t, b, rfl, hblock, -, hclean, hvalid⟩ := fillCache_setBlock h
    have hline : ∀ set way, (t.block set way).line = (s.block set way).line := by simp [hblock]
    exact ⟨(hd.congr hline).setBlock fun _ => hvalid, (hs.congr hline).setBlock fun _ => hclean⟩
  | dirtied hmark hv =>
    rw [hD hmark]
    exact ⟨hd.setBlock fun _ => hv, fun a ha => nomatch ha⟩
  | @allocated p =>
    have hblock := (addMshr_keeps (c := c) s p).1
    exact ⟨hd.congr (by simp [hblock]), hs.congr (by simp [hblock])⟩
  | merged => exact ⟨hd, hs⟩
  | returned h0 h =>
    obtain ⟨i, -, rfl⟩ := Option.map_eq_some_iff.mp h
    exact ⟨hd, hs⟩
  | removed hi h0 h =>
    obtain ⟨q, -, rfl⟩ := Option.map_eq_some_iff.mp h
    exact ⟨hd, hs⟩

theorem writes_sent (h : Writes c Z A D s s') : s'.sent = s.sent := by
  induction h with
  | refl => rfl
  | tail _ hw ih => exact (write_sent hw).trans ih

theorem writes_live (hD : D → A = []) (hd : DirtyValid s) (hs : Spares c A s)
    (h : Writes c Z A D s s') : DirtyValid s' ∧ Spares c A s' := by
  induction h with
  | refl => exact ⟨hd, hs⟩
  | tail _ hw ih => exact write_live hD ih.1 ih.2 hw

theorem evictWrite_live (hd : DirtyValid s) (hs : Spares c A s) (h : EvictWrite c Z A s s') :
    DirtyValid s' := by
  obtain ⟨t, hevict, u, hwrites, hmarks⟩ := h
  have hline : ∀ set way, (t.block set way).line = (s.block set way).line := by
    simp [hevict.block]
  obtain ⟨hdu, -⟩ := writes_live (fun h => h.elim) (hd.congr hline) (hs.congr hline) hwrites
  exact (writes_live (fun _ => rfl) hdu (fun a ha => nomatch ha) hmarks).1

/-- What is written back comes from a dirty block. -/
theorem evictWrite_sent (h : EvictWrite c Z A s s') :
    s'.sent = s.sent ∨ ∃ set, ∃ way < c.numWay, (s.block set way).dirty = true ∧
      s'.sent = s.sent ++ [(s.block set way).address] := by
  obtain ⟨t, hevict, u, hwrites, hmarks⟩ := h
  rw [(writes_sent hmarks).trans (writes_sent hwrites)]
  exact hevict.sent

end Marks

/-! ## Runs -/

section Runs

variable {P : Policy c ρ} {s : State ρ}

/-- The act, which is not a whole cycle, invalidates no line of a valid dirty block. -/
def SparesAct (c : Config) (s : State ρ) (b : Act) : Prop :=
  b.Single ∧ Spares c (b.invalidated c) s

instance (s : State ρ) (b : Act) : Decidable (SparesAct c s b) :=
  inferInstanceAs (Decidable (_ ∧ _))

theorem run_dirtyValid {as : List Act} (has : Along (act P) (SparesAct c) (State.init P) as)
    (h : run (act P) (State.init P) as = some s) : Sound c True s ∧ DirtyValid s :=
  run_invariant (I := fun s => Sound c True s ∧ DirtyValid s)
    (fun _ _ _ hI hb hs =>
      ⟨sound_act hI.1 hb.1 (.inl trivial) hs,
        evictWrite_live hI.2 hb.2 (act_writes hI.1 hb.1 (.inl trivial) hs)⟩)
    ⟨sound_init P, fun _ _ hd => nomatch hd⟩ has h

/-- In every run that invalidates no line of a valid dirty block, every dirty block is valid, and
what any further act writes back is a valid block. -/
theorem writeback_live {as : List Act} (has : Along (act P) (SparesAct c) (State.init P) as)
    (h : run (act P) (State.init P) as = some s) :
    DirtyValid s ∧ ∀ b s', b.Single → act P s b = some s' →
      s'.sent = s.sent ∨ ∃ set, ∃ way < c.numWay, (s.block set way).valid = true ∧
        s'.sent = s.sent ++ [(s.block set way).address] := by
  obtain ⟨hsound, hlive⟩ := run_dirtyValid has h
  refine ⟨hlive, fun b s' hb hs => ?_⟩
  have hwrites := act_writes hsound hb (.inl trivial) hs
  rcases evictWrite_sent hwrites with hsent | ⟨set, way, hway, hdirty, hsent⟩
  · exact .inl hsent
  · exact .inr ⟨set, way, hway, hlive set way hdirty, hsent⟩

end Runs

/-- A load by the core of line 69, which falls into the set of line 5. -/
def toLine69 : Packet :=
  { toLine5 .load with address := 69, fullAddr := 69 * 64 }

/-- A store fills line 5 and a load of line 69 follows. -/
def storeThenLoad (between : List Act) : List Act :=
  [.call (.addWq (.quiet 0) (toLine5 .rfo)), .writeback (.quiet 20),
    .call (.returnData (.quiet 50) (toLine5 .rfo)), .fill (.quiet 60)] ++ between ++
  [.call (.addRq (.quiet 70) toLine69), .read (fun _ => .quiet 90),
    .call (.returnData (.quiet 100) toLine69)]

/-- The L1D with one way, in which line 69 takes the place of line 5. -/
def oneWay : Config := { l1d 1 0 with numWay := 1 }

/-- Nothing is invalidated, and line 5 is written back while it is valid. -/
theorem writeback_live_oneWay :
    ∃ s s' : State Unit,
      run (act (lru oneWay)) (State.init (lru oneWay)) (storeThenLoad []) = some s ∧
      act (lru oneWay) s (.fill (.quiet 110)) = some s' ∧ s'.sent = [5] ∧ DirtyValid s ∧
      (s'.sent = s.sent ∨ ∃ set, ∃ way < oneWay.numWay, (s.block set way).valid = true ∧
        s'.sent = s.sent ++ [(s.block set way).address]) := by
  have hcheck : (run (act (lru oneWay)) (State.init (lru oneWay)) (storeThenLoad [])).bind
      (fun s => (act (lru oneWay) s (.fill (.quiet 110))).map fun s' => decide (s'.sent = [5])) =
      some true := by decide +kernel
  have has : Along (act (lru oneWay)) (SparesAct oneWay) (State.init (lru oneWay))
      (storeThenLoad []) := by decide +kernel
  obtain ⟨s, hs, hc⟩ := Option.bind_eq_some_iff.mp hcheck
  obtain ⟨s', hs', hc⟩ := Option.map_eq_some_iff.mp hc
  obtain ⟨hlive, hsent⟩ := writeback_live has hs
  exact ⟨s, s', hs, hs', of_decide_eq_true hc, hlive, hsent (.fill (.quiet 110)) s' trivial hs'⟩

/-- Line 5 is invalidated while it is dirty, and written back when line 69 takes its way: no valid
block holds line 5 then. -/
theorem writeback_stale :
    ∃ s s' : State Unit,
      run (act (lru (l1d 1 0))) (State.init (lru (l1d 1 0)))
        (storeThenLoad [.call (.invalidateEntry 5)]) = some s ∧
      act (lru (l1d 1 0)) s (.fill (.quiet 110)) = some s' ∧ s'.sent = s.sent ++ [5] ∧
      (∀ set < 64, ∀ way < 12, (s.block set way).valid = true → (s.block set way).address ≠ 5) ∧
      ¬ DirtyValid s := by
  have hcheck : (run (act (lru (l1d 1 0))) (State.init (lru (l1d 1 0)))
      (storeThenLoad [.call (.invalidateEntry 5)])).bind (fun s =>
      (act (lru (l1d 1 0)) s (.fill (.quiet 110))).map fun s' =>
        decide (s'.sent = s.sent ++ [5] ∧
          (∀ set < 64, ∀ way < 12,
            (s.block set way).valid = true → (s.block set way).address ≠ 5) ∧
          (s.block 5 0).dirty = true ∧ (s.block 5 0).valid = false)) = some true := by
    decide +kernel
  obtain ⟨s, hs, hc⟩ := Option.bind_eq_some_iff.mp hcheck
  obtain ⟨s', hs', hc⟩ := Option.map_eq_some_iff.mp hc
  obtain ⟨hsent, hnone, hdirty, hinvalid⟩ := of_decide_eq_true hc
  refine ⟨s, s', hs, hs', hsent, hnone, fun hlive => ?_⟩
  exact absurd (hinvalid.symm.trans (hlive 5 0 hdirty)) (by simp)

end Cache
end ChampSim
