import ChampSim.Core.Decode
import ChampSim.O3.Exact
import ChampSim.O3.Rename

/-!
# ChampSim.O3.Schedule

One call of `schedule_instruction`, against a scan of the live entries in program order.

* `due`                    — the ages that such a scan schedules, from the live entries alone.
* `RingScheduled`          — the call schedules them in order, wherever the sequence starts.
* `scheduleInstruction_eq` — the call schedules those that stand before the end of the array.
* `schedule_ring_iff`      — it is the scan unless one of them stands behind the wrap.
-/

namespace ChampSim
namespace O3

open Lib ChampSim.Core

variable {μ : Type} {c : Config} {s s' : Cpu μ}

/-- The scan goes on after `x`. -/
def Passable (cycle : Nat) (x : OooModelInstr) : Prop :=
  x.fetched = .completed ∧ x.eventCycle ≤ cycle

instance Passable.decidable (cycle : Nat) (x : OooModelInstr) : Decidable (Passable cycle x) :=
  inferInstanceAs (Decidable (_ ∧ _))

/-- Every entry up to the unscheduled one of age `k` lets the scan pass. -/
def due (cycle : Nat) (xs : List OooModelInstr) : List Nat :=
  (List.range xs.length).filter fun k =>
    k < schedulerSize ∧ (∀ j < k + 1, Passable cycle (xs.getD j .empty)) ∧
      (xs.getD k .empty).scheduled = .idle

def scheduleAged (c : Config) (s : Cpu μ) (k : Nat) : Option (Cpu μ) :=
  doScheduling c (Ring.idx s.rob.size s.rob.head k) s

structure RingScheduled (c : Config) (s s' : Cpu μ) : Prop where
  scan : run (scheduleAged c) s (due s.cycle s.rob.contents) = some s'
  /-- The slots play no part: the result is the one with the head at slot 0. -/
  position : ∀ σ, Turns σ s.rob → σ s.rob.head = 0 →
    scheduleInstruction c (s.rename σ) = some (s'.rename σ)

/-! ## One entry -/

/-- `do_scheduling` leaves the other entries where the scan finds them. -/
structure ScheduledAt (i : Nat) (s s' : Cpu μ) : Prop where
  scheduled : Scheduled s s'
  this : (s'.rob.entry i).scheduled ≠ .idle
  others : ∀ k ≠ i, unlinked (s'.rob.entry k) = unlinked (s.rob.entry k)

theorem doScheduling_at {i : Nat} (h : doScheduling c i s = some s') : ScheduledAt i s s' := by
  have ha : Ring.Alike unlinked s.rob (regDependency c i (modify s.rob i markReady)) :=
    (alike_modify rfl).trans (regDependency_alike c i _)
  obtain ⟨f, next, rte, rfl, hf, hscheduled⟩ := doScheduling_does h
  generalize regDependency c i (modify s.rob i markReady) = r at ha
  refine ⟨⟨(ha.comp unstamped).trans (alike_modify ?_), rfl⟩, ?_, fun k hk => ?_⟩
  · exact congrArg unlinked (hf _)
  · show ((modify r i f).entry i).scheduled ≠ _
    rw [modify_self]
    exact hscheduled _
  · show unlinked ((modify r i f).entry k) = _
    rw [modify_ne hk]
    exact ha.entry k

theorem ScheduledAt.cycle {i : Nat} (h : ScheduledAt i s s') : s'.cycle = s.cycle := by
  rw [h.scheduled.rest]

theorem ScheduledAt.aged {i j k : Nat} (h : ScheduledAt i s s')
    (hi : i = Ring.idx s.rob.size s.rob.head j) (hj : j < s.rob.size) (hk : k < s.rob.size)
    (hne : k ≠ j) : unlinked (aged s'.rob k) = unlinked (aged s.rob k) := by
  unfold Core.aged
  rw [h.scheduled.rob.size, h.scheduled.rob.head]
  exact h.others _ fun heq => hne (Ring.idx_inj hk hj (heq.trans hi))

/-! ## The scan -/

theorem scheduleLoop_cons (c : Config) (i : Nat) (is : List Nat) (n : Nat) (s : Cpu μ) :
    scheduleLoop c (i :: is) n s =
      if Passable s.cycle (s.rob.entry i) ∧ n < schedulerSize then
        if (s.rob.entry i).scheduled = .idle then
          (doScheduling c i s).bind (scheduleLoop c is (n + 1))
        else scheduleLoop c is (n + 1) s
      else some s := by
  have hstop : ((s.rob.entry i).fetched ≠ .completed ∨ (s.rob.entry i).eventCycle > s.cycle ∨
      n ≥ schedulerSize) ↔ ¬ (Passable s.cycle (s.rob.entry i) ∧ n < schedulerSize) := by
    simp only [Passable, ge_iff_le, gt_iff_lt, not_and_or, not_le, not_lt, ne_eq, or_assoc]
  show (if _ then _ else _) = _
  simp only [hstop, ite_not]

/-- `P` tells what the scan passes, and `U` what it has to schedule. -/
theorem scheduleLoop_eq {P U : Nat → Prop} [DecidablePred P] [DecidablePred U] (n : Nat) :
    ∀ (a : Nat) (s : Cpu μ), a + n ≤ s.rob.size → (∀ j < a, P j) →
      (∀ k, a ≤ k → k < a + n → (Passable s.cycle (aged s.rob k) ↔ P k) ∧
        ((aged s.rob k).scheduled = .idle ↔ U k)) →
      scheduleLoop c ((List.range' a n).map (Ring.idx s.rob.size s.rob.head)) a s =
        run (scheduleAged c) s ((List.range' a n).filter fun k =>
          k < schedulerSize ∧ (∀ j < k + 1, P j) ∧ U k) := by
  induction n with
  | zero =>
    intro a s _ _ _
    rfl
  | succ n ih =>
    intro a s hsize hbefore hages
    obtain ⟨hpass, hidle⟩ : (Passable s.cycle (s.rob.entry (Ring.idx s.rob.size s.rob.head a)) ↔
        P a) ∧ ((s.rob.entry (Ring.idx s.rob.size s.rob.head a)).scheduled = .idle ↔ U a) :=
      hages a le_rfl (by omega)
    rw [List.range'_succ, List.map_cons, List.filter_cons, scheduleLoop_cons]
    simp only [hpass, hidle]
    split
    · rename_i hgo
      have hupto : ∀ j < a + 1, P j := fun j hj =>
        (Nat.lt_succ_iff_lt_or_eq.mp hj).elim (hbefore j) fun heq => heq ▸ hgo.1
      have hrest : ∀ s' : Cpu μ, s'.rob.size = s.rob.size → s'.rob.head = s.rob.head →
          (∀ k, a + 1 ≤ k → k < a + 1 + n → (Passable s'.cycle (aged s'.rob k) ↔ P k) ∧
            ((aged s'.rob k).scheduled = .idle ↔ U k)) →
          scheduleLoop c ((List.range' (a + 1) n).map (Ring.idx s.rob.size s.rob.head)) (a + 1) s' =
            run (scheduleAged c) s' ((List.range' (a + 1) n).filter fun k =>
              k < schedulerSize ∧ (∀ j < k + 1, P j) ∧ U k) := by
        intro s' hsize' hhead' hages'
        have hrun := ih (a + 1) s' (by omega) hupto hages'
        rwa [hsize', hhead'] at hrun
      split
      · rename_i hU
        rw [if_pos (decide_eq_true ⟨hgo.2, hupto, hU⟩)]
        cases hs : doScheduling c (Ring.idx s.rob.size s.rob.head a) s with
        | none => rw [run_cons_none hs, Option.bind_none]
        | some s' =>
          have hat := doScheduling_at hs
          rw [run_cons_some hs, Option.bind_some]
          refine hrest s' hat.scheduled.rob.size hat.scheduled.rob.head fun k hk hkn => ?_
          have hsame := hat.aged rfl (show a < s.rob.size by omega) (show k < s.rob.size by omega)
            (by omega)
          obtain ⟨hpass', hidle'⟩ := hages k (by omega) (by omega)
          have hfetched : (aged s'.rob k).fetched = (aged s.rob k).fetched :=
            (congrArg OooModelInstr.fetched hsame :)
          have hcycle : (aged s'.rob k).eventCycle = (aged s.rob k).eventCycle :=
            (congrArg OooModelInstr.eventCycle hsame :)
          have hscheduled : (aged s'.rob k).scheduled = (aged s.rob k).scheduled :=
            (congrArg OooModelInstr.scheduled hsame :)
          unfold Passable at hpass' ⊢
          rw [hat.cycle, hfetched, hcycle, hscheduled]
          exact ⟨hpass', hidle'⟩
      · rename_i hU
        rw [if_neg fun hx => hU (of_decide_eq_true hx).2.2]
        exact hrest s rfl rfl fun k hk hkn => hages k (by omega) (by omega)
    · rename_i hstop
      rw [if_neg fun hx => hstop ⟨(of_decide_eq_true hx).2.1 a (by omega), (of_decide_eq_true hx).1⟩]
      rw [List.filter_eq_nil_iff.mpr]
      · rfl
      · intro k hk hx
        have hk := (List.mem_range'_1.mp hk).1
        obtain ⟨hlt, hall, -⟩ := of_decide_eq_true hx
        exact hstop ⟨hall a (by omega), by omega⟩

theorem filter_range_le {p : Nat → Bool} {m n : Nat} (h : m ≤ n) :
    (List.range m).filter p = (List.range n).filter fun k => k < m && p k := by
  obtain ⟨d, rfl⟩ : ∃ d, n = m + d := ⟨n - m, by omega⟩
  have hnil : ((List.range d).map fun j => m + j).filter (fun k => k < m && p k) = [] := by
    refine List.filter_eq_nil_iff.mpr fun k hk => ?_
    obtain ⟨j, -, rfl⟩ := List.mem_map.mp hk
    simp
  rw [List.range_add, List.filter_append, hnil, List.append_nil]
  refine List.filter_congr fun k hk => ?_
  simp [List.mem_range.mp hk]

theorem getD_contents {r : Lib.Ring OooModelInstr} {k : Nat} (hk : k < r.occupancy) :
    r.contents.getD k .empty = aged r k := by
  rw [List.getD_eq_getElem?_getD, Ring.getElem?_contents hk]
  rfl

theorem due_contents (cycle : Nat) (r : Lib.Ring OooModelInstr) :
    due cycle r.contents = (List.range r.occupancy).filter fun k =>
      k < schedulerSize ∧ (∀ j < k + 1, Passable cycle (aged r j)) ∧
        (aged r k).scheduled = .idle := by
  unfold due
  rw [Ring.contents_length]
  refine List.filter_congr fun k hk => ?_
  have hk := List.mem_range.mp hk
  have hall : (∀ j < k + 1, Passable cycle (r.contents.getD j .empty)) ↔
      ∀ j < k + 1, Passable cycle (aged r j) :=
    forall₂_congr fun j hj => by rw [getD_contents (by omega)]
  rw [getD_contents hk, decide_eq_decide, hall]

theorem mem_due {cycle k : Nat} {r : Lib.Ring OooModelInstr} :
    k ∈ due cycle r.contents ↔ k < r.occupancy ∧ k < schedulerSize ∧
      (∀ j < k + 1, Passable cycle (aged r j)) ∧ (aged r k).scheduled = .idle := by
  rw [due_contents, List.mem_filter, List.mem_range, decide_eq_true_eq]

/-- A slot without an instruction stops the scan. -/
theorem Window.not_passable {r : Lib.Ring OooModelInstr} {cycle k : Nat} (h : Window r)
    (hk : k < r.size) (hdead : r.occupancy ≤ k) : ¬ Passable cycle (aged r k) := by
  intro hpass
  have hlive : r.Live (Ring.idx r.size r.head k) :=
    h.live_of (·.fetched) (fun _ => rfl) (by rw [show (r.entry _).fetched = _ from hpass.1]; decide)
  obtain ⟨j, hj, hidx⟩ := hlive
  have := Ring.idx_inj hk (Nat.lt_of_lt_of_le hj h.wf.occ_le) hidx
  omega

/-- The call schedules what is due before the end of the array. -/
theorem scheduleInstruction_eq (hhead : s.rob.head < s.rob.size) (hocc : 0 < s.rob.occupancy)
    (hdead : ∀ k < s.rob.size, s.rob.occupancy ≤ k → ¬ Passable s.cycle (aged s.rob k)) :
    scheduleInstruction c s = run (scheduleAged c) s
      ((due s.cycle s.rob.contents).filter fun k => s.rob.head + k < s.rob.size) := by
  have hslots : upTo s.rob nextFetch ++ wrapped s.rob nextFetch =
      (List.range' 0 (s.rob.size - s.rob.head)).map (Ring.idx s.rob.size s.rob.head) := by
    rw [← List.range_eq_range', Ring.map_idx_low (by omega)]
    simp [upTo, wrapped, nextFetch]
  unfold scheduleInstruction
  rw [if_neg fun hempty => Nat.ne_of_gt hocc hempty.2, hslots,
    scheduleLoop_eq (P := fun k => Passable s.cycle (aged s.rob k))
      (U := fun k => (aged s.rob k).scheduled = .idle) _ 0 s (by omega)
      (fun j hj => absurd hj (Nat.not_lt_zero j)) fun k _ _ => ⟨Iff.rfl, Iff.rfl⟩]
  congr 1
  rw [due_contents, List.filter_filter, ← List.range_eq_range']
  rcases Nat.le_total (s.rob.size - s.rob.head) s.rob.occupancy with hle | hle
  · rw [filter_range_le hle]
    refine List.filter_congr fun k _ => congrArg (· && _) (decide_eq_decide.mpr ?_)
    omega
  · rw [filter_range_le hle]
    refine List.filter_congr fun k hk => ?_
    have hk := List.mem_range.mp hk
    by_cases hlive : k < s.rob.occupancy
    · simp [hlive, show s.rob.head + k < s.rob.size by omega]
    · have hstop : ¬ ∀ j < k + 1, Passable s.cycle (aged s.rob j) := fun hall =>
        hdead k (by omega) (Nat.not_lt.mp hlive) (hall k (Nat.lt_succ_self k))
      rw [decide_eq_false hlive, Bool.false_and, decide_eq_false fun h => hstop h.2.1]

/-! ## The instructions of a scan -/

theorem due_nodup (cycle : Nat) (xs : List OooModelInstr) : (due cycle xs).Nodup :=
  List.nodup_range.filter _

/-- What a scan leaves alone, and what it schedules. -/
theorem run_scheduleAged_entry (ks : List Nat) :
    ∀ {s : Cpu μ}, run (scheduleAged c) s ks = some s' → ks.Nodup →
      (∀ k ∈ ks, k < s.rob.size) → ∀ j < s.rob.size,
        (j ∉ ks → unlinked (aged s'.rob j) = unlinked (aged s.rob j)) ∧
        (j ∈ ks → (aged s'.rob j).scheduled ≠ .idle) := by
  induction ks with
  | nil =>
    intro s hs _ _ j _
    obtain rfl : s = s' := Option.some.inj hs
    exact ⟨fun _ => rfl, fun hj => absurd hj List.not_mem_nil⟩
  | cons k ks ih =>
    intro s hs hnodup hlt j hj
    obtain ⟨hnot, hnodup⟩ := List.nodup_cons.mp hnodup
    obtain ⟨hk, hlt⟩ := List.forall_mem_cons.mp hlt
    obtain ⟨s₁, hs₁, hs⟩ := run_cons_inv hs
    have hat := doScheduling_at hs₁
    have hsize := hat.scheduled.rob.size
    obtain ⟨hout, hin⟩ := ih hs hnodup (by rwa [hsize]) j (by rwa [hsize])
    refine ⟨fun hmem => ?_, fun hmem => ?_⟩
    · obtain ⟨hne, hmem⟩ := not_or.mp (List.mem_cons.not.mp hmem)
      exact (hout hmem).trans (hat.aged rfl hk hj hne)
    · by_cases hmem' : j ∈ ks
      · exact hin hmem'
      · obtain rfl := (List.mem_cons.mp hmem).resolve_right hmem'
        have hsame : (aged s'.rob j).scheduled = (aged s₁.rob j).scheduled :=
          (congrArg OooModelInstr.scheduled (hout hmem') :)
        rw [hsame]
        unfold Core.aged
        rw [hsize, hat.scheduled.rob.head]
        exact hat.this

/-- No check of a scan fails. -/
theorem run_scheduleAged_total (ks : List Nat) :
    ∀ {s : Cpu μ} {l : Half → List Nat}, Dep (fun _ => 0) s.rob → Lists s.rob s.rte l → ks.Nodup →
      (∀ k ∈ ks, k < s.rob.occupancy ∧ (aged s.rob k).scheduled = .idle) →
      ∃ s', run (scheduleAged c) s ks = some s' := by
  induction ks with
  | nil => exact fun {s} _ _ _ _ _ => ⟨s, rfl⟩
  | cons k ks ih =>
    intro s l hdep hl hnodup hks
    obtain ⟨hnot, hnodup⟩ := List.nodup_cons.mp hnodup
    obtain ⟨⟨hk, hidle⟩, hks⟩ := List.forall_mem_cons.mp hks
    have hocc := hdep.linked.window.wf.occ_le
    obtain ⟨s₁, l₁, hs₁, hdep₁, hl₁, -⟩ := doScheduling_flow (c := c) hdep hl ⟨k, hk, rfl⟩ hidle
    have hat := doScheduling_at hs₁
    obtain ⟨s', hs'⟩ := ih hdep₁ hl₁ hnodup fun j hj => by
      obtain ⟨hlt, hj'⟩ := hks j hj
      have hne : j ≠ k := by
        rintro rfl
        exact hnot hj
      have hsame : (aged s₁.rob j).scheduled = (aged s.rob j).scheduled :=
        (congrArg OooModelInstr.scheduled (hat.aged rfl (by omega) (by omega) hne) :)
      exact ⟨by rw [hat.scheduled.rob.occupancy]; exact hlt, hsame.trans hj'⟩
    exact ⟨s', (run_cons_some hs₁).trans hs'⟩

theorem run_scheduleAged_rename {σ : Equiv.Perm Nat} (ks : List Nat) :
    ∀ {s : Cpu μ}, Turns σ s.rob → s.rob.size = robSize → s.rob.occupancy ≤ s.rob.size →
      (∀ k ∈ ks, k < s.rob.occupancy) →
      run (scheduleAged c) (s.rename σ) ks = (run (scheduleAged c) s ks).map (Cpu.rename σ) := by
  induction ks with
  | nil => exact fun _ _ _ _ => rfl
  | cons k ks ih =>
    intro s hσ hsize hocc hks
    obtain ⟨hk, hks⟩ := List.forall_mem_cons.mp hks
    have hstep : scheduleAged c (s.rename σ) k = (scheduleAged c s k).map (Cpu.rename σ) := by
      refine Eq.trans ?_ (doScheduling_rename hσ hsize hocc ⟨k, hk, rfl⟩)
      rw [hσ.idx k (by omega)]
      rfl
    cases hs : scheduleAged c s k with
    | none =>
      rw [hs] at hstep
      rw [run_cons_none hs, run_cons_none hstep]
      rfl
    | some s₁ =>
      rw [hs] at hstep
      have hrob := (doScheduling_at hs).scheduled.rob
      rw [run_cons_some hs, run_cons_some hstep]
      refine ih (hσ.alike hrob) (hrob.size.trans hsize) ?_ ?_
      · rw [hrob.occupancy, hrob.size]
        exact hocc
      · rw [hrob.occupancy]
        exact hks

/-! ## The call -/

theorem aged_rename {σ : Equiv.Perm Nat} {r : Lib.Ring OooModelInstr} (hσ : Turns σ r) {k : Nat}
    (hk : k < r.size) : aged (renameRing σ r) k = renameSlots σ (aged r k) := by
  unfold aged
  rw [← renameRing_entry, hσ.idx k hk]
  rfl

theorem due_rename {σ : Equiv.Perm Nat} {r : Lib.Ring OooModelInstr} (hσ : Turns σ r)
    (hocc : r.occupancy ≤ r.size) (cycle : Nat) :
    due cycle (renameRing σ r).contents = due cycle r.contents := by
  rw [due_contents, due_contents]
  refine List.filter_congr fun k hk => ?_
  have hk : k < r.occupancy := List.mem_range.mp hk
  have hall : (∀ j < k + 1, Passable cycle (aged (renameRing σ r) j)) ↔
      ∀ j < k + 1, Passable cycle (aged r j) :=
    forall₂_congr fun j hj => by
      rw [aged_rename hσ (by omega)]
      rfl
  rw [decide_eq_decide, hall, aged_rename hσ (by omega)]
  rfl

theorem schedule_ring_iff (h : Flow c s) (hocc : 0 < s.rob.occupancy) :
    ∃ s', scheduleInstruction c s = some s' ∧
      (RingScheduled c s s' ↔
        ∀ k ∈ due s.cycle s.rob.contents, s.rob.head + k < s.rob.size) := by
  have hw := h.dep.linked.window
  obtain ⟨l, hl⟩ := h.lists
  have hdue : ∀ k ∈ due s.cycle s.rob.contents,
      k < s.rob.occupancy ∧ (aged s.rob k).scheduled = .idle := fun k hk =>
    ⟨(mem_due.mp hk).1, (mem_due.mp hk).2.2.2⟩
  have hdead : ∀ k < s.rob.size, s.rob.occupancy ≤ k → ¬ Passable s.cycle (aged s.rob k) :=
    fun k hk => hw.not_passable hk
  have heq := scheduleInstruction_eq (c := c) hw.head_lt hocc hdead
  obtain ⟨s', hs'⟩ := run_scheduleAged_total (c := c) _ h.dep hl
    ((due_nodup s.cycle s.rob.contents).filter fun k => s.rob.head + k < s.rob.size)
    fun k hk => hdue k (List.mem_filter.mp hk).1
  refine ⟨s', heq.trans hs', fun hring k hk => ?_, fun hcond => ?_⟩
  · by_contra hwrap
    have hsize : k < s.rob.size := Nat.lt_of_lt_of_le (hdue k hk).1 hw.wf.occ_le
    have hin := (run_scheduleAged_entry _ hring.scan (due_nodup _ _)
      (fun k hk => Nat.lt_of_lt_of_le (hdue k hk).1 hw.wf.occ_le) k hsize).2 hk
    have hout := (run_scheduleAged_entry _ hs' ((due_nodup _ _).filter _)
      (fun k hk => Nat.lt_of_lt_of_le (hdue k (List.mem_filter.mp hk).1).1 hw.wf.occ_le) k hsize).1
      fun hmem => hwrap (of_decide_eq_true (List.mem_filter.mp hmem).2)
    have hsame : (aged s'.rob k).scheduled = (aged s.rob k).scheduled :=
      (congrArg OooModelInstr.scheduled hout :)
    exact hin (hsame.trans (hdue k hk).2)
  · have hall : (due s.cycle s.rob.contents).filter (fun k => s.rob.head + k < s.rob.size) =
        due s.cycle s.rob.contents :=
      List.filter_eq_self.mpr fun k hk => decide_eq_true (hcond k hk)
    rw [hall] at hs'
    refine ⟨hs', fun σ hσ h0 => ?_⟩
    have hrun := run_scheduleAged_rename (c := c) _ hσ hw.size hw.wf.occ_le fun k hk => (hdue k hk).1
    rw [hs'] at hrun
    rw [scheduleInstruction_eq (s := s.rename σ) ((hσ.slot _).mpr hw.head_lt) hocc]
    swap
    · intro k hk hk'
      show ¬ Passable s.cycle (aged (renameRing σ s.rob) k)
      rw [aged_rename hσ hk]
      exact hdead k hk hk'
    show run _ _ ((due s.cycle (renameRing σ s.rob).contents).filter fun k =>
      σ s.rob.head + k < s.rob.size) = _
    rw [due_rename hσ hw.wf.occ_le, h0, List.filter_eq_self.mpr]
    · exact hrun
    · intro k hk
      have := (hdue k hk).1
      have := hw.wf.occ_le
      exact decide_eq_true (by omega)

/-! ## Two instructions -/

/-- Fetched, and about to be scheduled. -/
def fetched : OooModelInstr :=
  { OooModelInstr.empty with ip := 64, translated := .completed, fetched := .completed }

theorem fresh_fetched : Fresh c fetched where
  scheduled := rfl
  executed := rfl
  regReady := rfl
  regRawChecked := rfl
  links := rfl
  sourceAdded := rfl
  destinationAdded := rfl
  sqIndex := rfl
  isProducer := rfl
  memoryInstrsDependOnMe := rfl
  numMemOps := by simp [countNonzero, fetched, OooModelInstr.empty]
  isMemory := rfl

/-- The ROB holds two of them, the older one at `head`. -/
def twoFetched (head : Nat) : Cpu Unit :=
  { emptyAt head () with rob := ((emptyAt head ()).rob.push fetched).push fetched }

theorem flow_twoFetched {head : Nat} (hh : head < robSize) : Flow c (twoFetched head) := by
  have hempty := flow_emptyAt (c := c) hh ()
  obtain ⟨l, hl⟩ := hempty.lists
  have hone := hempty.dep.push (show 0 < robSize by decide) (fresh_fetched (c := c))
  have hlone := hl.enter hempty.dep.linked.window (show 0 < robSize by decide)
    (fresh_fetched (c := c))
  exact ⟨hone.push (show 1 < robSize by decide) (fresh_fetched (c := c)),
    ⟨l, hlone.enter hone.linked.window (show 1 < robSize by decide) (fresh_fetched (c := c))⟩,
    hempty.ifetch, hempty.decode⟩

/-- The younger instruction stands in slot 0, behind the wrap, and is not scheduled. -/
theorem schedule_not_ring : Flow echoConfig (twoFetched 351) ∧
    (twoFetched 351).rob.occupancy = 2 ∧
    ¬ ∃ s', scheduleInstruction echoConfig (twoFetched 351) = some s' ∧
      RingScheduled echoConfig (twoFetched 351) s' := by
  refine ⟨flow_twoFetched (by decide), rfl, ?_⟩
  rintro ⟨s', hs', hring⟩
  have hcode : (scheduleInstruction echoConfig (twoFetched 351)).map
      (fun s => (aged s.rob 1).scheduled) = some .idle := by decide +kernel
  have hdue : due (twoFetched 351).cycle (twoFetched 351).rob.contents = [0, 1] := by
    decide +kernel
  have hscan := hring.scan
  rw [hdue] at hscan
  have hin := (run_scheduleAged_entry _ hscan (by decide) (by decide) 1 (by decide)).2 (by decide)
  rw [hs'] at hcode
  exact hin (Option.some.inj hcode)

/-- From slot 3 the call schedules both, and the ROB turned to slot 0 gives the turned result. -/
theorem schedule_ring_twoFetched :
    ∃ (s' : Cpu Unit) (σ : Equiv.Perm Nat), scheduleInstruction echoConfig (twoFetched 3) = some s' ∧
      due (twoFetched 3).cycle (twoFetched 3).rob.contents = [0, 1] ∧
      RingScheduled echoConfig (twoFetched 3) s' ∧ σ 3 = 0 ∧
      scheduleInstruction echoConfig ((twoFetched 3).rename σ) = some (s'.rename σ) := by
  have hdue : due (twoFetched 3).cycle (twoFetched 3).rob.contents = [0, 1] := by decide +kernel
  obtain ⟨s', hs', hiff⟩ := schedule_ring_iff (c := echoConfig)
    (flow_twoFetched (show 3 < robSize by decide)) (by decide)
  have hring : RingScheduled echoConfig (twoFetched 3) s' := hiff.mpr (by rw [hdue]; decide)
  have hhead : (twoFetched 3).rob.head < (twoFetched 3).rob.size := by decide
  obtain ⟨hturns, hzero⟩ := turns_origin hhead
  exact ⟨s', Ring.toOrigin hhead, hs', hdue, hring, hzero, hring.position _ hturns hzero⟩

end O3
end ChampSim
