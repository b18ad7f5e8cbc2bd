import ChampSim.O3.Flow

/-!
# ChampSim.O3.Dataflow

Register dataflow in every run of the core.

* `doScheduling_flow`, `execute_flow`, `completeExecution_flow` — the operations that move it.
* `Flow c s`            — the invariant; the front rings hold instructions not yet scheduled.
* `reaches_flow`        — it holds in every state that the core can be in.
-/

namespace ChampSim
namespace O3

open Lib ChampSim.Core

variable {μ : Type}

/-! ## Scheduling -/

section Scheduling

variable {c : Config} {r r₁ : Lib.Ring OooModelInstr} {i : Nat}

def markReady (x : OooModelInstr) : OooModelInstr := { x with regReady := true }

def markInflight (x : OooModelInstr) : OooModelInstr := { x with scheduled := .inflight }

def markScheduled (cycle latency : Nat) (x : OooModelInstr) : OooModelInstr :=
  addLatency cycle latency { x with scheduled := .completed }

theorem Dep.not_awaited (h : Dep (fun _ => 0) r) (hidle : (r.entry i).scheduled = .idle)
    (p j : Nat) : i ∉ (r.entry p).registersIndexDependOnMe j := fun hi => h.scheduled p j i hi hidle

theorem Dep.recording (h : Dep (fun _ => 0) r) (hi : r.Live i)
    (hidle : (r.entry i).scheduled = .idle) :
    Recording (Core.modify r i markReady) (Core.modify r i markReady) i := by
  have hlinks : Ring.Alike links r (Core.modify r i markReady) := alike_modify rfl
  have hindex : ∀ p, ((Core.modify r i markReady).entry p).registersIndexDependOnMe =
      (r.entry p).registersIndexDependOnMe := fun p => congrArg (·.2.2.2.1) (hlinks.entry p)
  have hempty : pairs r i = ∅ := by
    ext ⟨p, j⟩
    rw [mem_pairs]
    refine ⟨fun hmem => absurd hmem.2.2 (h.not_awaited hidle p j), fun hmem => ?_⟩
    exact absurd hmem (Finset.notMem_empty _)
  refine ⟨h.linked.alike (h.linked.window.modify hi _) hlinks, .refl .., ?_, ?_, ?_, ?_⟩
  · exact fun _ _ => ⟨rfl, rfl, rfl⟩
  · rw [modify_self]
    refine ⟨fun _ => ?_, fun _ => rfl⟩
    have hcount := h.linked.count i hi
    rw [hempty] at hcount
    exact hcount
  · intro j _ p
    rw [hindex]
    exact h.not_awaited hidle p j
  · exact fun _ _ _ hk => .inr hk

/-- The scheduled entry, once its producers are recorded. -/
theorem Dep.of_recording (h : Dep (fun _ => 0) r) (hi : r.Live i)
    (hidle : (r.entry i).scheduled = .idle) (hrec : Recording (Core.modify r i markReady) r₁ i)
    {f : OooModelInstr → OooModelInstr} (hlinks : ∀ x, links (f x) = links x)
    (hready : ∀ x, (f x).regReady = x.regReady) (hexecuted : ∀ x, (f x).executed = x.executed)
    (hscheduled : ∀ x, (f x).scheduled ≠ .idle) : Dep (fun _ => 0) (Core.modify r₁ i f) := by
  have hsame : Ring.Alike unlinked r r₁ :=
    (alike_modify (π := unlinked) (f := markReady) rfl).trans hrec.same
  have hother : ∀ k ≠ i, (Core.modify r i markReady).entry k = r.entry k := fun k hk => modify_ne hk _
  have hindex₀ : ∀ p, ((Core.modify r i markReady).entry p).registersIndexDependOnMe =
      (r.entry p).registersIndexDependOnMe := by
    intro p
    by_cases hp : p = i
    · subst hp
      rw [modify_self]
      rfl
    · rw [hother p hp]
  have hindex : ∀ p, ((Core.modify r₁ i f).entry p).registersIndexDependOnMe =
      (r₁.entry p).registersIndexDependOnMe := fun p =>
    congrArg (·.2.2.2.1) ((alike_modify (hlinks _)).entry p)
  have hsched₁ : ∀ k, (r₁.entry k).scheduled = (r.entry k).scheduled := by
    intro k
    have hk := congrArg OooModelInstr.scheduled (hsame.entry k)
    exact hk
  have hexec₁ : ∀ k, (r₁.entry k).executed = (r.entry k).executed := by
    intro k
    have hk := congrArg OooModelInstr.executed (hsame.entry k)
    exact hk
  have hi₁ : r₁.Live i := hsame.live.mpr hi
  refine .of_proper (hrec.linked.alike (hrec.linked.window.modify hi₁ f)
    (alike_modify (hlinks _))) (fun p j k hk => ?_) fun k => ?_
  · by_cases hki : k = i
    · subst hki
      rw [modify_self]
      exact hscheduled _
    · rw [hindex] at hk
      rw [modify_ne hki, hsched₁]
      have hold := (hrec.sets p j k hk).resolve_left hki
      rw [hindex₀] at hold
      exact h.scheduled p j k hold
  · by_cases hki : k = i
    · subst hki
      rw [modify_self]
      refine ⟨fun hf => absurd hf (hscheduled _), fun _ => ?_, fun hf => ?_⟩
      · rw [hready, show (f (r₁.entry k)).numRegDependent = (r₁.entry k).numRegDependent from
          congrArg (·.1) (hlinks _)]
        exact hrec.ready
      · rw [hexecuted, hexec₁, (h.fresh k hidle).2.1] at hf
        exact absurd rfl hf
    · obtain ⟨hr, hn, hc⟩ := hrec.others k hki
      rw [hother k hki] at hr hn hc
      have hold := h.proper k
      rw [modify_ne hki]
      exact ⟨by rw [hsched₁, hr, hexec₁, hc]; exact hold.fresh,
        by rw [hsched₁, hr, hn]; exact hold.ready, by rw [hexec₁, hr]; exact hold.issued⟩

theorem waiting_recording (h : Dep (fun _ => 0) r) (hi : r.Live i)
    (hidle : (r.entry i).scheduled = .idle) (hrec : Recording (modify r i markReady) r₁ i)
    {f : OooModelInstr → OooModelInstr} (hready : ∀ x, (f x).regReady = x.regReady)
    (hexecuted : ∀ x, (f x).executed = x.executed) (hmemory : ∀ x, (f x).isMemory = x.isMemory)
    (hscheduled : ∀ x, (f x).scheduled ≠ .idle) (k : Nat) :
    Waiting (modify r₁ i f) k ↔ Waiting r k ∨
      (k = i ∧ (r₁.entry i).isMemory = false ∧ (r₁.entry i).regReady = true) := by
  have hsame : Ring.Alike unlinked r r₁ :=
    (alike_modify (π := unlinked) (f := markReady) rfl).trans hrec.same
  by_cases hki : k = i
  · subst hki
    constructor
    · intro hwait
      have hm := hwait.memory
      have hr := hwait.ready
      rw [modify_self] at hm hr
      exact .inr ⟨rfl, hmemory _ ▸ hm, hready _ ▸ hr⟩
    · rintro (hwait | ⟨-, hm, hr⟩)
      · exact absurd hidle hwait.scheduled
      · have hexec := congrArg OooModelInstr.executed (hsame.entry k)
        have hexec : (r₁.entry k).executed = .idle := hexec.trans (h.fresh k hidle).2.1
        refine ⟨hsame.live.mpr hi, ?_, ?_, ?_, ?_⟩
        · rw [modify_self, hmemory]
          exact hm
        · rw [modify_self]
          exact hscheduled _
        · rw [modify_self, hready]
          exact hr
        · rw [modify_self, hexecuted]
          exact hexec
  · rw [waiting_modify hki, or_iff_left (fun hx => hki hx.1)]
    obtain ⟨hr, -, -⟩ := hrec.others k hki
    rw [modify_ne hki] at hr
    have hmem := congrArg OooModelInstr.isMemory (hsame.entry k)
    have hsched := congrArg OooModelInstr.scheduled (hsame.entry k)
    have hexec := congrArg OooModelInstr.executed (hsame.entry k)
    exact waiting_congr hsame.live hmem hsched hr hexec

/-- The fields that `do_scheduling` writes. -/
def unscheduled (x : OooModelInstr) : OooModelInstr :=
  { unlinked x with scheduled := .idle, eventCycle := 0 }

/-- What `do_scheduling` does besides the dataflow. -/
structure Scheduled (s s' : Cpu μ) : Prop where
  rob : Ring.Alike unscheduled s.rob s'.rob
  rest : s' = { s with rob := s'.rob, rte := s'.rte, nextSchedule := s'.nextSchedule }

/-- `do_scheduling` once the producers are recorded in `rob`. -/
def scheduleIn (c : Config) (i : Nat) (rob : Lib.Ring OooModelInstr) (s : Cpu μ) : Option (Cpu μ) :=
  let s := { s with
    rob := rob
    nextSchedule := if i = s.rob.size - 1 then 0 else i + 1 }
  if (rob.entry i).isMemory then
    some (s.modifyRob i fun x => { x with scheduled := .inflight })
  else
    let s := s.modifyRob i fun x =>
      addLatency s.cycle c.schedulingLatency { x with scheduled := .completed }
    if (rob.entry i).regReady then addReady .one i s else some s

theorem doScheduling_eq (c : Config) (i : Nat) (s : Cpu μ) :
    doScheduling c i s = scheduleIn c i (regDependency c i (modify s.rob i markReady)) s := rfl

def nextSlot (s : Cpu μ) (i : Nat) : Nat := if i = s.rob.size - 1 then 0 else i + 1

theorem scheduleIn_memory {s : Cpu μ} (h : (r.entry i).isMemory = true) :
    scheduleIn c i r s = some { s with
      rob := modify r i markInflight
      nextSchedule := nextSlot s i } := if_pos h

theorem scheduleIn_waits {s : Cpu μ} (h : (r.entry i).isMemory = false)
    (hr : (r.entry i).regReady = false) :
    scheduleIn c i r s = some { s with
      rob := modify r i (markScheduled s.cycle c.schedulingLatency)
      nextSchedule := nextSlot s i } := by
  simp only [scheduleIn, h, hr]
  rfl

theorem scheduleIn_ready {s : Cpu μ} (h : (r.entry i).isMemory = false)
    (hr : (r.entry i).regReady = true) (hfree : (s.rte .one).slot (s.rte .one).tail = robSize) :
    scheduleIn c i r s = some { s with
      rob := modify r i (markScheduled s.cycle c.schedulingLatency)
      rte := Function.update s.rte .one ((s.rte .one).push i)
      nextSchedule := nextSlot s i } := by
  simp only [scheduleIn, h, hr, Bool.false_eq_true, if_false, if_true]
  refine if_neg ?_
  show ¬ (s.rte .one).slot (s.rte .one).tail < robSize
  rw [hfree]
  exact lt_irrefl _

theorem doScheduling_flow {s : Cpu μ} {l : Half → List Nat} (h : Dep (fun _ => 0) s.rob)
    (hl : Lists s.rob s.rte l) (hi : s.rob.Live i) (hidle : (s.rob.entry i).scheduled = .idle) :
    ∃ s' l', doScheduling c i s = some s' ∧ Dep (fun _ => 0) s'.rob ∧ Lists s'.rob s'.rte l' ∧
      Scheduled s s' := by
  have hi₀ : (modify s.rob i markReady).Live i := hi
  have hrec : Recording (modify s.rob i markReady)
      (regDependency c i (modify s.rob i markReady)) i :=
    regDependency_recording (h.recording hi hidle) hi₀
  have hnot : ¬ Waiting s.rob i := fun hwait => hwait.scheduled hidle
  rw [doScheduling_eq]
  generalize regDependency c i (modify s.rob i markReady) = r₁ at hrec
  have hsame : Ring.Alike unlinked s.rob r₁ :=
    (alike_modify (π := unlinked) (f := markReady) rfl).trans hrec.same
  have halike : ∀ f : OooModelInstr → OooModelInstr, (∀ x, unscheduled (f x) = unscheduled x) →
      Ring.Alike unscheduled s.rob (modify r₁ i f) := fun f hf =>
    (hsame.comp fun x : OooModelInstr =>
      ({ x with scheduled := .idle, eventCycle := 0 } : OooModelInstr)).trans (alike_modify (hf _))
  cases hmemory : (r₁.entry i).isMemory with
  | true =>
    have hdep := h.of_recording hi hidle hrec (f := markInflight)
      (fun _ => rfl) (fun _ => rfl) (fun _ => rfl) (fun x hx => by cases hx)
    have hwait := waiting_recording h hi hidle hrec
      (f := markInflight) (fun _ => rfl) (fun _ => rfl)
      (fun _ => rfl) (fun x hx => by cases hx)
    refine ⟨_, l, scheduleIn_memory hmemory, hdep, hl.congr fun k => ?_,
      halike _ fun _ => rfl, rfl⟩
    refine (hwait k).trans (or_iff_left ?_)
    rintro ⟨-, hm, -⟩
    rw [hmemory] at hm
    cases hm
  | false =>
    have hdep := h.of_recording hi hidle hrec
      (f := markScheduled s.cycle c.schedulingLatency)
      (fun _ => rfl) (fun _ => rfl) (fun _ => rfl) (fun x hx => by cases hx)
    have hwait := waiting_recording h hi hidle hrec
      (f := markScheduled s.cycle c.schedulingLatency)
      (fun _ => rfl) (fun _ => rfl) (fun _ => rfl) (fun x hx => by cases hx)
    cases hready : (r₁.entry i).regReady with
    | true =>
      obtain ⟨-, hfree⟩ := hl.room h.linked.window hi hnot .one
      have hpush := hl.push h.linked.window hi hnot .one fun k => (hwait k).trans
        (or_congr_right ⟨fun hx => hx.1, fun hx => ⟨hx, hmemory, hready⟩⟩)
      exact ⟨_, _, scheduleIn_ready hmemory hready hfree, hdep, hpush, halike _ fun _ => rfl, rfl⟩
    | false =>
      refine ⟨_, l, scheduleIn_waits hmemory hready, hdep, hl.congr fun k => ?_,
        halike _ fun _ => rfl, rfl⟩
      refine (hwait k).trans (or_iff_left ?_)
      rintro ⟨-, -, hr⟩
      rw [hready] at hr
      cases hr

end Scheduling

/-! ## Issue -/

section Issue

variable {c : Config} {s : Cpu μ} {l : Half → List Nat} {b : Half}

/-- What `do_execution` writes into the entry. -/
def markIssued (cycle latency : Nat) (x : OooModelInstr) : OooModelInstr :=
  addLatency cycle latency { x with executed := .inflight }

theorem links_markIssued {cycle latency : Nat} {x : OooModelInstr} (h : x.executed = .idle) :
    links (markIssued cycle latency x) = links x := by
  simp [links, markIssued, addLatency, h]

theorem execute_flow (h : Dep (fun _ => 0) s.rob) (hl : Lists s.rob s.rte l)
    (hi : (s.rte b).front < robSize) :
    Waiting s.rob (s.rte b).front ∧
      ∃ l', Dep (fun _ => 0) ((doExecution c (s.rte b).front s).popRte b).rob ∧
        Lists ((doExecution c (s.rte b).front s).popRte b).rob
          ((doExecution c (s.rte b).front s).popRte b).rte l' := by
  obtain ⟨rest, hlist⟩ := (hl.holds b).of_front (by rw [hl.mark b]; omega)
  have hwait : Waiting s.rob (s.rte b).front :=
    (hl.mem _).mp ⟨b, by rw [hlist]; exact List.mem_cons_self⟩
  have hproper := h.proper (s.rte b).front
  have hdep : Dep (fun _ => 0)
      (modify s.rob (s.rte b).front (markIssued s.cycle c.execLatency)) :=
    h.modify hwait.live (links_markIssued hwait.executed) id
      ⟨fun hx => absurd hx hwait.scheduled, fun _ => hproper.ready hwait.scheduled,
        fun _ => hwait.ready⟩
  have hwaiting : ∀ k, Waiting (modify s.rob (s.rte b).front (markIssued s.cycle c.execLatency)) k ↔
      Waiting s.rob k ∧ k ≠ (s.rte b).front := by
    intro k
    by_cases hk : k = (s.rte b).front
    · subst hk
      refine ⟨fun hx => absurd hx (not_waiting_modify ?_), fun hx => absurd rfl hx.2⟩
      exact fun hx => by cases hx
    · exact (waiting_modify hk s.rob).trans (and_iff_left hk).symm
  obtain ⟨l', hl'⟩ := hl.pop hi hwaiting
  exact ⟨hwait, l', hdep, hl'⟩

end Issue

end O3
end ChampSim
