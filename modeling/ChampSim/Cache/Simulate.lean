import ChampSim.Cache.Refine

/-!
# ChampSim.Cache.Simulate

The handlers of the cache refine the abstract steps.

* `Quiet`          — answers and prefetcher requests, which commute with taking from `RQ` or `WQ`.
* `runPrefetcher_does`, `requestLower_does`, `fillBlock_does` — the parts of the handlers.
* `Obeys`          — the write-back about to be served satisfies the rules.
* `handleFill_does`, `handleWriteback_does`, `handleRead_does`, `handlePrefetch_does` — the handlers.
* `step_does`      — one call on the cache has the effect `Effect`.
-/

namespace ChampSim
namespace Cache

open Lib

variable {ρ : Type} {c : Config} {I : Prop}

/-! ## Answers and prefetchers -/

inductive QuietStep (I : Prop) : View → View → Prop
  | callback {v v' : View} (h : CallbackStep I v v') : QuietStep I v v'
  | answered (v : View) {i : Nat} {e q : Packet} (he : v.mshr i = some e)
    (hq : SameRequest e q) : QuietStep I v (v.setMshr i (some q))

def Quiet (I : Prop) : View → View → Prop := Relation.ReflTransGen (QuietStep I)

theorem CallbackSteps.quiet {v v' : View} (h : CallbackSteps I v v') : Quiet I v v' :=
  h.lift id fun _ _ hs => .callback hs

theorem Quiet.steps {R : Rules} {v v' : View} (h : Quiet R.invalidate v v') : Steps c R v v' := by
  refine h.lift id fun v v' hs => ?_
  cases hs with
  | callback hs => exact .callback hs
  | answered he hq => exact .answered v he hq

def View.withQueues (rq wq : List Packet) (sent : List Nat) (v : View) : View :=
  { v with rq := rq, wq := wq, sent := sent }

theorem CallbackStep.withQueues {v v' : View} (h : CallbackStep I v v') (rq wq : List Packet)
    (sent : List Nat) : CallbackStep I (v.withQueues rq wq sent) (v'.withQueues rq wq sent) := by
  cases h with
  | invalidated set way hI => exact .invalidated (v.withQueues rq wq sent) set way hI
  | added p hp => exact .added (v.withQueues rq wq sent) p hp
  | merged k e p he => exact .merged (v.withQueues rq wq sent) k e p he

theorem QuietStep.withQueues {v v' : View} (h : QuietStep I v v') (rq wq : List Packet)
    (sent : List Nat) : QuietStep I (v.withQueues rq wq sent) (v'.withQueues rq wq sent) := by
  cases h with
  | callback h => exact .callback (h.withQueues rq wq sent)
  | answered he hq => exact .answered (v.withQueues rq wq sent) he hq

/-- Neither a prefetcher nor an answer looks at `RQ`, `WQ` or the write-backs sent. -/
theorem Quiet.withQueues {v v' : View} (h : Quiet I v v') (rq wq : List Packet) (sent : List Nat) :
    Quiet I (v.withQueues rq wq sent) (v'.withQueues rq wq sent) :=
  Relation.ReflTransGen.lift (View.withQueues rq wq sent)
    (fun _ _ hs => QuietStep.withQueues hs rq wq sent) v v' h

theorem CallbackSteps.withQueues {v v' : View} (h : CallbackSteps I v v') (rq wq : List Packet)
    (sent : List Nat) : CallbackSteps I (v.withQueues rq wq sent) (v'.withQueues rq wq sent) :=
  Relation.ReflTransGen.lift (View.withQueues rq wq sent)
    (fun _ _ hs => CallbackStep.withQueues hs rq wq sent) v v' h

theorem QuietStep.queues {v v' : View} (h : QuietStep I v v') :
    v'.rq = v.rq ∧ v'.wq = v.wq ∧ v'.sent = v.sent := by
  cases h with
  | callback h => exact ⟨h.undisturbed.rq, h.undisturbed.wq, h.undisturbed.sent⟩
  | answered he hq => exact ⟨rfl, rfl, rfl⟩

theorem Quiet.queues {v v' : View} (h : Quiet I v v') :
    v'.rq = v.rq ∧ v'.wq = v.wq ∧ v'.sent = v.sent := by
  induction h with
  | refl => exact ⟨rfl, rfl, rfl⟩
  | tail _ hs ih =>
    obtain ⟨hrq, hwq, hsent⟩ := hs.queues
    exact ⟨hrq.trans ih.1, hwq.trans ih.2.1, hsent.trans ih.2.2⟩

theorem Quiet.withRq {v v' : View} (h : Quiet I v v') (rq : List Packet) :
    Quiet I { v with rq := rq } { v' with rq := rq } := by
  obtain ⟨-, hwq, hsent⟩ := h.queues
  have hv' : { v' with rq := rq } = v'.withQueues rq v.wq v.sent := by
    rw [← hwq, ← hsent]
    rfl
  rw [hv']
  exact h.withQueues rq v.wq v.sent

theorem Quiet.withWq {v v' : View} (h : Quiet I v v') (wq : List Packet) :
    Quiet I { v with wq := wq } { v' with wq := wq } := by
  obtain ⟨hrq, -, hsent⟩ := h.queues
  have hv' : { v' with wq := wq } = v'.withQueues v.rq wq v.sent := by
    rw [← hrq, ← hsent]
    rfl
  rw [hv']
  exact h.withQueues v.rq wq v.sent

/-- A prefetcher leaves the requests of `PQ` in their places. -/
theorem CallbackSteps.pq_address {v v' : View} (h : CallbackSteps I v v') {k : Nat} {e : Packet}
    (he : v.pq[k]? = some e) : ∃ e', v'.pq[k]? = some e' ∧ e'.address = e.address := by
  induction h with
  | refl => exact ⟨e, he, rfl⟩
  | tail _ hs ih =>
    obtain ⟨e', he', ha⟩ := ih
    cases hs with
    | invalidated => exact ⟨e', he', ha⟩
    | added p hp =>
      exact ⟨e', by rw [List.getElem?_append_left (List.getElem?_eq_some_iff.mp he').1]; exact he', ha⟩
    | merged j x p hx =>
      by_cases hj : j = k
      · subst hj
        rw [he'] at hx
        cases hx
        refine ⟨mergePq p e', ?_, ha⟩
        simp [(List.getElem?_eq_some_iff.mp he').1]
      · exact ⟨e', by simp [List.getElem?_set_ne hj, he'], ha⟩

theorem PqEffect.callbackSteps {p : Packet} {v v' : View} (h : PqEffect p v v')
    (hp : p.type = .prefetch) : CallbackSteps I v v' := by
  cases h with
  | same => exact .refl
  | merged he => exact .single (.merged v _ _ p he)
  | added t h0 => exact .single (.added v { p with eventCycle := t } hp)

theorem addPq_callback {env : Env} {s : State ρ} {p : Packet} (h : Shape c s)
    (hp : p.type = .prefetch) (f : State ρ → State ρ)
    (hf : ∀ s, Shape c s → Shape c (f s) ∧ view c (f s) = view c s) :
    Does c (CallbackSteps I) s ((addPq c env s p).map fun r => f r.2) := by
  refine (addPq_does h).map ?_
  rintro ⟨a, s'⟩ ⟨h', he⟩
  obtain ⟨hshape, hview⟩ := hf s' h'
  exact ⟨hshape, hview ▸ he.callbackSteps hp⟩

theorem Does.refl {Q : View → View → Prop} {s s' : State ρ} (h : Shape c s')
    (hQ : Q (view c s) (view c s')) : Does c Q s (some s') :=
  ⟨h, hQ⟩

theorem issuePrefetch_does {env : Env} {s : State ρ} {baseAddr pfAddr : Nat} {p : Packet}
    (h : Shape c s) (hp : p.type = .prefetch) :
    Does c (CallbackSteps I) s (issuePrefetch c env s baseAddr pfAddr p) := by
  unfold issuePrefetch
  split
  · exact addPq_callback h hp (fun s => { s with pfIssued := s.pfIssued + 1 }) fun s hs =>
      ⟨hs.of_rings rfl rfl rfl rfl rfl, rfl⟩
  · exact Does.refl h .refl

theorem prefetchCodeLine_does {env : Env} {s : State ρ} {cpu pfVAddr pfPa : Nat} (h : Shape c s) :
    Does c (CallbackSteps I) s (prefetchCodeLine c env cpu s pfVAddr pfPa) := by
  unfold prefetchCodeLine
  split
  · exact id
  · have h' : Shape c { s with pfRequested := s.pfRequested + 1 } :=
      h.of_rings rfl rfl rfl rfl rfl
    dsimp only
    split
    · exact addPq_callback h' rfl (fun s => { s with pfIssued := s.pfIssued + 1 }) fun s hs =>
        ⟨hs.of_rings rfl rfl rfl rfl rfl, rfl⟩
    · exact Does.refl h' .refl

theorem runCallback_does {env : Env} {s : State ρ} {cpu : Nat} {k : Callback} (h : Shape c s)
    (hI : k.Invalidates → I) :
    Does c (CallbackSteps I) s (runCallback c env cpu s k) := by
  cases k with
  | prefetchLine =>
    have h' : Shape c { s with pfRequested := s.pfRequested + 1 } :=
      h.of_rings rfl rfl rfl rfl rfl
    exact issuePrefetch_does h' rfl
  | kpcPrefetchLine => exact issuePrefetch_does h rfl
  | prefetchCodeLine => exact prefetchCodeLine_does h
  | invalidate address =>
    obtain ⟨h', hv⟩ := invalidateEntry_does h (hI trivial) address
    exact Does.refl h' hv

theorem runPrefetcher_does {env : Env} {s : State ρ} {cpu : Nat} (h : Shape c s)
    (hI : env.Invalidates → I) : Does c (CallbackSteps I) s (runPrefetcher c env cpu s) := by
  refine Ends.intro fun s' hs' => ?_
  refine run_invariant (I := fun t => Shape c t ∧ CallbackSteps I (view c s) (view c t))
    (P := fun _ k => k.Invalidates → I) ?_ ⟨h, .refl⟩
    (along_of_forall (fun k hk hinv => hI (.inl ⟨k, hk, hinv⟩)) s) hs'
  rintro t k t' ⟨ht, hv⟩ hk ht'
  obtain ⟨hshape, hv'⟩ := (runCallback_does ht hk).of_eq ht'
  exact ⟨hshape, hv.trans hv'⟩

/-! ## The MSHR -/

theorem view_mshr {s : State ρ} {i : Nat} {e : Packet} :
    (view c s).mshr i = some e ↔
      i < c.mshrSize ∧ (s.mshr.entry i).address ≠ 0 ∧ s.mshr.entry i = e := by
  simp only [view]
  split
  · rename_i h
    simp [h]
  · rename_i h
    simp only [reduceCtorEq, false_iff]
    rintro ⟨hi, h0, -⟩
    exact h ⟨hi, h0⟩

theorem checkMshr_some {s : State ρ} {address i : Nat} (h : checkMshr c s address = some i) :
    i < c.mshrSize ∧ (s.mshr.entry i).address = address := by
  obtain ⟨ha, -, hi, -⟩ := PacketQueue.findFrom_eq_some.mp h
  exact ⟨hi, by simpa using ha⟩

theorem checkMshr_none {s : State ρ} {address : Nat} (h : checkMshr c s address = none) :
    (view c s).Fresh address := by
  intro i e he ha
  obtain ⟨hi, -, rfl⟩ := view_mshr.mp he
  have := PacketQueue.findFrom_eq_none.mp h i (Nat.zero_le i) hi
  simp [ha] at this

/-- Rewriting one slot. -/
theorem view_setMshr {s : State ρ} {q : PacketQueue} {i : Nat} {p : Packet} (hi : i < c.mshrSize)
    (hq : q.entry = Function.update s.mshr.entry i p) :
    view c { s with mshr := q } =
      (view c s).setMshr i (if p.address ≠ 0 then some p else none) := by
  have hmshr : (view c { s with mshr := q }).mshr =
      ((view c s).setMshr i (if p.address ≠ 0 then some p else none)).mshr := by
    funext j
    simp only [view, View.setMshr, hq]
    by_cases hj : j = i
    · subst hj
      simp [hi]
    · simp [hj]
  simp only [view, View.setMshr] at hmshr ⊢
  rw [hmshr]

theorem setMshr_self {v : View} {i : Nat} {e : Option Packet} (h : v.mshr i = e) :
    v.setMshr i e = v := by
  subst h
  simp [View.setMshr]

/-- A slot is rewritten and stays as full or free as it was. -/
theorem MshrShape.rewrite {q q' : PacketQueue} {i : Nat} {p : Packet} (h : MshrShape c q)
    (hsize : q'.size = q.size) (hoccupancy : q'.occupancy = q.occupancy)
    (hentry : q'.entry = Function.update q.entry i p)
    (ha : p.address = 0 ↔ (q.entry i).address = 0)
    (hp : p.address = 0 → p.cpu = (q.entry i).cpu ∧ p.type = (q.entry i).type) :
    MshrShape c q' where
  size_eq := hsize.trans h.size_eq
  occupancy := by
    rw [hoccupancy, h.occupancy]
    refine count_congr fun j hj => ?_
    rw [hentry]
    by_cases hj : j = i
    · subst hj
      simp [ha]
    · simp [hj]
  free := by
    intro j hj h0
    rw [hentry] at h0 ⊢
    by_cases hj' : j = i
    · subst hj'
      simp only [Function.update_self] at h0 ⊢
      rw [(hp h0).1, (hp h0).2]
      exact h.free j hj (ha.mp h0)
    · rw [Function.update_of_ne hj'] at h0 ⊢
      exact h.free j hj h0

theorem addMshr_does {s : State ρ} {p : Packet} (h : Shape c s)
    (hroom : s.mshr.occupancy < c.mshrSize) (hp : p.address ≠ 0) :
    Shape c (addMshr c s p) ∧ ∃ i < c.mshrSize, (view c s).mshr i = none ∧
      view c (addMshr c s p) = (view c s).setMshr i (some { p with returned := .inflight }) := by
  unfold addMshr
  cases hc : checkMshr c s 0 with
  | none =>
    rw [h.mshr.occupancy] at hroom
    obtain ⟨i, hi, hfree⟩ := exists_of_count_lt hroom
    have := PacketQueue.findFrom_eq_none.mp hc i (Nat.zero_le i) hi
    simp only [beq_eq_false_iff_ne] at this
    exact absurd this hfree
  | some i =>
    obtain ⟨hi, h0⟩ := checkMshr_some hc
    refine ⟨h.setMshr ⟨h.mshr.size_eq, ?_, ?_⟩, i, hi, ?_, ?_⟩
    · show s.mshr.occupancy + 1 = _
      rw [h.mshr.occupancy]
      refine (count_raise hi (not_not_intro h0) ?_ fun j _ hj => ?_).symm
      · simp [hp]
      · simp [hj]
    · intro j hj hj0
      simp only [PacketQueue.setEntry_entry] at hj0 ⊢
      by_cases hji : j = i
      · subst hji
        simp only [Function.update_self] at hj0
        exact absurd hj0 hp
      · rw [Function.update_of_ne hji] at hj0 ⊢
        exact h.mshr.free j hj hj0
    · simp [view, h0]
    · dsimp only
      rw [view_setMshr hi rfl, if_pos hp]

/-- `q'` is `q` with the entry `i` rewritten and other counters. -/
structure Rewrites (i : Nat) (p : Packet) (q q' : PacketQueue) : Prop where
  size : q'.size = q.size
  entry : q'.entry = Function.update q.entry i p

theorem returnData_eq {env : Env} {s s' : State ρ} {p : Packet}
    (h : returnData c env s p = some s') :
    ∃ i q e, checkMshr c s p.address = some i ∧ SameRequest (s.mshr.entry i) e ∧
      s' = { s with mshr := q } ∧ Rewrites i e s.mshr q ∧ q.occupancy = s.mshr.occupancy := by
  obtain ⟨i, hi, rfl⟩ := Option.map_eq_some_iff.mp h
  exact ⟨i, _, _, hi, ⟨_, _, _, _, _, _, _, rfl⟩, rfl, ⟨rfl, rfl⟩, rfl⟩

theorem removeMshr_eq {s s' : State ρ} {i : Nat} (h : removeMshr c s i = some s') :
    ∃ q, s' = { s with mshr := q } ∧ Rewrites i (Packet.empty c.numCpus) s.mshr q ∧
      q.occupancy = s.mshr.occupancy - 1 := by
  obtain ⟨q, hq, rfl⟩ := Option.map_eq_some_iff.mp h
  unfold PacketQueue.removeQueue at hq
  split at hq
  · cases hq
  · cases hq
    exact ⟨_, rfl, ⟨rfl, rfl⟩, rfl⟩

/-- An address of 0 finds a free slot, which stays free. -/
theorem returnData_does {env : Env} {s : State ρ} {p : Packet} (h : Shape c s) :
    Does c (Quiet I) s (returnData c env s p) := by
  refine Ends.intro fun s' hs' => ?_
  obtain ⟨i, q, e, hi, he, rfl, hq, hocc⟩ := returnData_eq hs'
  obtain ⟨hlt, -⟩ := checkMshr_some hi
  refine ⟨h.setMshr (h.mshr.rewrite hq.size hocc hq.entry (by rw [he.address])
    fun _ => ⟨he.cpu, he.type⟩), ?_⟩
  rw [view_setMshr hlt hq.entry]
  cases hv : (view c s).mshr i with
  | none =>
    have h0 : (s.mshr.entry i).address = 0 := by simpa [view, hlt] using hv
    rw [if_neg (not_not_intro (he.address.trans h0)), setMshr_self hv]
    exact .refl
  | some e' =>
    obtain ⟨-, h0, rfl⟩ := view_mshr.mp hv
    rw [if_pos (he.address ▸ h0)]
    exact .single (.answered _ hv he)

theorem removeMshr_does {s : State ρ} {i : Nat} (h : Shape c s) (hi : i < c.mshrSize)
    (h0 : (s.mshr.entry i).address ≠ 0) :
    Does c (fun v v' => v' = v.setMshr i none) s (removeMshr c s i) := by
  refine Ends.intro fun s' hs' => ?_
  obtain ⟨q, rfl, hq, hocc⟩ := removeMshr_eq hs'
  refine ⟨h.setMshr ⟨hq.size.trans h.mshr.size_eq, ?_, ?_⟩, ?_⟩
  · have hcount := count_lower (p := fun j => (s.mshr.entry j).address ≠ 0)
      (q := fun j => (q.entry j).address ≠ 0) hi h0 (by simp [hq.entry])
      fun j _ hj => by simp [hq.entry, hj]
    rw [hocc, h.mshr.occupancy, hcount, Nat.add_sub_cancel]
  · intro j hj hj0
    rw [hq.entry] at hj0 ⊢
    by_cases hji : j = i
    · subst hji
      simp only [Function.update_self]
      exact ⟨rfl, rfl⟩
    · rw [Function.update_of_ne hji] at hj0 ⊢
      exact h.mshr.free j hj hj0
  · rw [view_setMshr hi hq.entry, if_neg (by simp)]

theorem answer_does {env : Env} {s : State ρ} {p : Packet} (h : Shape c s) :
    Does c (Quiet I) s (answer c env s p) := by
  refine Ends.intro fun s' hs' => ?_
  refine run_invariant (I := fun t => Shape c t ∧ Quiet I (view c s) (view c t))
    (P := fun _ _ => True) ?_ ⟨h, .refl⟩ (along_of_forall (A := fun _ => True) (by simp) _) hs'
  rintro t data t' ⟨ht, hv⟩ - ht'
  obtain ⟨hshape, hv'⟩ := (returnData_does ht).of_eq ht'
  exact ⟨hshape, hv.trans hv'⟩

/-! ## Fills -/

theorem withPa_same (p : Packet) (data : Nat) : SameRequest p (withPa c p data) := by
  unfold withPa
  split
  · exact ⟨_, _, _, _, _, _, _, rfl⟩
  · exact ⟨_, _, _, _, _, _, _, rfl⟩
  · exact SameRequest.refl p

theorem withData_same (p : Packet) (data : Nat) : SameRequest p (withData c p data) := by
  unfold withData
  split
  · exact ⟨_, _, _, _, _, _, _, rfl⟩
  · exact withPa_same p data

theorem deliver_does {s : State ρ} {p : Packet} (h : Shape c s) :
    Does c (fun v v' => ∃ room, v' = v.deliver c room p) s (deliver c s p) := by
  by_cases hp : View.ToCore c p
  · have hdeliver : deliver c s p = process s p := by
      unfold deliver
      rcases hp with hc | hc | hc | ⟨hc, ht⟩
      · rw [hc]
      · rw [hc]
      · rw [hc]
      · rw [hc]
        exact if_neg ht
    rw [hdeliver]
    exact process_does h hp
  · have hdeliver : deliver c s p = some s := by
      unfold deliver
      simp only [View.ToCore, not_or, not_and, not_not] at hp
      obtain ⟨hitlb, hdtlb, hl1i, hl1d⟩ := hp
      split <;> simp_all
    rw [hdeliver]
    exact ⟨h, true, by rw [View.deliver, if_neg hp]⟩

theorem deliver_setMshr (v : View) (room : Bool) (p : Packet) (i : Nat) (e : Option Packet) :
    (v.deliver c room p).setMshr i e = (v.setMshr i e).deliver c room p := by
  unfold View.deliver
  split
  · split <;> rfl
  · rfl

/-- The write-backs sent once the line has been evicted. -/
def View.evicted (c : Config) (v : View) (set way : Nat) : List Nat :=
  if (v.line set way).dirty && c.hasLower then v.sent ++ [(v.line set way).address] else v.sent

theorem evict_does {env : Env} {s : State ρ} {set way : Nat} {p : Packet} (h : Shape c s) :
    Ends False (fun r => Shape c r.2 ∧
      (r.1 = true → view c r.2 = { view c s with sent := (view c s).evicted c set way }) ∧
      (r.1 = false → view c r.2 = view c s)) (evict c env s set way p) := by
  have hdirty : ((view c s).line set way).dirty = (s.block set way).dirty := rfl
  unfold evict
  dsimp only
  split
  · rename_i hd
    split
    · rename_i hl
      split
      · exact ⟨call_shape h _, fun hr => (by cases hr), fun _ => view_call rfl⟩
      · refine ⟨call_shape h _, fun _ => ?_, fun hr => (by cases hr)⟩
        rw [View.evicted, hdirty, hd, hl]
        simp only [view, State.call, List.filterMap_append, List.filterMap_cons,
          List.filterMap_nil, Call.writeback?]
        rfl
    · rename_i hl
      split
      · exact id
      · refine ⟨h, fun _ => ?_, fun hr => (by cases hr)⟩
        rw [View.evicted, if_neg (by simp [hl])]
  · rename_i hd
    refine ⟨h, fun _ => ?_, fun hr => (by cases hr)⟩
    rw [View.evicted, if_neg (by simp [hdirty, hd])]

theorem fillBlock_does {P : Policy c ρ} {env : Env} {s : State ρ} {set way : Nat} {p : Packet}
    (h : Shape c s) (hI : env.Invalidates → I) :
    Ends False (fun r => Shape c r.1 ∧ SameRequest p r.2 ∧ ∃ v, CallbackSteps I (view c s) v ∧
      view c r.1 = v.setLine set way ⟨true, false, p.address, p.address⟩)
      (fillBlock P env s set way p) := by
  have hfill : Ends False (fun r => Shape c r.1 ∧ SameRequest p r.2 ∧
      CallbackSteps I (view c s) (view c r.1)) (prefetcherFill c env s p) := by
    unfold prefetcherFill
    split
    · exact ⟨h, SameRequest.refl p, .refl⟩
    · refine (runPrefetcher_does h hI).map ?_
      rintro s' ⟨h', hv⟩
      refine ⟨h', ?_, hv⟩
      dsimp only
      split
      · exact ⟨_, _, _, _, _, _, _, rfl⟩
      · exact SameRequest.refl p
  unfold fillBlock
  refine hfill.bind ?_
  rintro ⟨s₁, q⟩ ⟨h₁, hq, hv⟩
  refine Ends.intro fun r hr => ?_
  obtain ⟨s₂, hs₂, rfl⟩ := Option.map_eq_some_iff.mp hr
  obtain ⟨⟨hrq, hwq, hpq, hprocessed, hmshr⟩, hview⟩ := fillCache_eq hs₂
  refine ⟨h₁.of_rings ?_ ?_ ?_ ?_ ?_, hq, view c s₁, hv, ?_⟩
  · rw [hrq]; rfl
  · rw [hwq]; rfl
  · rw [hpq]; rfl
  · rw [hprocessed]; rfl
  · rw [hmshr]; rfl
  · rw [hview, view_updateReplacement, hq.address]

/-- Eviction, prefetcher and fill are the prefetcher's steps and then one replacement. -/
theorem replace_eq {v v₂ : View} {set way : Nat}
    (h : CallbackSteps I { v with sent := v.evicted c set way } v₂) :
    ∃ v₁, CallbackSteps I v v₁ ∧ v₁.mshr = v.mshr ∧ v₁.wq = v.wq ∧ ∀ dirty p,
      v₂.setLine set way ⟨true, dirty, p.address, p.address⟩ = v₁.replace c set way dirty p := by
  have hu := h.undisturbed
  refine ⟨v₂.withQueues v.rq v.wq v.sent, h.withQueues v.rq v.wq v.sent, hu.mshr, rfl, ?_⟩
  intro dirty p
  have hsent : v₂.sent = if (v₂.line set way).dirty && c.hasLower then
      v.sent ++ [(v₂.line set way).address] else v.sent := by
    rw [hu.sent, hu.dirty, hu.address]
    rfl
  have hrq : v₂.rq = v.rq := hu.rq
  have hwq : v₂.wq = v.wq := hu.wq
  unfold View.replace
  simp only [View.setLine, View.withQueues, ← hsent, ← hrq, ← hwq]

theorem setLine_setLine (v : View) (set way : Nat) (l l' : Line) :
    (v.setLine set way l).setLine set way l' = v.setLine set way l' := by
  simp [View.setLine]

theorem setLine_get (v : View) (set way : Nat) (l : Line) : (v.setLine set way l).line set way = l := by
  simp [setLine_line]

theorem setLine_same (v : View) (set way : Nat) : v.setLine set way (v.line set way) = v := by
  simp [View.setLine]

theorem Steps.single {R : Rules} {v v' : View} (h : Step c R v v') : Steps c R v v' :=
  Relation.ReflTransGen.single h

theorem fill_does {P : Policy c ρ} {R : Rules} {env : Env} {s : State ρ} {v : View}
    {i way : Nat} {p : Packet} (h : Shape c s) (hI : env.Invalidates → R.invalidate)
    (hp : v.mshr i = some p) (hi : i < c.mshrSize) (hway : way < c.numWay)
    (hv : view c s = { v with sent := v.evicted c (c.getSet p.address) way }) :
    Ends False (fun s' => Shape c s' ∧ Steps c R v (view c s'))
      (fill P env s i (c.getSet p.address) way p) := by
  unfold fill
  refine (fillBlock_does h hI).bind ?_
  rintro ⟨s₁, q⟩ ⟨h₁, hq, v₂, hcall, hv₁⟩
  dsimp only at h₁ hq hv₁ ⊢
  rw [hv] at hcall
  obtain ⟨v₁, hcall₁, hmshr, -, hreplace⟩ := replace_eq hcall
  -- the block is marked dirty or not
  generalize hs₂ : (if c.cacheType = .l1d ∧ q.type = .rfo then
    markDirty s₁ (c.getSet p.address) way else s₁) = s₂
  have h₂ : Shape c s₂ ∧ view c s₂ = v₁.replace c (c.getSet p.address) way
      (c.cacheType == .l1d && p.type == .rfo) p := by
    rw [hq.type] at hs₂
    rw [← hreplace]
    subst hs₂
    split
    · rename_i hd
      refine ⟨markDirty_shape h₁ _ _, ?_⟩
      rw [view_markDirty, hv₁, setLine_get, setLine_setLine, hd.1, hd.2]
      rfl
    · rename_i hd
      refine ⟨h₁, ?_⟩
      have hfalse : (c.cacheType == .l1d && p.type == .rfo) = false := by
        cases hb : (c.cacheType == .l1d && p.type == .rfo) with
        | false => rfl
        | true =>
          simp only [Bool.and_eq_true, beq_iff_eq] at hb
          exact absurd hb hd
      rw [hv₁, hfalse]
  obtain ⟨h₃, hv₃⟩ := returnUpper_does h₂.1 q.cpu q
  refine (deliver_does h₃).bind ?_
  rintro s₄ ⟨h₄, room, hv₄⟩
  have hentry : (view c s₄).mshr i = some p := by
    have : (view c s₄).mshr = v.mshr := by
      rw [hv₄, hv₃, h₂.2, ← hmshr]
      unfold View.deliver
      split
      · split <;> rfl
      · rfl
    rw [this, hp]
  obtain ⟨-, h0, he⟩ := view_mshr.mp hentry
  refine (removeMshr_does h₄ hi h0).mono ?_
  rintro s₅ ⟨h₅, hv₅⟩
  refine ⟨h₅, ?_⟩
  rw [hv₅, hv₄, hv₃, h₂.2, deliver_setMshr]
  exact hcall₁.steps.tail (.filled v₁ room (hmshr ▸ hp) (hq.trans (withPa_same _ _)) hway)

theorem bypass_does {P : Policy c ρ} {R : Rules} {s : State ρ} {i set way : Nat} {p : Packet}
    (h : Shape c s) (hp : (view c s).mshr i = some p) (hc : c.cacheType = .llc) :
    Does c (Steps c R) s (bypass P s i set way p) := by
  obtain ⟨hi, h0, he⟩ := view_mshr.mp hp
  obtain ⟨h₂, hv₂⟩ := returnUpper_does
    (updateReplacement_shape P h set way p p.fullAddr 0 false) p.cpu p
  rw [view_updateReplacement] at hv₂
  have hp₂ := hp
  rw [← hv₂] at hp₂
  obtain ⟨-, h0₂, -⟩ := view_mshr.mp hp₂
  refine (removeMshr_does h₂ hi h0₂).mono ?_
  rintro s₃ ⟨h₃, hv₃⟩
  refine ⟨h₃, ?_⟩
  rw [hv₃, hv₂]
  exact Steps.single (.bypassed (view c s) hp hc)

theorem handleFill_does {P : Policy c ρ} {R : Rules} {env : Env} {s : State ρ} (h : Shape c s)
    (hI : env.Invalidates → R.invalidate) :
    Does c (Steps c R) s (handleFill P env s) := by
  unfold handleFill
  dsimp only
  generalize hi : s.mshr.nextFillIndex = i
  split
  · exact Does.refl h .refl
  · rename_i hready
    split
    · split
      · exact id
      · rename_i hlt
        have hlt : i < c.mshrSize := h.mshr.size_eq ▸ Nat.lt_of_not_le hlt
        have h0 : (s.mshr.entry i).address ≠ 0 := fun h0 =>
          hready (.inr (h.mshr.free i hlt h0).1)
        have hentry : (view c s).mshr i = some (s.mshr.entry i) := view_mshr.mpr ⟨hlt, h0, rfl⟩
        refine Ends.intro fun s' hs' => ?_
        obtain ⟨⟨way, s₀⟩, hvictim, hs'⟩ := Option.bind_eq_some_iff.mp hs'
        obtain ⟨hle, r, rfl⟩ := findVictim_some hvictim
        replace h : Shape c { s with policy := r } := h.of_rings rfl rfl rfl rfl rfl
        split at hs'
        · rename_i hllc
          exact (bypass_does h hentry hllc.1).of_eq hs'
        · rename_i hllc
          have hway : way < c.numWay := hle.resolve_right fun hbypass => hllc hbypass.symm
          obtain ⟨⟨doFill, s₁⟩, hs₁, hs'⟩ := Option.bind_eq_some_iff.mp hs'
          obtain ⟨h₁, hyes, hno⟩ := (evict_does h).of_eq hs₁
          cases doFill with
          | true => exact (fill_does h₁ hI hentry hlt hway (hyes rfl)).of_eq hs'
          | false =>
            cases hs'
            exact Does.refl h₁ (hno rfl ▸ .refl)
    · exact Does.refl h .refl

/-! ## Write-backs -/

/-- Removing the oldest entry of a queue. -/
theorem popQueue {size n : Nat} {q q' : PacketQueue} {p : Packet} {rest : List Packet}
    (h : InShape size q) (hp : q.contents = p :: rest) (hq : q.removeQueue n q.head = some q') :
    InShape size q' ∧ q'.contents = rest ∧ ∀ x ∈ q'.contents, x ∈ q.contents := by
  have ho : 0 < q.occupancy := by
    rw [← Ring.contents_length, hp]
    simp
  rw [removeQueue_head ho] at hq
  cases hq
  have hcontents := Ring.pop_contents h.wf ho (Packet.empty n)
  refine ⟨h.pop ho, (List.cons.inj (hcontents.symm.trans hp)).2, fun x hx => ?_⟩
  rw [hcontents]
  exact List.mem_cons_of_mem _ hx

theorem popWq_does {s : State ρ} (h : Shape c s) {p : Packet} {rest : List Packet}
    (hp : (view c s).wq = p :: rest) :
    Does c (fun v v' => v' = { v with wq := rest }) s (popWq c s) := by
  refine Ends.intro fun s' hs' => ?_
  obtain ⟨q, hq, rfl⟩ := Option.map_eq_some_iff.mp hs'
  obtain ⟨hshape, hrest, -⟩ := popQueue h.wq hp hq
  refine ⟨h.setWq hshape, ?_⟩
  rw [← hrest]
  rfl

theorem popRq_does {s : State ρ} (h : Shape c s) {p : Packet} {rest : List Packet}
    (hp : (view c s).rq = p :: rest) :
    Does c (fun v v' => v' = { v with rq := rest }) s (popRq c s) := by
  refine Ends.intro fun s' hs' => ?_
  obtain ⟨q, hq, rfl⟩ := Option.map_eq_some_iff.mp hs'
  obtain ⟨hshape, hrest, hmem⟩ := popQueue h.rq hp hq
  have h' : Shape c { s with rq := q } := h.setRq hshape fun x hx =>
    h.rqLive x (hmem x hx)
  refine ⟨h'.of_rings rfl rfl rfl rfl rfl, ?_⟩
  rw [← hrest]
  rfl

theorem popPq_does {s : State ρ} (h : Shape c s) {p : Packet} {rest : List Packet}
    (hp : (view c s).pq = p :: rest) :
    Does c (fun v v' => v' = { v with pq := rest }) s (popPq c s) := by
  refine Ends.intro fun s' hs' => ?_
  obtain ⟨q, hq, rfl⟩ := Option.map_eq_some_iff.mp hs'
  obtain ⟨hshape, hrest, hmem⟩ := popQueue h.pq hp hq
  have h' : Shape c { s with pq := q } := h.setPq hshape fun x hx =>
    h.pqLive x (hmem x hx)
  refine ⟨h'.of_rings rfl rfl rfl rfl rfl, ?_⟩
  rw [← hrest]
  rfl

theorem head_contents {size : Nat} {q : PacketQueue} (h : InShape size q)
    (ho : q.occupancy > 0) : ∃ rest, q.contents = q.entry q.head :: rest :=
  ⟨_, Ring.pop_contents h.wf ho (Packet.empty 0)⟩

theorem invalidateAll_does {s : State ρ} (h : Shape c s) {as : List Nat} (hI : as ≠ [] → I) :
    Shape c (as.foldl (invalidateEntry c) s) ∧
      CallbackSteps I (view c s) (view c (as.foldl (invalidateEntry c) s)) := by
  induction as generalizing s with
  | nil => exact ⟨h, .refl⟩
  | cons a as ih =>
    have hinv := hI (List.cons_ne_nil a as)
    obtain ⟨h₁, hv₁⟩ := invalidateEntry_does h hinv a
    obtain ⟨h₂, hv₂⟩ := ih h₁ fun _ => hinv
    exact ⟨h₂, hv₁.trans hv₂⟩

theorem requestLower_does {env : Env} {s : State ρ} {p : Packet} (h : Shape c s)
    (hI : env.Invalidates → I) (hroom : s.mshr.occupancy < c.mshrSize) (hp : p.address ≠ 0) :
    Ends False (fun s' => Shape c s' ∧ ∃ i q, i < c.mshrSize ∧ (view c s).mshr i = none ∧
      SameRequest p q ∧
      Quiet I ((view c s).setMshr i (some q)) (view c s')) (requestLower c env s p) := by
  obtain ⟨h₁, i, hi, hfree, hv₁⟩ :=
    addMshr_does (p := { p with cycleEnqueued := env.currentCoreCycle p.cpu }) h hroom hp
  have hsame : SameRequest p
      { p with cycleEnqueued := env.currentCoreCycle p.cpu, returned := .inflight } :=
    ⟨_, _, _, _, _, _, _, rfl⟩
  unfold requestLower
  dsimp only
  split
  · refine (answer_does (I := I) (call_shape h₁ _)).mono ?_
    rintro s' ⟨h', hv'⟩
    rw [view_call rfl, hv₁] at hv'
    exact ⟨h', i, _, hi, hfree, hsame, hv'⟩
  · split
    · obtain ⟨h₂, hv₂⟩ := invalidateAll_does h₁ fun hw => hI (.inr hw)
      refine (returnData_does (I := I) h₂).mono ?_
      rintro s' ⟨h', hv'⟩
      rw [hv₁] at hv₂
      exact ⟨h', i, _, hi, hfree, hsame, hv₂.quiet.trans hv'⟩
    · exact ⟨h₁, i, _, hi, hfree, hsame, hv₁ ▸ .refl⟩

/-- With a free slot, an address without an entry is not 0. -/
theorem address_ne_zero {s : State ρ} {address : Nat} (h : Shape c s)
    (hc : checkMshr c s address = none) (hroom : s.mshr.occupancy < c.mshrSize) : address ≠ 0 := by
  rintro rfl
  rw [h.mshr.occupancy] at hroom
  obtain ⟨i, hi, hfree⟩ := exists_of_count_lt hroom
  have := PacketQueue.findFrom_eq_none.mp hc i (Nat.zero_le i) hi
  simp only [beq_eq_false_iff_ne] at this
  exact absurd this hfree

theorem mergeMshr_does (merge : Packet → Packet → Packet) {s : State ρ} {i : Nat} {p : Packet}
    (h : Shape c s) (hm : ∀ e, e.address = p.address → (merge p e).address = p.address)
    (hi : checkMshr c s p.address = some i) (hp : p.address ≠ 0) :
    Shape c (mergeMshr s i merge p) ∧ (view c s).mshr i = some (s.mshr.entry i) ∧
      (s.mshr.entry i).address = p.address ∧
      view c (mergeMshr s i merge p) =
        (view c s).setMshr i (some (merge p (s.mshr.entry i))) := by
  obtain ⟨hlt, ha⟩ := checkMshr_some hi
  have ha' := hm _ ha
  refine ⟨h.setMshr (h.mshr.rewrite rfl rfl rfl ?_ ?_), ?_, ha, ?_⟩
  · rw [ha', ha]
  · intro h0
    exact absurd (ha' ▸ h0) hp
  · exact view_mshr.mpr ⟨hlt, ha ▸ hp, rfl⟩
  · unfold mergeMshr
    rw [view_setMshr hlt rfl, if_pos (ha' ▸ hp)]

theorem upgrade_address {p e : Packet} (h : e.address = p.address) :
    (upgrade p e).address = p.address := by
  unfold upgrade
  split
  · rfl
  · exact h

theorem mergeWriteback_address {p e : Packet} (h : e.address = p.address) :
    (mergeWriteback p e).address = p.address :=
  upgrade_address h

/-- A store of address 0 is merged into a free slot and leaves no trace. -/
theorem mergeMshr_zero {s : State ρ} {i : Nat} {p : Packet} (h : Shape c s)
    (hi : checkMshr c s p.address = some i) (hp : p.address = 0) :
    Shape c (mergeMshr s i mergeWriteback p) ∧
      view c (mergeMshr s i mergeWriteback p) = view c s := by
  obtain ⟨hlt, ha⟩ := checkMshr_some hi
  rw [hp] at ha
  have hmerge : mergeWriteback p (s.mshr.entry i) = mergeFill p (s.mshr.entry i) := by
    unfold mergeWriteback upgrade
    have htype : (mergeFill p (s.mshr.entry i)).type = .load := (h.mshr.free i hlt ha).2
    rw [htype]
    rfl
  unfold mergeMshr
  rw [hmerge]
  refine ⟨h.setMshr (h.mshr.rewrite rfl rfl rfl Iff.rfl fun _ => ⟨rfl, rfl⟩), ?_⟩
  have hnone : (view c s).mshr i = none := by simp [view, ha]
  have h0 : (mergeFill p (s.mshr.entry i)).address = 0 := ha
  rw [view_setMshr hlt rfl, if_neg (not_not_intro h0), setMshr_self hnone]

/-- There is a victim for `p`, and its block can be overwritten. -/
def Evicts (P : Policy c ρ) (env : Env) (s : State ρ) (p : Packet) : Prop :=
  let set := c.getSet p.address
  ((findVictim P s set p).bind fun (way, s) => (evict c env s set way p).map Prod.fst) = some true

instance (P : Policy c ρ) (env : Env) (s : State ρ) (p : Packet) : Decidable (Evicts P env s p) :=
  inferInstanceAs (Decidable (_ = _))

/-- The rules hold of the write-back that the handler is about to serve. -/
def Obeys (P : Policy c ρ) (R : Rules) (env : Env) (s : State ρ) : Prop :=
  let p := s.wq.entry s.wq.head
  Ready c env s.wq → checkHit c s p.address = none →
    if c.cacheType = .l1d then
      ∀ i, checkMshr c s p.address = some i →
        (p.address = 0 → R.loseStore) ∧ R.mergeStore p (s.mshr.entry i)
    else Evicts P env s p → R.install (view c s).mshr p

theorem obeys_any (P : Policy c ρ) (env : Env) (s : State ρ) : Obeys P Rules.any env s := by
  intro _ _
  split
  · exact fun _ _ => ⟨fun _ => trivial, trivial⟩
  · exact fun _ => trivial

/-- At most one step, and what it sets off. -/
def Turn (c : Config) (R : Rules) (v v' : View) : Prop :=
  ∃ w, (w = v ∨ Step c R v w) ∧ Quiet R.invalidate w v'

theorem Turn.steps {R : Rules} {v v' : View} (h : Turn c R v v') : Steps c R v v' := by
  obtain ⟨w, rfl | hs, hq⟩ := h
  · exact hq.steps
  · exact (Steps.single hs).trans hq.steps

theorem writeHit_does {P : Policy c ρ} {R : Rules} {s : State ρ} {way : Nat} {p : Packet}
    {rest : List Packet} (h : Shape c s) (hp : (view c s).wq = p :: rest)
    (hhit : (view c s).Hit c p.address way) : Does c (Turn c R) s (writeHit P s way p) := by
  unfold writeHit
  dsimp only
  have h₁ := updateReplacement_shape P h (c.getSet p.address) way p
    (s.block (c.getSet p.address) way).fullAddr 0 true
  have hv₁ := view_updateReplacement P s (c.getSet p.address) way p
    (s.block (c.getSet p.address) way).fullAddr 0 true
  generalize updateReplacement P s (c.getSet p.address) way p
    (s.block (c.getSet p.address) way).fullAddr 0 true = s₁ at h₁ hv₁ ⊢
  have hv₂ := view_markDirty (c := c) s₁ (c.getSet p.address) way
  rw [hv₁] at hv₂
  obtain ⟨h₃, hv₃⟩ := returnUpper_does (markDirty_shape h₁ (c.getSet p.address) way) p.cpu
    (withData c p ((markDirty s₁ (c.getSet p.address) way).block (c.getSet p.address) way).data)
  rw [hv₂] at hv₃
  have hp₃ := congrArg View.wq hv₃
  refine (popWq_does h₃ (hp₃.trans hp)).mono ?_
  rintro s₄ ⟨h₄, hv₄⟩
  refine ⟨h₄, ?_⟩
  rw [hv₄, hv₃]
  exact ⟨_, .inr (.writeHit (view c s) hp hhit), .refl⟩

theorem storeMiss_does {R : Rules} {env : Env} {s : State ρ} {p : Packet} {rest : List Packet}
    (h : Shape c s) (hI : env.Invalidates → R.invalidate) (hp : (view c s).wq = p :: rest)
    (hc : c.cacheType = .l1d) (hmiss : (view c s).Miss c p.address) 
    (hR : ∀ i, checkMshr c s p.address = some i →
      (p.address = 0 → R.loseStore) ∧ R.mergeStore p (s.mshr.entry i)) :
    Does c (Turn c R) s (storeMiss c env s p) := by
  unfold storeMiss
  cases hm : checkMshr c s p.address with
  | none =>
    dsimp only
    split
    · rename_i hroom
      have h0 := address_ne_zero h hm hroom
      refine (requestLower_does h hI hroom h0).bind ?_
      rintro s₁ ⟨h₁, i, q, hi, hfree, hq, hv₁⟩
      have hp₁ : (view c s₁).wq = p :: rest := hv₁.queues.2.1.trans hp
      refine (popWq_does h₁ hp₁).mono ?_
      rintro s₂ ⟨h₂, hv₂⟩
      refine ⟨h₂, ?_⟩
      rw [hv₂]
      exact ⟨_, .inr (.storeAllocated (view c s) hp hq hc hmiss (checkMshr_none hm) hfree h0 hi),
        hv₁.withWq rest⟩
    · split
      · exact Does.refl h ⟨_, .inl rfl, .refl⟩
      · exact id
  | some i =>
    dsimp only
    by_cases h0 : p.address = 0
    · obtain ⟨h₁, hv₁⟩ := mergeMshr_zero h hm h0
      refine (popWq_does h₁ (hv₁ ▸ hp)).mono ?_
      rintro s₂ ⟨h₂, hv₂⟩
      refine ⟨h₂, ?_⟩
      rw [hv₂, hv₁]
      exact ⟨_, .inr (.storeLost (view c s) hp hc h0 ((hR i hm).1 h0)), .refl⟩
    · obtain ⟨h₁, he, ha, hv₁⟩ :=
        mergeMshr_does mergeWriteback h (fun e he => mergeWriteback_address he) hm h0
      have hp₁ : (view c (mergeMshr s i mergeWriteback p)).wq = p :: rest := by
        rw [hv₁]
        exact hp
      refine (popWq_does h₁ hp₁).mono ?_
      rintro s₂ ⟨h₂, hv₂⟩
      refine ⟨h₂, ?_⟩
      rw [hv₂, hv₁]
      exact ⟨_, .inr (.storeMerged (view c s) hp hc he ha (hR i hm).2), .refl⟩

theorem install_does {P : Policy c ρ} {R : Rules} {env : Env} {s : State ρ} {p : Packet}
    {rest : List Packet} (h : Shape c s) (hI : env.Invalidates → R.invalidate)
    (hp : (view c s).wq = p :: rest) (hc : c.cacheType ≠ .l1d) (hmiss : (view c s).Miss c p.address)
    (hR : Evicts P env s p → R.install (view c s).mshr p) :
    Does c (Steps c R) s (install P env s p) := by
  refine Ends.intro fun s' hs' => ?_
  obtain ⟨⟨way, s₀⟩, hvictim, hs'⟩ := Option.bind_eq_some_iff.mp hs'
  obtain ⟨hle, r, rfl⟩ := findVictim_some hvictim
  replace h : Shape c { s with policy := r } := h.of_rings rfl rfl rfl rfl rfl
  dsimp only at hs'
  split at hs'
  · cases hs'
  · rename_i hllc
    have hway : way < c.numWay := hle.resolve_right fun hbypass => hllc hbypass.symm
    obtain ⟨⟨doFill, s₁⟩, hs₁, hs'⟩ := Option.bind_eq_some_iff.mp hs'
    obtain ⟨h₁, hyes, hno⟩ := (evict_does h).of_eq hs₁
    cases doFill with
    | false =>
      cases hs'
      exact Does.refl h₁ (hno rfl ▸ .refl)
    | true =>
      have hevicts : Evicts P env s p := by
        unfold Evicts
        dsimp only
        rw [hvictim, Option.bind_some, hs₁]
        rfl
      obtain ⟨⟨s₂, q⟩, hs₂, hs'⟩ := Option.bind_eq_some_iff.mp hs'
      obtain ⟨h₂, hq, v₂, hcall, hv₂⟩ := (fillBlock_does h₁ hI).of_eq hs₂
      dsimp only at h₂ hq hv₂ hs'
      rw [hyes rfl] at hcall
      obtain ⟨v₁, hcall₁, hmshr, hwq, hreplace⟩ := replace_eq hcall
      have hv₃ := view_markDirty (c := c) s₂ (c.getSet p.address) way
      rw [hv₂, setLine_get, setLine_setLine, hreplace true p] at hv₃
      obtain ⟨h₄, hv₄⟩ := returnUpper_does (markDirty_shape h₂ (c.getSet p.address) way) q.cpu q
      rw [hv₃] at hv₄
      have hp₁ : v₁.wq = p :: rest := hwq.trans hp
      have hp₄ := congrArg View.wq hv₄
      obtain ⟨h₅, hv₅⟩ := (popWq_does h₄ (hp₄.trans hp₁)).of_eq hs'
      refine ⟨h₅, ?_⟩
      rw [hv₅, hv₄]
      exact hcall₁.steps.tail
        (.installed v₁ hp₁ hc (hcall₁.undisturbed.miss hmiss) hway (hmshr ▸ hR hevicts))

/-- An L1D serves at most one store. -/
theorem handleWriteback_turn {P : Policy c ρ} {R : Rules} {env : Env} {s : State ρ}
    (h : Shape c s) (hI : env.Invalidates → R.invalidate) (hR : Obeys P R env s)
    (hc : c.cacheType = .l1d) : Does c (Turn c R) s (handleWriteback P env s) := by
  unfold handleWriteback
  split
  · rename_i hready
    obtain ⟨rest, hp⟩ := head_contents h.wq hready.2.2
    dsimp only
    cases hhit : checkHit c s (s.wq.entry s.wq.head).address with
    | some way => exact writeHit_does h hp (checkHit_some hhit)
    | none =>
      have hrule := hR hready hhit
      dsimp only
      rw [if_pos hc] at hrule
      exact storeMiss_does h hI hp hc (checkHit_none hhit) hrule
  · exact Does.refl h ⟨_, .inl rfl, .refl⟩

theorem handleWriteback_does {P : Policy c ρ} {R : Rules} {env : Env} {s : State ρ}
    (h : Shape c s) (hI : env.Invalidates → R.invalidate) (hR : Obeys P R env s) :
    Does c (Steps c R) s (handleWriteback P env s) := by
  by_cases hc : c.cacheType = .l1d
  · exact (handleWriteback_turn h hI hR hc).mono fun _ hs => ⟨hs.1, hs.2.steps⟩
  · unfold handleWriteback
    split
    · rename_i hready
      obtain ⟨rest, hp⟩ := head_contents h.wq hready.2.2
      dsimp only
      cases hhit : checkHit c s (s.wq.entry s.wq.head).address with
      | some way =>
        exact (writeHit_does h hp (checkHit_some hhit)).mono fun _ hs => ⟨hs.1, hs.2.steps⟩
      | none =>
        have hrule := hR hready hhit
        dsimp only
        rw [if_neg hc] at hrule
        exact install_does h hI hp hc (checkHit_none hhit) hrule
    · exact Does.refl h .refl

end Cache
end ChampSim
