import ChampSim.Cache.Merge
import ChampSim.Cache.Simulate

/-!
# ChampSim.Cache.Serve

Reads, prefetches and the cycle refine the abstract steps.

* `readOne_does`, `prefetchOne_does` — one round of the loops.
* `operate_does`    — a cycle is a sequence of steps when its write-back obeys the rules.
* `Effect`, `step_does` — what each call on the cache does to the view.
-/

namespace ChampSim
namespace Cache

open Lib

variable {ρ : Type} {c : Config} {P : Policy c ρ} {R : Rules} {I : Prop} {env : Env} {s : State ρ}

/-! ## Reads -/

theorem deliver_withRq (v : View) (room : Bool) (q : Packet) (rq : List Packet) :
    { v with rq := rq }.deliver c room q = { v.deliver c room q with rq := rq } := by
  unfold View.deliver
  split
  · split <;> rfl
  · rfl

theorem prefetcherLoad_does {p : Packet} (h : Shape c s) (hI : env.Invalidates → I) :
    Does c (CallbackSteps I) s (prefetcherLoad c env s p) := by
  unfold prefetcherLoad
  split
  · exact runPrefetcher_does h hI
  · exact Does.refl h .refl

/-- The end of a handled miss: the prefetcher runs and the request leaves `RQ`. -/
theorem finishRead_does {v : View} {p q : Packet} {rest : List Packet} (h : Shape c s)
    (hI : env.Invalidates → I) (hv : Quiet I v (view c s)) (hp : v.rq = p :: rest) :
    Ends False (fun s' => Shape c s' ∧ Quiet I { v with rq := rest } (view c s'))
      ((prefetcherLoad c env s q).bind (popRq c)) := by
  refine (prefetcherLoad_does h hI).bind ?_
  rintro s₁ ⟨h₁, hv₁⟩
  have hquiet : Quiet I v (view c s₁) := hv.trans hv₁.quiet
  refine (popRq_does h₁ (hquiet.queues.1.trans hp)).mono ?_
  rintro s₂ ⟨h₂, hv₂⟩
  exact ⟨h₂, hv₂ ▸ hquiet.withRq rest⟩

theorem readHit_does {way : Nat} {p : Packet} {rest : List Packet} (h : Shape c s)
    (hI : env.Invalidates → R.invalidate) (hp : (view c s).rq = p :: rest) :
    Does c (Steps c R) s (readHit P env s way p) := by
  unfold readHit
  dsimp only
  have hsame := withData_same (c := c) p (s.block (c.getSet p.address) way).data
  generalize withData c p (s.block (c.getSet p.address) way).data = q at hsame ⊢
  refine (deliver_does h).bind ?_
  rintro s₁ ⟨h₁, room, hv₁⟩
  refine (prefetcherLoad_does h₁ hI).bind ?_
  rintro s₂ ⟨h₂, hv₂⟩
  have hset : q.address = p.address := hsame.address
  have h₃ := updateReplacement_shape P h₂ (c.getSet p.address) way q
    (s₂.block (c.getSet p.address) way).fullAddr 0 true
  have hv₃ := view_updateReplacement P s₂ (c.getSet p.address) way q
    (s₂.block (c.getSet p.address) way).fullAddr 0 true
  generalize updateReplacement P s₂ (c.getSet p.address) way q
    (s₂.block (c.getSet p.address) way).fullAddr 0 true = s₃ at h₃ hv₃ ⊢
  obtain ⟨h₄, hv₄⟩ := returnUpper_does h₃ q.cpu q
  generalize returnUpper c s₃ q.cpu q = s₄ at h₄ hv₄ ⊢
  rw [hv₃] at hv₄
  -- the block keeps its line: only its marks change
  have hv₅ : view c ({ s₄ with
      pfUseful := if (s₄.block (c.getSet p.address) way).prefetch then s₄.pfUseful + 1
        else s₄.pfUseful }.setBlock (c.getSet p.address) way
      { s₄.block (c.getSet p.address) way with prefetch := false, used := true }) = view c s₂ := by
    rw [view_setBlock, ← hv₄]
    exact setLine_same (view c s₄) (c.getSet p.address) way
  have hquiet := hv₂.quiet
  rw [hv₁] at hquiet
  have hp₁ : ((view c s).deliver c room q).rq = p :: rest := by
    unfold View.deliver
    split
    · split <;> exact hp
    · exact hp
  refine (popRq_does ?_ ((congrArg View.rq hv₅).trans (hquiet.queues.1.trans hp₁))).mono ?_
  · exact h₄.of_rings rfl rfl rfl rfl rfl
  · rintro s₆ ⟨h₆, hv₆⟩
    refine ⟨h₆, ?_⟩
    rw [hv₆, hv₅]
    refine (Steps.single (.readHit (view c s) room hp hsame)).trans ?_
    rw [deliver_withRq]
    exact (hquiet.withRq rest).steps

theorem mergeRead_address {p e : Packet} (h : e.address = p.address) :
    (mergeRead p e).address = p.address :=
  upgrade_address ((mergeConsumers_frame p e).1.trans h)

theorem readOne_does (h : Shape c s) (hI : env.Invalidates → R.invalidate)
    (hready : Ready c env s.rq) :
    Does c (Steps c R) s (readOne P env s) := by
  obtain ⟨rest, hp⟩ := head_contents h.rq hready.2.2
  have h0 : (s.rq.entry s.rq.head).address ≠ 0 := h.rqLive _ (hp ▸ List.mem_cons_self)
  unfold readOne
  dsimp only
  generalize s.rq.entry s.rq.head = p at hp h0 ⊢
  cases hc : checkHit c s p.address with
  | some way => exact readHit_does h hI hp
  | none =>
    have hmiss := checkHit_none hc
    dsimp only
    unfold readMiss
    cases hm : checkMshr c s p.address with
    | some i =>
      obtain ⟨h₁, he, ha, hv₁⟩ :=
        mergeMshr_does mergeRead h (fun e he => mergeRead_address he) hm h0
      have hstep := Step.readMerged (c := c) (R := R) (view c s) hp he ha
      rw [← hv₁] at hstep
      have hp₁ : (view c (mergeMshr s i mergeRead p)).rq = p :: rest := by
        rw [hv₁]
        exact hp
      refine (finishRead_does h₁ hI .refl hp₁).mono ?_
      rintro s₂ ⟨h₂, hv₂⟩
      exact ⟨h₂, (Steps.single hstep).trans hv₂.steps⟩
    | none =>
      dsimp only
      split
      · rename_i hroom
        split
        · exact Does.refl h .refl
        · refine Ends.intro fun s' hs' => ?_
          obtain ⟨⟨handled, s₁⟩, hs₁, hs'⟩ := Option.bind_eq_some_iff.mp hs'
          obtain ⟨s₁, hs₁, heq⟩ := Option.map_eq_some_iff.mp hs₁
          cases heq
          obtain ⟨h₁, i, q, hi, hfree, hq, hv₁⟩ := (requestLower_does h hI hroom h0).of_eq hs₁
          obtain ⟨h₂, hv₂⟩ := (finishRead_does h₁ hI hv₁ hp).of_eq hs'
          refine ⟨h₂, (Steps.single (.readAllocated (view c s) hp hq hmiss (checkMshr_none hm)
            hfree h0 hi)).trans hv₂.steps⟩
      · split
        · exact Does.refl h .refl
        · exact id

/-! ## Prefetches -/

theorem Quiet.pq_cons {v v' : View} (h : Quiet I v v') {p : Packet} {rest : List Packet}
    (hp : v.pq = p :: rest) :
    ∃ p' rest', v'.pq = p' :: rest' ∧ p'.address = p.address := by
  have hget : ∃ e, v'.pq[0]? = some e ∧ e.address = p.address := by
    induction h with
    | refl => exact ⟨p, by rw [hp]; rfl, rfl⟩
    | tail _ hs ih =>
      obtain ⟨e, he, ha⟩ := ih
      cases hs with
      | callback hs =>
        obtain ⟨e', he', ha'⟩ := CallbackSteps.pq_address (.single hs) he
        exact ⟨e', he', ha'.trans ha⟩
      | answered hi hq => exact ⟨e, he, ha⟩
  obtain ⟨e, he, ha⟩ := hget
  cases hv : v'.pq with
  | nil => rw [hv] at he; cases he
  | cons p' rest' =>
    rw [hv] at he
    cases he
    exact ⟨_, rest', rfl, ha⟩

/-- The head of `PQ` may have been merged into, but is at the same address. -/
theorem prefetcherPrefetch_does {p : Packet} {rest : List Packet} (h : Shape c s)
    (hI : env.Invalidates → I) (hp : (view c s).pq = p :: rest) :
    Ends False (fun r => Shape c r.1 ∧ CallbackSteps I (view c s) (view c r.1) ∧
      ∃ p' rest', (view c r.1).pq = p' :: rest' ∧ SameRequest p' r.2 ∧ p'.address = p.address)
      (prefetcherPrefetch c env s) := by
  have hhead : ∀ {s' : State ρ}, Shape c s' → CallbackSteps I (view c s) (view c s') →
      ∃ rest', (view c s').pq = s'.pq.entry s'.pq.head :: rest' ∧
        (s'.pq.entry s'.pq.head).address = p.address := by
    intro s' h' hv'
    obtain ⟨p', rest', hp', ha⟩ := hv'.quiet.pq_cons hp
    have hocc : 0 < s'.pq.occupancy := by
      have hlen := congrArg List.length hp'
      change s'.pq.contents.length = _ at hlen
      rw [Ring.contents_length] at hlen
      simp only [List.length_cons] at hlen
      omega
    obtain ⟨rest'', hr⟩ := head_contents h'.pq hocc
    have hcons := hr.symm.trans hp'
    exact ⟨rest'', hr, by rw [(List.cons.inj hcons).1]; exact ha⟩
  unfold prefetcherPrefetch
  dsimp only
  split
  · refine (runPrefetcher_does h hI).map ?_
    rintro s' ⟨h', hv'⟩
    obtain ⟨rest', hp', ha⟩ := hhead h' hv'
    refine ⟨h', hv', _, rest', hp', ?_, ha⟩
    dsimp only
    split
    · exact SameRequest.refl _
    · exact ⟨_, _, _, _, _, _, _, rfl⟩
  · obtain ⟨rest', hp', ha⟩ := hhead h .refl
    exact ⟨h, .refl, _, rest', hp', SameRequest.refl _, ha⟩

theorem prefetchHit_does {way : Nat} {p : Packet} {rest : List Packet} (h : Shape c s)
    (hI : env.Invalidates → R.invalidate) (hp : (view c s).pq = p :: rest) :
    Does c (Steps c R) s (prefetchHit P env s way p) := by
  unfold prefetchHit
  dsimp only
  have h₁ := updateReplacement_shape P h (c.getSet p.address) way p
    (s.block (c.getSet p.address) way).fullAddr 0 true
  have hv₁ := view_updateReplacement P s (c.getSet p.address) way p
    (s.block (c.getSet p.address) way).fullAddr 0 true
  generalize updateReplacement P s (c.getSet p.address) way p
    (s.block (c.getSet p.address) way).fullAddr 0 true = s₁ at h₁ hv₁ ⊢
  rw [← hv₁] at hp
  refine (prefetcherPrefetch_does h₁ hI hp).bind ?_
  rintro ⟨s₂, q⟩ ⟨h₂, hv₂, p', rest', hp', -, -⟩
  dsimp only at h₂ hv₂ hp' ⊢
  obtain ⟨h₃, hv₃⟩ := returnUpper_does h₂ q.cpu q
  rw [← hv₃] at hp'
  refine (popPq_does h₃ hp').mono ?_
  rintro s₄ ⟨h₄, hv₄⟩
  refine ⟨h₄, ?_⟩
  rw [hv₃] at hp' hv₄
  rw [hv₄, ← hv₁]
  exact hv₂.steps.tail (.prefetchDone (view c s₂) hp')

/-- The view tells how many entries of the MSHR are in use. -/
theorem occupancy_congr {s s' : State ρ} (h : Shape c s) (h' : Shape c s')
    (hv : (view c s').mshr = (view c s).mshr) : s'.mshr.occupancy = s.mshr.occupancy := by
  rw [h.mshr.occupancy, h'.mshr.occupancy]
  refine count_congr fun i hi => ?_
  have hv := congrFun hv i
  simp only [view, hi, true_and] at hv
  split at hv <;> split at hv <;> simp_all

theorem forwardPrefetch_does {p : Packet} {rest : List Packet} (h : Shape c s)
    (hI : env.Invalidates → R.invalidate) (hp : (view c s).pq = p :: rest) (h0 : p.address ≠ 0)
    (hmiss : (view c s).Miss c p.address) (hfresh : (view c s).Fresh p.address)
    (hroom : s.mshr.occupancy < c.mshrSize) :
    Does c (Steps c R) s ((forwardPrefetch c env s).bind (popPq c)) := by
  unfold forwardPrefetch
  refine Ends.intro fun s' hs' => ?_
  obtain ⟨s₄, hs₄, hs'⟩ := Option.bind_eq_some_iff.mp hs'
  obtain ⟨⟨s₁, q⟩, hs₁, hs₄⟩ := Option.bind_eq_some_iff.mp hs₄
  obtain ⟨h₁, hv₁, p', rest', hp', hq, ha⟩ := (prefetcherPrefetch_does h hI hp).of_eq hs₁
  dsimp only at h₁ hv₁ hp' hq hs₄
  have hu := hv₁.undisturbed
  -- with or without an MSHR entry, the answers follow
  have hsend : ∃ s₂ q' e, Shape c s₂ ∧ Steps c R (view c s₁) (view c s₂) ∧
      (view c s₂).pq = p' :: rest' ∧ answer c env (s₂.call e) q' = some s₄ ∧
      e.writeback? = none := by
    by_cases hfills : q.fillLevel ≤ c.fillLevel
    · simp only [hfills, if_true] at hs₄
      have hroom₁ : s₁.mshr.occupancy < c.mshrSize := by
        rw [occupancy_congr h h₁ hu.mshr]
        exact hroom
      have hq0 : q.address ≠ 0 := by
        rw [hq.address, ha]
        exact h0
      obtain ⟨h₂, i, hi, hfree, hv₂⟩ :=
        addMshr_does (p := { q with cycleEnqueued := env.currentCoreCycle q.cpu }) h₁ hroom₁ hq0
      refine ⟨_, _, _, h₂, ?_, ?_, hs₄, ?_⟩
      · rw [hv₂]
        refine Steps.single (.prefetchAllocated (p := p') _ ?_ ?_ ?_ ?_ hfree ?_ hi)
        · rw [hp']
          exact List.mem_cons_self
        · exact hq.trans ⟨_, _, _, _, _, _, _, rfl⟩
        · rw [ha]
          exact hu.miss hmiss
        · rw [ha]
          exact hu.fresh hfresh
        · rw [ha]
          exact h0
      · rw [hv₂]
        exact hp'
      · split <;> rfl
    · simp only [hfills, if_false] at hs₄
      refine ⟨s₁, _, _, h₁, .refl, hp', hs₄, ?_⟩
      split <;> rfl
  obtain ⟨s₂, q', e, h₂, hv₂, hp₂, hs₄, he⟩ := hsend
  obtain ⟨h₄, hv₄⟩ := (answer_does (I := R.invalidate) (call_shape h₂ e)).of_eq hs₄
  rw [view_call he] at hv₄
  obtain ⟨p₄, rest₄, hp₄, -⟩ := hv₄.pq_cons hp₂
  obtain ⟨h₅, hv₅⟩ := (popPq_does h₄ hp₄).of_eq hs'
  refine ⟨h₅, ?_⟩
  rw [hv₅]
  exact ((hv₁.steps.trans hv₂).trans hv₄.steps).tail (.prefetchDone (view c s₄) hp₄)

theorem prefetchOne_does (h : Shape c s) (hI : env.Invalidates → R.invalidate)
    (hready : Ready c env s.pq) :
    Does c (Steps c R) s (prefetchOne P env s) := by
  obtain ⟨rest, hp⟩ := head_contents h.pq hready.2.2
  have h0 : (s.pq.entry s.pq.head).address ≠ 0 := h.pqLive _ (hp ▸ List.mem_cons_self)
  unfold prefetchOne
  dsimp only
  generalize s.pq.entry s.pq.head = p at hp h0 ⊢
  cases hc : checkHit c s p.address with
  | some way => exact prefetchHit_does h hI hp
  | none =>
    have hmiss := checkHit_none hc
    dsimp only
    unfold prefetchMiss
    cases hm : checkMshr c s p.address with
    | some i =>
      obtain ⟨h₁, he, ha, hv₁⟩ :=
        mergeMshr_does mergePrefetch h (fun e he => he) hm h0
      have hp₁ : (view c (mergeMshr s i mergePrefetch p)).pq = p :: rest := by
        rw [hv₁]
        exact hp
      have hmem : p ∈ (view c s).pq := by
        show p ∈ s.pq.contents
        rw [hp]
        exact List.mem_cons_self
      refine (popPq_does h₁ hp₁).mono ?_
      rintro s₂ ⟨h₂, hv₂⟩
      refine ⟨h₂, ?_⟩
      rw [hv₂]
      refine (Steps.single (.prefetchMerged (view c s) hmem he ha)).tail ?_
      rw [← hv₁]
      exact .prefetchDone _ hp₁
    | none =>
      dsimp only
      generalize (if c.cacheType = .llc then env.lowerRqFull p.address
        else env.lowerPqFull p.address) = full
      split
      · rename_i hroom
        split
        · cases full with
          | true => exact Does.refl h .refl
          | false =>
            refine Ends.intro fun s' hs' => ?_
            obtain ⟨⟨handled, s₁⟩, hs₁, hs'⟩ := Option.bind_eq_some_iff.mp hs'
            obtain ⟨s₁, hs₁, heq⟩ := Option.map_eq_some_iff.mp hs₁
            cases heq
            have hpop : (forwardPrefetch c env s).bind (popPq c) = some s' := by
              rw [hs₁]
              exact hs'
            exact (forwardPrefetch_does h hI hp h0 hmiss (checkMshr_none hm) hroom).of_eq hpop
        · refine (popPq_does h hp).mono ?_
          rintro s₂ ⟨h₂, hv₂⟩
          refine ⟨h₂, ?_⟩
          rw [hv₂]
          exact Steps.single (.prefetchDone (view c s) hp)
      · split
        · exact Does.refl h .refl
        · exact id

/-! ## Cycles -/

theorem serveLoop_does {queue : State ρ → PacketQueue} {one : Env → State ρ → Option (State ρ)}
    {E : Nat → Env} (hI : ∀ k, (E k).Invalidates → R.invalidate)
    (hone : ∀ env s, Shape c s → (env.Invalidates → R.invalidate) → Ready c env (queue s) →
      Does c (Steps c R) s (one env s)) (n : Nat) (h : Shape c s) :
    Does c (Steps c R) s (serveLoop queue one c E n s) := by
  induction n generalizing s with
  | zero => exact Does.refl h .refl
  | succ n ih =>
    unfold serveLoop
    dsimp only
    split
    · rename_i hready
      refine (hone _ s h (hI _) hready).bind ?_
      rintro s₁ ⟨h₁, hv₁⟩
      split
      · exact ⟨h₁, hv₁⟩
      · refine (ih h₁).mono ?_
        rintro s₂ ⟨h₂, hv₂⟩
        exact ⟨h₂, hv₁.trans hv₂⟩
    · exact Does.refl h .refl

theorem handleRead_does {E : Nat → Env} (hI : ∀ k, (E k).Invalidates → R.invalidate)
    (h : Shape c s) : Does c (Steps c R) s (handleRead P E s) :=
  serveLoop_does hI (fun _ _ => readOne_does) c.maxRead h

theorem handlePrefetch_does {E : Nat → Env} (hI : ∀ k, (E k).Invalidates → R.invalidate)
    (h : Shape c s) : Does c (Steps c R) s (handlePrefetch P E s) :=
  serveLoop_does hI (fun _ _ => prefetchOne_does) c.maxRead h

/-- The rules hold in a cycle: of its invalidations, and of the write-back that it serves after its
fill. -/
structure ObeysCycle (P : Policy c ρ) (R : Rules) (E : CycleEnv) (s : State ρ) : Prop where
  fill : E.fill.Invalidates → R.invalidate
  writeback : E.writeback.Invalidates → R.invalidate
  read : ∀ k, (E.read k).Invalidates → R.invalidate
  prefetch : ∀ k, (E.prefetch k).Invalidates → R.invalidate
  obeys : ∀ s₁, handleFill P E.fill s = some s₁ → Obeys P R E.writeback s₁

theorem operate_does {E : CycleEnv} (h : Shape c s) (hR : ObeysCycle P R E s) :
    Does c (Steps c R) s (operate P E s) := by
  refine Ends.intro fun s' hs' => ?_
  obtain ⟨s₁, hs₁, hs'⟩ := Option.bind_eq_some_iff.mp hs'
  obtain ⟨h₁, hv₁⟩ := (handleFill_does h hR.fill).of_eq hs₁
  obtain ⟨s₂, hs₂, hs'⟩ := Option.bind_eq_some_iff.mp hs'
  obtain ⟨h₂, hv₂⟩ := (handleWriteback_does h₁ hR.writeback (hR.obeys s₁ hs₁)).of_eq hs₂
  obtain ⟨s₃, hs₃, hs'⟩ := Option.bind_eq_some_iff.mp hs'
  have h₂' : Shape c { s₂ with readsAvailable := c.maxRead } := h₂.of_rings rfl rfl rfl rfl rfl
  obtain ⟨h₃, hv₃⟩ := (handleRead_does hR.read h₂').of_eq hs₃
  have h₁₃ : Steps c R (view c s) (view c s₃) := (hv₁.trans hv₂).trans hv₃
  split at hs'
  · obtain ⟨h₄, hv₄⟩ := (handlePrefetch_does hR.prefetch h₃).of_eq hs'
    exact ⟨h₄, h₁₃.trans hv₄⟩
  · cases hs'
    exact ⟨h₃, h₁₃⟩

def ObeysOp (P : Policy c ρ) (R : Rules) (s : State ρ) : Op → Prop
  | .operate E => ObeysCycle P R E s
  | .prefetch _ k => k.Invalidates → R.invalidate
  | .invalidateEntry _ => R.invalidate
  | .addRq .. | .addWq .. | .addPq .. | .returnData .. | .complete => True

def Effect (c : Config) (R : Rules) : Op → View → View → Prop
  | .addRq _ p, v, v' => ∃ a, RqEffect c p a v v'
  | .addWq _ p, v, v' => v' = v ∨ ∃ t, v' = { v with wq := v.wq ++ [{ p with eventCycle := t }] }
  | .addPq _ p, v, v' => PqEffect p v v'
  | .prefetch _ _, v, v' => CallbackSteps R.invalidate v v'
  | .returnData _ _, v, v' => Quiet R.invalidate v v'
  | .operate _, v, v' => Steps c R v v'
  | .invalidateEntry _, v, v' => CallbackSteps R.invalidate v v'
  | .complete, v, v' => ∃ p, v.processed = p :: v'.processed ∧ v' = { v with processed := v'.processed }

/-- The core removes the head of `PROCESSED`. -/
theorem complete_does (h : Shape c s) :
    Does c (Effect c R .complete) s (step P s .complete) := by
  refine Ends.intro fun s' hs' => ?_
  obtain ⟨q, hq, rfl⟩ := Option.map_eq_some_iff.mp hs'
  have ho : 0 < s.processed.occupancy := by
    cases ho : s.processed.occupancy with
    | succ n => omega
    | zero =>
      have htail := h.processed.wf.tail_eq
      rw [ho] at htail
      have hhead : s.processed.head = s.processed.tail := by
        rw [htail]
        cases hsize : s.processed.size with
        | zero => rw [h.processed.wf.head_zero hsize]; rfl
        | succ n => exact (Ring.idx_zero (hsize ▸ h.processed.wf.head_lt (by omega))).symm
      unfold PacketQueue.removeQueue at hq
      rw [if_pos ⟨ho, hhead⟩] at hq
      cases hq
  obtain ⟨rest, hp⟩ := head_contents h.processed ho
  obtain ⟨hshape, hrest, -⟩ := popQueue h.processed hp hq
  refine ⟨h.setProcessed hshape, s.processed.entry s.processed.head, ?_, rfl⟩
  rw [← hrest] at hp
  exact hp

theorem step_does (h : Shape c s) (o : Op) (hR : ObeysOp P R s o) :
    Does c (Effect c R o) s (step P s o) := by
  cases o with
  | addRq env p =>
    refine (addRq_does h).map ?_
    rintro ⟨a, s'⟩ ⟨h', he⟩
    exact ⟨h', a, he⟩
  | addWq env p =>
    refine (addWq_does h).map ?_
    rintro ⟨a, s'⟩ h'
    exact h'
  | addPq env p =>
    refine (addPq_does h).map ?_
    rintro ⟨a, s'⟩ h'
    exact h'
  | prefetch env k => exact runCallback_does h hR
  | returnData env p => exact returnData_does h
  | operate E => exact operate_does h hR
  | invalidateEntry address => exact invalidateEntry_does h hR address
  | complete => exact complete_does h

/-- A call that is no cycle changes the queues only, or makes steps too. -/
theorem Effect.steps_or {o : Op} {v v' : View} (h : Effect c R o v v') :
    Steps c R v v' ∨ v'.line = v.line ∧ v'.mshr = v.mshr ∧ v'.sent = v.sent := by
  cases o with
  | addRq env p =>
    obtain ⟨a, h⟩ := h
    right
    cases h with
    | forwarded =>
      unfold View.deliver
      split
      · split <;> exact ⟨rfl, rfl, rfl⟩
      · exact ⟨rfl, rfl, rfl⟩
    | merged | full | added => exact ⟨rfl, rfl, rfl⟩
  | addWq env p =>
    right
    rcases h with rfl | ⟨t, rfl⟩
    · exact ⟨rfl, rfl, rfl⟩
    · exact ⟨rfl, rfl, rfl⟩
  | addPq env p =>
    right
    cases h with
    | same | merged | added => exact ⟨rfl, rfl, rfl⟩
  | prefetch env k => exact .inl (CallbackSteps.steps h)
  | returnData env p => exact .inl (Quiet.steps h)
  | operate E => exact .inl h
  | invalidateEntry a => exact .inl (CallbackSteps.steps h)
  | complete =>
    obtain ⟨p, -, hv⟩ := h
    right
    rw [hv]
    exact ⟨rfl, rfl, rfl⟩

end Cache
end ChampSim
