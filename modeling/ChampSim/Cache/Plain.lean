import ChampSim.Cache.Simulate

/-!
# ChampSim.Cache.Plain

A DTLB has no prefetches: nothing puts one into its queues, and its handlers run no prefetcher.

* `Plain` — no prefetch is in `RQ`, the MSHR or `PROCESSED`, and nothing is in `WQ` and `PQ`.
* `addRq_plain`, `returnData_plain`, `operate_plain` — the calls keep it so.
-/

namespace ChampSim
namespace Cache

open Lib

variable {ρ : Type} {c : Config}

structure Plain (s : State ρ) : Prop where
  rq : ∀ i, (s.rq.entry i).type ≠ .prefetch
  mshr : ∀ i, (s.mshr.entry i).type ≠ .prefetch
  processed : ∀ i, (s.processed.entry i).type ≠ .prefetch
  wq : s.wq.occupancy = 0
  pq : s.pq.occupancy = 0

section Parts

variable {P : Policy c ρ} {env : Env} {s s' : State ρ} {p : Packet}

theorem update_type {f : Nat → Packet} (hf : ∀ i, (f i).type ≠ .prefetch)
    (hp : p.type ≠ .prefetch) (j i : Nat) : (Function.update f j p i).type ≠ .prefetch := by
  by_cases hi : i = j
  · rw [hi, Function.update_self]
    exact hp
  · rw [Function.update_of_ne hi]
    exact hf i

theorem removeQueue_type {n j : Nat} {q q' : PacketQueue} (h : q.removeQueue n j = some q')
    (hq : ∀ i, (q.entry i).type ≠ .prefetch) (i : Nat) : (q'.entry i).type ≠ .prefetch := by
  unfold PacketQueue.removeQueue at h
  split at h
  · cases h
  · cases h
    exact update_type hq (by simp [Packet.empty]) j i

theorem plain_init (P : Policy c ρ) : Plain (State.init P) :=
  ⟨fun _ h => (nomatch h), fun _ h => (nomatch h), fun _ h => (nomatch h), rfl, rfl⟩

theorem process_plain (h : Plain s) (hp : p.type ≠ .prefetch) (hs' : process s p = some s') :
    Plain s' := by
  unfold process at hs'
  split at hs'
  · obtain ⟨q, hq, rfl⟩ := Option.map_eq_some_iff.mp hs'
    unfold PacketQueue.addQueue at hq
    split at hq
    · cases hq
    · cases hq
      exact ⟨h.rq, h.mshr, update_type h.processed hp _, h.wq, h.pq⟩
  · cases hs'
    exact ⟨h.rq, h.mshr, h.processed, h.wq, h.pq⟩

theorem deliver_plain (hc : c.cacheType = .dtlb) (h : Plain s) (hp : p.type ≠ .prefetch)
    (hs' : deliver c s p = some s') : Plain s' := by
  unfold deliver at hs'
  rw [hc] at hs'
  exact process_plain h hp hs'

theorem returnUpper_plain (h : Plain s) (cpu : Nat) (p : Packet) :
    Plain (returnUpper c s cpu p) := by
  unfold returnUpper
  split
  · dsimp only
    generalize (if c.fillLevel = fillL2 then p.fillL1i else p.instruction) = toIcache
    generalize (if c.fillLevel = fillL2 then p.fillL1d else p.isData) = toDcache
    cases toIcache <;> cases toDcache <;>
      exact ⟨h.rq, h.mshr, h.processed, h.wq, h.pq⟩
  · exact h

theorem updateReplacement_plain (h : Plain s) (set way : Nat) (p : Packet)
    (fullAddr victimAddr : Nat) (hit : Bool) :
    Plain (updateReplacement P s set way p fullAddr victimAddr hit) :=
  ⟨h.rq, h.mshr, h.processed, h.wq, h.pq⟩

theorem popRq_plain (h : Plain s) (hs' : popRq c s = some s') : Plain s' := by
  obtain ⟨q, hq, rfl⟩ := Option.map_eq_some_iff.mp hs'
  exact ⟨removeQueue_type hq h.rq, h.mshr, h.processed, h.wq, h.pq⟩

theorem setMshr_plain (h : Plain s) {q : PacketQueue} {i : Nat} (hp : p.type ≠ .prefetch)
    (hq : q.entry = Function.update s.mshr.entry i p) : Plain { s with mshr := q } :=
  ⟨h.rq, fun j => hq ▸ update_type h.mshr hp i j, h.processed, h.wq, h.pq⟩

theorem removeMshr_plain {i : Nat} (h : Plain s) (hs' : removeMshr c s i = some s') :
    Plain s' := by
  obtain ⟨q, rfl, hq, -⟩ := removeMshr_eq hs'
  exact setMshr_plain h (by simp [Packet.empty]) hq.entry

theorem returnData_plain (h : Plain s) (hs' : returnData c env s p = some s') : Plain s' := by
  obtain ⟨i, q, e, -, he, rfl, hq, -⟩ := returnData_eq hs'
  exact setMshr_plain h (he.type ▸ h.mshr i) hq.entry

theorem answer_plain (h : Plain s) (hs' : answer c env s p = some s') : Plain s' :=
  run_invariant (I := Plain) (P := fun _ _ => True)
    (fun _ _ _ ht _ ht' => returnData_plain ht ht') h
    (along_of_forall (A := fun _ => True) (by simp) _) hs'

theorem addMshr_plain (h : Plain s) (hp : p.type ≠ .prefetch) : Plain (addMshr c s p) := by
  unfold addMshr
  split
  · exact setMshr_plain (p := { p with returned := .inflight }) h hp rfl
  · exact h

theorem evict_plain {set way : Nat} {r : Bool × State ρ} (h : Plain s)
    (hr : evict c env s set way p = some r) : Plain r.2 := by
  unfold evict at hr
  dsimp only at hr
  split at hr
  · split at hr
    · split at hr <;> cases hr <;> exact ⟨h.rq, h.mshr, h.processed, h.wq, h.pq⟩
    · split at hr
      · cases hr
      · cases hr
        exact h
  · cases hr
    exact h

theorem mergeRead_plain {e : Packet} (hp : p.type ≠ .prefetch) :
    (mergeRead p e).type ≠ .prefetch := by
  unfold mergeRead upgrade
  split
  · exact hp
  · rename_i hne
    exact hne

end Parts

section Handlers

variable {P : Policy c ρ} {env : Env} {s s' : State ρ} {p : Packet}

theorem withPa_type (p : Packet) (data : Nat) : (withPa c p data).type = p.type := by
  unfold withPa
  split <;> rfl

theorem withData_type (p : Packet) (data : Nat) : (withData c p data).type = p.type := by
  unfold withData
  split
  · rfl
  · exact withPa_type p data

/-- The block is written, and no prefetcher sees it. -/
theorem fillBlock_plain {set way : Nat} {r : State ρ × Packet} (hc : c.cacheType = .dtlb)
    (h : Plain s) (hr : fillBlock P env s set way p = some r) : Plain r.1 ∧ r.2 = p := by
  obtain ⟨⟨s₁, q⟩, hs₁, hr⟩ := Option.bind_eq_some_iff.mp hr
  unfold prefetcherFill at hs₁
  rw [if_pos (by rw [hc]; rfl)] at hs₁
  cases hs₁
  obtain ⟨s₂, hs₂, rfl⟩ := Option.map_eq_some_iff.mp hr
  unfold fillCache at hs₂
  split at hs₂
  · cases hs₂
  · cases hs₂
    exact ⟨⟨h.rq, h.mshr, h.processed, h.wq, h.pq⟩, rfl⟩

theorem handleFill_plain (hc : c.cacheType = .dtlb) (h : Plain s)
    (hs' : handleFill P env s = some s') : Plain s' := by
  unfold handleFill at hs'
  dsimp only at hs'
  split at hs'
  · cases hs'
    exact h
  · split at hs'
    · split at hs'
      · cases hs'
      · obtain ⟨⟨way, s₀⟩, hvictim, hs'⟩ := Option.bind_eq_some_iff.mp hs'
        obtain ⟨-, policy, rfl⟩ := findVictim_some hvictim
        replace h : Plain { s with policy := policy } := ⟨h.rq, h.mshr, h.processed, h.wq, h.pq⟩
        rw [if_neg (by simp [hc])] at hs'
        obtain ⟨⟨doFill, s₁⟩, hs₁, hs'⟩ := Option.bind_eq_some_iff.mp hs'
        have h₁ := evict_plain h hs₁
        cases doFill with
        | false =>
          cases hs'
          exact h₁
        | true =>
          obtain ⟨⟨s₂, q⟩, hs₂, hs'⟩ := Option.bind_eq_some_iff.mp hs'
          obtain ⟨h₂, rfl⟩ := fillBlock_plain hc h₁ hs₂
          dsimp only at hs'
          rw [if_neg (by simp [hc])] at hs'
          obtain ⟨s₃, hs₃, hs'⟩ := Option.bind_eq_some_iff.mp hs'
          refine removeMshr_plain (deliver_plain hc (returnUpper_plain h₂ _ _) ?_ hs₃) hs'
          rw [withPa_type]
          exact h.mshr _
    · cases hs'
      exact h

theorem prefetcherLoad_plain (hc : c.cacheType = .dtlb) (hs' : prefetcherLoad c env s p = some s') :
    s' = s := by
  unfold prefetcherLoad at hs'
  rw [if_neg (by simp [hc, CacheType.isTlb])] at hs'
  exact (Option.some.inj hs').symm

theorem requestLower_plain (hc : c.cacheType = .dtlb) (h : Plain s) (hp : p.type ≠ .prefetch)
    (hs' : requestLower c env s p = some s') : Plain s' := by
  unfold requestLower at hs'
  dsimp only at hs'
  have hadd := addMshr_plain (c := c)
    (p := { p with cycleEnqueued := env.currentCoreCycle p.cpu }) h hp
  split at hs'
  · refine answer_plain ?_ hs'
    exact ⟨hadd.rq, hadd.mshr, hadd.processed, hadd.wq, hadd.pq⟩
  · rw [if_neg (by simp [hc])] at hs'
    cases hs'
    exact hadd

theorem readHit_plain {way : Nat} (hc : c.cacheType = .dtlb) (h : Plain s)
    (hp : p.type ≠ .prefetch) (hs' : readHit P env s way p = some s') : Plain s' := by
  unfold readHit at hs'
  dsimp only at hs'
  have hq : (withData c p (s.block (c.getSet p.address) way).data).type ≠ .prefetch := by
    rwa [withData_type]
  generalize withData c p (s.block (c.getSet p.address) way).data = q at hq hs'
  obtain ⟨s₁, hs₁, hs'⟩ := Option.bind_eq_some_iff.mp hs'
  obtain ⟨s₂, hs₂, hs'⟩ := Option.bind_eq_some_iff.mp hs'
  have h₂ : Plain s₂ := prefetcherLoad_plain hc hs₂ ▸ deliver_plain hc h hq hs₁
  have h₃ := returnUpper_plain (c := c) (updateReplacement_plain (P := P) h₂
    (c.getSet p.address) way q (s₂.block (c.getSet p.address) way).fullAddr 0 true) q.cpu q
  refine popRq_plain ?_ hs'
  exact ⟨h₃.rq, h₃.mshr, h₃.processed, h₃.wq, h₃.pq⟩

theorem readOne_plain (hc : c.cacheType = .dtlb) (h : Plain s) (hs' : readOne P env s = some s') :
    Plain s' := by
  have hp := h.rq s.rq.head
  unfold readOne at hs'
  dsimp only at hs'
  generalize s.rq.entry s.rq.head = p at hp hs'
  split at hs'
  · exact readHit_plain hc h hp hs'
  · obtain ⟨⟨handled, s₁⟩, hs₁, hs'⟩ := Option.bind_eq_some_iff.mp hs'
    have h₁ : Plain s₁ := by
      unfold readMiss at hs₁
      split at hs₁
      · split at hs₁
        · rw [if_neg (by simp [hc])] at hs₁
          obtain ⟨s₂, hs₂, heq⟩ := Option.map_eq_some_iff.mp hs₁
          cases heq
          exact requestLower_plain hc h hp hs₂
        · split at hs₁
          · cases hs₁
            exact h
          · cases hs₁
      · cases hs₁
        exact setMshr_plain h (mergeRead_plain hp) rfl
    cases handled with
    | false =>
      cases hs'
      exact h₁
    | true =>
      obtain ⟨s₂, hs₂, hs'⟩ := Option.bind_eq_some_iff.mp hs'
      exact popRq_plain (prefetcherLoad_plain hc hs₂ ▸ h₁) hs'

/-- The rounds of `handle_read`, by induction on those left. -/
theorem readLoop_plain (hc : c.cacheType = .dtlb) {E : Nat → Env} (n : Nat) (h : Plain s)
    (hs' : serveLoop State.rq (readOne P) c E n s = some s') : Plain s' := by
  induction n generalizing s with
  | zero =>
    cases hs'
    exact h
  | succ n ih =>
    unfold serveLoop at hs'
    dsimp only at hs'
    split at hs'
    · obtain ⟨s₁, hs₁, hs'⟩ := Option.bind_eq_some_iff.mp hs'
      have h₁ := readOne_plain hc h hs₁
      split at hs'
      · cases hs'
        exact h₁
      · exact ih h₁ hs'
    · cases hs'
      exact h

theorem operate_plain (hc : c.cacheType = .dtlb) {E : CycleEnv} (h : Plain s)
    (hs' : operate P E s = some s') : Plain s' := by
  obtain ⟨s₁, hs₁, hs'⟩ := Option.bind_eq_some_iff.mp hs'
  obtain ⟨s₂, hs₂, hs'⟩ := Option.bind_eq_some_iff.mp hs'
  obtain ⟨s₃, hs₃, hs'⟩ := Option.bind_eq_some_iff.mp hs'
  have h₁ := handleFill_plain hc h hs₁
  have h₂ : Plain s₂ := by
    have hidle : ¬ Ready c E.writeback s₁.wq := fun hready => absurd hready.2.2 (by simp [h₁.wq])
    unfold handleWriteback at hs₂
    rw [if_neg hidle] at hs₂
    cases hs₂
    exact h₁
  have h₃ : Plain s₃ := readLoop_plain hc c.maxRead
    (s := { s₂ with readsAvailable := c.maxRead }) ⟨h₂.rq, h₂.mshr, h₂.processed, h₂.wq, h₂.pq⟩ hs₃
  rw [if_neg (by simp [h₃.pq]), Option.some.injEq] at hs'
  exact hs' ▸ h₃

theorem addRq_plain (hc : c.cacheType = .dtlb) {r : Added × State ρ} (h : Plain s)
    (hp : p.type ≠ .prefetch) (hr : addRq c env s p = some r) : Plain r.2 := by
  unfold addRq at hr
  split at hr
  · dsimp only at hr
    rw [if_pos (.inr (.inl hc))] at hr
    cases hr
  · split at hr
    · cases hr
      refine ⟨update_type h.rq ?_ _, h.mshr, h.processed, h.wq, h.pq⟩
      unfold mergeRq
      dsimp only
      split
      · exact h.rq _
      · split <;> exact h.rq _
    · split at hr
      · cases hr
        exact ⟨h.rq, h.mshr, h.processed, h.wq, h.pq⟩
      · obtain ⟨q, hq, hr⟩ := Option.bind_eq_some_iff.mp hr
        split at hr
        · cases hr
        · cases hr
          have hentry : q.entry = Function.update s.rq.entry s.rq.tail
              { p with eventCycle := env.delay c p.cpu p.eventCycle } :=
            congrArg Ring.entry (enqueue_eq hq)
          refine ⟨fun i => ?_, h.mshr, h.processed, h.wq, h.pq⟩
          rw [hentry]
          refine update_type h.rq ?_ _ i
          exact hp

end Handlers

end Cache
end ChampSim
