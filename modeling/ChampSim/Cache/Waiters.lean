import ChampSim.Cache.Books
import Mathlib.Data.Multiset.Bind

/-!
# ChampSim.Cache.Waiters

The operations of the load and store queues that wait in a DTLB or an L1D.

* `Waiter`, `waiters` — an index of a queue, and those that an entry stands for.
* `waiting`     — those of all live entries of `RQ`, the MSHR and `PROCESSED`.
* `Gathers`, `count_gathers` — a merged entry stands for the waiters of both requests.
* `Orderly`     — the flags of the entries agree with their sets, and nobody waits twice.
* `orderly_step` — a step of the cache moves waiters, and neither loses nor adds one.
-/

namespace ChampSim
namespace Cache

open Lib

variable {ρ : Type} {c : Config}

inductive Waiter where
  | lq (index : Nat)
  | sq (index : Nat)
deriving DecidableEq

/-- The merged requests. -/
def mergedWaiters (p : Packet) : Multiset Waiter :=
  p.lqIndexDependOnMe.val.map .lq + p.sqIndexDependOnMe.val.map .sq

/-- Nobody waits for a prefetch, and a store that the L1D serves has left its queue. -/
def waiters (c : Config) (p : Packet) : Multiset Waiter :=
  match p.type with
  | .load => .lq p.lqIndex ::ₘ mergedWaiters p
  | .rfo => if c.cacheType = .dtlb then .sq p.sqIndex ::ₘ mergedWaiters p else mergedWaiters p
  | .prefetch | .writeback => 0

def waiting (c : Config) (s : State ρ) : Multiset Waiter :=
  (s.rq.contents.map (waiters c)).sum +
    (∑ i ∈ Finset.range c.mshrSize, (slotsOf c s.mshr i).elim 0 (waiters c)) +
    (s.processed.contents.map (waiters c)).sum

/-! ## Counting -/

section Count

variable {p e r : Packet}

theorem count_merged_lq (p : Packet) (i : Nat) :
    (mergedWaiters p).count (.lq i) = if i ∈ p.lqIndexDependOnMe then 1 else 0 := by
  have hlq : (p.lqIndexDependOnMe.val.map Waiter.lq).count (.lq i) =
      p.lqIndexDependOnMe.val.count i :=
    Multiset.count_map_eq_count' _ _ (fun _ _ h => by cases h; rfl) i
  have hsq : (p.sqIndexDependOnMe.val.map Waiter.sq).count (.lq i) = 0 := by
    simp
  unfold mergedWaiters
  rw [Multiset.count_add, hlq, hsq, Multiset.count_eq_of_nodup p.lqIndexDependOnMe.nodup]
  rfl

theorem count_merged_sq (p : Packet) (i : Nat) :
    (mergedWaiters p).count (.sq i) = if i ∈ p.sqIndexDependOnMe then 1 else 0 := by
  have hlq : (p.lqIndexDependOnMe.val.map Waiter.lq).count (.sq i) = 0 := by
    simp
  have hsq : (p.sqIndexDependOnMe.val.map Waiter.sq).count (.sq i) =
      p.sqIndexDependOnMe.val.count i :=
    Multiset.count_map_eq_count' _ _ (fun _ _ h => by cases h; rfl) i
  unfold mergedWaiters
  rw [Multiset.count_add, hlq, hsq, Multiset.count_eq_of_nodup p.sqIndexDependOnMe.nodup,
    Nat.zero_add]
  rfl

/-- What the core asks for, with flags that tell whether the sets have elements. -/
structure Demands (c : Config) (p : Packet) : Prop where
  type : p.type = .load ∨ p.type = .rfo
  lq : p.loadMerged = false → p.lqIndexDependOnMe = ∅
  sq : p.storeMerged = false → p.sqIndexDependOnMe = ∅
  l1d : c.cacheType = .l1d → p.storeMerged = false

/-- The own index of an entry. -/
def own (c : Config) (x : Waiter) (p : Packet) : Nat :=
  match x with
  | .lq i => if p.type = .load ∧ p.lqIndex = i then 1 else 0
  | .sq i => if p.type = .rfo ∧ c.cacheType = .dtlb ∧ p.sqIndex = i then 1 else 0

def Waiter.MergedIn (p : Packet) : Waiter → Prop
  | .lq i => i ∈ p.lqIndexDependOnMe
  | .sq i => i ∈ p.sqIndexDependOnMe

instance (p : Packet) (x : Waiter) : Decidable (x.MergedIn p) :=
  match x with
  | .lq i => inferInstanceAs (Decidable (i ∈ p.lqIndexDependOnMe))
  | .sq i => inferInstanceAs (Decidable (i ∈ p.sqIndexDependOnMe))

theorem count_waiters (hp : p.type = .load ∨ p.type = .rfo) (x : Waiter) :
    (waiters c p).count x = own c x p + if x.MergedIn p then 1 else 0 := by
  have hmerged : (mergedWaiters p).count x = if x.MergedIn p then 1 else 0 := by
    cases x with
    | lq i => exact count_merged_lq p i
    | sq i => exact count_merged_sq p i
  rw [← hmerged]
  unfold waiters own
  rcases hp with hp | hp
  · rw [hp]
    dsimp only
    rw [Multiset.count_cons, Nat.add_comm]
    cases x with
    | lq i => simp [eq_comm]
    | sq i => simp
  · rw [hp]
    dsimp only
    split
    · rename_i hc
      rw [Multiset.count_cons, Nat.add_comm]
      cases x with
      | lq i => simp
      | sq i => simp [hc, eq_comm]
    · rename_i hc
      cases x with
      | lq i => simp
      | sq i => simp [hc]

theorem waiters_prefetch (hp : p.type = .prefetch) : waiters c p = 0 := by
  unfold waiters
  rw [hp]

theorem waiters_same {q : Packet} (h : SameRequest p q) : waiters c q = waiters c p := by
  obtain ⟨_, _, _, _, _, _, _, rfl⟩ := h
  rfl

theorem Demands.same {q : Packet} (h : Demands c p) (hq : SameRequest p q) : Demands c q := by
  obtain ⟨_, _, _, _, _, _, _, rfl⟩ := hq
  exact ⟨h.type, h.lq, h.sq, h.l1d⟩

/-- `r` keeps the kind of `e` and has the waiters of `p` in its sets. -/
structure Gathers (c : Config) (p e r : Packet) : Prop where
  type : r.type = e.type
  own : ∀ x, own c x r = own c x e
  merged : ∀ x : Waiter, x.MergedIn r ↔ x.MergedIn e ∨ 0 < (waiters c p).count x

/-- Nobody waits twice, so nobody is lost in a union. -/
theorem count_gathers (h : Gathers c p e r) (he : e.type = .load ∨ e.type = .rfo) (x : Waiter)
    (hone : (waiters c e).count x + (waiters c p).count x ≤ 1) :
    (waiters c r).count x = (waiters c e).count x + (waiters c p).count x := by
  have hr : r.type = .load ∨ r.type = .rfo := by rwa [h.type]
  rw [count_waiters he] at hone ⊢
  rw [count_waiters hr, h.own]
  by_cases hx : x.MergedIn e
  · rw [if_pos hx] at hone ⊢
    rw [if_pos ((h.merged x).mpr (.inl hx))]
    omega
  · rw [if_neg hx] at hone ⊢
    by_cases hp : 0 < (waiters c p).count x
    · rw [if_pos ((h.merged x).mpr (.inr hp))]
      omega
    · rw [if_neg fun hx' => ((h.merged x).mp hx').elim hx hp]
      omega

end Count

/-! ## Merged entries -/

/-- An entry of `RQ`: only the DTLB has stores there. -/
structure Reads (c : Config) (p : Packet) : Prop where
  demands : Demands c p
  code : p.instruction = false
  store : p.type = .rfo → c.cacheType = .dtlb ∧ p.tlbAccess = true

section Merge

variable {p e : Packet}

@[simp] theorem own_lq_pos {i : Nat} :
    0 < own c (.lq i) p ↔ p.type = .load ∧ i = p.lqIndex := by
  unfold own
  dsimp only
  split
  · rename_i h
    simp [h]
  · rename_i h
    simpa [eq_comm] using h

@[simp] theorem own_sq_pos {i : Nat} :
    0 < own c (.sq i) p ↔ p.type = .rfo ∧ c.cacheType = .dtlb ∧ i = p.sqIndex := by
  unfold own
  dsimp only
  split
  · rename_i h
    simp [h]
  · rename_i h
    simpa [eq_comm] using h

/-- The sets of `p` with its own index. -/
theorem count_pos (hp : Reads c p) (x : Waiter) :
    0 < (waiters c p).count x ↔ x.MergedIn p ∨ 0 < own c x p := by
  rw [count_waiters hp.demands.type]
  split <;> simp_all

theorem mergeConsumers_load (hp : Reads c p) (hload : p.type = .load) :
    (mergeConsumers p e).lqIndexDependOnMe =
        insert p.lqIndex e.lqIndexDependOnMe ∪ p.lqIndexDependOnMe ∧
      (mergeConsumers p e).sqIndexDependOnMe = e.sqIndexDependOnMe ∪ p.sqIndexDependOnMe ∧
      (mergeConsumers p e).loadMerged = true ∧
      (mergeConsumers p e).storeMerged = (e.storeMerged || p.storeMerged) := by
  unfold mergeConsumers
  rw [if_neg (by simp [hload]), if_neg (by simp [hp.code])]
  dsimp only
  cases hs : p.storeMerged with
  | true => exact ⟨rfl, rfl, rfl, (Bool.or_true _).symm⟩
  | false =>
    have hempty := hp.demands.sq hs
    refine ⟨rfl, ?_, rfl, (Bool.or_false _).symm⟩
    rw [hempty, Finset.union_empty]
    rfl

theorem mergeConsumers_store (hp : Reads c p) (hstore : p.type = .rfo) :
    (mergeConsumers p e).lqIndexDependOnMe = e.lqIndexDependOnMe ∪ p.lqIndexDependOnMe ∧
      (mergeConsumers p e).sqIndexDependOnMe =
        insert p.sqIndex e.sqIndexDependOnMe ∪ p.sqIndexDependOnMe ∧
      (mergeConsumers p e).loadMerged = (e.loadMerged || p.loadMerged) ∧
      (mergeConsumers p e).storeMerged = true := by
  unfold mergeConsumers
  rw [if_pos hstore, if_pos (hp.store hstore).2]
  dsimp only
  cases hl : p.loadMerged with
  | true => exact ⟨rfl, rfl, (Bool.or_true _).symm, rfl⟩
  | false =>
    have hempty := hp.demands.lq hl
    refine ⟨?_, rfl, (Bool.or_false _).symm, rfl⟩
    rw [hempty, Finset.union_empty]
    rfl

theorem mergeConsumers_indices (p e : Packet) :
    (mergeConsumers p e).type = e.type ∧ (mergeConsumers p e).lqIndex = e.lqIndex ∧
      (mergeConsumers p e).sqIndex = e.sqIndex := by
  unfold mergeConsumers
  split
  · dsimp only
    split <;> split <;> exact ⟨rfl, rfl, rfl⟩
  · split
    · dsimp only
      split <;> exact ⟨rfl, rfl, rfl⟩
    · dsimp only
      split <;> exact ⟨rfl, rfl, rfl⟩

theorem own_congr {r : Packet} (ht : r.type = e.type) (hl : r.lqIndex = e.lqIndex)
    (hs : r.sqIndex = e.sqIndex) (x : Waiter) : own c x r = own c x e := by
  cases x with
  | lq i =>
    unfold own
    dsimp only
    rw [ht, hl]
  | sq i =>
    unfold own
    dsimp only
    rw [ht, hs]

theorem gathers_consumers (hp : Reads c p) (he : Demands c e) :
    Gathers c p e (mergeConsumers p e) ∧ Demands c (mergeConsumers p e) := by
  obtain ⟨ht, hl, hs⟩ := mergeConsumers_indices p e
  rcases hp.demands.type with hload | hstore
  · obtain ⟨hlq, hsq, hlm, hsm⟩ := mergeConsumers_load (e := e) hp hload
    refine ⟨⟨ht, own_congr ht hl hs, fun x => ?_⟩, ?_⟩
    · rw [count_pos hp]
      cases x with
      | lq i =>
        simp only [Waiter.MergedIn, own_lq_pos, hload, hlq, Finset.mem_union, Finset.mem_insert]
        tauto
      | sq i => simp [Waiter.MergedIn, hload, hsq]
    · refine ⟨by rw [ht]; exact he.type, fun h => ?_, fun h => ?_, fun hc => ?_⟩
      · rw [hlm] at h
        cases h
      · rw [hsm, Bool.or_eq_false_iff] at h
        rw [hsq, he.sq h.1, hp.demands.sq h.2, Finset.union_empty]
      · rw [hsm, he.l1d hc, hp.demands.l1d hc]
        rfl
  · obtain ⟨hlq, hsq, hlm, hsm⟩ := mergeConsumers_store (e := e) hp hstore
    obtain ⟨hc, -⟩ := hp.store hstore
    refine ⟨⟨ht, own_congr ht hl hs, fun x => ?_⟩, ?_⟩
    · rw [count_pos hp]
      cases x with
      | lq i => simp [Waiter.MergedIn, hstore, hlq]
      | sq i =>
        simp only [Waiter.MergedIn, own_sq_pos, hstore, hc, hsq, Finset.mem_union,
          Finset.mem_insert]
        tauto
    · refine ⟨by rw [ht]; exact he.type, fun h => ?_, fun h => ?_, fun hc' => ?_⟩
      · rw [hlm, Bool.or_eq_false_iff] at h
        rw [hlq, he.lq h.1, hp.demands.lq h.2, Finset.union_empty]
      · rw [hsm] at h
        cases h
      · rw [hc] at hc'
        cases hc'

/-- A read merges into the entry of a demand. -/
theorem gathers_mergeRead (hp : Reads c p) (he : Demands c e) :
    Gathers c p e (mergeRead p e) ∧ Demands c (mergeRead p e) := by
  obtain ⟨hg, hd⟩ := gathers_consumers hp he
  have hne : (mergeConsumers p e).type ≠ .prefetch := by
    rcases hd.type with h | h <;> rw [h] <;> simp
  have heq : mergeRead p e = mergeFill p (mergeConsumers p e) := if_neg hne
  rw [heq]
  exact ⟨⟨hg.type, hg.own, hg.merged⟩, ⟨hd.type, hd.lq, hd.sq, hd.l1d⟩⟩

/-- A read takes the place of a prefetch. -/
theorem mergeRead_prefetch (he : e.type = .prefetch) : SameRequest p (mergeRead p e) := by
  have ht : (mergeFill p (mergeConsumers p e)).type = .prefetch :=
    (mergeConsumers_indices p e).1.trans he
  unfold mergeRead upgrade
  rw [if_pos ht]
  exact ⟨_, _, _, _, _, _, _, rfl⟩

/-- What the core sends has merged with nothing yet. -/
structure Sent (c : Config) (p : Packet) : Prop where
  reads : Reads c p
  lq : p.lqIndexDependOnMe = ∅
  sq : p.sqIndexDependOnMe = ∅

theorem gathers_mergeRq (hp : Sent c p) (he : Reads c e) :
    Gathers c p e (mergeRq p e) ∧ Reads c (mergeRq p e) := by
  have hcode := hp.reads.code
  rcases hp.reads.demands.type with hload | hstore
  · have heq : mergeRq p e =
        { e with
          lqIndexDependOnMe := insert p.lqIndex e.lqIndexDependOnMe
          loadMerged := true
          isData := true
          fillL1i := e.fillL1i || p.fillL1i
          fillL1d := e.fillL1d || p.fillL1d } := by
      unfold mergeRq
      rw [if_neg (by simp [hcode]), if_neg (by simp [hload])]
    rw [heq]
    refine ⟨⟨rfl, own_congr rfl rfl rfl, fun x => ?_⟩,
      ⟨he.demands.type, fun h => (nomatch h), he.demands.sq, he.demands.l1d⟩, he.code, he.store⟩
    rw [count_pos hp.reads]
    cases x with
    | lq i => simp [Waiter.MergedIn, hload, hp.lq, or_comm]
    | sq i => simp [Waiter.MergedIn, hload, hp.sq]
  · obtain ⟨hc, -⟩ := hp.reads.store hstore
    have heq : mergeRq p e =
        { e with
          sqIndexDependOnMe := insert p.sqIndex e.sqIndexDependOnMe
          storeMerged := true
          isData := true
          fillL1i := e.fillL1i || p.fillL1i
          fillL1d := e.fillL1d || p.fillL1d } := by
      unfold mergeRq
      rw [if_neg (by simp [hcode]), if_pos hstore]
    rw [heq]
    refine ⟨⟨rfl, own_congr rfl rfl rfl, fun x => ?_⟩,
      ⟨he.demands.type, he.demands.lq, fun h => (nomatch h), fun hc' => ?_⟩, he.code, he.store⟩
    · rw [count_pos hp.reads]
      cases x with
      | lq i => simp [Waiter.MergedIn, hstore, hp.lq]
      | sq i => simp [Waiter.MergedIn, hstore, hc, hp.sq, or_comm]
    · rw [hc] at hc'
      cases hc'

end Merge

/-! ## Steps -/

def countOf (c : Config) (x : Waiter) (p : Packet) : Nat := (waiters c p).count x

/-- How often `x` waits. -/
def View.waits (c : Config) (x : Waiter) (v : View) : Nat :=
  tally (countOf c x) v.rq + slots (countOf c x) c.mshrSize v.mshr + tally (countOf c x) v.processed

theorem count_sum (l : List Packet) (x : Waiter) :
    (l.map (waiters c)).sum.count x = tally (countOf c x) l := by
  induction l with
  | nil => rfl
  | cons p l ih =>
    rw [List.map_cons, List.sum_cons, Multiset.count_add, ih, tally_cons]
    rfl

theorem count_waiting (s : State ρ) (x : Waiter) :
    (waiting c s).count x = (view c s).waits c x := by
  have hmshr : (∑ i ∈ Finset.range c.mshrSize, (slotsOf c s.mshr i).elim 0 (waiters c)).count x =
      slots (countOf c x) c.mshrSize (view c s).mshr := by
    rw [Multiset.count_sum']
    refine Finset.sum_congr rfl fun i _ => ?_
    show ((slotsOf c s.mshr i).elim 0 (waiters c)).count x =
      (slotsOf c s.mshr i).elim 0 (countOf c x)
    cases slotsOf c s.mshr i with
    | none => rfl
    | some e => rfl
  unfold waiting
  rw [Multiset.count_add, Multiset.count_add, hmshr, count_sum, count_sum]
  rfl

structure Orderly (c : Config) (v : View) : Prop where
  rq : ∀ p ∈ v.rq, Reads c p
  wq : ∀ p ∈ v.wq, Demands c p ∧ ∀ x, c.cacheType = .l1d → countOf c x p = 0
  pq : ∀ p ∈ v.pq, p.type = .prefetch
  mshr : ∀ i e, v.mshr i = some e → i < c.mshrSize ∧ (e.type = .prefetch ∨ Demands c e)
  processed : ∀ p ∈ v.processed, Demands c p ∨ p.type = .prefetch ∧ c.cacheType = .dtlb

section Steps

variable {v v' : View} {p q e : Packet} {i : Nat} {x : Waiter} {R : Rules} {rest : List Packet}

theorem countOf_same (h : SameRequest p q) (x : Waiter) : countOf c x q = countOf c x p := by
  unfold countOf
  rw [waiters_same h]

theorem countOf_prefetch (h : p.type = .prefetch) (x : Waiter) : countOf c x p = 0 := by
  unfold countOf
  rw [waiters_prefetch h, Multiset.count_zero]

theorem waits_setMshr (hi : i < c.mshrSize) (e' : Option Packet) :
    (v.setMshr i e').waits c x + (v.mshr i).elim 0 (countOf c x) =
      v.waits c x + e'.elim 0 (countOf c x) := by
  have := slots_update (w := countOf c x) (m := v.mshr) hi e'
  unfold View.waits View.setMshr
  dsimp only
  omega

theorem Orderly.setMshr (h : Orderly c v) (hi : i < c.mshrSize)
    (he : e.type = .prefetch ∨ Demands c e) : Orderly c (v.setMshr i (some e)) := by
  refine ⟨h.rq, h.wq, h.pq, fun j f hf => ?_, h.processed⟩
  by_cases hj : j = i
  · subst hj
    have hf : e = f := by simpa [View.setMshr] using hf
    exact ⟨hi, hf ▸ he⟩
  · exact h.mshr j f (by simpa [View.setMshr, Function.update_of_ne hj] using hf)

theorem Orderly.clearMshr (h : Orderly c v) (i : Nat) : Orderly c (v.setMshr i none) := by
  refine ⟨h.rq, h.wq, h.pq, fun j f hf => ?_, h.processed⟩
  by_cases hj : j = i
  · subst hj
    simp [View.setMshr] at hf
  · exact h.mshr j f (by simpa [View.setMshr, Function.update_of_ne hj] using hf)

theorem Orderly.takeRq (h : Orderly c v) (hp : v.rq = p :: rest) :
    Reads c p ∧ Orderly c { v with rq := rest } :=
  ⟨h.rq p (hp ▸ List.mem_cons_self),
    fun x hx => h.rq x (hp ▸ List.mem_cons_of_mem p hx), h.wq, h.pq, h.mshr, h.processed⟩

theorem Orderly.takeWq (h : Orderly c v) (hp : v.wq = p :: rest) :
    (Demands c p ∧ ∀ x, c.cacheType = .l1d → countOf c x p = 0) ∧ Orderly c { v with wq := rest } :=
  ⟨h.wq p (hp ▸ List.mem_cons_self), h.rq,
    fun x hx => h.wq x (hp ▸ List.mem_cons_of_mem p hx), h.pq, h.mshr, h.processed⟩

theorem waits_takeRq (hp : v.rq = p :: rest) (x : Waiter) :
    { v with rq := rest }.waits c x + countOf c x p = v.waits c x := by
  unfold View.waits
  rw [hp, tally_cons]
  dsimp only
  omega

/-- Only prefetches of the L1D do not reach the core. -/
theorem countOf_toCore (hc : c.cacheType = .dtlb ∨ c.cacheType = .l1d)
    (hq : ¬ View.ToCore c q) (x : Waiter) : countOf c x q = 0 := by
  refine countOf_prefetch ?_ x
  unfold View.ToCore at hq
  rcases hc with hc | hc
  · exact absurd (.inr (.inl hc)) hq
  · by_contra hne
    exact hq (.inr (.inr (.inr ⟨hc, hne⟩)))

theorem deliver_waits (hc : c.cacheType = .dtlb ∨ c.cacheType = .l1d) {room : Bool}
    (hd : (v.deliver c room q).dropped = []) (x : Waiter) :
    (v.deliver c room q).waits c x = v.waits c x + countOf c x q := by
  unfold View.deliver at hd ⊢
  by_cases hq : View.ToCore c q
  · rw [if_pos hq] at hd ⊢
    cases room with
    | true =>
      unfold View.waits
      simp only [if_true, tally_append, tally_cons, tally_nil]
      omega
    | false => simp at hd
  · rw [if_neg hq, countOf_toCore hc hq]
    rfl

theorem deliver_orderly (hc : c.cacheType = .dtlb ∨ c.cacheType = .l1d) {room : Bool}
    (h : Orderly c v) (hq : q.type = .prefetch ∨ Demands c q) :
    Orderly c (v.deliver c room q) := by
  unfold View.deliver
  split
  · rename_i hcore
    cases room with
    | true =>
      refine ⟨h.rq, h.wq, h.pq, h.mshr, fun p hp => ?_⟩
      rcases List.mem_append.mp hp with hp | hp
      · exact h.processed p hp
      · rw [List.mem_singleton.mp hp]
        rcases hq with hq | hq
        · refine .inr ⟨hq, hc.resolve_right fun hl1d => ?_⟩
          simp [View.ToCore, hl1d, hq] at hcore
        · exact .inl hq
    | false => exact ⟨h.rq, h.wq, h.pq, h.mshr, h.processed⟩
  · exact h

theorem deliver_dropped {room : Bool} (hd : (v.deliver c room q).dropped = []) :
    v.dropped = [] := by
  unfold View.deliver at hd
  split at hd
  · split at hd
    · exact hd
    · simp at hd
  · exact hd

/-- What is dropped stays dropped. -/
theorem dropped_step (hs : Step c R v v') (hd : v'.dropped = []) : v.dropped = [] := by
  cases hs with
  | callback h => rwa [h.undisturbed.dropped] at hd
  | filled room =>
    have := deliver_dropped hd
    exact this
  | readHit room =>
    have := deliver_dropped hd
    exact this
  | answered | bypassed | writeHit | storeAllocated | storeMerged | storeLost | installed
  | readAllocated | readMerged | prefetchAllocated | prefetchMerged | prefetchDone => exact hd

/-- A request leaves `RQ` for an entry of the MSHR. -/
theorem waits_takeRq_setMshr (hi : i < c.mshrSize) (hp : v.rq = p :: rest) (e' : Packet)
    (he : countOf c x e' = countOf c x p + (v.mshr i).elim 0 (countOf c x)) :
    { v.setMshr i (some e') with rq := rest }.waits c x = v.waits c x := by
  have hset := waits_setMshr (v := v) (x := x) hi (some e')
  have htake := waits_takeRq (c := c) (v := v.setMshr i (some e')) hp x
  simp only [Option.elim_some] at hset
  dsimp only at htake ⊢
  omega

theorem setMshr_waits (hi : i < c.mshrSize) (e' : Packet)
    (he : countOf c x e' = (v.mshr i).elim 0 (countOf c x)) :
    (v.setMshr i (some e')).waits c x = v.waits c x := by
  have hset := waits_setMshr (v := v) (x := x) hi (some e')
  simp only [Option.elim_some] at hset
  omega

theorem countOf_mergeWriteback (hp : countOf c x p = 0) :
    countOf c x (mergeWriteback p e) = countOf c x e := by
  unfold mergeWriteback upgrade
  split
  · rename_i he
    have he : e.type = .prefetch := he
    rw [countOf_prefetch he, ← hp]
    rfl
  · rfl

theorem mergeWriteback_demands (hp : Demands c p) (he : e.type = .prefetch ∨ Demands c e) :
    Demands c (mergeWriteback p e) := by
  unfold mergeWriteback upgrade
  split
  · exact ⟨hp.type, hp.lq, hp.sq, hp.l1d⟩
  · rename_i hne
    have he := he.resolve_left hne
    exact ⟨he.type, he.lq, he.sq, he.l1d⟩

/-- Prefetchers bring no waiters. -/
theorem callback_orderly {I : Prop} (h : Orderly c v) (hcb : CallbackStep I v v') :
    Orderly c v' ∧ ∀ x, v'.waits c x = v.waits c x := by
  have hu := hcb.undisturbed
  refine ⟨⟨hu.rq ▸ h.rq, hu.wq ▸ h.wq, fun p hp => ?_, hu.mshr ▸ h.mshr,
    hu.processed ▸ h.processed⟩, fun x => ?_⟩
  · cases hcb with
    | invalidated => exact h.pq p hp
    | added q hq =>
      rcases List.mem_append.mp hp with hp | hp
      · exact h.pq p hp
      · rw [List.mem_singleton.mp hp]
        exact hq
    | merged k e q he =>
      rcases List.mem_or_eq_of_mem_set hp with hp | rfl
      · exact h.pq p hp
      · exact h.pq e (List.mem_of_getElem? he)
  · unfold View.waits
    rw [hu.rq, hu.mshr, hu.processed]

/-- A fill hands the waiters of its entry over. -/
theorem filled_orderly {way : Nat} {room : Bool} (hc : c.cacheType = .dtlb ∨ c.cacheType = .l1d)
    (h : Orderly c v) (he : v.mshr i = some e) (hq : SameRequest e q)
    (hd : (((v.replace c (c.getSet e.address) way
      (c.cacheType == .l1d && e.type == .rfo) e).setMshr i none).deliver c room q).dropped = []) :
    Orderly c (((v.replace c (c.getSet e.address) way
      (c.cacheType == .l1d && e.type == .rfo) e).setMshr i none).deliver c room q) ∧
      ∀ x, (((v.replace c (c.getSet e.address) way
        (c.cacheType == .l1d && e.type == .rfo) e).setMshr i none).deliver c room q).waits c x =
          v.waits c x := by
  obtain ⟨hi, hkind⟩ := h.mshr _ _ he
  refine ⟨deliver_orderly hc ?_ (hkind.imp (fun ht => hq.type.trans ht) fun hd => hd.same hq),
    fun x => ?_⟩
  · have hreplaced : Orderly c (v.replace c (c.getSet e.address) way
        (c.cacheType == .l1d && e.type == .rfo) e) := ⟨h.rq, h.wq, h.pq, h.mshr, h.processed⟩
    exact hreplaced.clearMshr i
  · rw [deliver_waits hc hd]
    have hset := waits_setMshr (v := v.replace c (c.getSet e.address) way
      (c.cacheType == .l1d && e.type == .rfo) e) (x := x) hi none
    have hold : (v.replace c (c.getSet e.address) way
      (c.cacheType == .l1d && e.type == .rfo) e).waits c x = v.waits c x := rfl
    have hentry : (v.replace c (c.getSet e.address) way
      (c.cacheType == .l1d && e.type == .rfo) e).mshr i = some e := he
    rw [hold, hentry] at hset
    simp only [Option.elim_some, Option.elim_none] at hset
    rw [countOf_same hq]
    omega

/-- A read that merges brings its waiters to those of the entry. -/
theorem mergeRead_gathers (h : Orderly c v) (hone : ∀ x, v.waits c x ≤ 1)
    (hp : v.rq = p :: rest) (he : v.mshr i = some e) :
    Demands c (mergeRead p e) ∧
      ∀ x, countOf c x (mergeRead p e) = countOf c x p + countOf c x e := by
  obtain ⟨hreads, htake⟩ := h.takeRq hp
  obtain ⟨hi, hkind⟩ := h.mshr _ _ he
  rcases hkind with hkind | hkind
  · have hsame := mergeRead_prefetch (p := p) hkind
    refine ⟨hreads.demands.same hsame, fun x => ?_⟩
    rw [countOf_same hsame, countOf_prefetch hkind, Nat.add_zero]
  · obtain ⟨hg, hdemands⟩ := gathers_mergeRead hreads hkind
    refine ⟨hdemands, fun x => ?_⟩
    have htwice := hone x
    have htake := waits_takeRq (c := c) hp x
    have hset := waits_setMshr (v := { v with rq := rest }) (x := x) hi none
    have hentry : { v with rq := rest }.mshr i = some e := he
    rw [hentry] at hset
    simp only [Option.elim_some, Option.elim_none] at hset
    have hcount := count_gathers hg hkind.type x (by
      change countOf c x e + countOf c x p ≤ 1
      omega)
    exact hcount.trans (Nat.add_comm _ _)

/-- A step moves waiters: from `RQ` to the MSHR, and from both to `PROCESSED`. -/
theorem orderly_step (hc : c.cacheType = .dtlb ∨ c.cacheType = .l1d) (h : Orderly c v)
    (hone : ∀ x, v.waits c x ≤ 1) (hs : Step c R v v') (hd : v'.dropped = []) :
    Orderly c v' ∧ ∀ x, v'.waits c x = v.waits c x := by
  cases hs with
  | callback hcb => exact callback_orderly h hcb
  | answered he hq =>
    obtain ⟨hi, hkind⟩ := h.mshr _ _ he
    refine ⟨h.setMshr hi ?_, fun x => setMshr_waits hi _ ?_⟩
    · exact hkind.imp (fun ht => hq.type.trans ht) fun hd => hd.same hq
    · rw [he, countOf_same hq]
      rfl
  | filled _ he hq hway => exact filled_orderly hc h he hq hd
  | bypassed he hllc => rcases hc with hc | hc <;> rw [hc] at hllc <;> cases hllc
  | writeHit hp => exact ⟨⟨h.rq, (h.takeWq hp).2.wq, h.pq, h.mshr, h.processed⟩, fun _ => rfl⟩
  | storeLost hp => exact ⟨(h.takeWq hp).2, fun _ => rfl⟩
  | installed hp => exact ⟨⟨h.rq, (h.takeWq hp).2.wq, h.pq, h.mshr, h.processed⟩, fun _ => rfl⟩
  | @storeAllocated p q rest i hp hq hl1d hmiss hfresh hfree h0 hi =>
    obtain ⟨⟨hdemands, hnone⟩, htake⟩ := h.takeWq hp
    have hset := h.setMshr hi (.inr (hdemands.same hq))
    refine ⟨⟨hset.rq, htake.wq, hset.pq, hset.mshr, hset.processed⟩, fun x => ?_⟩
    have hwaits := setMshr_waits (v := v) (x := x) hi q (by
      rw [hfree, countOf_same hq, hnone x hl1d]
      rfl)
    exact hwaits
  | @storeMerged p e rest i hp hl1d he ha =>
    obtain ⟨⟨hdemands, hnone⟩, htake⟩ := h.takeWq hp
    obtain ⟨hi, hkind⟩ := h.mshr _ _ he
    have hset := h.setMshr hi (.inr (mergeWriteback_demands hdemands hkind))
    refine ⟨⟨hset.rq, htake.wq, hset.pq, hset.mshr, hset.processed⟩, fun x => ?_⟩
    have hwaits := setMshr_waits (v := v) (x := x) hi (mergeWriteback p e) (by
      rw [he, countOf_mergeWriteback (hnone x hl1d)]
      rfl)
    exact hwaits
  | readHit room hp hq =>
    obtain ⟨hreads, htake⟩ := h.takeRq hp
    refine ⟨deliver_orderly hc htake (.inr (hreads.demands.same hq)), fun x => ?_⟩
    rw [deliver_waits hc hd, countOf_same hq]
    exact waits_takeRq hp x
  | readAllocated hp hq hmiss hfresh hfree h0 hi =>
    obtain ⟨hreads, htake⟩ := h.takeRq hp
    have hset := h.setMshr hi (.inr (hreads.demands.same hq))
    refine ⟨⟨htake.rq, hset.wq, hset.pq, hset.mshr, hset.processed⟩, fun x => ?_⟩
    refine waits_takeRq_setMshr hi hp _ ?_
    rw [hfree, countOf_same hq]
    rfl
  | @readMerged p e rest i hp he ha =>
    obtain ⟨hreads, htake⟩ := h.takeRq hp
    obtain ⟨hi, hkind⟩ := h.mshr _ _ he
    have hmerged := mergeRead_gathers h hone hp he
    have hset := h.setMshr hi (.inr hmerged.1)
    refine ⟨⟨htake.rq, hset.wq, hset.pq, hset.mshr, hset.processed⟩, fun x => ?_⟩
    refine waits_takeRq_setMshr hi hp _ ?_
    rw [he, hmerged.2]
    rfl
  | prefetchAllocated hp hq hmiss hfresh hfree h0 hi =>
    have ht := hq.type.trans (h.pq _ hp)
    refine ⟨h.setMshr hi (.inl ht), fun x => setMshr_waits hi _ ?_⟩
    · rw [hfree, countOf_prefetch ht]
      rfl
  | prefetchMerged hp he ha =>
    obtain ⟨hi, hkind⟩ := h.mshr _ _ he
    refine ⟨h.setMshr hi ?_, fun x => setMshr_waits hi _ ?_⟩
    · exact hkind.imp id fun hd => ⟨hd.type, hd.lq, hd.sq, hd.l1d⟩
    · rw [he]
      rfl
  | prefetchDone hp =>
    exact ⟨⟨h.rq, h.wq, fun x hx => h.pq x (hp ▸ List.mem_cons_of_mem _ hx), h.mshr, h.processed⟩,
      fun _ => rfl⟩

/-- Steps, by induction on their number. -/
theorem orderly_steps (hc : c.cacheType = .dtlb ∨ c.cacheType = .l1d) (h : Orderly c v)
    (hone : ∀ x, v.waits c x ≤ 1) (hs : Steps c R v v') (hd : v'.dropped = []) :
    v.dropped = [] ∧ Orderly c v' ∧ ∀ x, v'.waits c x = v.waits c x := by
  induction hs with
  | refl => exact ⟨hd, h, fun _ => rfl⟩
  | tail _ hs ih =>
    obtain ⟨hd, h', hwaits⟩ := ih (dropped_step hs hd)
    obtain ⟨h'', hwaits'⟩ := orderly_step hc h' (fun x => (hwaits x).trans_le (hone x)) hs ‹_›
    exact ⟨hd, h'', fun x => (hwaits' x).trans (hwaits x)⟩

end Steps

end Cache
end ChampSim
