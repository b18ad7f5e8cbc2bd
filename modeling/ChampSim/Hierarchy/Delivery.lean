import ChampSim.Cache.Waiters
import ChampSim.Cache.Plain
import ChampSim.Cache.Unique
import ChampSim.Hierarchy.Model

/-!
# ChampSim.Hierarchy.Delivery

A core wakes the loads and stores that wait in its DTLB and its L1D.

* `completeDataFetch` — the indices that `complete_data_fetch` (`src/ooo_cpu.cc`) wakes for an entry
  of `PROCESSED`; `handleMergedTranslation` and `handleMergedLoad` are its two helpers.
* `Delivery` — the structure, with the indices issued to it and those delivered so far.
* `Move`     — a call of the core or of the lower level, or a cycle.
* `Delivery.Kept` — the invariant of a run.
* `waiters_woken_once` — what is issued and not yet delivered waits in a live entry, once.
-/

namespace ChampSim
namespace Cache

open Lib

variable {ρ : Type} {c : Config}

/-! ## The core -/

def handleMergedTranslation (p : Packet) : Multiset Waiter :=
  (if p.storeMerged then p.sqIndexDependOnMe.val.map .sq else 0) +
    if p.loadMerged then p.lqIndexDependOnMe.val.map .lq else 0

def handleMergedLoad (p : Packet) : Multiset Waiter := p.lqIndexDependOnMe.val.map .lq

/-- `is_it_tlb` tells the DTLB from the L1D. The check of the ROB index is left out. -/
def completeDataFetch (c : Config) (p : Packet) : Option (Multiset Waiter) :=
  if c.cacheType = .dtlb then
    if p.type = .rfo then some (.sq p.sqIndex ::ₘ handleMergedTranslation p)
    else some (.lq p.lqIndex ::ₘ handleMergedTranslation p)
  else if p.type = .rfo then some (handleMergedLoad p)
  else if p.storeMerged then none
  else some (.lq p.lqIndex ::ₘ handleMergedLoad p)

/-- The operation that waits for a request. -/
def Request.waiter : Request → Multiset Waiter
  | .storeTranslation _ sqIndex _ => {.sq sqIndex}
  | .loadTranslation _ lqIndex _ => {.lq lqIndex}
  | .loadData lqIndex _ => {.lq lqIndex}
  | .fetchTranslation .. | .fetchLine .. => 0

structure Delivery (ρ : Type) where
  cache : State ρ
  issued : Multiset Waiter
  delivered : Multiset Waiter

inductive Move where
  | issue (env : Env) (r : Request)
  | retire (env : Env) (cycle sqIndex : Nat) (e : Core.LsqEntry)
  | prefetch (env : Env) (k : Callback)
  | returnData (env : Env) (p : Packet)
  | operate (E : CycleEnv)
  | invalidateEntry (address : Nat)
  | complete

namespace Delivery

def init (P : Policy c ρ) : Delivery ρ where
  cache := State.init P
  issued := 0
  delivered := 0

def step (P : Policy c ρ) (D : Delivery ρ) : Move → Option (Delivery ρ)
  | .issue env r =>
    (addRq c env D.cache (r.packet c.numCpus c.cpu)).map fun (a, s) =>
      { D with
        cache := s
        issued := if a = .full then D.issued else r.waiter + D.issued }
  | .retire env cycle sqIndex e =>
    (Cache.step P D.cache (.addWq env (Core.storeData c.numCpus c.cpu cycle sqIndex e))).map
      fun s => { D with cache := s }
  | .prefetch env k => (Cache.step P D.cache (.prefetch env k)).map fun s => { D with cache := s }
  | .returnData env p =>
    (Cache.step P D.cache (.returnData env p)).map fun s => { D with cache := s }
  | .operate E => (Cache.step P D.cache (.operate E)).map fun s => { D with cache := s }
  | .invalidateEntry address =>
    (Cache.step P D.cache (.invalidateEntry address)).map fun s => { D with cache := s }
  | .complete =>
    (completeDataFetch c (D.cache.processed.entry D.cache.processed.head)).bind fun woken =>
      (Cache.step P D.cache .complete).map fun s =>
        { D with cache := s, delivered := woken + D.delivered }

/-- The core sends its requests to the right structure, none for an index that still waits there
(`O3.HonestRun.allowed`); stores and prefetches go to the L1D. -/
def Allowed (c : Config) (D : Delivery ρ) : Move → Prop
  | .issue _ r =>
    (r.level.config c.numCpus c.cpu).cacheType = c.cacheType ∧
      ∀ x ∈ r.waiter, x ∉ D.issued - D.delivered
  | .retire .. | .prefetch .. => c.cacheType = .l1d
  | .returnData .. | .operate _ | .invalidateEntry _ | .complete => True

instance (D : Delivery ρ) (a : Move) : Decidable (Allowed c D a) :=
  match a with
  | .issue .. => inferInstanceAs (Decidable (_ ∧ _))
  | .retire .. | .prefetch .. => inferInstanceAs (Decidable (_ = _))
  | .returnData .. | .operate _ | .invalidateEntry _ | .complete => inferInstanceAs (Decidable True)

end Delivery

/-! ## The packets -/

section Packets

variable {p : Packet} {r : Request}

theorem sent_packet (hc : c.cacheType = .dtlb ∨ c.cacheType = .l1d)
    (hr : (r.level.config c.numCpus c.cpu).cacheType = c.cacheType) :
    Sent c (r.packet c.numCpus c.cpu) ∧ waiters c (r.packet c.numCpus c.cpu) = r.waiter := by
  cases r with
  | fetchTranslation | fetchLine =>
    rcases hc with hc | hc <;> rw [hc] at hr <;> cases hr
  | storeTranslation cloudsuite i e =>
    have hdtlb : c.cacheType = .dtlb := hr.symm
    refine ⟨⟨⟨⟨.inr rfl, fun _ => rfl, fun _ => rfl, fun _ => rfl⟩, rfl, fun _ => ⟨hdtlb, rfl⟩⟩,
      rfl, rfl⟩, ?_⟩
    exact if_pos hdtlb
  | loadTranslation cloudsuite i e =>
    exact ⟨⟨⟨⟨.inl rfl, fun _ => rfl, fun _ => rfl, fun _ => rfl⟩, rfl, fun h => (nomatch h)⟩,
      rfl, rfl⟩, rfl⟩
  | loadData i e =>
    exact ⟨⟨⟨⟨.inl rfl, fun _ => rfl, fun _ => rfl, fun _ => rfl⟩, rfl, fun h => (nomatch h)⟩,
      rfl, rfl⟩, rfl⟩

/-- The flags that the core looks at agree with the sets. -/
theorem completeDataFetch_eq (hc : c.cacheType = .dtlb ∨ c.cacheType = .l1d) (hp : Demands c p) :
    completeDataFetch c p = some (waiters c p) := by
  have hlq : p.loadMerged = false → p.lqIndexDependOnMe.val.map Waiter.lq = 0 := fun h => by
    rw [hp.lq h]
    rfl
  have hsq : p.storeMerged = false → p.sqIndexDependOnMe.val.map Waiter.sq = 0 := fun h => by
    rw [hp.sq h]
    rfl
  unfold completeDataFetch waiters
  rcases hc with hc | hc
  · have htranslation : handleMergedTranslation p = mergedWaiters p := by
      unfold handleMergedTranslation mergedWaiters
      rw [add_comm]
      congr 1
      · cases h : p.loadMerged with
        | true => rfl
        | false => exact (hlq h).symm
      · cases h : p.storeMerged with
        | true => rfl
        | false => exact (hsq h).symm
    rw [if_pos hc, htranslation]
    rcases hp.type with ht | ht
    · simp [ht]
    · simp [ht, hc]
  · have hload : handleMergedLoad p = mergedWaiters p := by
      unfold handleMergedLoad mergedWaiters
      rw [hsq (hp.l1d hc), add_zero]
    rw [if_neg (by simp [hc]), hload]
    rcases hp.type with ht | ht
    · simp [ht, hp.l1d hc]
    · simp [ht, hc]

end Packets

/-! ## The invariant -/

/-- Everybody who has been told to wait is told once, or still waits in one place. -/
structure Delivery.Balanced (c : Config) (D : Delivery ρ) : Prop where
  orderly : Orderly c (view c D.cache)
  counts : ∀ x, D.issued.count x = D.delivered.count x + (view c D.cache).waits c x
  once : ∀ x, (view c D.cache).waits c x ≤ 1

section Moves

variable {P : Policy c ρ} {D : Delivery ρ} {v v' : View} {s' : State ρ} {p : Packet}

theorem waits_added (p : Packet) (t : Nat) (x : Waiter) :
    { v with rq := v.rq ++ [{ p with eventCycle := t }] }.waits c x =
      v.waits c x + countOf c x p := by
  have hsame : countOf c x { p with eventCycle := t } = countOf c x p := rfl
  unfold View.waits
  dsimp only
  rw [tally_append, tally_cons, tally_nil, hsame]
  omega

theorem waits_merged {k : Nat} {e r : Packet} (he : v.rq[k]? = some e) (x : Waiter) :
    { v with rq := v.rq.set k r }.waits c x + countOf c x e = v.waits c x + countOf c x r := by
  have := tally_set (w := countOf c x) he r
  unfold View.waits
  dsimp only
  omega

/-- A request of the core is taken, merged or sent away. -/
theorem orderly_addRq (hc : c.cacheType = .dtlb ∨ c.cacheType = .l1d) {a : Added}
    (h : Orderly c v) (hp : Sent c p) (hone : ∀ x, v.waits c x + countOf c x p ≤ 1)
    (he : RqEffect c p a v v') (hd : v'.dropped = []) :
    Orderly c v' ∧
      ∀ x, v'.waits c x = v.waits c x + if a = .full then 0 else countOf c x p := by
  cases he with
  | forwarded _ room hq =>
    refine ⟨deliver_orderly hc h (.inr (hp.reads.demands.same hq)), fun x => ?_⟩
    rw [deliver_waits hc hd, countOf_same hq, if_neg (by simp)]
  | @merged _ i k e he =>
    have hreads := h.rq e (List.mem_of_getElem? he)
    obtain ⟨hg, hreads'⟩ := gathers_mergeRq hp hreads
    refine ⟨⟨fun y hy => ?_, h.wq, h.pq, h.mshr, h.processed⟩, fun x => ?_⟩
    · rcases List.mem_or_eq_of_mem_set hy with hy | rfl
      · exact h.rq y hy
      · exact hreads'
    · have hmoved := waits_merged (c := c) (r := mergeRq p e) he x
      have hle : countOf c x e ≤ v.waits c x := by
        have := le_tally (w := countOf c x) (List.mem_of_getElem? he)
        unfold View.waits
        omega
      have hsum : countOf c x (mergeRq p e) = countOf c x e + countOf c x p := by
        refine count_gathers hg hreads.demands.type x ?_
        have := hone x
        change countOf c x e + countOf c x p ≤ 1
        omega
      rw [if_neg (by simp)]
      omega
  | full _ => exact ⟨h, fun x => by rw [if_pos rfl, Nat.add_zero]⟩
  | added _ t h0 =>
    refine ⟨⟨fun y hy => ?_, h.wq, h.pq, h.mshr, h.processed⟩, fun x => ?_⟩
    · rcases List.mem_append.mp hy with hy | hy
      · exact h.rq y hy
      · rw [List.mem_singleton.mp hy]
        have hreads := hp.reads
        exact ⟨⟨hreads.demands.type, hreads.demands.lq, hreads.demands.sq, hreads.demands.l1d⟩,
          hreads.code, hreads.store⟩
    · rw [waits_added, if_neg (by simp)]

theorem dropped_steps {R : Rules} (hs : Steps c R v v') (hd : v'.dropped = []) :
    v.dropped = [] := by
  induction hs with
  | refl => exact hd
  | tail _ hs ih => exact ih (dropped_step hs hd)

theorem balanced_steps {R : Rules} (hc : c.cacheType = .dtlb ∨ c.cacheType = .l1d)
    (hs : Steps c R (view c D.cache) (view c s')) (hd : s'.dropped = []) :
    D.cache.dropped = [] ∧ (D.Balanced c → { D with cache := s' }.Balanced c) := by
  refine ⟨dropped_steps hs hd, fun h => ?_⟩
  obtain ⟨-, horderly, hwaits⟩ := orderly_steps hc h.orderly h.once hs hd
  exact ⟨horderly, fun x => by rw [hwaits]; exact h.counts x,
    fun x => (hwaits x).trans_le (h.once x)⟩

theorem issue_balanced {env : Env} {r : Request} {a : Added}
    (hc : c.cacheType = .dtlb ∨ c.cacheType = .l1d) (hshape : Shape c D.cache)
    (hallowed : Delivery.Allowed c D (.issue env r))
    (hr : addRq c env D.cache (r.packet c.numCpus c.cpu) = some (a, s')) (hd : s'.dropped = []) :
    D.cache.dropped = [] ∧ (D.Balanced c → Delivery.Balanced c
      { D with
        cache := s'
        issued := if a = .full then D.issued else r.waiter + D.issued }) := by
  obtain ⟨-, he⟩ := (addRq_does hshape).of_eq hr
  obtain ⟨hsent, hwaiters⟩ := sent_packet hc hallowed.1
  refine ⟨?_, fun h => ?_⟩
  · change (view c s').dropped = [] at hd
    change (view c D.cache).dropped = []
    generalize view c s' = v' at he hd
    cases he with
    | forwarded => exact deliver_dropped hd
    | merged | full | added => exact hd
  · have hfresh : ∀ x, (view c D.cache).waits c x +
        countOf c x (r.packet c.numCpus c.cpu) ≤ 1 := by
      intro x
      have hcount : countOf c x (r.packet c.numCpus c.cpu) = r.waiter.count x :=
        congrArg (Multiset.count x) hwaiters
      have honce := h.once x
      have hone : r.waiter.count x ≤ 1 := by
        cases r <;> simp [Request.waiter, Multiset.count_singleton] <;> split <;> omega
      by_cases hx : x ∈ r.waiter
      · have hnot := Multiset.count_eq_zero.mpr (hallowed.2 x hx)
        rw [Multiset.count_sub, h.counts x] at hnot
        omega
      · rw [hcount, Multiset.count_eq_zero.mpr hx]
        exact honce
    obtain ⟨horderly, hwaits⟩ := orderly_addRq hc h.orderly hsent hfresh he hd
    refine ⟨horderly, fun x => ?_, fun x => ?_⟩
    · have hcounts := h.counts x
      have hcount : countOf c x (r.packet c.numCpus c.cpu) = r.waiter.count x :=
        congrArg (Multiset.count x) hwaiters
      dsimp only
      rw [hwaits x, hcount]
      split
      · omega
      · rw [Multiset.count_add]
        omega
    · rw [hwaits x]
      have := hfresh x
      split <;> omega

theorem retire_balanced {env : Env} {cycle sqIndex : Nat} {e : Core.LsqEntry}
    (hshape : Shape c D.cache)
    (hr : Cache.step P D.cache
      (.addWq env (Core.storeData c.numCpus c.cpu cycle sqIndex e)) = some s')
    (hd : s'.dropped = []) :
    D.cache.dropped = [] ∧ (D.Balanced c → { D with cache := s' }.Balanced c) := by
  obtain ⟨⟨a, t⟩, hadd, ht⟩ := Option.map_eq_some_iff.mp hr
  have ht : t = s' := ht
  subst t
  obtain ⟨-, hv⟩ := (addWq_does hshape).of_eq hadd
  have hdropped : (view c s').dropped = (view c D.cache).dropped := by
    rcases hv with hv | ⟨t, hv⟩ <;> rw [hv]
  refine ⟨hdropped.symm.trans hd, fun h => ?_⟩
  have hwaits : ∀ x, (view c s').waits c x = (view c D.cache).waits c x := by
    intro x
    rcases hv with hv | ⟨t, hv⟩ <;> rw [hv]
    rfl
  refine ⟨?_, fun x => by rw [hwaits]; exact h.counts x, fun x => (hwaits x).trans_le (h.once x)⟩
  dsimp only
  rcases hv with hv | ⟨t, hv⟩
  · rw [hv]
    exact h.orderly
  · rw [hv]
    refine ⟨h.orderly.rq, fun p hp => ?_, h.orderly.pq, h.orderly.mshr, h.orderly.processed⟩
    rcases List.mem_append.mp hp with hp | hp
    · exact h.orderly.wq p hp
    · rw [List.mem_singleton.mp hp]
      refine ⟨⟨.inr rfl, fun _ => rfl, fun _ => rfl, fun _ => rfl⟩, fun x hc => ?_⟩
      have hnone : waiters c { Core.storeData c.numCpus c.cpu cycle sqIndex e with
          eventCycle := t } = 0 := if_neg (by simp [hc])
      unfold countOf
      rw [hnone, Multiset.count_zero]

theorem complete_balanced {woken : Multiset Waiter}
    (hc : c.cacheType = .dtlb ∨ c.cacheType = .l1d) (hshape : Shape c D.cache)
    (hplain : c.cacheType = .dtlb → Plain D.cache)
    (hw : completeDataFetch c (D.cache.processed.entry D.cache.processed.head) = some woken)
    (hr : Cache.step P D.cache .complete = some s') (hd : s'.dropped = []) :
    D.cache.dropped = [] ∧ (D.Balanced c → Delivery.Balanced c
      { D with cache := s', delivered := woken + D.delivered }) := by
  obtain ⟨-, p, hp, hv⟩ := (complete_does (R := Rules.any) hshape).of_eq hr
  have hdropped : (view c s').dropped = (view c D.cache).dropped := by rw [hv]
  refine ⟨hdropped.symm.trans hd, fun h => ?_⟩
  have ho : 0 < D.cache.processed.occupancy := by
    have hlength := congrArg List.length hp
    rw [show (view c D.cache).processed = D.cache.processed.contents from rfl,
      Ring.contents_length, List.length_cons] at hlength
    omega
  obtain ⟨rest, hhead⟩ := head_contents hshape.processed ho
  obtain ⟨rfl, -⟩ := List.cons.inj (hp.symm.trans hhead)
  have hdemands : Demands c (D.cache.processed.entry D.cache.processed.head) := by
    refine (h.orderly.processed _ (hp ▸ List.mem_cons_self)).resolve_right fun hprefetch => ?_
    exact (hplain hprefetch.2).processed _ hprefetch.1
  rw [completeDataFetch_eq hc hdemands, Option.some.injEq] at hw
  have hwaits : ∀ x, (view c D.cache).waits c x = (view c s').waits c x + woken.count x := by
    intro x
    rw [hv, ← hw]
    unfold View.waits
    rw [hp, tally_cons]
    unfold countOf
    dsimp only
    omega
  refine ⟨?_, fun x => ?_, fun x => ?_⟩
  · dsimp only
    rw [hv]
    exact ⟨h.orderly.rq, h.orderly.wq, h.orderly.pq, h.orderly.mshr,
      fun q hq => h.orderly.processed q (hp ▸ List.mem_cons_of_mem _ hq)⟩
  · have hcounts := h.counts x
    rw [hwaits x] at hcounts
    dsimp only
    rw [Multiset.count_add]
    omega
  · have honce := h.once x
    rw [hwaits x] at honce
    dsimp only
    omega

end Moves

/-! ## Runs -/

/-- The waiters are in balance as long as nothing was dropped. -/
structure Delivery.Kept (c : Config) (D : Delivery ρ) : Prop where
  shape : Shape c D.cache
  plain : c.cacheType = .dtlb → Plain D.cache
  balanced : D.cache.dropped = [] → D.Balanced c

section Runs

variable {P : Policy c ρ} {D D' : Delivery ρ} {s' : State ρ} {a : Move}

theorem Delivery.Kept.trans {d : Delivery ρ} (h : D.Kept c) (hshape : Shape c d.cache)
    (hplain : c.cacheType = .dtlb → Plain D.cache → Plain d.cache)
    (hb : d.cache.dropped = [] → D.cache.dropped = [] ∧ (D.Balanced c → d.Balanced c)) :
    d.Kept c := by
  refine ⟨hshape, fun hdtlb => hplain hdtlb (h.plain hdtlb), fun hd => ?_⟩
  obtain ⟨hd', hbalanced⟩ := hb hd
  exact hbalanced (h.balanced hd')

theorem invalidateEntry_plain (h : Plain D.cache) (address : Nat) :
    Plain (invalidateEntry c D.cache address) := by
  unfold invalidateEntry
  split
  · exact ⟨h.rq, h.mshr, h.processed, h.wq, h.pq⟩
  · exact h

theorem complete_plain (h : Plain D.cache) (hs' : Cache.step P D.cache .complete = some s') :
    Plain s' := by
  obtain ⟨q, hq, rfl⟩ := Option.map_eq_some_iff.mp hs'
  exact ⟨h.rq, h.mshr, removeQueue_type hq h.processed, h.wq, h.pq⟩

theorem step_kept (hc : c.cacheType = .dtlb ∨ c.cacheType = .l1d) (h : D.Kept c)
    (ha : D.Allowed c a) (hD' : D.step P a = some D') : D'.Kept c := by
  cases a with
  | issue env r =>
    obtain ⟨⟨b, s⟩, hr, rfl⟩ := Option.map_eq_some_iff.mp hD'
    obtain ⟨hshape, -⟩ := (addRq_does h.shape).of_eq hr
    refine h.trans hshape (fun hdtlb hplain => ?_) (issue_balanced hc h.shape ha hr)
    obtain ⟨hsent, -⟩ := sent_packet hc ha.1
    refine addRq_plain hdtlb hplain (fun hprefetch => ?_) hr
    rcases hsent.reads.demands.type with ht | ht <;> rw [hprefetch] at ht <;> cases ht
  | retire env cycle sqIndex e =>
    obtain ⟨s, hr, rfl⟩ := Option.map_eq_some_iff.mp hD'
    obtain ⟨hshape, -⟩ := (step_does (P := P) (R := Rules.any) h.shape
      (.addWq env (Core.storeData c.numCpus c.cpu cycle sqIndex e)) trivial).of_eq hr
    exact h.trans hshape (fun hdtlb => by rw [ha] at hdtlb; cases hdtlb)
      (retire_balanced h.shape hr)
  | prefetch env k =>
    obtain ⟨s, hr, rfl⟩ := Option.map_eq_some_iff.mp hD'
    obtain ⟨hshape, hv⟩ := (runCallback_does (I := True) h.shape fun _ => trivial).of_eq hr
    exact h.trans hshape (fun hdtlb => by rw [ha] at hdtlb; cases hdtlb)
      (balanced_steps (R := Rules.any) hc (CallbackSteps.steps hv))
  | returnData env p =>
    obtain ⟨s, hr, rfl⟩ := Option.map_eq_some_iff.mp hD'
    obtain ⟨hshape, hv⟩ := (returnData_does (I := True) h.shape).of_eq hr
    exact h.trans hshape (fun _ hplain => returnData_plain hplain hr)
      (balanced_steps (R := Rules.any) hc (Quiet.steps hv))
  | operate E =>
    obtain ⟨s, hr, rfl⟩ := Option.map_eq_some_iff.mp hD'
    obtain ⟨hshape, hv⟩ := (operate_does (R := Rules.any) h.shape
      ⟨fun _ => trivial, fun _ => trivial, fun _ _ => trivial, fun _ _ => trivial,
        fun _ _ => obeys_any P _ _⟩).of_eq hr
    exact h.trans hshape (fun hdtlb hplain => operate_plain hdtlb hplain hr)
      (balanced_steps hc hv)
  | invalidateEntry address =>
    cases hD'
    obtain ⟨hshape, hv⟩ := invalidateEntry_does (I := True) h.shape trivial address
    exact h.trans hshape (fun _ hplain => invalidateEntry_plain hplain address)
      (balanced_steps (R := Rules.any) hc (CallbackSteps.steps hv))
  | complete =>
    obtain ⟨woken, hw, hD'⟩ := Option.bind_eq_some_iff.mp hD'
    obtain ⟨s, hr, rfl⟩ := Option.map_eq_some_iff.mp hD'
    obtain ⟨hshape, -⟩ := (complete_does (R := Rules.any) h.shape).of_eq hr
    exact h.trans hshape (fun _ hplain => complete_plain hplain hr)
      (complete_balanced hc h.shape h.plain hw hr)

theorem init_kept (P : Policy c ρ) : (Delivery.init P).Kept c := by
  have hmshr : ∀ i e, (view c (State.init P)).mshr i ≠ some e := by
    intro i e he
    obtain ⟨-, h0, -⟩ := view_mshr.mp he
    exact h0 rfl
  have hwaits : ∀ x, (view c (State.init P)).waits c x = 0 := by
    intro x
    refine Nat.add_eq_zero_iff.mpr ⟨Nat.add_eq_zero_iff.mpr ⟨rfl, ?_⟩, rfl⟩
    refine Finset.sum_eq_zero fun i _ => ?_
    rw [Option.eq_none_iff_forall_ne_some.mpr (hmshr i)]
    rfl
  have horderly : Orderly c (view c (State.init P)) :=
    ⟨fun _ hp => (nomatch hp), fun _ hp => (nomatch hp), fun _ hp => (nomatch hp),
      fun i e he => absurd he (hmshr i e), fun _ hp => (nomatch hp)⟩
  exact ⟨shape_init P, fun _ => plain_init P, fun _ =>
    ⟨horderly, fun x => ((Nat.zero_add _).trans (hwaits x)).symm,
      fun x => (hwaits x).trans_le (Nat.zero_le 1)⟩⟩

/-- A run of a DTLB or an L1D from its start, with room in `PROCESSED`. -/
theorem waiters_woken_once (P : Policy c ρ) (hc : c.cacheType = .dtlb ∨ c.cacheType = .l1d)
    {moves : List Move}
    (hallowed : Along (Delivery.step P) (Delivery.Allowed c) (Delivery.init P) moves)
    (h : run (Delivery.step P) (Delivery.init P) moves = some D) (hroom : D.cache.dropped = []) :
    D.issued = D.delivered + waiting c D.cache := by
  have hkept : D.Kept c :=
    run_invariant (fun _ _ _ h ha h' => step_kept hc h ha h') (init_kept P) hallowed h
  ext x
  rw [Multiset.count_add, count_waiting]
  exact (hkept.balanced hroom).counts x

/-- A store and two loads wait for one page; one load merges in `RQ`, the other in the MSHR. -/
def sharedPage : List Move :=
  let e := { Core.LsqEntry.empty with virtualAddress := 20500 }
  [.issue (Env.quiet 0) (.storeTranslation false 5 e),
    .issue (Env.quiet 0) (.loadTranslation false 2 e),
    .operate (CycleEnv.quiet 10),
    .issue (Env.quiet 11) (.loadTranslation false 3 e),
    .operate (CycleEnv.quiet 20),
    .returnData (Env.quiet 30) { Core.loadTranslation 1 0 false 3 e with data := 9 },
    .operate (CycleEnv.quiet 100),
    .complete]

theorem sharedPage_allowed :
    Along (Delivery.step (lru (dtlb 1 0))) (Delivery.Allowed (dtlb 1 0))
      (Delivery.init (lru (dtlb 1 0))) sharedPage := by
  decide +kernel

theorem sharedPage_run :
    (run (Delivery.step (lru (dtlb 1 0))) (Delivery.init (lru (dtlb 1 0))) sharedPage).map
      (fun D => (D.cache.dropped, D.delivered)) = some ([], {.sq 5, .lq 2, .lq 3}) := by
  decide +kernel

theorem sharedPage_woken :
    ∃ D, run (Delivery.step (lru (dtlb 1 0))) (Delivery.init (lru (dtlb 1 0))) sharedPage = some D ∧
      D.delivered = {.sq 5, .lq 2, .lq 3} ∧
      D.issued = D.delivered + waiting (dtlb 1 0) D.cache := by
  obtain ⟨D, hD, heq⟩ := Option.map_eq_some_iff.mp sharedPage_run
  obtain ⟨hdropped, hdelivered⟩ := Prod.mk.inj heq
  exact ⟨D, hD, hdelivered,
    waiters_woken_once (lru (dtlb 1 0)) (.inl rfl) sharedPage_allowed hD hdropped⟩

end Runs

end Cache
end ChampSim
