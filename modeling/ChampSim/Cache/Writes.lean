import ChampSim.Cache.Store
import ChampSim.Cache.Merge

/-!
# ChampSim.Cache.Writes

What the operations of a cache write, one array element at a time.

* `Write`   — a change of a block or of the MSHR, on the state itself; `kept` is everything else.
* `Evicted` — at most one write-back has been sent, that of a dirty block.
* `Env.invalidated`, `Act.invalidated` — the lines of swapped pages that a handler or an act names.
* `act_writes` — an act sends at most one write-back and then writes.
-/

namespace ChampSim
namespace Cache

open Lib

variable {ρ : Type} {c : Config}

/-- `A` are the lines that may be invalidated; `D` tells whether blocks may be marked dirty, `Z`
whether packets may have address 0. -/
inductive Write (c : Config) (Z : Prop) (A : List Nat) (D : Prop) : State ρ → State ρ → Prop
  | kept {s s' : State ρ} (hline : ∀ set way, (s'.block set way).line = (s.block set way).line)
    (hmshr : s'.mshr = s.mshr) (hsent : s'.sent = s.sent) : Write c Z A D s s'
  | invalidated (s : State ρ) {a : Nat} (ha : a ∈ A) : Write c Z A D s (invalidateEntry c s a)
  | filled {s s' : State ρ} {set way : Nat} {p : Packet}
    (h : fillCache c s set way p = some s') : Write c Z A D s s'
  | dirtied (s : State ρ) {set way : Nat} (hD : D) (hv : (s.block set way).valid = true) :
    Write c Z A D s (markDirty s set way)
  | allocated (s : State ρ) {p : Packet} (h0 : Z ∨ p.address ≠ 0)
    (hfresh : checkMshr c s p.address = none) (hroom : s.mshr.occupancy < c.mshrSize) :
    Write c Z A D s (addMshr c s p)
  | merged (s : State ρ) {i : Nat} {e : Packet} (hi : i < c.mshrSize)
    (ha : e.address = (s.mshr.entry i).address) (hr : e.returned = (s.mshr.entry i).returned)
    (ht : e.eventCycle = (s.mshr.entry i).eventCycle) :
    Write c Z A D s { s with mshr := s.mshr.setEntry i e }
  | returned {s s' : State ρ} {env : Env} {p : Packet} (h0 : Z ∨ p.address ≠ 0)
    (h : returnData c env s p = some s') : Write c Z A D s s'
  | removed {s s' : State ρ} (hi : s.mshr.nextFillIndex < c.mshrSize)
    (h0 : (s.mshr.entry s.mshr.nextFillIndex).address ≠ 0)
    (h : removeMshr c s s.mshr.nextFillIndex = some s') : Write c Z A D s s'

def Writes (c : Config) (Z : Prop) (A : List Nat) (D : Prop) : State ρ → State ρ → Prop :=
  Relation.ReflTransGen (Write c Z A D)

/-- Blocks are marked dirty after the last invalidation. -/
def WriteMark (c : Config) (Z : Prop) (A : List Nat) (s s' : State ρ) : Prop :=
  ∃ t, Writes c Z A False s t ∧ Writes c Z [] True t s'

/-- The victim of a fill or of an installed write-back goes to the lower level when it is dirty. -/
structure Evicted (c : Config) (s s' : State ρ) : Prop where
  block : s'.block = s.block
  mshr : s'.mshr = s.mshr
  sent : s'.sent = s.sent ∨ ∃ set, ∃ way < c.numWay, (s.block set way).dirty = true ∧
    s'.sent = s.sent ++ [(s.block set way).address]

/-- At most one write-back is sent, and then the arrays are written. -/
def EvictWrite (c : Config) (Z : Prop) (A : List Nat) (s s' : State ρ) : Prop :=
  ∃ t, Evicted c s t ∧ WriteMark c Z A t s'

def Callback.invalidated : Callback → List Nat
  | .invalidate address => [address]
  | .prefetchLine .. | .kpcPrefetchLine .. | .prefetchCodeLine .. => []

def Env.invalidated (env : Env) : List Nat :=
  env.callbacks.flatMap Callback.invalidated ++ env.walkInvalidates

section Basic

variable {A B : List Nat} {Z D : Prop} {s s' t : State ρ}

theorem Write.mono (h : Write c Z A D s s') (hAB : A ⊆ B) : Write c Z B D s s' := by
  cases h with
  | kept hline hmshr hsent => exact .kept hline hmshr hsent
  | invalidated ha => exact .invalidated s (hAB ha)
  | filled h => exact .filled h
  | dirtied hD hv => exact .dirtied s hD hv
  | allocated h0 hfresh hroom => exact .allocated s h0 hfresh hroom
  | merged hi ha hr ht => exact .merged s hi ha hr ht
  | returned h0 h => exact .returned h0 h
  | removed hi h0 h => exact .removed hi h0 h

theorem Writes.mono (h : Writes c Z A D s s') (hAB : A ⊆ B) : Writes c Z B D s s' :=
  h.lift id fun _ _ hw => hw.mono hAB

theorem Writes.one (h : Write c Z A D s s') : Writes c Z A D s s' := .single h

/-- Queues, counters, policy state and calls on the neighbours. -/
theorem Writes.kept (hblock : s'.block = s.block) (hmshr : s'.mshr = s.mshr)
    (hsent : s'.sent = s.sent) : Writes c Z A D s s' :=
  .one (.kept (fun _ _ => by rw [hblock]) hmshr hsent)

theorem Evicted.refl (s : State ρ) : Evicted c s s := ⟨rfl, rfl, .inl rfl⟩

theorem WriteMark.refl (s : State ρ) : WriteMark c Z A s s := ⟨s, .refl, .refl⟩

theorem Writes.marked (h : Writes c Z A False s s') : WriteMark c Z A s s' := ⟨s', h, .refl⟩

theorem WriteMark.evictWrite (h : WriteMark c Z A s s') : EvictWrite c Z A s s' := ⟨s, .refl s, h⟩

theorem Writes.evictWrite (h : Writes c Z A False s s') : EvictWrite c Z A s s' :=
  h.marked.evictWrite

theorem sent_call {e : Call} (he : e.writeback? = none) : (s.call e).sent = s.sent := by
  simp [State.sent, State.call, he]

theorem call_writes (s : State ρ) {e : Call} (he : e.writeback? = none) :
    Writes c Z A D s (s.call e) :=
  .kept rfl rfl (sent_call he)

end Basic

/-! ## The parts of the handlers -/

section Parts

variable {A : List Nat} {Z D : Prop} {P : Policy c ρ} {env : Env} {s s' : State ρ} {p : Packet}

theorem returnUpper_writes (s : State ρ) (cpu : Nat) (p : Packet) :
    Writes c Z A D s (returnUpper c s cpu p) := by
  unfold returnUpper
  split
  · dsimp only
    generalize (if c.fillLevel = fillL2 then p.fillL1i else p.instruction) = toIcache
    generalize (if c.fillLevel = fillL2 then p.fillL1d else p.isData) = toDcache
    cases toIcache <;> cases toDcache
    · exact .refl
    · exact call_writes s rfl
    · exact call_writes s rfl
    · exact (call_writes s rfl).trans (call_writes _ rfl)
  · exact .refl

theorem updateReplacement_writes (s : State ρ) (set way : Nat) (p : Packet)
    (fullAddr victimAddr : Nat) (hit : Bool) :
    Writes c Z A D s (updateReplacement P s set way p fullAddr victimAddr hit) := by
  refine .one (.kept (fun i j => ?_) rfl rfl)
  by_cases hi : i = set
  · subst hi
    simp [updateReplacement, Block.line]
  · simp [updateReplacement, hi]

theorem popRq_writes (h : popRq c s = some s') : Writes c Z A D s s' := by
  obtain ⟨q, -, rfl⟩ := Option.map_eq_some_iff.mp h
  exact .kept rfl rfl rfl

theorem popWq_writes (h : popWq c s = some s') : Writes c Z A D s s' := by
  obtain ⟨q, -, rfl⟩ := Option.map_eq_some_iff.mp h
  exact .kept rfl rfl rfl

theorem popPq_writes (h : popPq c s = some s') : Writes c Z A D s s' := by
  obtain ⟨q, -, rfl⟩ := Option.map_eq_some_iff.mp h
  exact .kept rfl rfl rfl

theorem process_writes (h : process s p = some s') : Writes c Z A D s s' := by
  unfold process at h
  split at h
  · obtain ⟨q, -, rfl⟩ := Option.map_eq_some_iff.mp h
    exact .kept rfl rfl rfl
  · cases h
    exact .kept rfl rfl rfl

theorem deliver_writes (h : deliver c s p = some s') : Writes c Z A D s s' := by
  unfold deliver at h
  split at h
  · exact process_writes h
  · exact process_writes h
  · exact process_writes h
  · split at h
    · cases h
      exact .refl
    · exact process_writes h
  · cases h
    exact .refl

theorem forwardFromWq_writes (s : State ρ) (i : Nat) (p : Packet) :
    Writes c Z A D s (forwardFromWq c s i p).1 := by
  unfold forwardFromWq
  split
  · exact returnUpper_writes _ _ _
  · exact .refl

theorem addRq_writes {r : Added × State ρ} (h : addRq c env s p = some r) :
    Writes c Z A D s r.2 := by
  unfold addRq at h
  split at h
  · rename_i i _
    have hforward := forwardFromWq_writes (c := c) (Z := Z) (A := A) (D := D) s i p
    generalize forwardFromWq c s i p = x at hforward h
    dsimp only at h
    split at h
    · cases h
    · obtain ⟨s₁, hs₁, rfl⟩ := Option.map_eq_some_iff.mp h
      have h₁ : Writes c Z A D x.1 s₁ := by
        split at hs₁
        · exact process_writes hs₁
        · cases hs₁
          exact .refl
      exact (hforward.trans h₁).trans (Writes.kept rfl rfl rfl)
  · split at h
    · cases h
      exact .kept rfl rfl rfl
    · split at h
      · cases h
        exact .kept rfl rfl rfl
      · obtain ⟨q, -, h⟩ := Option.bind_eq_some_iff.mp h
        split at h
        · cases h
        · cases h
          exact .kept rfl rfl rfl

theorem addWq_writes {r : Added × State ρ} (h : addWq c env s p = some r) :
    Writes c Z A D s r.2 := by
  unfold addWq at h
  split at h
  · cases h
    exact .kept rfl rfl rfl
  · split at h
    · cases h
    · obtain ⟨q, -, rfl⟩ := Option.map_eq_some_iff.mp h
      exact .kept rfl rfl rfl

theorem addPq_writes {r : Added × State ρ} (h : addPq c env s p = some r) :
    Writes c Z A D s r.2 := by
  unfold addPq at h
  split at h
  · rename_i i _
    have hforward := forwardFromWq_writes (c := c) (Z := Z) (A := A) (D := D) s i p
    generalize forwardFromWq c s i p = x at hforward h
    cases h
    exact hforward.trans (Writes.kept rfl rfl rfl)
  · split at h
    · cases h
      exact .kept rfl rfl rfl
    · split at h
      · cases h
        exact .kept rfl rfl rfl
      · obtain ⟨q, -, h⟩ := Option.bind_eq_some_iff.mp h
        split at h
        · cases h
        · cases h
          exact .kept rfl rfl rfl

theorem addPq_issued (h : (addPq c env s p).map (fun r => { r.2 with pfIssued := r.2.pfIssued + 1 })
    = some s') : Writes c Z A D s s' := by
  obtain ⟨r, hr, rfl⟩ := Option.map_eq_some_iff.mp h
  exact (addPq_writes hr).trans (Writes.kept rfl rfl rfl)

theorem issuePrefetch_writes {baseAddr pfAddr : Nat}
    (h : issuePrefetch c env s baseAddr pfAddr p = some s') : Writes c Z A D s s' := by
  unfold issuePrefetch at h
  split at h
  · exact addPq_issued h
  · cases h
    exact .refl

theorem runCallback_writes {cpu : Nat} {k : Callback} (hk : k.invalidated ⊆ A)
    (h : runCallback c env cpu s k = some s') : Writes c Z A D s s' := by
  cases k with
  | prefetchLine =>
    have hrequested : Writes c Z A D s { s with pfRequested := s.pfRequested + 1 } :=
      .kept rfl rfl rfl
    exact hrequested.trans (issuePrefetch_writes h)
  | kpcPrefetchLine => exact issuePrefetch_writes h
  | prefetchCodeLine pfVAddr pfPa =>
    have hrequested : Writes c Z A D s { s with pfRequested := s.pfRequested + 1 } :=
      .kept rfl rfl rfl
    change prefetchCodeLine c env cpu s pfVAddr pfPa = some s' at h
    unfold prefetchCodeLine at h
    split at h
    · cases h
    · dsimp only at h
      split at h
      · exact hrequested.trans (addPq_issued h)
      · cases h
        exact hrequested
  | invalidate a =>
    cases h
    exact .one (.invalidated s (hk (List.mem_singleton.mpr rfl)))

theorem Env.callback_subset {k : Callback} (hk : k ∈ env.callbacks) :
    k.invalidated ⊆ env.invalidated :=
  fun _ ha => List.mem_append.mpr (.inl (List.mem_flatMap.mpr ⟨k, hk, ha⟩))

theorem runPrefetcher_writes {cpu : Nat} (h : runPrefetcher c env cpu s = some s') :
    Writes c Z env.invalidated D s s' := by
  refine run_invariant (I := fun t => Writes c Z env.invalidated D s t)
    (P := fun _ k => k ∈ env.callbacks) (fun t k t' ht hk hs => ?_) .refl
    (along_of_forall (fun _ hk => hk) s) h
  exact ht.trans (runCallback_writes (Env.callback_subset hk) hs)

theorem runPrefetcher_mshr {cpu : Nat} (h : runPrefetcher c env cpu s = some s') :
    s'.mshr = s.mshr :=
  run_invariant (I := fun t => t.mshr = s.mshr) (P := fun _ _ => True)
    (fun _ _ _ ht _ hs => (runCallback_mshr hs).trans ht) rfl
    (along_of_forall (A := fun _ => True) (by simp) s) h

theorem answer_writes (h0 : Z ∨ p.address ≠ 0) (h : answer c env s p = some s') :
    Writes c Z A D s s' := by
  refine run_invariant (I := fun t => Writes c Z A D s t) (P := fun _ _ => True)
    (fun t d t' ht _ hs => ?_) .refl (along_of_forall (A := fun _ => True) (by simp) s) h
  exact ht.tail (.returned (p := { p with data := d }) h0 hs)

theorem invalidateAll_writes {as : List Nat} (has : as ⊆ A) (s : State ρ) :
    Writes c Z A D s (as.foldl (invalidateEntry c) s) := by
  induction as generalizing s with
  | nil => exact .refl
  | cons a as ih =>
    rw [List.cons_subset] at has
    exact Relation.ReflTransGen.head (.invalidated s has.1) (ih has.2 _)

theorem prefetcherFill_writes {r : State ρ × Packet} (h : prefetcherFill c env s p = some r) :
    Writes c Z env.invalidated D s r.1 ∧ r.1.mshr = s.mshr := by
  unfold prefetcherFill at h
  split at h
  · cases h
    exact ⟨.refl, rfl⟩
  · obtain ⟨s₁, hs₁, rfl⟩ := Option.map_eq_some_iff.mp h
    exact ⟨runPrefetcher_writes hs₁, runPrefetcher_mshr hs₁⟩

theorem prefetcherLoad_writes (h : prefetcherLoad c env s p = some s') :
    Writes c Z env.invalidated D s s' := by
  unfold prefetcherLoad at h
  split at h
  · exact runPrefetcher_writes h
  · cases h
    exact .refl

theorem prefetcherPrefetch_writes {r : State ρ × Packet}
    (h : prefetcherPrefetch c env s = some r) :
    Writes c Z env.invalidated D s r.1 ∧ r.1.mshr = s.mshr := by
  unfold prefetcherPrefetch at h
  dsimp only at h
  split at h
  · obtain ⟨s₁, hs₁, rfl⟩ := Option.map_eq_some_iff.mp h
    exact ⟨runPrefetcher_writes hs₁, runPrefetcher_mshr hs₁⟩
  · cases h
    exact ⟨.refl, rfl⟩

theorem requestLower_writes (h0 : Z ∨ p.address ≠ 0) (hfresh : checkMshr c s p.address = none)
    (hroom : s.mshr.occupancy < c.mshrSize) (h : requestLower c env s p = some s') :
    Writes c Z env.invalidated D s s' := by
  unfold requestLower at h
  dsimp only at h
  have hadd : Writes c Z env.invalidated D s
      (addMshr c s { p with cycleEnqueued := env.currentCoreCycle p.cpu }) :=
    .one (.allocated s h0 hfresh hroom)
  split at h
  · refine (hadd.trans (call_writes _ rfl)).trans (answer_writes ?_ h)
    exact h0
  · split at h
    · have hlines : env.walkInvalidates ⊆ env.invalidated :=
        fun _ ha => List.mem_append.mpr (.inr ha)
      have hwalk := invalidateAll_writes (c := c) (Z := Z) (D := D) hlines
        (addMshr c s { p with cycleEnqueued := env.currentCoreCycle p.cpu })
      refine (hadd.trans hwalk).tail (.returned ?_ h)
      exact h0
    · cases h
      exact hadd

theorem Evicted.of_policy {policy : ρ} (h : Evicted c { s with policy := policy } s') :
    Evicted c s s' := ⟨h.block, h.mshr, h.sent⟩

theorem evict_evicted {set way : Nat} {r : Bool × State ρ} (hway : way < c.numWay)
    (h : evict c env s set way p = some r) : Evicted c s r.2 := by
  unfold evict at h
  dsimp only at h
  split at h
  · rename_i hd
    split at h
    · split at h
      · cases h
        exact ⟨rfl, rfl, .inl (sent_call rfl)⟩
      · cases h
        refine ⟨rfl, rfl, .inr ⟨set, way, hway, hd, ?_⟩⟩
        simp [State.sent, State.call, Call.writeback?]
    · split at h
      · cases h
      · cases h
        exact .refl s
  · cases h
    exact .refl s

theorem fillCache_valid {set way : Nat} (h : fillCache c s set way p = some s') :
    (s'.block set way).valid = true ∧ s'.mshr = s.mshr := by
  unfold fillCache at h
  split at h
  · cases h
  · cases h
    exact ⟨by simp [State.setBlock], rfl⟩

theorem fillBlock_writes {set way : Nat} {r : State ρ × Packet}
    (h : fillBlock P env s set way p = some r) :
    Writes c Z env.invalidated D s r.1 ∧ r.1.mshr = s.mshr ∧ (r.1.block set way).valid = true := by
  obtain ⟨⟨s₁, q⟩, hs₁, h⟩ := Option.bind_eq_some_iff.mp h
  obtain ⟨s₂, hs₂, rfl⟩ := Option.map_eq_some_iff.mp h
  obtain ⟨h₁, hmshr₁⟩ := prefetcherFill_writes hs₁
  obtain ⟨hvalid, hmshr₂⟩ := fillCache_valid hs₂
  refine ⟨(h₁.trans (updateReplacement_writes _ _ _ _ _ _ _)).tail (.filled hs₂), ?_, hvalid⟩
  rw [hmshr₂]
  exact hmshr₁

theorem deliver_arrays (h : deliver c s p = some s') : s'.block = s.block ∧ s'.mshr = s.mshr := by
  have hprocess : ∀ {s'}, process s p = some s' → s'.block = s.block ∧ s'.mshr = s.mshr := by
    intro s' h
    unfold process at h
    split at h
    · obtain ⟨q, -, rfl⟩ := Option.map_eq_some_iff.mp h
      exact ⟨rfl, rfl⟩
    · cases h
      exact ⟨rfl, rfl⟩
  unfold deliver at h
  split at h
  · exact hprocess h
  · exact hprocess h
  · exact hprocess h
  · split at h
    · cases h
      exact ⟨rfl, rfl⟩
    · exact hprocess h
  · cases h
    exact ⟨rfl, rfl⟩

end Parts

/-! ## The handlers -/

section Handlers

variable {A : List Nat} {Z D : Prop} {P : Policy c ρ} {env : Env} {s s' : State ρ} {p : Packet}

/-- The entry that a fill serves. -/
structure Filling (c : Config) (s : State ρ) (i : Nat) : Prop where
  next : i = s.mshr.nextFillIndex
  lt : i < c.mshrSize
  address : (s.mshr.entry i).address ≠ 0

theorem Filling.removed {i : Nat} (h : Filling c s i) {t : State ρ} (ht : t.mshr = s.mshr)
    (hs' : removeMshr c t i = some s') : Write c Z A D t s' := by
  obtain ⟨rfl, hi, h0⟩ := h
  refine .removed (by rw [ht]; exact hi) (by rw [ht]; exact h0) ?_
  rw [ht]
  exact hs'

theorem fill_writes {i set way : Nat} (hi : Filling c s i)
    (h : fill P env s i set way p = some s') : WriteMark c Z env.invalidated s s' := by
  obtain ⟨⟨s₁, q⟩, hs₁, h⟩ := Option.bind_eq_some_iff.mp h
  obtain ⟨s₃, hs₃, h⟩ := Option.bind_eq_some_iff.mp h
  obtain ⟨h₁, hmshr₁, hvalid⟩ := fillBlock_writes (Z := Z) (D := False) hs₁
  have h₂ : Writes c Z [] True s₁
      (if c.cacheType = .l1d ∧ q.type = .rfo then markDirty s₁ set way else s₁) ∧
      (if c.cacheType = .l1d ∧ q.type = .rfo then markDirty s₁ set way else s₁).mshr =
        s₁.mshr := by
    split
    · exact ⟨.one (.dirtied s₁ trivial hvalid), rfl⟩
    · exact ⟨.refl, rfl⟩
  generalize (if c.cacheType = .l1d ∧ q.type = .rfo then markDirty s₁ set way else s₁) = s₂
    at h₂ hs₃
  have hmshr₃ : s₃.mshr = s.mshr := by
    rw [(deliver_arrays hs₃).2, returnUpper_mshr, h₂.2]
    exact hmshr₁
  have h₃ := (h₂.1.trans (returnUpper_writes s₂ q.cpu q)).trans (deliver_writes hs₃)
  exact ⟨s₁, h₁, h₃.tail (hi.removed hmshr₃ h)⟩

theorem handleFill_writes (hshape : Shape c s) (h : handleFill P env s = some s') :
    EvictWrite c Z env.invalidated s s' := by
  unfold handleFill at h
  dsimp only at h
  split at h
  · cases h
    exact Writes.evictWrite .refl
  · rename_i hfree
    split at h
    · split at h
      · cases h
      · rename_i hsize
        rw [hshape.mshr.size_eq] at hsize
        have hi : Filling c s s.mshr.nextFillIndex := by
          refine ⟨rfl, by omega, fun h0 => hfree (.inr ?_)⟩
          exact (hshape.mshr.free _ (by omega) h0).1
        obtain ⟨⟨way, s₀⟩, hvictim, h⟩ := Option.bind_eq_some_iff.mp h
        obtain ⟨hle, policy, rfl⟩ := findVictim_some hvictim
        split at h
        · have hsearch : Writes c Z env.invalidated False s { s with policy := policy } :=
            .one (.kept (fun _ _ => rfl) rfl rfl)
          refine Writes.evictWrite ((hsearch.trans (updateReplacement_writes (P := P) _ _ way _ _ 0
            false)).trans ((returnUpper_writes _ _ _).tail (hi.removed ?_ h)))
          rw [returnUpper_mshr]
          rfl
        · rename_i hbypass
          have hlt : way < c.numWay := hle.resolve_right fun hw => hbypass hw.symm
          obtain ⟨⟨doFill, s₁⟩, hs₁, h⟩ := Option.bind_eq_some_iff.mp h
          have h₁ := (evict_evicted hlt hs₁).of_policy
          cases doFill with
          | false =>
            cases h
            exact ⟨_, h₁, .refl _⟩
          | true =>
            have hi₁ : Filling c s₁ s.mshr.nextFillIndex :=
              ⟨by rw [h₁.mshr], hi.lt, by rw [h₁.mshr]; exact hi.address⟩
            exact ⟨s₁, h₁, fill_writes hi₁ h⟩
    · cases h
      exact Writes.evictWrite .refl

theorem upgrade_cycles (p e : Packet) :
    (upgrade p e).returned = e.returned ∧ (upgrade p e).eventCycle = e.eventCycle := by
  unfold upgrade
  split <;> exact ⟨rfl, rfl⟩

theorem mergeConsumers_cycles (p e : Packet) :
    (mergeConsumers p e).returned = e.returned ∧
      (mergeConsumers p e).eventCycle = e.eventCycle := by
  unfold mergeConsumers
  split
  · dsimp only
    split <;> split <;> exact ⟨rfl, rfl⟩
  · split
    · dsimp only
      split <;> exact ⟨rfl, rfl⟩
    · dsimp only
      split <;> exact ⟨rfl, rfl⟩

theorem mergeRead_cycles (p e : Packet) :
    (mergeRead p e).returned = e.returned ∧ (mergeRead p e).eventCycle = e.eventCycle := by
  obtain ⟨hr, ht⟩ := upgrade_cycles p (mergeFill p (mergeConsumers p e))
  obtain ⟨hr', ht'⟩ := mergeConsumers_cycles p e
  exact ⟨hr.trans hr', ht.trans ht'⟩

theorem mergeWriteback_cycles (p e : Packet) :
    (mergeWriteback p e).returned = e.returned ∧
      (mergeWriteback p e).eventCycle = e.eventCycle :=
  upgrade_cycles p (mergeFill p e)

theorem mergeMshr_writes {merge : Packet → Packet → Packet} {i : Nat}
    (haddress : ∀ e : Packet, e.address = p.address → (merge p e).address = p.address)
    (hreturned : ∀ e, (merge p e).returned = e.returned ∧ (merge p e).eventCycle = e.eventCycle)
    (hi : checkMshr c s p.address = some i) : Writes c Z A D s (mergeMshr s i merge p) := by
  obtain ⟨hlt, ha⟩ := checkMshr_some hi
  obtain ⟨hr, ht⟩ := hreturned (s.mshr.entry i)
  exact .one (.merged s hlt ((haddress _ ha).trans ha.symm) hr ht)

theorem writeHit_writes {way : Nat} (hhit : checkHit c s p.address = some way)
    (h : writeHit P s way p = some s') : WriteMark c Z A s s' := by
  unfold writeHit at h
  dsimp only at h
  have hupdate := updateReplacement_writes (P := P) (Z := Z) (A := A) (D := False) s
    (c.getSet p.address) way p (s.block (c.getSet p.address) way).fullAddr 0 true
  have hvalid : ((updateReplacement P s (c.getSet p.address) way p
      (s.block (c.getSet p.address) way).fullAddr 0 true).block (c.getSet p.address) way).valid =
      true := by
    have hline := congrFun (congrFun (congrArg View.line (view_updateReplacement P s
      (c.getSet p.address) way p (s.block (c.getSet p.address) way).fullAddr 0 true))
      (c.getSet p.address)) way
    exact (congrArg Line.valid hline).trans (checkHit_some hhit).2.1
  have hdirty := Writes.one (.dirtied (c := c) (Z := Z) (A := []) _ trivial hvalid)
  exact ⟨_, hupdate, (hdirty.trans (returnUpper_writes _ _ _)).trans (popWq_writes h)⟩

theorem storeMiss_writes (h0 : Z ∨ p.address ≠ 0) (h : storeMiss c env s p = some s') :
    Writes c Z env.invalidated D s s' := by
  unfold storeMiss at h
  split at h
  · rename_i hfresh
    split at h
    · rename_i hroom
      obtain ⟨s₁, hs₁, h⟩ := Option.bind_eq_some_iff.mp h
      exact (requestLower_writes h0 hfresh hroom hs₁).trans (popWq_writes h)
    · split at h
      · cases h
        exact .refl
      · cases h
  · rename_i i hi
    exact (mergeMshr_writes (fun _ => mergeWriteback_address) (mergeWriteback_cycles p) hi).trans
      (popWq_writes h)

theorem install_writes (h : install P env s p = some s') :
    EvictWrite c Z env.invalidated s s' := by
  obtain ⟨⟨way, s₀⟩, hvictim, h⟩ := Option.bind_eq_some_iff.mp h
  obtain ⟨hle, policy, rfl⟩ := findVictim_some hvictim
  dsimp only at h
  split at h
  · cases h
  · rename_i hbypass
    have hlt : way < c.numWay := hle.resolve_right fun hw => hbypass hw.symm
    obtain ⟨⟨doFill, s₁⟩, hs₁, h⟩ := Option.bind_eq_some_iff.mp h
    have h₁ := (evict_evicted hlt hs₁).of_policy
    cases doFill with
    | false =>
      cases h
      exact ⟨_, h₁, .refl _⟩
    | true =>
      obtain ⟨⟨s₂, q⟩, hs₂, h⟩ := Option.bind_eq_some_iff.mp h
      obtain ⟨h₂, -, hvalid⟩ := fillBlock_writes hs₂
      have hdirty := Writes.one (.dirtied (c := c) (Z := Z) (A := []) s₂ trivial hvalid)
      exact ⟨s₁, h₁, s₂, h₂, (hdirty.trans (returnUpper_writes _ _ _)).trans (popWq_writes h)⟩

theorem handleWriteback_writes (hshape : Shape c s) (hwq : ∀ q ∈ s.wq.contents, Z ∨ q.address ≠ 0)
    (h : handleWriteback P env s = some s') : EvictWrite c Z env.invalidated s s' := by
  unfold handleWriteback at h
  split at h
  · rename_i hready
    obtain ⟨rest, hhead⟩ := head_contents hshape.wq hready.2.2
    have h0 := hwq _ (hhead ▸ List.mem_cons_self)
    dsimp only at h
    split at h
    · rename_i way hhit
      exact (writeHit_writes hhit h).evictWrite
    · split at h
      · exact Writes.evictWrite (storeMiss_writes h0 h)
      · exact install_writes h
  · cases h
    exact Writes.evictWrite .refl

theorem readHit_writes {way : Nat} (h : readHit P env s way p = some s') :
    Writes c Z env.invalidated D s s' := by
  unfold readHit at h
  dsimp only at h
  generalize withData c p (s.block (c.getSet p.address) way).data = q at h
  obtain ⟨s₁, hs₁, h⟩ := Option.bind_eq_some_iff.mp h
  obtain ⟨s₂, hs₂, h⟩ := Option.bind_eq_some_iff.mp h
  have h₂ := (deliver_writes (Z := Z) (D := D) hs₁).trans (prefetcherLoad_writes hs₂)
  have h₃ := (h₂.trans (updateReplacement_writes (P := P) s₂ (c.getSet p.address) way q
    (s₂.block (c.getSet p.address) way).fullAddr 0 true)).trans (returnUpper_writes _ q.cpu q)
  refine Relation.ReflTransGen.trans ?_ (popRq_writes h)
  refine h₃.tail (.kept (fun i j => ?_) rfl rfl)
  by_cases hi : i = c.getSet p.address
  · subst hi
    by_cases hj : j = way
    · simp [State.setBlock, hj, Block.line]
    · simp [State.setBlock, hj]
  · simp [State.setBlock, hi]

theorem readMiss_writes {r : Bool × State ρ} (h0 : Z ∨ p.address ≠ 0)
    (h : readMiss c env s p = some r) : Writes c Z env.invalidated D s r.2 := by
  unfold readMiss at h
  split at h
  · rename_i hfresh
    split at h
    · rename_i hroom
      split at h
      · cases h
        exact .refl
      · obtain ⟨s₁, hs₁, rfl⟩ := Option.map_eq_some_iff.mp h
        exact requestLower_writes h0 hfresh hroom hs₁
    · split at h
      · cases h
        exact .refl
      · cases h
  · rename_i i hi
    cases h
    exact mergeMshr_writes (fun _ => mergeRead_address) (mergeRead_cycles p) hi

theorem readOne_writes (hshape : Shape c s) (hready : Ready c env s.rq)
    (h : readOne P env s = some s') : Writes c Z env.invalidated D s s' := by
  obtain ⟨rest, hhead⟩ := head_contents hshape.rq hready.2.2
  have h0 : Z ∨ _ := .inr (hshape.rqLive _ (hhead ▸ List.mem_cons_self))
  unfold readOne at h
  dsimp only at h
  split at h
  · exact readHit_writes h
  · obtain ⟨⟨handled, s₁⟩, hs₁, h⟩ := Option.bind_eq_some_iff.mp h
    have h₁ := readMiss_writes (Z := Z) (D := D) h0 hs₁
    cases handled with
    | false =>
      cases h
      exact h₁
    | true =>
      obtain ⟨s₂, hs₂, h⟩ := Option.bind_eq_some_iff.mp h
      exact (h₁.trans (prefetcherLoad_writes hs₂)).trans (popRq_writes h)

theorem prefetchHit_writes {way : Nat} (h : prefetchHit P env s way p = some s') :
    Writes c Z env.invalidated D s s' := by
  obtain ⟨⟨s₁, q⟩, hs₁, h⟩ := Option.bind_eq_some_iff.mp h
  exact (((updateReplacement_writes _ _ _ _ _ _ _).trans (prefetcherPrefetch_writes hs₁).1).trans
    (returnUpper_writes _ _ _)).trans (popPq_writes h)

theorem forwardPrefetch_writes (hshape : Shape c s) {rest : List Packet}
    (hp : s.pq.contents = p :: rest) (h0 : Z ∨ p.address ≠ 0)
    (hfresh : checkMshr c s p.address = none) (hroom : s.mshr.occupancy < c.mshrSize)
    (h : forwardPrefetch c env s = some s') : Writes c Z env.invalidated D s s' := by
  obtain ⟨⟨s₁, q⟩, hs₁, h⟩ := Option.bind_eq_some_iff.mp h
  obtain ⟨-, -, p', rest', -, hq, ha⟩ :=
    (prefetcherPrefetch_does (I := True) hshape (fun _ => trivial) hp).of_eq hs₁
  obtain ⟨h₁, hmshr⟩ := prefetcherPrefetch_writes hs₁
  dsimp only at h₁ hmshr hq h
  have hqa : q.address = p.address := hq.address.trans ha
  by_cases hfills : q.fillLevel ≤ c.fillLevel
  · simp only [hfills, if_true] at h
    have hadd : Writes c Z env.invalidated D s₁
        (addMshr c s₁ { q with cycleEnqueued := env.currentCoreCycle q.cpu }) := by
      refine .one (.allocated s₁ (by rw [hqa]; exact h0) ?_ (by rw [hmshr]; exact hroom))
      unfold checkMshr at hfresh ⊢
      rw [hmshr, hqa]
      exact hfresh
    refine ((h₁.trans hadd).trans (call_writes _ ?_)).trans (answer_writes ?_ h)
    · split <;> rfl
    · rw [← hqa] at h0
      exact h0
  · simp only [hfills, if_false] at h
    refine (h₁.trans (call_writes _ ?_)).trans (answer_writes ?_ h)
    · split <;> rfl
    · rw [← hqa] at h0
      exact h0

theorem prefetchOne_writes (hshape : Shape c s) (hready : Ready c env s.pq)
    (h : prefetchOne P env s = some s') : Writes c Z env.invalidated D s s' := by
  obtain ⟨rest, hhead⟩ := head_contents hshape.pq hready.2.2
  have h0 : Z ∨ _ := .inr (hshape.pqLive _ (hhead ▸ List.mem_cons_self))
  unfold prefetchOne at h
  dsimp only at h
  split at h
  · exact prefetchHit_writes h
  · obtain ⟨⟨handled, s₁⟩, hs₁, h⟩ := Option.bind_eq_some_iff.mp h
    have h₁ : Writes c Z env.invalidated D s s₁ := by
      unfold prefetchMiss at hs₁
      split at hs₁
      · rename_i hfresh
        split at hs₁
        · rename_i hroom
          split at hs₁
          · generalize (if c.cacheType = .llc then env.lowerRqFull _ else env.lowerPqFull _) = full
              at hs₁
            cases full with
            | true =>
              cases hs₁
              exact .refl
            | false =>
              obtain ⟨s₂, hs₂, heq⟩ := Option.map_eq_some_iff.mp hs₁
              cases heq
              exact forwardPrefetch_writes hshape hhead h0 hfresh hroom hs₂
          · cases hs₁
            exact .refl
        · split at hs₁
          · cases hs₁
            exact .refl
          · cases hs₁
      · rename_i i hi
        cases hs₁
        exact mergeMshr_writes (fun _ he => he) (fun _ => ⟨rfl, rfl⟩) hi
    cases handled with
    | false =>
      cases h
      exact h₁
    | true => exact h₁.trans (popPq_writes h)

theorem serveLoop_writes {queue : State ρ → PacketQueue}
    {one : Env → State ρ → Option (State ρ)} {E : Nat → Env}
    (hA : ∀ k < c.maxRead, (E k).invalidated ⊆ A)
    (hone : ∀ {env s s'}, Shape c s → Ready c env (queue s) → one env s = some s' →
      Shape c s' ∧ Writes c Z env.invalidated D s s')
    {n : Nat} (hn : n ≤ c.maxRead) (hshape : Shape c s)
    (h : serveLoop queue one c E n s = some s') : Writes c Z A D s s' := by
  induction n generalizing s with
  | zero =>
    cases h
    exact .refl
  | succ n ih =>
    unfold serveLoop at h
    dsimp only at h
    split at h
    · rename_i hready
      obtain ⟨s₁, hs₁, h⟩ := Option.bind_eq_some_iff.mp h
      obtain ⟨h₁, hw⟩ := hone hshape hready hs₁
      have hw := hw.mono (hA (c.maxRead - (n + 1)) (by omega))
      split at h
      · cases h
        exact hw
      · exact hw.trans (ih (by omega) h₁ h)
    · cases h
      exact .refl

theorem handleRead_writes {E : Nat → Env} (hA : ∀ k < c.maxRead, (E k).invalidated ⊆ A)
    (hshape : Shape c s) (h : handleRead P E s = some s') : Writes c Z A D s s' := by
  refine serveLoop_writes hA (fun hs hready h => ?_) le_rfl hshape h
  exact ⟨((readOne_does (R := Rules.any) hs (fun _ => trivial) hready).of_eq h).1,
    readOne_writes hs hready h⟩

theorem handlePrefetch_writes {E : Nat → Env} (hA : ∀ k < c.maxRead, (E k).invalidated ⊆ A)
    (hshape : Shape c s) (h : handlePrefetch P E s = some s') : Writes c Z A D s s' := by
  refine serveLoop_writes hA (fun hs hready h => ?_) le_rfl hshape h
  exact ⟨((prefetchOne_does (R := Rules.any) hs (fun _ => trivial) hready).of_eq h).1,
    prefetchOne_writes hs hready h⟩

end Handlers

/-! ## Acts -/

/-- The lines that an act names. A cycle is taken handler by handler. -/
def Act.invalidated (c : Config) : Act → List Nat
  | .call (.prefetch _ k) => k.invalidated
  | .call (.invalidateEntry address) => [address]
  | .call (.addRq ..) | .call (.addWq ..) | .call (.addPq ..) | .call (.returnData ..)
  | .call (.operate _) | .call .complete => []
  | .fill env | .writeback env => env.invalidated
  | .read E | .prefetch E => (List.range c.maxRead).flatMap fun k => (E k).invalidated

/-- The act is not a whole cycle. -/
def Act.Single : Act → Prop
  | .call (.operate _) => False
  | .call (.addRq ..) | .call (.addWq ..) | .call (.addPq ..) | .call (.returnData ..)
  | .call (.prefetch ..) | .call (.invalidateEntry _) | .call .complete | .fill _ | .writeback _
  | .read _ | .prefetch _ => True

instance Act.decidableSingle (b : Act) : Decidable b.Single :=
  match b with
  | .call (.operate _) => inferInstanceAs (Decidable False)
  | .call (.addRq ..) | .call (.addWq ..) | .call (.addPq ..) | .call (.returnData ..)
  | .call (.prefetch ..) | .call (.invalidateEntry _) | .call .complete | .fill _ | .writeback _
  | .read _ | .prefetch _ => inferInstanceAs (Decidable True)

/-- No packet comes with address 0. -/
def Act.NonZero : Act → Prop
  | .call (.addRq _ p) | .call (.addWq _ p) | .call (.addPq _ p) | .call (.returnData _ p) =>
    p.address ≠ 0
  | .call (.operate _) | .call (.prefetch ..) | .call (.invalidateEntry _) | .call .complete
  | .fill _ | .writeback _ | .read _ | .prefetch _ => True

/-- The queues are in shape, and no write-back waits with address 0 unless `Z`. -/
structure Sound (c : Config) (Z : Prop) (s : State ρ) : Prop where
  shape : Shape c s
  wq : ∀ p ∈ s.wq.contents, Z ∨ p.address ≠ 0

section Acts

variable {Z : Prop} {P : Policy c ρ} {s s' : State ρ} {b : Act}

theorem act_writes (hs : Sound c Z s) (hb : b.Single) (h0 : Z ∨ b.NonZero)
    (h : act P s b = some s') :
    EvictWrite c Z (b.invalidated c) s s' := by
  have hround : ∀ {E : Nat → Env} (k), k < c.maxRead →
      (E k).invalidated ⊆ (List.range c.maxRead).flatMap fun k => (E k).invalidated :=
    fun k hk _ ha => List.mem_flatMap.mpr ⟨k, List.mem_range.mpr hk, ha⟩
  cases b with
  | call o =>
    refine Writes.evictWrite ?_
    cases o with
    | addRq env p =>
      obtain ⟨r, hr, rfl⟩ := Option.map_eq_some_iff.mp h
      exact addRq_writes hr
    | addWq env p =>
      obtain ⟨r, hr, rfl⟩ := Option.map_eq_some_iff.mp h
      exact addWq_writes hr
    | addPq env p =>
      obtain ⟨r, hr, rfl⟩ := Option.map_eq_some_iff.mp h
      exact addPq_writes hr
    | prefetch env k => exact runCallback_writes (fun _ ha => ha) h
    | returnData env p => exact .one (.returned h0 h)
    | operate E => cases hb
    | invalidateEntry a =>
      cases h
      exact .one (.invalidated s (List.mem_singleton.mpr rfl))
    | complete =>
      obtain ⟨q, -, rfl⟩ := Option.map_eq_some_iff.mp h
      exact .kept rfl rfl rfl
  | fill env => exact handleFill_writes hs.shape h
  | writeback env => exact handleWriteback_writes hs.shape hs.wq h
  | read E =>
    have hstart : Writes c Z ((Act.read E).invalidated c) False s
        { s with readsAvailable := c.maxRead } := .kept rfl rfl rfl
    exact Writes.evictWrite (hstart.trans (handleRead_writes hround
      (hs.shape.of_rings rfl rfl rfl rfl rfl) h))
  | prefetch E => exact Writes.evictWrite (handlePrefetch_writes hround hs.shape h)

theorem wq_step {R : Rules} {v v' : View} (h : Step c R v v') : v'.wq ⊆ v.wq := by
  have hdeliver : ∀ (w : View) (room : Bool) (q : Packet), (w.deliver c room q).wq = w.wq := by
    intro w room q
    unfold View.deliver
    split
    · split <;> rfl
    · rfl
  cases h with
  | callback h => rw [h.undisturbed.wq]; exact fun _ hp => hp
  | filled room =>
    rw [hdeliver]
    exact fun _ hp => hp
  | readHit room =>
    rw [hdeliver]
    exact fun _ hp => hp
  | answered | bypassed | readAllocated | readMerged | prefetchAllocated | prefetchMerged
  | prefetchDone => exact fun _ hp => hp
  | writeHit hp | storeAllocated hp | storeMerged hp | storeLost hp | installed hp =>
    exact fun _ hq => hp ▸ List.mem_cons_of_mem _ hq

theorem wq_steps {R : Rules} {v v' : View} (h : Steps c R v v') : v'.wq ⊆ v.wq := by
  induction h with
  | refl => exact fun _ hp => hp
  | tail _ hs ih => exact fun _ hp => ih (wq_step hs hp)

theorem sound_init (P : Policy c ρ) : Sound c Z (State.init P) :=
  ⟨shape_init P, fun _ hp => nomatch hp⟩

theorem sound_act (hs : Sound c Z s) (hb : b.Single) (h0 : Z ∨ b.NonZero)
    (h : act P s b = some s') : Sound c Z s' := by
  have hsteps : ∀ {t t' : State ρ}, t.wq = s.wq → Shape c t' →
      Steps c Rules.any (view c t) (view c t') → Sound c Z t' := by
    intro t t' ht hshape hsteps
    refine ⟨hshape, fun p hp => hs.wq p ?_⟩
    have hmem : p ∈ t.wq.contents := wq_steps hsteps hp
    rwa [ht] at hmem
  cases b with
  | call o =>
    cases o with
    | operate E => cases hb
    | addWq env p =>
      obtain ⟨r, hr, rfl⟩ := Option.map_eq_some_iff.mp h
      obtain ⟨hshape, hv⟩ := (addWq_does hs.shape).of_eq hr
      refine ⟨hshape, fun q hq => ?_⟩
      change q ∈ (view c r.2).wq at hq
      rcases hv with hv | ⟨t, hv⟩
      · rw [hv] at hq
        exact hs.wq q hq
      · rw [hv] at hq
        rcases List.mem_append.mp hq with hq | hq
        · exact hs.wq q hq
        · rw [List.mem_singleton.mp hq]
          exact h0
    | addRq env p =>
      obtain ⟨r, hr, rfl⟩ := Option.map_eq_some_iff.mp h
      obtain ⟨hshape, he⟩ := (addRq_does hs.shape).of_eq hr
      refine ⟨hshape, fun q hq => hs.wq q ?_⟩
      change q ∈ (view c r.2).wq at hq
      generalize view c r.2 = v' at he hq
      generalize r.1 = a at he
      cases he with
      | forwarded =>
        unfold View.deliver at hq
        split at hq
        · split at hq <;> exact hq
        · exact hq
      | merged | full | added => exact hq
    | addPq env p =>
      obtain ⟨r, hr, rfl⟩ := Option.map_eq_some_iff.mp h
      obtain ⟨hshape, he⟩ := (addPq_does hs.shape).of_eq hr
      refine ⟨hshape, fun q hq => hs.wq q ?_⟩
      change q ∈ (view c r.2).wq at hq
      generalize view c r.2 = v' at he hq
      cases he with
      | same | merged | added => exact hq
    | prefetch env k =>
      obtain ⟨hshape, hv⟩ := (runCallback_does (I := True) hs.shape fun _ => trivial).of_eq h
      exact hsteps rfl hshape (CallbackSteps.steps hv)
    | returnData env p =>
      obtain ⟨hshape, hv⟩ := (returnData_does (I := True) hs.shape).of_eq h
      exact hsteps rfl hshape (Quiet.steps hv)
    | invalidateEntry a =>
      cases h
      obtain ⟨hshape, hv⟩ := invalidateEntry_does (I := True) hs.shape trivial a
      exact hsteps rfl hshape (CallbackSteps.steps hv)
    | complete =>
      obtain ⟨hshape, p, -, hv⟩ := (complete_does (P := P) (R := Rules.any) hs.shape).of_eq h
      refine ⟨hshape, fun q hq => hs.wq q ?_⟩
      change q ∈ (view c s').wq at hq
      rw [hv] at hq
      exact hq
  | fill env =>
    obtain ⟨hshape, hv⟩ := (handleFill_does (R := Rules.any) hs.shape fun _ => trivial).of_eq h
    exact hsteps rfl hshape hv
  | writeback env =>
    obtain ⟨hshape, hv⟩ := (handleWriteback_does (R := Rules.any) hs.shape (fun _ => trivial)
      (obeys_any P env s)).of_eq h
    exact hsteps rfl hshape hv
  | read E =>
    have h' : Shape c { s with readsAvailable := c.maxRead } :=
      hs.shape.of_rings rfl rfl rfl rfl rfl
    obtain ⟨hshape, hv⟩ := (handleRead_does (R := Rules.any) (fun _ _ => trivial) h').of_eq h
    exact hsteps rfl hshape hv
  | prefetch E =>
    obtain ⟨hshape, hv⟩ :=
      (handlePrefetch_does (R := Rules.any) (fun _ _ => trivial) hs.shape).of_eq h
    exact hsteps rfl hshape hv

end Acts

end Cache
end ChampSim
