import ChampSim.Replacement.Rrip

/-!
# ChampSim.Replacement.Victims

The victims of the RRIP policies.

* `InRange r`      — the values of the ways are at most `maxRrpv`; every call keeps it.
* `Searched`       — what `llc_find_victim` answers, and what it leaves behind.
* `Drrip.Counted`  — the two counters of DRRIP are in range.
* `Ship.Ranked`    — the `lru` values of a sampler set are a permutation, so that one is the last.
* `rrip_searches`  — the searches of the three policies, after every run.
-/

namespace ChampSim
namespace Replacement

open Lib

def InRange (rrpv : Nat → Nat → Nat) : Prop := ∀ set, ∀ way < llcWay, rrpv set way ≤ maxRrpv

theorem InRange.setRrpv {rrpv : Nat → Nat → Nat} (h : InRange rrpv) (set way : Nat) {v : Nat}
    (hv : v ≤ maxRrpv) : InRange (Replacement.setRrpv rrpv set way v) := by
  intro set' way' hway
  unfold Replacement.setRrpv
  by_cases hset : set' = set
  · subst hset
    rw [Function.update_self]
    by_cases heq : way' = way
    · subst heq
      rwa [Function.update_self]
    · rw [Function.update_of_ne heq]
      exact h set' way' hway
  · rw [Function.update_of_ne hset]
    exact h set' way' hway

namespace Rrip

variable {σ : Type} {P : Rrip σ} {s s' : σ} {set way fuel : Nat}

/-- The search, from a state whose values are in range. -/
theorem llcFindVictim_eq (h : InRange (P.rrpv s)) (ho : Aging.Oldest llcWay (P.rrpv s set) way)
    (hfuel : maxRrpv < fuel) :
    P.llcFindVictim fuel s set = some (way, P.withRrpv s (Function.update (P.rrpv s) set
      (Aging.aged llcWay (maxRrpv - P.rrpv s set way) (P.rrpv s set)))) := by
  unfold llcFindVictim
  rw [Aging.search_eq fuel ho (h set way ho.lt) (by omega)]
  rfl

/-- A way that has the last value is found at once. -/
theorem llcFindVictim_last (ho : Aging.Oldest llcWay (P.rrpv s set) way)
    (hlast : P.rrpv s set way = maxRrpv) (hfuel : 0 < fuel) :
    P.llcFindVictim fuel s set = some (way, s) := by
  unfold llcFindVictim
  rw [Aging.search_eq fuel ho (Nat.le_of_eq hlast) (by omega), hlast, Nat.sub_self,
    Aging.aged_zero, Option.map_some]
  show some (way, P.withRrpv s (Function.update (P.rrpv s) set (P.rrpv s set))) = _
  rw [Function.update_eq_self, P.withRrpv_rrpv]

/-- The answer `way` of `llc_find_victim`, and the state after it. -/
structure Searched (P : Rrip σ) (s : σ) (set way : Nat) (s' : σ) : Prop where
  oldest : Aging.Oldest llcWay (P.rrpv s set) way
  terminates : ∀ fuel > maxRrpv, P.llcFindVictim fuel s set = some (way, s')
  again : ∀ fuel > maxRrpv, P.llcFindVictim fuel s' set = some (way, s')
  order : ∀ u < llcWay, ∀ v < llcWay,
    (P.rrpv s' set u < P.rrpv s' set v ↔ P.rrpv s set u < P.rrpv s set v)
  last : P.rrpv s' set way = maxRrpv
  others : ∀ set' ≠ set, P.rrpv s' set' = P.rrpv s set'
  inRange : InRange (P.rrpv s')

theorem searched (h : InRange (P.rrpv s)) (set : Nat) : ∃ way s', Searched P s set way s' := by
  obtain ⟨way, ho⟩ := Aging.exists_oldest (show 0 < llcWay by decide) (P.rrpv s set)
  have hle := h set way ho.lt
  have hset := P.rrpv_withRrpv s (Function.update (P.rrpv s) set
    (Aging.aged llcWay (maxRrpv - P.rrpv s set way) (P.rrpv s set)))
  have hlast : P.rrpv (P.withRrpv s (Function.update (P.rrpv s) set
      (Aging.aged llcWay (maxRrpv - P.rrpv s set way) (P.rrpv s set)))) set way = maxRrpv := by
    rw [hset, Function.update_self, Aging.aged_of_lt ho.lt]
    omega
  refine ⟨way, _, ho, fun fuel hfuel => llcFindVictim_eq h ho hfuel, fun fuel hfuel => ?_, ?_,
    hlast, ?_, ?_⟩
  · refine llcFindVictim_last ?_ hlast (by omega)
    rw [hset, Function.update_self]
    exact ho.aged _
  · intro u hu v hv
    rw [hset, Function.update_self]
    exact Aging.aged_lt_iff hu hv
  · intro set' hne
    rw [hset, Function.update_of_ne hne]
  · intro set' v hv
    rw [hset]
    by_cases heq : set' = set
    · subst heq
      have hmax := ho.largest v hv
      rw [Function.update_self, Aging.aged_of_lt hv]
      omega
    · rw [Function.update_of_ne heq]
      exact h set' v hv

theorem step_inRange {k : Call} (h : InRange (P.rrpv s)) (hs : P.step s k = some s') :
    InRange (P.rrpv s') := by
  cases k with
  | llcFindVictim set =>
    obtain ⟨way, s₁, hfound⟩ := searched h set
    have hrun : P.step s (.llcFindVictim set) = some s₁ :=
      congrArg (Option.map Prod.snd) (hfound.terminates (maxRrpv + 1) (by decide))
    obtain rfl : s₁ = s' := Option.some.inj (hrun.symm.trans hs)
    exact hfound.inRange
  | llcUpdateReplacementState a =>
    rcases P.updates hs with heq | ⟨v, hv, heq⟩
    · rw [heq]
      exact h
    · rw [heq]
      exact h.setRrpv _ _ hv

theorem run_inRange {calls : List Call} (h : run P.step P.init calls = some s) :
    InRange (P.rrpv s) := by
  refine run_invariant (I := fun s => InRange (P.rrpv s)) (P := fun _ _ => True)
    (fun s k s' hI _ hs => step_inRange hI hs) (fun set way _ => (P.rrpv_init set way).le)
    (along_of_forall (fun _ _ => trivial) _) h

/-- The only call that fails is an update for a write-back with an `ip`. -/
def Total (P : Rrip σ) (s : σ) : Prop :=
  ∀ k, P.step s k = none →
    ∃ a, k = .llcUpdateReplacementState a ∧ a.type = .writeback ∧ a.ip ≠ 0

theorem total_of_update (h : InRange (P.rrpv s))
    (hupdate : ∀ a, P.llcUpdateReplacementState a s = none → a.type = .writeback ∧ a.ip ≠ 0) :
    P.Total s := by
  intro k hs
  cases k with
  | llcFindVictim set =>
    obtain ⟨way, s₁, hfound⟩ := searched h set
    have hrun : P.step s (.llcFindVictim set) = some s₁ :=
      congrArg (Option.map Prod.snd) (hfound.terminates (maxRrpv + 1) (by decide))
    rw [hrun] at hs
    cases hs
  | llcUpdateReplacementState a => exact ⟨a, rfl, hupdate a hs⟩

/-- The state of a policy after any run. -/
structure Searches (P : Rrip σ) (s : σ) : Prop where
  inRange : InRange (P.rrpv s)
  search : ∀ set, ∃ way s', Searched P s set way s'
  total : P.Total s

end Rrip

/-! ## SRRIP -/

theorem Srrip.update_none {a : Access} {s : Srrip} (h : llcUpdateReplacementState a s = none) :
    a.type = .writeback ∧ a.ip ≠ 0 := by
  unfold llcUpdateReplacementState at h
  split at h
  · assumption
  · cases h

/-! ## DRRIP -/

namespace Drrip

variable {randSets : Nat → Nat} {a : Access} {s s' : Drrip}

structure Counted (s : Drrip) : Prop where
  psel : ∀ cpu, s.psel cpu ≤ pselMax
  bipCounter : s.bipCounter < bipMax

theorem bip_lt {counter : Nat} (h : counter < bipMax) : (bip counter).2 < bipMax := by
  show (if counter + 1 = bipMax then 0 else counter + 1) < bipMax
  split
  · decide
  · omega

theorem psel_update {psel : Nat → Nat} (h : ∀ cpu, psel cpu ≤ pselMax) (cpu : Nat) {v : Nat}
    (hv : v ≤ pselMax) (cpu' : Nat) : Function.update psel cpu v cpu' ≤ pselMax := by
  by_cases heq : cpu' = cpu
  · subst heq
    rwa [Function.update_self]
  · rw [Function.update_of_ne heq]
    exact h cpu'

theorem update_counted (h : Counted s) (hs : llcUpdateReplacementState randSets a s = some s') :
    Counted s' := by
  have hcpu := h.psel a.cpu
  unfold llcUpdateReplacementState at hs
  split at hs
  · cases hs
    exact ⟨h.psel, h.bipCounter⟩
  · split at hs
    · cases hs
      exact ⟨h.psel, h.bipCounter⟩
    · split at hs
      · split at hs
        · cases hs
          exact ⟨h.psel, bip_lt h.bipCounter⟩
        · cases hs
          exact ⟨h.psel, h.bipCounter⟩
      · cases hs
        refine ⟨psel_update h.psel _ ?_, bip_lt h.bipCounter⟩
        split <;> omega
      · cases hs
        refine ⟨psel_update h.psel _ ?_, h.bipCounter⟩
        split <;> omega
      · cases hs

/-- A leader is one of the two policies. -/
theorem isItLeader_lt {cpu set leader : Nat} (h : isItLeader randSets cpu set = some leader) :
    leader < numPolicy := by
  obtain ⟨i, hi, rfl⟩ := Option.map_eq_some_iff.mp h
  have hlt := List.mem_range.mp (List.mem_of_find?_eq_some hi)
  exact Nat.div_lt_of_lt_mul (by rwa [Nat.mul_comm])

theorem update_ne_none : llcUpdateReplacementState randSets a s ≠ none := by
  intro h
  unfold llcUpdateReplacementState at h
  split at h
  · cases h
  · split at h
    · cases h
    · split at h
      · split at h <;> cases h
      · cases h
      · cases h
      · rename_i leader h0 h1 hleader
        have hlt : leader < 2 := isItLeader_lt hleader
        obtain rfl | rfl : leader = 0 ∨ leader = 1 := by omega
        · exact h0 rfl
        · exact h1 rfl

theorem run_counted {calls : List Rrip.Call}
    (h : run (drrip randSets).step (drrip randSets).init calls = some s) : Counted s := by
  refine run_invariant (I := Counted) (P := fun _ _ => True) (fun s k s' hI _ hs => ?_)
    ⟨fun _ => Nat.zero_le _, Nat.zero_lt_succ _⟩ (along_of_forall (fun _ _ => trivial) _) h
  cases k with
  | llcFindVictim set =>
    obtain ⟨x, hx, rfl⟩ := Option.map_eq_some_iff.mp hs
    obtain ⟨y, -, rfl⟩ := Option.map_eq_some_iff.mp hx
    exact ⟨hI.psel, hI.bipCounter⟩
  | llcUpdateReplacementState a => exact update_counted hI hs

end Drrip

/-! ## SHiP -/

namespace Ship

variable {numCpus : Nat} {randSets : Nat → Nat} {a : Access} {s s' : Ship}

def RankedSet (set : Nat → SamplerEntry) : Prop :=
  Recency.Ranks samplerWay fun way => (set way).lru

def Ranked (s : Ship) : Prop := ∀ i, RankedSet (s.sampler i)

/-- The searches find a way and keep its `lru` value. -/
theorem samplerMatch_lru {cpu tag ip i : Nat} {type : PacketType} {set : Nat → SamplerEntry}
    {shct shct' : Nat → Nat → Nat} {e : SamplerEntry}
    (h : samplerMatch cpu tag ip type set shct = some (i, e, shct')) :
    i < samplerWay ∧ e.lru = (set i).lru := by
  unfold samplerMatch at h
  split at h
  · rename_i j hj
    cases h
    exact ⟨List.mem_range.mp (List.mem_of_find?_eq_some hj), rfl⟩
  · split at h
    · rename_i j hj
      cases h
      exact ⟨List.mem_range.mp (List.mem_of_find?_eq_some hj), rfl⟩
    · obtain ⟨j, hj, heq⟩ := Option.map_eq_some_iff.mp h
      cases heq
      exact ⟨List.mem_range.mp (List.mem_of_find?_eq_some hj), rfl⟩

theorem samplerMatch_ne_none {cpu tag ip : Nat} {type : PacketType} {set : Nat → SamplerEntry}
    {shct : Nat → Nat → Nat} (h : RankedSet set) :
    samplerMatch cpu tag ip type set shct ≠ none := by
  unfold samplerMatch
  split
  · exact Option.some_ne_none _
  · split
    · exact Option.some_ne_none _
    · obtain ⟨w, hw, hlast⟩ := h.exists_eq (k := samplerWay - 1) (by decide)
      intro hnone
      have hfind := List.find?_eq_none.mp (Option.map_eq_none_iff.mp hnone) w
        (List.mem_range.mpr hw)
      exact hfind (beq_iff_eq.mpr hlast)

theorem rankedSet_touch {set : Nat → SamplerEntry} (h : RankedSet set) {i : Nat}
    (hi : i < samplerWay) {e : SamplerEntry} (he : e.lru = (set i).lru) :
    RankedSet (touchSampler i (Function.update set i e)) :=
  Recency.Ranks.touch_update SamplerEntry.lru h hi he

theorem ranked_init : Ranked init := fun _ => Recency.ranks_id samplerWay

theorem updateSampler_ranked {cpu sIdx address ip : Nat} {type : PacketType} (h : Ranked s)
    (hs : updateSampler numCpus cpu sIdx address ip type s = some s') : Ranked s' := by
  obtain ⟨⟨i, e, shct⟩, hmatch, rfl⟩ := Option.map_eq_some_iff.mp hs
  obtain ⟨hi, he⟩ := samplerMatch_lru hmatch
  intro k
  by_cases hk : k = sIdx
  · subst hk
    show RankedSet (Function.update s.sampler k _ k)
    rw [Function.update_self]
    exact rankedSet_touch (h k) hi he
  · show RankedSet (Function.update s.sampler sIdx _ k)
    rw [Function.update_of_ne hk]
    exact h k

theorem update_ranked (h : Ranked s)
    (hs : llcUpdateReplacementState numCpus randSets a s = some s') : Ranked s' := by
  unfold llcUpdateReplacementState at hs
  split at hs
  · cases hs
  · split at hs
    · split at hs
      · cases hs
        exact h
      · cases hs
        exact h
    · obtain ⟨s₁, hs₁, heq⟩ := Option.map_eq_some_iff.mp hs
      have hranked : Ranked s₁ := by
        split at hs₁
        · exact updateSampler_ranked h hs₁
        · cases hs₁
          exact h
      subst heq
      exact hranked

theorem update_none (h : Ranked s) (hs : llcUpdateReplacementState numCpus randSets a s = none) :
    a.type = .writeback ∧ a.ip ≠ 0 := by
  unfold llcUpdateReplacementState at hs
  split at hs
  · assumption
  · split at hs
    · split at hs <;> cases hs
    · have hnone := Option.map_eq_none_iff.mp hs
      split at hnone
      · rename_i sIdx _
        exact absurd (Option.map_eq_none_iff.mp hnone) (samplerMatch_ne_none (h sIdx))
      · cases hnone

theorem run_ranked {calls : List Rrip.Call}
    (h : run (ship numCpus randSets).step (ship numCpus randSets).init calls = some s) :
    Ranked s := by
  refine run_invariant (I := Ranked) (P := fun _ _ => True) (fun s k s' hI _ hs => ?_)
    ranked_init (along_of_forall (fun _ _ => trivial) _) h
  cases k with
  | llcFindVictim set =>
    obtain ⟨x, hx, rfl⟩ := Option.map_eq_some_iff.mp hs
    obtain ⟨y, -, rfl⟩ := Option.map_eq_some_iff.mp hx
    exact hI
  | llcUpdateReplacementState a => exact update_ranked hI hs

end Ship

/-! ## The three policies -/

theorem rrip_searches (numCpus : Nat) (randSets : Nat → Nat) (calls : List Rrip.Call) :
    (∀ s, run srrip.step srrip.init calls = some s → srrip.Searches s) ∧
      (∀ s, run (drrip randSets).step (drrip randSets).init calls = some s →
        (drrip randSets).Searches s ∧ s.Counted) ∧
      ∀ s, run (ship numCpus randSets).step (ship numCpus randSets).init calls = some s →
        (ship numCpus randSets).Searches s ∧ s.Ranked := by
  refine ⟨fun s hs => ?_, fun s hs => ?_, fun s hs => ?_⟩
  · have hrange := Rrip.run_inRange hs
    exact ⟨hrange, Rrip.searched hrange, Rrip.total_of_update hrange fun _ => Srrip.update_none⟩
  · have hrange := Rrip.run_inRange hs
    refine ⟨⟨hrange, Rrip.searched hrange, ?_⟩, Drrip.run_counted hs⟩
    exact Rrip.total_of_update hrange fun _ hnone => absurd hnone Drrip.update_ne_none
  · have hrange := Rrip.run_inRange hs
    have hranked := Ship.run_ranked hs
    refine ⟨⟨hrange, Rrip.searched hrange, ?_⟩, hranked⟩
    exact Rrip.total_of_update hrange fun _ => Ship.update_none hranked

/-- A load of every way of set 0, and a hit in way 0. -/
def loads : List Rrip.Call :=
  ((List.range llcWay).map fun way =>
    .llcUpdateReplacementState ⟨0, 0, way, way * 64, 7, .load, false⟩) ++
    [.llcUpdateReplacementState ⟨0, 0, 0, 0, 7, .load, true⟩]

/-- No way has the last value: all grow older, and the first of the oldest is the victim. -/
theorem rrip_searches_aged :
    ∃ s s', run srrip.step srrip.init loads = some s ∧ Rrip.Searched srrip s 0 1 s' ∧
      s.rrpv 0 0 = 0 ∧ s.rrpv 0 1 = 2 ∧ s'.rrpv 0 0 = 1 ∧ s'.rrpv 0 1 = 3 := by
  have hcheck : (run srrip.step srrip.init loads).bind (fun s =>
      (srrip.llcFindVictim 4 s 0).map fun r => decide (s.rrpv 0 0 = 0 ∧ s.rrpv 0 1 = 2 ∧
        r.1 = 1 ∧ r.2.rrpv 0 0 = 1 ∧ r.2.rrpv 0 1 = 3)) = some true := by
    decide +kernel
  obtain ⟨s, hs, hcheck⟩ := Option.bind_eq_some_iff.mp hcheck
  obtain ⟨hsrrip, -, -⟩ := rrip_searches 1 (fun _ => 0) loads
  obtain ⟨way, s', hsearched⟩ := (hsrrip s hs).search 0
  rw [hsearched.terminates 4 (by decide), Option.map_some] at hcheck
  obtain ⟨h0, h1, rfl, h0', h1'⟩ := of_decide_eq_true (Option.some.inj hcheck)
  exact ⟨s, s', hs, hsearched, h0, h1, h0', h1'⟩

end Replacement
end ChampSim
