import ChampSim.Replacement.Victims

/-!
# ChampSim.Replacement.EmptyFirst

SRRIP fills the empty ways of the LLC first.

* `Llc`, `Event`, `Llc.step` — the policy beside the valid bits, which it never reads: a fill takes
  the way found, a stalled fill only searches for one, a hit is on a valid way.
* `EmptyFirst`               — while a way is empty, the empty ways alone have the last value, so
  that no search ages the set.
* `fills_empty_first`        — the way found is empty as long as there is an empty one.
-/

namespace ChampSim
namespace Replacement

open Lib

structure Llc where
  policy : Srrip
  valid : Nat → Nat → Bool

inductive Event where
  | fill (a : Access)
  | stalledFill (set : Nat)
  | hit (a : Access)

namespace Llc

def init : Llc := ⟨.init, fun _ _ => false⟩

def setValid (valid : Nat → Nat → Bool) (set way : Nat) : Nat → Nat → Bool :=
  Function.update valid set (Function.update (valid set) way true)

/-- The way of a fill is the way found; no access may hit an empty way. -/
def step (s : Llc) : Event → Option Llc
  | .fill a =>
    (srrip.llcFindVictim (maxRrpv + 1) s.policy a.set).bind fun (way, policy) =>
      (Srrip.llcUpdateReplacementState { a with way := way, hit := false } policy).map fun policy =>
        ⟨policy, setValid s.valid a.set way⟩
  | .stalledFill set =>
    (srrip.llcFindVictim (maxRrpv + 1) s.policy set).map
      fun (_, policy) => { s with policy := policy }
  | .hit a =>
    if s.valid a.set a.way then
      (Srrip.llcUpdateReplacementState { a with hit := true } s.policy).map fun policy =>
        { s with policy := policy }
    else none

end Llc

/-- The ways of a set, by their values and valid bits. -/
structure EmptyFirst (rrpv : Nat → Nat) (valid : Nat → Bool) : Prop where
  empty : ∀ way < llcWay, valid way = false → rrpv way = maxRrpv
  filled : (∃ way < llcWay, valid way = false) →
    ∀ way < llcWay, valid way = true → rrpv way < maxRrpv

namespace EmptyFirst

variable {rrpv : Nat → Nat} {valid : Nat → Bool} {way : Nat}

/-- Among the empty and the filled ways, the oldest is an empty one. -/
theorem oldest (h : EmptyFirst rrpv valid) (ho : Aging.Oldest llcWay rrpv way)
    (hempty : ∃ w < llcWay, valid w = false) : valid way = false := by
  obtain ⟨w, hw, hinvalid⟩ := hempty
  have hlast := h.empty w hw hinvalid
  have hle := ho.largest w hw
  by_contra hvalid
  have hlt := h.filled ⟨w, hw, hinvalid⟩ way ho.lt (Bool.not_eq_false _ ▸ hvalid)
  omega

theorem fill (h : EmptyFirst rrpv valid) (ho : Aging.Oldest llcWay rrpv way) :
    EmptyFirst (Function.update rrpv way (maxRrpv - 1)) (Function.update valid way true) where
  empty := by
    intro w hw hinvalid
    have hne : w ≠ way := by
      rintro rfl
      rw [Function.update_self] at hinvalid
      cases hinvalid
    rw [Function.update_of_ne hne] at hinvalid ⊢
    exact h.empty w hw hinvalid
  filled := by
    rintro ⟨u, hu, hinvalid⟩ w hw hvalid
    by_cases heq : w = way
    · subst heq
      rw [Function.update_self]
      decide
    · have hne : u ≠ way := by
        rintro rfl
        rw [Function.update_self] at hinvalid
        cases hinvalid
      rw [Function.update_of_ne hne] at hinvalid
      rw [Function.update_of_ne heq] at hvalid ⊢
      exact h.filled ⟨u, hu, hinvalid⟩ w hw hvalid

theorem hit (h : EmptyFirst rrpv valid) (hvalid : valid way = true) :
    EmptyFirst (Function.update rrpv way 0) valid where
  empty := by
    intro w hw hinvalid
    have hne : w ≠ way := by
      rintro rfl
      rw [hvalid] at hinvalid
      cases hinvalid
    rw [Function.update_of_ne hne]
    exact h.empty w hw hinvalid
  filled := by
    intro hempty w hw hfilled
    by_cases heq : w = way
    · subst heq
      rw [Function.update_self]
      decide
    · rw [Function.update_of_ne heq]
      exact h.filled hempty w hw hfilled

/-- A search ages the set only when no way is empty. -/
theorem aged (h : EmptyFirst rrpv valid) (ho : Aging.Oldest llcWay rrpv way) :
    EmptyFirst (Aging.aged llcWay (maxRrpv - rrpv way) rrpv) valid := by
  by_cases hempty : ∃ w < llcWay, valid w = false
  · have hlast := h.empty way ho.lt (h.oldest ho hempty)
    rw [hlast, Nat.sub_self, Aging.aged_zero]
    exact h
  · exact ⟨fun w hw hinvalid => absurd ⟨w, hw, hinvalid⟩ hempty, fun he => absurd he hempty⟩

end EmptyFirst

namespace Llc

structure Inv (s : Llc) : Prop where
  inRange : InRange s.policy.rrpv
  emptyFirst : ∀ set, EmptyFirst (s.policy.rrpv set) (s.valid set)

variable {s s' : Llc} {a : Access} {set way : Nat} {p p' : Srrip}

theorem inv_init : Inv init where
  inRange := fun _ _ _ => le_rfl
  emptyFirst := fun _ => ⟨fun _ _ _ => rfl, fun _ _ _ hvalid => by cases hvalid⟩

/-- The way found, and the set after the search. -/
theorem Inv.search (h : Inv s) {fuel : Nat} (hfuel : maxRrpv < fuel)
    (hs : srrip.llcFindVictim fuel s.policy set = some (way, p)) :
    Aging.Oldest llcWay (s.policy.rrpv set) way ∧ Inv { s with policy := p } ∧
      Aging.Oldest llcWay (p.rrpv set) way := by
  obtain ⟨w, p₁, hfound⟩ := Rrip.searched (P := srrip) h.inRange set
  have ho : Aging.Oldest llcWay (s.policy.rrpv set) w := hfound.oldest
  obtain ⟨rfl, rfl⟩ := Prod.mk.inj (Option.some.inj ((hfound.terminates fuel hfuel).symm.trans hs))
  have hw := (Rrip.llcFindVictim_eq (P := srrip) h.inRange ho hfuel).symm.trans hs
  have hp : p₁.rrpv = Function.update s.policy.rrpv set (Aging.aged llcWay
      (maxRrpv - s.policy.rrpv set w) (s.policy.rrpv set)) :=
    congrArg Srrip.rrpv (Prod.mk.inj (Option.some.inj hw)).2.symm
  have hset := congrFun hp set
  rw [Function.update_self] at hset
  refine ⟨ho, ⟨hfound.inRange, fun set' => ?_⟩, ?_⟩
  · show EmptyFirst (p₁.rrpv set') (s.valid set')
    by_cases heq : set' = set
    · subst heq
      rw [hset]
      exact (h.emptyFirst set').aged ho
    · rw [hp, Function.update_of_ne heq]
      exact h.emptyFirst set'
  · rw [hset]
    exact ho.aged _

theorem update_eq (h : Srrip.llcUpdateReplacementState a p = some p') :
    p'.rrpv = setRrpv p.rrpv a.set a.way (if a.hit then 0 else maxRrpv - 1) := by
  unfold Srrip.llcUpdateReplacementState at h
  split at h
  · cases h
  · cases h
    rfl

theorem step_inv {e : Event} (h : Inv s) (hs : s.step e = some s') : Inv s' := by
  cases e with
  | fill a =>
    obtain ⟨⟨way, p⟩, hvictim, hs⟩ := Option.bind_eq_some_iff.mp hs
    obtain ⟨p', hupdate, rfl⟩ := Option.map_eq_some_iff.mp hs
    obtain ⟨-, hI, ho⟩ := h.search (by decide) hvictim
    have heq : p'.rrpv = setRrpv p.rrpv a.set way (maxRrpv - 1) := update_eq hupdate
    refine ⟨?_, fun set => ?_⟩
    · rw [heq]
      exact hI.inRange.setRrpv _ _ (by decide)
    · show EmptyFirst (p'.rrpv set) (setValid s.valid a.set way set)
      rw [heq]
      unfold setRrpv setValid
      by_cases hset : set = a.set
      · subst hset
        rw [Function.update_self, Function.update_self]
        exact (hI.emptyFirst a.set).fill ho
      · rw [Function.update_of_ne hset, Function.update_of_ne hset]
        exact hI.emptyFirst set
  | stalledFill set =>
    obtain ⟨⟨way, p⟩, hvictim, rfl⟩ := Option.map_eq_some_iff.mp hs
    exact (h.search (by decide) hvictim).2.1
  | hit a =>
    simp only [step] at hs
    split at hs
    · rename_i hvalid
      obtain ⟨p', hupdate, rfl⟩ := Option.map_eq_some_iff.mp hs
      have heq : p'.rrpv = setRrpv s.policy.rrpv a.set a.way 0 := update_eq hupdate
      refine ⟨?_, fun set => ?_⟩
      · rw [heq]
        exact h.inRange.setRrpv _ _ (by decide)
      · rw [heq]
        unfold setRrpv
        by_cases hset : set = a.set
        · subst hset
          rw [Function.update_self]
          exact (h.emptyFirst a.set).hit hvalid
        · rw [Function.update_of_ne hset]
          exact h.emptyFirst set
    · cases hs

theorem run_inv {events : List Event} (h : run step init events = some s) : Inv s :=
  run_invariant (I := Inv) (P := fun _ _ => True) (fun _ _ _ hI _ hs => step_inv hI hs) inv_init
    (along_of_forall (fun _ _ => trivial) _) h

end Llc

theorem fills_empty_first {events : List Event} {s : Llc} (h : run Llc.step .init events = some s)
    (set : Nat) :
    ∃ way p, (∀ fuel > maxRrpv, srrip.llcFindVictim fuel s.policy set = some (way, p)) ∧
      way < llcWay ∧ ((∃ w < llcWay, s.valid set w = false) → s.valid set way = false) := by
  have hI := Llc.run_inv h
  obtain ⟨way, p, hfound⟩ := Rrip.searched (P := srrip) (s := s.policy) hI.inRange set
  exact ⟨way, p, hfound.terminates, hfound.oldest.lt, (hI.emptyFirst set).oldest hfound.oldest⟩

def Access.load (set way : Nat) : Access := ⟨0, set, way, 0, 0, .load, false⟩

/-- Two fills of set 3, a hit on the first of them and a stalled fill. -/
theorem fills_empty_first_run :
    ∃ s, run Llc.step .init [.fill (.load 3 0), .fill (.load 3 0), .hit (.load 3 0),
        .stalledFill 3] = some s ∧
      ∃ way p, (∀ fuel > maxRrpv, srrip.llcFindVictim fuel s.policy 3 = some (way, p)) ∧
        way < llcWay ∧ ((∃ w < llcWay, s.valid 3 w = false) → s.valid 3 way = false) := by
  have hrun : (run Llc.step .init [.fill (.load 3 0), .fill (.load 3 0), .hit (.load 3 0),
      .stalledFill 3]).isSome = true := by decide
  obtain ⟨s, hs⟩ := Option.isSome_iff_exists.mp hrun
  exact ⟨s, hs, fills_empty_first hs 3⟩

end Replacement
end ChampSim
