import Mathlib.Data.List.Perm.Subperm
import Mathlib.Data.List.Induction
import Mathlib.Data.List.Nodup
import Mathlib.Logic.Function.Basic

/-!
# ChampSim.Lib.Recency

Recency kept by counters: of `n` places, the one used last has 0, and the counters of the places
ahead of it age by one.

* `touch`, `ages`       — the counters after one use and after a list of uses.
* `Ranks n age`         — the counters are a permutation of `0 .. n - 1`.
* `MoreRecent uses v w` — `v` was used after the last use of `w`.
* `ages_lt_iff`         — the counters are in the order of recency.
-/

namespace ChampSim
namespace Lib
namespace Recency

def touch (n w : Nat) (age : Nat → Nat) (i : Nat) : Nat :=
  if i = w then 0 else if i < n ∧ age i < age w then age i + 1 else age i

/-- After the uses `uses`, the oldest first, from counters `0 .. n - 1`. -/
def ages (n : Nat) (uses : List Nat) : Nat → Nat := uses.foldl (fun age w => touch n w age) id

theorem ages_concat (n : Nat) (uses : List Nat) (w : Nat) :
    ages n (uses ++ [w]) = touch n w (ages n uses) := by
  unfold ages
  rw [List.foldl_append]
  rfl

structure Ranks (n : Nat) (age : Nat → Nat) : Prop where
  lt : ∀ v < n, age v < n
  inj : ∀ v < n, ∀ w < n, age v = age w → v = w

variable {n u v w : Nat} {age : Nat → Nat} {uses : List Nat}

@[simp] theorem touch_self : touch n w age w = 0 := if_pos rfl

theorem touch_of_ne (h : v ≠ w) (hv : v < n) :
    touch n w age v = if age v < age w then age v + 1 else age v := by
  unfold touch
  rw [if_neg h]
  simp only [hv, true_and]

/-- A use moves its place to the front and keeps the order of the others. -/
theorem touch_lt_iff (h : Ranks n age) (hu : u < n) (hv : v < n) (hw : w < n) :
    touch n u age v < touch n u age w ↔ w ≠ u ∧ (v = u ∨ age v < age w) := by
  by_cases hwu : w = u
  · subst hwu
    rw [touch_self]
    exact iff_of_false (Nat.not_lt_zero _) fun hne => hne.1 rfl
  · have hwne : age w ≠ age u := fun heq => hwu (h.inj w hw u hu heq)
    rw [touch_of_ne hwu hw]
    by_cases hvu : v = u
    · subst hvu
      rw [touch_self]
      refine iff_of_true ?_ ⟨hwu, .inl rfl⟩
      split <;> omega
    · have hvne : age v ≠ age u := fun heq => hvu (h.inj v hv u hu heq)
      rw [touch_of_ne hvu hv]
      simp only [hwu, hvu, ne_eq, not_false_eq_true, true_and, false_or]
      split <;> split <;> omega

theorem Ranks.touch (h : Ranks n age) (hu : u < n) : Ranks n (touch n u age) where
  lt := by
    intro v hv
    by_cases hvu : v = u
    · subst hvu
      rw [touch_self]
      omega
    · have hlt := h.lt v hv
      have hltu := h.lt u hu
      rw [touch_of_ne hvu hv]
      split <;> omega
  inj := by
    intro v hv w hw heq
    by_contra hne
    have hvw := (touch_lt_iff h hu hv hw).not.mp (by omega)
    have hwv := (touch_lt_iff h hu hw hv).not.mp (by omega)
    have hage : age v ≠ age w := fun hage => hne (h.inj v hv w hw hage)
    by_cases hwu : w = u
    · exact hwv ⟨fun hvu => hne (hvu.trans hwu.symm), .inl hwu⟩
    · by_cases hvu : v = u
      · exact hvw ⟨hwu, .inl hvu⟩
      · rcases Nat.lt_or_gt_of_ne hage with hlt | hlt
        · exact hvw ⟨hwu, .inr hlt⟩
        · exact hwv ⟨hvu, .inr hlt⟩

/-- The same for counters that are fields of entries, one of which is rewritten first. -/
theorem Ranks.touch_update {β : Type*} (lru : β → Nat) {set : Nat → β} {e : β}
    (h : Ranks n fun k => lru (set k)) (hu : u < n) (he : lru e = lru (set u)) :
    Ranks n (Recency.touch n u fun k => lru (Function.update set u e k)) := by
  have hlru : (fun k => lru (Function.update set u e k)) = fun k => lru (set k) := by
    funext k
    by_cases hk : k = u
    · subst hk
      rw [Function.update_self, he]
    · rw [Function.update_of_ne hk]
  rw [hlru]
  exact h.touch hu

theorem ranks_id (n : Nat) : Ranks n id := ⟨fun _ hv => hv, fun _ _ _ _ heq => heq⟩

theorem Ranks.perm (h : Ranks n age) : ((List.range n).map age).Perm (List.range n) := by
  have hnodup : ((List.range n).map age).Nodup :=
    List.nodup_range.map_on fun v hv w hw =>
      h.inj v (List.mem_range.mp hv) w (List.mem_range.mp hw)
  have hsub : (List.range n).map age ⊆ List.range n := by
    intro k hk
    obtain ⟨v, hv, rfl⟩ := List.mem_map.mp hk
    exact List.mem_range.mpr (h.lt v (List.mem_range.mp hv))
  refine (List.subperm_of_subset hnodup hsub).perm_of_length_le ?_
  exact Nat.le_of_eq (List.length_map ..).symm

/-- Each value is the counter of some place. -/
theorem Ranks.exists_eq (h : Ranks n age) {k : Nat} (hk : k < n) : ∃ w < n, age w = k := by
  have hmem : k ∈ (List.range n).map age := h.perm.mem_iff.mpr (List.mem_range.mpr hk)
  obtain ⟨w, hw, rfl⟩ := List.mem_map.mp hmem
  exact ⟨w, List.mem_range.mp hw, rfl⟩

/-- The place with the last counter comes after every other one. -/
theorem Ranks.last (h : Ranks n age) (hw : w < n) (hlast : age w = n - 1) (hv : v < n)
    (hne : v ≠ w) : age v < age w := by
  have hlt := h.lt v hv
  have hage : age v ≠ age w := fun heq => hne (h.inj v hv w hw heq)
  omega

theorem ranks_ages (h : ∀ w ∈ uses, w < n) : Ranks n (ages n uses) := by
  induction uses using List.reverseRecOn with
  | nil => exact ranks_id n
  | append_singleton uses u ih =>
    rw [ages_concat]
    exact (ih fun w hw => h w (List.mem_append_left _ hw)).touch
      (h u (List.mem_append_right _ List.mem_cons_self))

/-! ## The order of the uses -/

/-- `v` was used, and `w` not since; places that were never used keep their first order. -/
def MoreRecent (uses : List Nat) (v w : Nat) : Prop :=
  (∃ l₁ l₂, uses = l₁ ++ v :: l₂ ∧ w ∉ v :: l₂) ∨ v ∉ uses ∧ w ∉ uses ∧ v < w

theorem moreRecent_concat :
    MoreRecent (uses ++ [u]) v w ↔ w ≠ u ∧ (v = u ∨ MoreRecent uses v w) := by
  constructor
  · rintro (⟨l₁, l₂, heq, hw⟩ | ⟨hv, hw, hlt⟩)
    · rcases List.eq_nil_or_concat l₂ with rfl | ⟨l₂, x, rfl⟩
      · obtain ⟨-, hu⟩ := List.append_inj' heq rfl
        obtain rfl : u = v := (List.cons.inj hu).1
        exact ⟨fun hwu => hw (hwu ▸ List.mem_cons_self), .inl rfl⟩
      · rw [List.concat_eq_append] at heq hw
        rw [← List.cons_append, ← List.append_assoc] at heq
        obtain ⟨huses, hu⟩ := List.append_inj' heq rfl
        obtain rfl : u = x := (List.cons.inj hu).1
        rw [← List.cons_append] at hw
        exact ⟨fun hwu => hw (List.mem_append_right _ (hwu ▸ List.mem_cons_self)),
          .inr (.inl ⟨l₁, l₂, huses, fun hmem => hw (List.mem_append_left _ hmem)⟩)⟩
    · refine ⟨fun hwu => hw (List.mem_append_right _ (hwu ▸ List.mem_cons_self)), .inr (.inr ?_)⟩
      exact ⟨fun hmem => hv (List.mem_append_left _ hmem),
        fun hmem => hw (List.mem_append_left _ hmem), hlt⟩
  · rintro ⟨hwu, rfl | ⟨l₁, l₂, rfl, hw⟩ | ⟨hv, hw, hlt⟩⟩
    · exact .inl ⟨uses, [], rfl, by simpa using hwu⟩
    · refine .inl ⟨l₁, l₂ ++ [u], by simp, ?_⟩
      rw [← List.cons_append, List.mem_append, List.mem_singleton]
      exact fun hmem => hmem.elim hw hwu
    · by_cases hvu : v = u
      · exact .inl ⟨uses, [], by rw [hvu], by rw [hvu]; simpa using hwu⟩
      · refine .inr ⟨?_, ?_, hlt⟩
        · rw [List.mem_append, List.mem_singleton]
          exact fun hmem => hmem.elim hv hvu
        · rw [List.mem_append, List.mem_singleton]
          exact fun hmem => hmem.elim hw hwu

theorem ages_lt_iff (h : ∀ w ∈ uses, w < n) (hv : v < n) (hw : w < n) :
    ages n uses v < ages n uses w ↔ MoreRecent uses v w := by
  induction uses using List.reverseRecOn with
  | nil => simp [ages, MoreRecent]
  | append_singleton uses u ih =>
    have hrest : ∀ w ∈ uses, w < n := fun w hw => h w (List.mem_append_left _ hw)
    have hu := h u (List.mem_append_right _ List.mem_cons_self)
    rw [ages_concat, touch_lt_iff (ranks_ages hrest) hu hv hw, moreRecent_concat, ih hrest]

end Recency
end Lib
end ChampSim
