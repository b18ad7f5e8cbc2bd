import Mathlib.Data.Finmap
import Mathlib.Data.Finset.Card

/-!
# ChampSim.Lib.Inverse

Two finite maps kept as inverses of each other.

* `Inverse f g`     — a pair is in `f` exactly when the swapped pair is in `g`.
* `Inverse.insert`  — a fresh pair enters both.
* `Inverse.move`    — a value passes from one key to a fresh one.
* `Inverse.card_eq` — the two maps have the same number of keys.
-/

namespace ChampSim
namespace Lib

section Inverse

variable {α β : Type*} [DecidableEq α] [DecidableEq β]
variable {f : Finmap fun _ : α => β} {g : Finmap fun _ : β => α}

def Inverse (f : Finmap fun _ : α => β) (g : Finmap fun _ : β => α) : Prop :=
  ∀ a b, f.lookup a = some b ↔ g.lookup b = some a

theorem inverse_empty : Inverse (∅ : Finmap fun _ : α => β) ∅ := by
  intro a b
  simp

theorem Inverse.injective (h : Inverse f g) {a a' : α} {b : β} (ha : f.lookup a = some b)
    (ha' : f.lookup a' = some b) : a = a' := by
  have hb := (h a b).mp ha
  rw [(h a' b).mp ha'] at hb
  exact (Option.some.inj hb).symm

theorem Inverse.insert (h : Inverse f g) {a : α} {b : β} (ha : f.lookup a = none)
    (hb : g.lookup b = none) : Inverse (f.insert a b) (g.insert b a) := by
  intro x y
  by_cases hx : x = a
  · subst hx
    rw [Finmap.lookup_insert]
    by_cases hy : y = b
    · rw [hy, Finmap.lookup_insert]
      simp
    · rw [Finmap.lookup_insert_of_ne _ hy, ← h, ha]
      simp [Ne.symm hy]
  · rw [Finmap.lookup_insert_of_ne _ hx]
    by_cases hy : y = b
    · rw [hy, Finmap.lookup_insert, h, hb]
      simp [Ne.symm hx]
    · rw [Finmap.lookup_insert_of_ne _ hy]
      exact h x y

theorem Inverse.move (h : Inverse f g) {a a' : α} {b : β} (ha : f.lookup a = some b)
    (ha' : f.lookup a' = none) : Inverse ((f.erase a).insert a' b) (g.insert b a') := by
  intro x y
  by_cases hx : x = a'
  · subst hx
    rw [Finmap.lookup_insert]
    by_cases hy : y = b
    · rw [hy, Finmap.lookup_insert]
      simp
    · rw [Finmap.lookup_insert_of_ne _ hy, ← h, ha']
      simp [Ne.symm hy]
  · rw [Finmap.lookup_insert_of_ne _ hx]
    by_cases hy : y = b
    · subst hy
      rw [Finmap.lookup_insert]
      by_cases hxa : x = a
      · rw [hxa, Finmap.lookup_erase]
        simp only [Option.some.injEq, reduceCtorEq, false_iff]
        exact fun he => hx (hxa.trans he.symm)
      · rw [Finmap.lookup_erase_ne hxa]
        simp only [Option.some.injEq]
        constructor
        · intro hb
          exact absurd (h.injective hb ha) hxa
        · intro he
          exact absurd he.symm hx
    · rw [Finmap.lookup_insert_of_ne _ hy]
      by_cases hxa : x = a
      · rw [hxa, Finmap.lookup_erase, ← h, ha]
        simp [Ne.symm hy]
      · rw [Finmap.lookup_erase_ne hxa]
        exact h x y

theorem Inverse.card_eq (h : Inverse f g) : f.keys.card = g.keys.card := by
  refine Finset.card_bij' (fun a ha => (f.lookup a).get (Finmap.lookup_isSome.mpr
      (Finmap.mem_keys.mp ha))) (fun b hb => (g.lookup b).get (Finmap.lookup_isSome.mpr
      (Finmap.mem_keys.mp hb))) ?_ ?_ ?_ ?_
  · intro a ha
    have hs : f.lookup a = some _ := (Option.some_get (Finmap.lookup_isSome.mpr
      (Finmap.mem_keys.mp ha))).symm
    exact Finmap.mem_keys.mpr (Finmap.mem_of_lookup_eq_some ((h _ _).mp hs))
  · intro b hb
    have hs : g.lookup b = some _ := (Option.some_get (Finmap.lookup_isSome.mpr
      (Finmap.mem_keys.mp hb))).symm
    exact Finmap.mem_keys.mpr (Finmap.mem_of_lookup_eq_some ((h _ _).mpr hs))
  · intro a ha
    have hs : f.lookup a = some _ := (Option.some_get (Finmap.lookup_isSome.mpr
      (Finmap.mem_keys.mp ha))).symm
    exact Option.get_of_eq_some _ ((h _ _).mp hs)
  · intro b hb
    have hs : g.lookup b = some _ := (Option.some_get (Finmap.lookup_isSome.mpr
      (Finmap.mem_keys.mp hb))).symm
    exact Option.get_of_eq_some _ ((h _ _).mpr hs)

omit [DecidableEq β] in
/-- The number of keys after a fresh one enters. -/
theorem card_insert (f : Finmap fun _ : α => β) {a : α} (b : β) (ha : f.lookup a = none) :
    (f.insert a b).keys.card = f.keys.card + 1 := by
  have hkeys : (f.insert a b).keys = Insert.insert a f.keys := by
    ext x
    simp [Finmap.mem_keys, Finmap.mem_insert]
  rw [hkeys, Finset.card_insert_of_notMem]
  exact fun hmem => Finmap.lookup_eq_none.mp ha (Finmap.mem_keys.mp hmem)

omit [DecidableEq β] in
/-- The number of keys stays when a value passes to a fresh key. -/
theorem card_move {f : Finmap fun _ : α => β} {a a' : α} (b : β) (ha : f.lookup a ≠ none)
    (ha' : f.lookup a' = none) : ((f.erase a).insert a' b).keys.card = f.keys.card := by
  have hmem : a ∈ f.keys := by
    by_contra hm
    exact ha (Finmap.lookup_eq_none.mpr fun hin => hm (Finmap.mem_keys.mpr hin))
  have hfresh : (f.erase a).lookup a' = none := by
    rw [Finmap.lookup_eq_none, Finmap.mem_erase]
    exact fun hm => Finmap.lookup_eq_none.mp ha' hm.2
  rw [card_insert _ b hfresh, Finmap.keys_erase, Finset.card_erase_of_mem hmem]
  have hpos : 0 < f.keys.card := Finset.card_pos.mpr ⟨a, hmem⟩
  omega

end Inverse

end Lib
end ChampSim
