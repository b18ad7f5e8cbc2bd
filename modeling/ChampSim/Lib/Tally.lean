import Mathlib.Algebra.BigOperators.Fin
import Mathlib.Algebra.Order.BigOperators.Group.Finset
import Mathlib.Data.List.NodupEquivFin
import Mathlib.Data.Finset.Card

/-!
# ChampSim.Lib.Tally

Weights of the elements of lists and of arrays with free slots.

* `tally w l`     — the weight of a list.
* `slots w n m`   — the weight of the first `n` slots of `m`; a free slot weighs nothing.
* `slots_update`  — one slot changes.
* `exists_matching` — elements of distinct keys, each with a place that tells its key, have distinct
  places.
-/

namespace ChampSim
namespace Lib

section Tally

variable {α β κ : Type*} {w w' : α → Nat}

def tally (w : α → Nat) (l : List α) : Nat := (l.map w).sum

@[simp] theorem tally_nil : tally w [] = 0 := rfl

@[simp] theorem tally_cons (x : α) (l : List α) : tally w (x :: l) = w x + tally w l := by
  simp [tally]

@[simp] theorem tally_append (l l' : List α) : tally w (l ++ l') = tally w l + tally w l' := by
  simp [tally]

theorem le_tally {x : α} {l : List α} (h : x ∈ l) : w x ≤ tally w l :=
  List.single_le_sum (by simp) _ (List.mem_map_of_mem h)

theorem tally_set {k : Nat} {l : List α} {e : α} (he : l[k]? = some e) (x : α) :
    tally w (l.set k x) + w e = tally w l + w x := by
  induction l generalizing k with
  | nil => simp at he
  | cons a l ih =>
    cases k with
    | zero =>
      simp only [List.getElem?_cons_zero, Option.some.injEq] at he
      subst he
      simp only [List.set_cons_zero, tally_cons]
      omega
    | succ k =>
      have := ih (by simpa using he)
      simp only [List.set_cons_succ, tally_cons]
      omega

theorem tally_eq_zero {l : List α} (h : ∀ x ∈ l, w x = 0) : tally w l = 0 := by
  induction l with
  | nil => rfl
  | cons a l ih =>
    rw [tally_cons, h a List.mem_cons_self, ih fun x hx => h x (List.mem_cons_of_mem _ hx)]

/-- One element of a list without duplicates weighs more or less than before. -/
theorem tally_eq_of_ne {l : List α} {x : α} (hl : l.Nodup) (hx : x ∈ l)
    (h : ∀ y ∈ l, y ≠ x → w y = w' y) : tally w l + w' x = tally w' l + w x := by
  induction l with
  | nil => simp at hx
  | cons a l ih =>
    obtain ⟨ha, hl⟩ := List.nodup_cons.mp hl
    by_cases hax : a = x
    · subst hax
      have hrest : tally w l = tally w' l := by
        unfold tally
        congr 1
        refine List.map_congr_left fun y hy => h y (List.mem_cons_of_mem _ hy) ?_
        rintro rfl
        exact ha hy
      simp only [tally_cons, hrest]
      omega
    · have hx : x ∈ l := (List.mem_cons.mp hx).resolve_left fun hxa => hax hxa.symm
      have := ih hl hx fun y hy => h y (List.mem_cons_of_mem _ hy)
      simp only [tally_cons, h a List.mem_cons_self hax]
      omega

def slots (w : α → Nat) (n : Nat) (m : Nat → Option α) : Nat :=
  ∑ i ∈ Finset.range n, (m i).elim 0 w

variable {n i : Nat} {m : Nat → Option α}

theorem slots_update (hi : i < n) (e : Option α) :
    slots w n (Function.update m i e) + (m i).elim 0 w = slots w n m + e.elim 0 w := by
  have hmem := Finset.mem_range.mpr hi
  have hrest : ∑ j ∈ (Finset.range n).erase i, (Function.update m i e j).elim 0 w =
      ∑ j ∈ (Finset.range n).erase i, (m j).elim 0 w := by
    refine Finset.sum_congr rfl fun j hj => ?_
    rw [Function.update_of_ne (Finset.ne_of_mem_erase hj)]
  unfold slots
  rw [← Finset.add_sum_erase _ _ hmem, ← Finset.add_sum_erase _ (fun j => (m j).elim 0 w) hmem,
    hrest, Function.update_self]
  omega

theorem slots_pos (h : 0 < slots w n m) : ∃ i < n, ∃ e, m i = some e ∧ 0 < w e := by
  obtain ⟨i, hi, hpos⟩ := Finset.exists_ne_zero_of_sum_ne_zero (Nat.ne_of_gt h)
  cases he : m i with
  | none => rw [he] at hpos; exact absurd rfl hpos
  | some e =>
    rw [he] at hpos
    exact ⟨i, Finset.mem_range.mp hi, e, he, Nat.pos_of_ne_zero hpos⟩

theorem slots_eq_zero (h : ∀ i < n, ∀ e, m i = some e → w e = 0) : slots w n m = 0 := by
  refine Finset.sum_eq_zero fun i hi => ?_
  cases he : m i with
  | none => rfl
  | some e => exact h i (Finset.mem_range.mp hi) e he

theorem le_slots {e : α} (hi : i < n) (he : m i = some e) : w e ≤ slots w n m := by
  have hle := Finset.single_le_sum (f := fun j => (m j).elim 0 w) (fun _ _ => Nat.zero_le _)
    (Finset.mem_range.mpr hi)
  rw [he] at hle
  exact hle

/-- At most one slot weighs anything. -/
theorem slots_le_one (hw : ∀ e, w e ≤ 1)
    (h : ∀ i j e f, m i = some e → m j = some f → 0 < w e → 0 < w f → i = j) :
    slots w n m ≤ 1 := by
  induction n with
  | zero => simp [slots]
  | succ n ih =>
    have hsplit : slots w (n + 1) m = slots w n m + (m n).elim 0 w := Finset.sum_range_succ _ n
    cases he : m n with
    | none => simpa [hsplit, he] using ih
    | some e =>
      by_cases hpos : 0 < w e
      · have hzero : slots w n m = 0 := by
          refine slots_eq_zero fun i hi f hf => ?_
          by_contra hne
          have := h i n f e hf he (Nat.pos_of_ne_zero hne) hpos
          omega
        rw [hsplit, hzero, he, Nat.zero_add]
        exact hw e
      · rw [hsplit, he]
        simp only [Option.elim_some]
        omega

end Tally

section Matching

variable {α β κ : Type*} {P : α → β → Prop}

theorem exists_matching (key : α → κ) {l : List α} (hl : (l.map key).Nodup)
    (hP : ∀ x ∈ l, ∃ b, P x b) (hkey : ∀ x y b, P x b → P y b → key x = key y) :
    ∃ f : Fin l.length → β, Function.Injective f ∧ ∀ k, P (l.get k) (f k) := by
  choose f hf using fun k : Fin l.length => hP (l.get k) (List.get_mem l k)
  refine ⟨f, fun j k hjk => ?_, hf⟩
  have hsame : key (l.get j) = key (l.get k) := hkey _ _ (f j) (hf j) (hjk ▸ hf k)
  have hj : j.val < (l.map key).length := by simp
  have hk : k.val < (l.map key).length := by simp
  have hinj : (l.map key)[j.val] = (l.map key)[k.val] ↔ j.val = k.val := hl.getElem_inj_iff
  refine Fin.ext (hinj.mp ?_)
  simpa using hsame

theorem le_length_of_injective {n : Nat} {f : Fin n → β} (hf : Function.Injective f) {l : List β}
    (h : ∀ k, f k ∈ l) : n ≤ l.length := by
  classical
  calc n = (Finset.univ.image f).card := by
        rw [Finset.card_image_of_injective _ hf, Finset.card_univ, Fintype.card_fin]
    _ ≤ l.toFinset.card := by
        refine Finset.card_le_card fun b hb => ?_
        obtain ⟨k, -, rfl⟩ := Finset.mem_image.mp hb
        exact List.mem_toFinset.mpr (h k)
    _ ≤ l.length := l.toFinset_card_le

end Matching

end Lib
end ChampSim
