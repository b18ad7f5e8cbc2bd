import Mathlib.Data.List.Basic
import Mathlib.Data.List.Induction
import Mathlib.Data.List.Nodup
import Mathlib.Logic.Function.Basic

/-!
# ChampSim.Lib.Distinct

An array of `n` places, free where it holds 0, that takes each value once.

* `note n slots x`  — `x` goes to the first free place, unless it is there already.
* `firsts xs`       — the values other than 0 in the order in which they come first.
* `notes_eq`        — an array that has noted `xs` holds the first `n` of `firsts xs`.
* `firsts_distinct` — no value is there twice.
-/

namespace ChampSim
namespace Lib

variable {α : Type*} [DecidableEq α] [Zero α] {n : Nat}

def note (n : Nat) (slots : Nat → α) (x : α) : Nat → α :=
  if (List.range n).any fun i => slots i = x then slots
  else
    match (List.range n).find? fun i => slots i = 0 with
    | some i => Function.update slots i x
    | none => slots

def firsts (xs : List α) : List α := (xs.filter (· ≠ 0)).eraseDups

theorem firsts_concat (xs : List α) (x : α) :
    firsts (xs ++ [x]) = if x = 0 ∨ x ∈ firsts xs then firsts xs else firsts xs ++ [x] := by
  unfold firsts
  rw [List.filter_append, List.eraseDups_append]
  by_cases h0 : x = 0
  · simp [h0, List.removeAll]
  · by_cases hx : x ∈ xs
    · simp [h0, hx, List.removeAll, List.mem_eraseDups]
    · simp [h0, hx, List.removeAll, List.mem_eraseDups, List.eraseDups_cons]

theorem mem_firsts {xs : List α} {x : α} : x ∈ firsts xs ↔ x ∈ xs ∧ x ≠ 0 := by
  simp [firsts, List.mem_eraseDups]

theorem firsts_nodup (xs : List α) : (firsts xs).Nodup := by
  induction xs using List.reverseRecOn with
  | nil => simp [firsts]
  | append_singleton xs x ih =>
    rw [firsts_concat]
    split
    · exact ih
    · rename_i hnew
      refine ih.append (List.nodup_singleton x) ?_
      intro y hy hyx
      obtain rfl := List.mem_singleton.mp hyx
      exact hnew (.inr hy)

/-- The places below `n` hold `l`, and 0 after it. -/
def HoldsList (n : Nat) (slots : Nat → α) (l : List α) : Prop := ∀ i < n, slots i = l.getD i 0

theorem find_free {slots : Nat → α} {l : List α} (h : HoldsList n slots l)
    (hl : ∀ x ∈ l, x ≠ 0) (hroom : l.length < n) :
    (List.range n).find? (fun i => slots i = 0) = some l.length := by
  refine List.find?_range_eq_some.mpr ⟨?_, List.mem_range.mpr hroom, ?_⟩
  · simp [h l.length hroom]
  · intro j hj
    have hne := hl l[j] (List.getElem_mem hj)
    simpa [h j (by omega), hj] using hne

theorem find_full {slots : Nat → α} {l : List α} (h : HoldsList n slots (l.take n))
    (hl : ∀ x ∈ l, x ≠ 0) (hfull : n ≤ l.length) :
    (List.range n).find? (fun i => slots i = 0) = none := by
  refine List.find?_eq_none.mpr fun i hi => ?_
  have hi := List.mem_range.mp hi
  have hne := hl l[i] (List.getElem_mem (by omega))
  simpa [h i hi, hi, show i < l.length by omega] using hne

/-- A value that is not there finds a free place, or none. -/
theorem note_new {slots : Nat → α} {l : List α} (h : HoldsList n slots (l.take n))
    (hl : ∀ x ∈ l, x ≠ 0) {x : α} (h0 : x ≠ 0) (hx : x ∉ l.take n) :
    HoldsList n (note n slots x) ((l ++ [x]).take n) := by
  have hany : ((List.range n).any fun i => slots i = x) = false := by
    rw [List.any_eq_false]
    intro i hi
    have hi := List.mem_range.mp hi
    rw [h i hi]
    by_cases hlen : i < (l.take n).length
    · have hne : (l.take n)[i] ≠ x := fun heq => hx (heq ▸ List.getElem_mem hlen)
      simpa [List.getD_eq_getElem?_getD, List.getElem?_eq_getElem hlen] using hne
    · simpa [List.getD_eq_getElem?_getD, List.getElem?_eq_none (Nat.le_of_not_lt hlen)] using h0.symm
  unfold note
  rw [hany]
  by_cases hroom : l.length < n
  · rw [List.take_of_length_le (Nat.le_of_lt hroom)] at h hx
    rw [find_free h hl hroom]
    intro i hi
    simp only [Bool.false_eq_true, if_false]
    by_cases hil : i = l.length
    · subst hil
      rw [Function.update_self]
      simp [List.getD_eq_getElem?_getD, hi]
    · rw [Function.update_of_ne hil, h i hi]
      by_cases hlt : i < l.length
      · simp [List.getD_eq_getElem?_getD, hi, hlt, List.getElem?_append_left hlt]
      · have hlen : (l ++ [x]).length ≤ i := by
          simp only [List.length_append, List.length_singleton]
          omega
        simp [List.getD_eq_getElem?_getD, hi, List.getElem?_eq_none (Nat.le_of_not_lt hlt),
          List.getElem?_eq_none hlen]
  · have hfull := Nat.le_of_not_lt hroom
    rw [find_full h hl hfull, List.take_append_of_le_length hfull]
    exact h

/-- One value more. -/
theorem note_holds {slots : Nat → α} {l : List α} (h : HoldsList n slots (l.take n))
    (hl : ∀ x ∈ l, x ≠ 0) (x : α) :
    HoldsList n (note n slots x) ((if x = 0 ∨ x ∈ l then l else l ++ [x]).take n) := by
  by_cases h0 : x = 0
  · have hsame : note n slots x = slots := by
      unfold note
      split
      · rfl
      · rename_i hany
        have hnone : (List.range n).find? (fun i => slots i = 0) = none := by
          simpa [h0] using hany
        rw [hnone]
    rw [hsame, if_pos (.inl h0)]
    exact h
  · by_cases hx : x ∈ l.take n
    · obtain ⟨i, hi, heq⟩ := List.mem_iff_getElem.mp hx
      have hlt : i < n := by
        simp only [List.length_take] at hi
        omega
      have hany : ((List.range n).any fun i => slots i = x) = true := by
        refine List.any_eq_true.mpr ⟨i, List.mem_range.mpr hlt, ?_⟩
        simp [h i hlt, List.getD_eq_getElem?_getD, List.getElem?_eq_getElem hi, heq]
      unfold note
      rw [hany, if_pos rfl, if_pos (.inr (List.mem_of_mem_take hx))]
      exact h
    · have hnew := note_new h hl h0 hx
      split
      · rename_i hmem
        -- the value came when all places were taken
        have hfull : n ≤ l.length := by
          by_contra hlt
          rw [List.take_of_length_le (by omega)] at hx
          exact hx (hmem.resolve_left h0)
        rwa [List.take_append_of_le_length hfull] at hnew
      · exact hnew

theorem note_outside {slots : Nat → α} {i : Nat} (hi : n ≤ i) (x : α) :
    note n slots x i = slots i := by
  unfold note
  split
  · rfl
  · cases hj : (List.range n).find? fun i => slots i = 0 with
    | none => rfl
    | some j =>
      have hlt := List.mem_range.mp (List.mem_of_find?_eq_some hj)
      have hne : i ≠ j := by omega
      exact Function.update_of_ne hne _ _

theorem notes_hold (n : Nat) (xs : List α) :
    HoldsList n (xs.foldl (note n) fun _ => 0) ((firsts xs).take n) := by
  induction xs using List.reverseRecOn with
  | nil =>
    intro i _
    simp [firsts]
  | append_singleton xs x ih =>
    rw [List.foldl_append, firsts_concat]
    exact note_holds ih (fun y hy => (mem_firsts.mp hy).2) x

theorem notes_eq (n : Nat) (xs : List α) :
    xs.foldl (note n) (fun _ => 0) = fun i => ((firsts xs).take n).getD i 0 := by
  funext i
  by_cases hi : i < n
  · exact notes_hold n xs i hi
  · have hlen : ((firsts xs).take n).length ≤ i := by
      simp only [List.length_take]
      omega
    have houtside : ∀ (ys : List α) (slots : Nat → α), ys.foldl (note n) slots i = slots i := by
      intro ys
      induction ys with
      | nil => exact fun _ => rfl
      | cons y ys ih => exact fun slots => (ih _).trans (note_outside (by omega) y)
    rw [houtside]
    simp [List.getD_eq_getElem?_getD, List.getElem?_eq_none hlen]

/-- No value is there twice. -/
theorem firsts_distinct {xs : List α} {i j : Nat}
    (heq : ((firsts xs).take n).getD i 0 = ((firsts xs).take n).getD j 0)
    (h0 : ((firsts xs).take n).getD i 0 ≠ 0) : i = j := by
  have hnodup : ((firsts xs).take n).Nodup := (firsts_nodup xs).sublist (List.take_sublist n _)
  have hlt : ∀ k, ((firsts xs).take n).getD k 0 ≠ 0 → k < ((firsts xs).take n).length := by
    intro k hk
    by_contra hge
    exact hk (by simp [List.getD_eq_getElem?_getD, List.getElem?_eq_none (Nat.le_of_not_lt hge)])
  have hilt := hlt i h0
  have hjlt := hlt j (heq ▸ h0)
  simp only [List.getD_eq_getElem?_getD, List.getElem?_eq_getElem hilt,
    List.getElem?_eq_getElem hjlt, Option.getD_some] at heq
  exact (List.Nodup.getElem_inj_iff hnodup).mp heq

end Lib
end ChampSim
