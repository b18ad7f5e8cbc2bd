import Mathlib.Data.List.SplitBy
import Mathlib.Data.List.Sort

/-!
# ChampSim.Lib.Group

Sort by a key, group by the key, keep the cheapest of each group.

* `groups`     — the runs of equal keys of the sorted list.
* `groupMins`  — the first cheapest element of each run.

`mem_groupMins`, `exists_mem_groupMins` and `groupMins_keys` say that this leaves one element for
each key there is, and that it is a cheapest one.
-/

namespace ChampSim
namespace Lib

section Group

variable {α β : Type*} [LinearOrder β] (key : α → β) (cost : α → Nat)

theorem mem_of_minOn? {g : List α} {x : α} (h : g.minOn? cost = some x) : x ∈ g := by
  cases g with
  | nil => cases h
  | cons y g =>
    rw [List.minOn?_cons_eq_some_minOn, Option.some.injEq] at h
    exact h ▸ List.minOn_mem

def groups (l : List α) : List (List α) :=
  (l.mergeSort fun x y => key x ≤ key y).splitBy fun x y => key x == key y

def groupMins (l : List α) : List α := (groups key l).filterMap fun g => g.minOn? cost

theorem mem_flatten_groups (l : List α) (x : α) : x ∈ (groups key l).flatten ↔ x ∈ l := by
  rw [groups, List.flatten_splitBy, List.mem_mergeSort]

theorem groups_ne_nil {l g : List α} (h : g ∈ groups key l) : g ≠ [] :=
  List.ne_nil_of_mem_splitBy h

theorem groups_const {l g : List α} (h : g ∈ groups key l) {x y : α} (hx : x ∈ g) (hy : y ∈ g) :
    key x = key y := by
  have hchain : (g.map key).IsChain (· = ·) := by
    rw [List.isChain_map]
    exact (List.isChain_of_mem_splitBy h).imp fun a b hab => by simpa using hab
  have hpair : (g.map key).Pairwise (· = ·) := List.isChain_iff_pairwise.1 hchain
  exact hpair.forall_of_forall (fun _ _ => rfl) (List.mem_map_of_mem hx) (List.mem_map_of_mem hy)

omit [LinearOrder β] in
/-- Runs of constant keys: when adjacent keys differ and keys do not fall, they rise. -/
theorem pairwise_lt_of_adjacent [PartialOrder β] {gs : List (List α)}
    (hne : ∀ g ∈ gs, g ≠ []) (hconst : ∀ g ∈ gs, ∀ x ∈ g, ∀ y ∈ g, key x = key y)
    (hle : gs.Pairwise fun g g' => ∀ x ∈ g, ∀ y ∈ g', key x ≤ key y)
    (hadj : gs.IsChain fun g g' => ∃ x ∈ g, ∃ y ∈ g', key x ≠ key y) :
    gs.Pairwise fun g g' => ∀ x ∈ g, ∀ y ∈ g', key x < key y := by
  induction gs with
  | nil => exact List.Pairwise.nil
  | cons g gs ih =>
    rw [List.pairwise_cons] at hle ⊢
    have htail := ih (fun g' hg' => hne g' (List.mem_cons_of_mem _ hg'))
      (fun g' hg' => hconst g' (List.mem_cons_of_mem _ hg')) hle.2 hadj.tail
    refine ⟨?_, htail⟩
    cases gs with
    | nil =>
      intro g' hg'
      cases hg'
    | cons h t =>
      rw [List.isChain_cons_cons] at hadj
      obtain ⟨⟨x₀, hx₀, y₀, hy₀, hne₀⟩, -⟩ := hadj
      have hfirst : ∀ x ∈ g, ∀ y ∈ h, key x < key y := by
        intro x hx y hy
        refine lt_of_le_of_ne (hle.1 h List.mem_cons_self x hx y hy) ?_
        rw [hconst g List.mem_cons_self x hx x₀ hx₀,
          hconst h (List.mem_cons_of_mem _ List.mem_cons_self) y hy y₀ hy₀]
        exact hne₀
      intro g' hg' x hx y hy
      cases List.mem_cons.1 hg' with
      | inl heq => exact hfirst x hx y (heq ▸ hy)
      | inr hmem =>
        exact (hfirst x hx y₀ hy₀).trans ((List.pairwise_cons.1 htail).1 g' hmem y₀ hy₀ y hy)

/-- Every key of a group is below every key of a later one. -/
theorem groups_pairwise (l : List α) :
    (groups key l).Pairwise fun g g' => ∀ x ∈ g, ∀ y ∈ g', key x < key y := by
  have hsorted : (groups key l).flatten.Pairwise fun x y => key x ≤ key y := by
    rw [groups, List.flatten_splitBy]
    have htrans : ∀ a b c : α, decide (key a ≤ key b) = true → decide (key b ≤ key c) = true →
        decide (key a ≤ key c) = true := by
      intro a b c hab hbc
      simp only [decide_eq_true_eq] at hab hbc ⊢
      exact le_trans hab hbc
    have htotal : ∀ a b : α, (decide (key a ≤ key b) || decide (key b ≤ key a)) = true := by
      intro a b
      simpa using le_total (key a) (key b)
    exact (List.pairwise_mergeSort htrans htotal l).imp fun h => of_decide_eq_true h
  refine pairwise_lt_of_adjacent key (fun g hg => groups_ne_nil key hg)
    (fun g hg x hx y hy => groups_const key hg hx hy) (List.pairwise_flatten.1 hsorted).2 ?_
  refine (List.isChain_getLast_head_splitBy _ _).imp ?_
  rintro g g' ⟨hg, hg', hkey⟩
  exact ⟨_, List.getLast_mem hg, _, List.head_mem hg', by simpa using hkey⟩

/-- Elements of one key are in one group. -/
theorem groups_eq {l g g' : List α} (hg : g ∈ groups key l) (hg' : g' ∈ groups key l) {x y : α}
    (hx : x ∈ g) (hy : y ∈ g') (hkey : key x = key y) : g = g' := by
  by_contra hne
  have hsymm : Std.Symm fun g g' : List α => ∀ x ∈ g, ∀ y ∈ g', key x ≠ key y :=
    ⟨fun g g' h x hx y hy => (h y hy x hx).symm⟩
  have hpair : (groups key l).Pairwise fun g g' => ∀ x ∈ g, ∀ y ∈ g', key x ≠ key y :=
    (groups_pairwise key l).imp fun h x hx y hy => ne_of_lt (h x hx y hy)
  exact hpair.forall hg hg' hne x hx y hy hkey

theorem mem_groupMins {l : List α} {m : α} (h : m ∈ groupMins key cost l) :
    m ∈ l ∧ ∀ x ∈ l, key x = key m → cost m ≤ cost x := by
  obtain ⟨g, hg, hm⟩ := List.mem_filterMap.1 h
  obtain ⟨x₀, g', rfl⟩ := List.exists_cons_of_ne_nil (groups_ne_nil key hg)
  rw [List.minOn?_cons_eq_some_minOn, Option.some.injEq] at hm
  have hmem : m ∈ x₀ :: g' := hm ▸ List.minOn_mem
  refine ⟨(mem_flatten_groups key l m).1 (List.mem_flatten_of_mem hg hmem), ?_⟩
  intro x hx hkey
  obtain ⟨g₁, hg₁, hxg₁⟩ := List.mem_flatten.1 ((mem_flatten_groups key l x).2 hx)
  have hsame : g₁ = x₀ :: g' := groups_eq key hg₁ hg hxg₁ hmem hkey
  rw [← hm]
  exact List.apply_minOn_le_of_mem (hsame ▸ hxg₁)

theorem exists_mem_groupMins {l : List α} {x : α} (hx : x ∈ l) :
    ∃ m ∈ groupMins key cost l, key m = key x := by
  obtain ⟨g, hg, hxg⟩ := List.mem_flatten.1 ((mem_flatten_groups key l x).2 hx)
  obtain ⟨x₀, g', rfl⟩ := List.exists_cons_of_ne_nil (groups_ne_nil key hg)
  refine ⟨_, List.mem_filterMap.2 ⟨_, hg, List.minOn?_cons_eq_some_minOn⟩, ?_⟩
  exact groups_const key hg List.minOn_mem hxg

theorem groupMins_keys (l : List α) : ((groupMins key cost l).map key).Nodup := by
  rw [List.Nodup, List.pairwise_map]
  refine (groups_pairwise key l).filterMap _ ?_
  intro g g' hlt x hx y hy
  exact ne_of_lt (hlt x (mem_of_minOn? cost hx) y (mem_of_minOn? cost hy))

end Group

end Lib
end ChampSim
