import ChampSim.O3.Steps

/-!
# ChampSim.O3.Window

The instructions in the ROB and their age.

* `Blank`    — a slot without an instruction; an answer that comes late may have left a cycle there.
* `Window r` — the ROB in shape: every slot outside the live region is blank.
* `priors_eq` — the dependency checks visit the older instructions, the youngest of them first.
-/

namespace ChampSim
namespace O3

open Lib ChampSim.Core

def Blank (x : OooModelInstr) : Prop := steady x = .empty

theorem blank_empty : Blank .empty := rfl

structure Window (r : Lib.Ring OooModelInstr) : Prop where
  size : r.size = robSize
  wf : Ring.Wf Blank r
  far : ∀ i ≥ r.size, Blank (r.entry i)

section Basic

variable {r r' : Lib.Ring OooModelInstr} {i : Nat}

@[simp] theorem modify_self (r : Lib.Ring OooModelInstr) (i : Nat)
    (f : OooModelInstr → OooModelInstr) : (modify r i f).entry i = f (r.entry i) :=
  Function.update_self ..

theorem modify_ne {k : Nat} (hk : k ≠ i) (f : OooModelInstr → OooModelInstr) :
    (modify r i f).entry k = r.entry k := Function.update_of_ne hk ..

theorem Window.head_lt (h : Window r) : r.head < r.size :=
  h.wf.head_lt (by rw [h.size]; decide)

theorem Window.blank (h : Window r) (hi : ¬ r.Live i) : Blank (r.entry i) := by
  by_cases hs : i < r.size
  · exact h.wf.outside i hs hi
  · exact h.far i (by omega)

/-- An instruction that is not blank is in the window. -/
theorem Window.live_of {β : Type} (h : Window r) (f : OooModelInstr → β)
    (hf : ∀ x, f (steady x) = f x) (hne : f (r.entry i) ≠ f .empty) : r.Live i := by
  by_contra hl
  refine hne ?_
  rw [← hf, h.blank hl]

theorem Window.lt_size (h : Window r) (hi : r.Live i) : i < robSize :=
  h.size ▸ hi.lt_size h.head_lt h.wf.occ_le

theorem Window.age_lt (h : Window r) (hi : r.Live i) : r.age i < r.occupancy :=
  hi.age_lt h.head_lt h.wf.occ_le

theorem blank_of_steady {x y : OooModelInstr} (h : steady x = steady y) (hy : Blank y) : Blank x :=
  h.trans hy

theorem Window.alike (h : Window r) (ha : Ring.Alike steady r r') : Window r' where
  size := ha.size.trans h.size
  wf := ha.wf (fun _ _ => blank_of_steady) h.wf
  far := fun i hi => blank_of_steady (ha.entry i) (h.far i (ha.size ▸ hi))

/-- Rewriting a live slot. -/
theorem Window.modify (h : Window r) (hi : r.Live i) (f : OooModelInstr → OooModelInstr) :
    Window (Core.modify r i f) where
  size := h.size
  wf := h.wf.update_live hi _
  far := by
    intro j hj
    have hne : j ≠ i := by
      rintro rfl
      exact absurd (hi.lt_size h.head_lt h.wf.occ_le) (Nat.not_lt.mpr hj)
    show Blank (Function.update r.entry i _ j)
    rw [Function.update_of_ne hne]
    exact h.far j hj

theorem Window.push (h : Window r) (hroom : r.occupancy < r.size) (x : OooModelInstr) :
    Window (r.push x) where
  size := h.size
  wf := h.wf.push hroom x
  far := by
    intro j hj
    have hne : j ≠ r.tail := by
      rintro rfl
      exact absurd (h.wf.tail_lt hroom) (Nat.not_lt.mpr hj)
    show Blank (Function.update r.entry r.tail _ j)
    rw [Function.update_of_ne hne]
    exact h.far j hj

theorem Window.occupancy_pos (h : Window r) (hi : r.Live i) : 0 < r.occupancy :=
  Nat.lt_of_le_of_lt (Nat.zero_le _) (h.age_lt hi)

theorem Window.pop (h : Window r) (hpos : 0 < r.occupancy) : Window (r.pop .empty) where
  size := h.size
  wf := h.wf.pop hpos blank_empty
  far := by
    intro j hj
    have hne : j ≠ r.head := by
      rintro rfl
      exact absurd h.head_lt (Nat.not_lt.mpr hj)
    show Blank (Function.update r.entry r.head _ j)
    rw [Function.update_of_ne hne]
    exact h.far j hj

theorem window_empty {head : Nat} (hh : head < robSize) :
    Window ⟨robSize, head, head, 0, fun _ => .empty⟩ where
  size := rfl
  wf :=
    { head_lt := fun _ => hh
      head_zero := fun h0 => absurd (show robSize = 0 from h0) (by decide)
      occ_le := Nat.zero_le _
      tail_eq := (Ring.idx_zero hh).symm
      outside := fun _ _ _ => blank_empty }
  far := fun _ _ => blank_empty

/-- A head with a non-zero `ip` is the oldest instruction. -/
theorem Window.live_head (h : Window r) (hip : (r.entry r.head).ip ≠ 0) : r.Live r.head :=
  h.live_of (·.ip) (fun _ => rfl) hip

/-! ## The walk to the head -/

/-- A run of slots down to `lo`, as places after it. -/
theorem downFrom_eq (lo k : Nat) :
    downFrom (lo + k) lo = ((List.range (k + 1)).map (lo + ·)).reverse := by
  unfold downFrom
  rw [show lo + k + 1 - lo = k + 1 by omega, List.range'_eq_map_range]

/-- The ages below `k`, the youngest first. -/
theorem priors_idx (hh : r.head < r.size) (hocc : r.occupancy ≤ r.size) {k : Nat}
    (hk : k < r.occupancy) :
    priors r (Ring.idx r.size r.head k) =
      ((List.range k).map (Ring.idx r.size r.head)).reverse := by
  unfold priors
  dsimp only
  rcases Nat.eq_zero_or_pos k with rfl | hpos
  · rw [Ring.idx_zero hh, if_pos rfl]
    rfl
  · have hne : Ring.idx r.size r.head k ≠ r.head := by
      intro he
      have h0 : Ring.idx r.size r.head k = Ring.idx r.size r.head 0 := by rw [he, Ring.idx_zero hh]
      have := Ring.idx_inj (by omega) (by omega) h0
      omega
    rw [if_neg hne]
    obtain ⟨m, rfl⟩ : ∃ m, k = m + 1 := ⟨k - 1, by omega⟩
    by_cases hwrap : r.head + m < r.size
    · -- the walk does not wrap
      have hprior : (if Ring.idx r.size r.head (m + 1) = 0 then r.size - 1
          else Ring.idx r.size r.head (m + 1) - 1) = r.head + m := by
        unfold Ring.idx
        split <;> split <;> omega
      rw [hprior, if_pos (by omega), downFrom_eq]
      congr 1
      refine List.map_congr_left fun j hj => ?_
      have hj := List.mem_range.mp hj
      unfold Ring.idx
      rw [if_pos (by omega)]
    · -- it reaches slot 0 and goes on at the end of the array
      have hprior : (if Ring.idx r.size r.head (m + 1) = 0 then r.size - 1
          else Ring.idx r.size r.head (m + 1) - 1) = r.head + m - r.size := by
        unfold Ring.idx
        split <;> split <;> omega
      rw [hprior, if_neg (by omega)]
      have hlow := downFrom_eq 0 (r.head + m - r.size)
      have hhigh := downFrom_eq r.head (r.size - 1 - r.head)
      rw [Nat.zero_add] at hlow
      rw [show r.head + (r.size - 1 - r.head) = r.size - 1 by omega] at hhigh
      rw [hlow, hhigh, ← List.reverse_append]
      congr 1
      obtain ⟨a, ha⟩ : ∃ a, a = r.size - 1 - r.head + 1 := ⟨_, rfl⟩
      obtain ⟨b, hb⟩ : ∃ b, b = r.head + m - r.size + 1 := ⟨_, rfl⟩
      rw [← ha, ← hb, show m + 1 = a + b by omega, List.range_add, List.map_append, List.map_map]
      congr 1
      · refine List.map_congr_left fun j hj => ?_
        have hj := List.mem_range.mp hj
        unfold Ring.idx
        rw [if_pos (by omega)]
      · refine List.map_congr_left fun j hj => ?_
        have hj := List.mem_range.mp hj
        simp only [Function.comp, Ring.idx]
        rw [if_neg (by omega)]
        omega

theorem priors_eq (h : Window r) {k : Nat} (hk : k < r.occupancy) :
    priors r (Ring.idx r.size r.head k) =
      ((List.range k).map (Ring.idx r.size r.head)).reverse :=
  priors_idx h.head_lt h.wf.occ_le hk

/-- What the dependency checks of a live instruction visit is older. -/
theorem mem_priors (h : Window r) (hi : r.Live i) {p : Nat} (hp : p ∈ priors r i) :
    r.Live p ∧ r.age p < r.age i := by
  obtain ⟨k, hk, rfl⟩ := hi
  have hocc := h.wf.occ_le
  rw [priors_eq h hk, List.mem_reverse, List.mem_map] at hp
  obtain ⟨j, hj, rfl⟩ := hp
  have hj := List.mem_range.mp hj
  rw [Ring.age_idx h.head_lt (by omega), Ring.age_idx h.head_lt (by omega)]
  exact ⟨⟨j, by omega, rfl⟩, hj⟩

end Basic

end O3
end ChampSim
