import ChampSim.Cache.Model
import ChampSim.Lib.Recency

/-!
# ChampSim.Replacement.Lru

The replacement of all caches but the LLC (`replacement/base_replacement.cc`) is true LRU.

* `lruUpdates`  — a run of `lru_update` calls on one set.
* `lru_updates` — the `lru` values are the counters of `Lib.Recency`.
* `TrueLru`     — the order of the values, and what `lru_victim` answers.
* `true_lru`    — it holds after every run.
-/

namespace ChampSim
namespace Replacement

open Lib Recency Cache

variable {n : Nat} {ways : List Nat} {set : Nat → Block}

/-- `lru_update` on the blocks of a set; it writes their `lru` values alone. -/
def lruUpdateSet (n : Nat) (set : Nat → Block) (way : Nat) : Nat → Block :=
  fun i => { set i with lru := lruUpdate n way set i }

def lruUpdates (n : Nat) (set : Nat → Block) (ways : List Nat) : Nat → Block :=
  ways.foldl (lruUpdateSet n) set

/-- The values of one update depend on the values before it alone. -/
theorem lruUpdate_eq (way i : Nat) :
    lruUpdate n way set i = touch n way (fun i => (set i).lru) i := rfl

theorem touch_congr {age age' : Nat → Nat} (h : ∀ i < n, age i = age' i) {way i : Nat}
    (hway : way < n) (hi : i < n) : touch n way age i = touch n way age' i := by
  unfold touch
  rw [h i hi, h way hway]

theorem lru_updates (hinit : ∀ i < n, (set i).lru = i) (hways : ∀ w ∈ ways, w < n) :
    ∀ i < n, (lruUpdates n set ways i).lru = ages n ways i := by
  induction ways using List.reverseRecOn with
  | nil => exact hinit
  | append_singleton ways w ih =>
    intro i hi
    have hrest := ih fun v hv => hways v (List.mem_append_left _ hv)
    have hw := hways w (List.mem_append_right _ List.mem_cons_self)
    have hstep : lruUpdates n set (ways ++ [w]) = lruUpdateSet n (lruUpdates n set ways) w := by
      unfold lruUpdates
      rw [List.foldl_append]
      rfl
    rw [hstep, ages_concat]
    show lruUpdate n w (lruUpdates n set ways) i = _
    rw [lruUpdate_eq]
    exact touch_congr hrest hw hi

/-! ## The victim -/

theorem find_range {p : Nat → Bool} {w : Nat} (hw : w < n) (hp : p w = true)
    (hbefore : ∀ v < w, p v = false) : (List.range n).find? p = some w := by
  rw [List.find?_range_eq_some]
  exact ⟨hp, List.mem_range.mpr hw, fun v hv => by rw [hbefore v hv]; rfl⟩

theorem lruVictim_invalid {w : Nat} (hw : w < n) (hinvalid : (set w).valid = false)
    (hbefore : ∀ v < w, (set v).valid = true) : lruVictim n set = some w := by
  unfold lruVictim
  rw [find_range hw (by rw [hinvalid]; rfl) fun v hv => by rw [hbefore v hv]; rfl]
  rfl

theorem lruVictim_valid (h : Ranks n fun i => (set i).lru) (hvalid : ∀ w < n, (set w).valid = true)
    {w : Nat} (hw : w < n) (hlast : (set w).lru = n - 1) : lruVictim n set = some w := by
  unfold lruVictim
  have hnone : ((List.range n).find? fun way => !(set way).valid) = none := by
    refine List.find?_eq_none.mpr fun v hv => ?_
    rw [hvalid v (List.mem_range.mp hv)]
    decide
  rw [hnone, Option.none_or]
  refine find_range hw (beq_iff_eq.mpr hlast) fun v hv => beq_eq_false_iff_ne.mpr fun heq => ?_
  have heq : (set v).lru = (set w).lru := heq.trans hlast.symm
  exact absurd (h.inj v (by omega) w hw heq) (Nat.ne_of_lt hv)

/-! ## Runs -/

structure TrueLru (n : Nat) (ways : List Nat) (set : Nat → Block) : Prop where
  perm : ((List.range n).map fun w => (set w).lru).Perm (List.range n)
  latest : ∀ w, ways.getLast? = some w → (set w).lru = 0
  order : ∀ v < n, ∀ w < n, ((set v).lru < (set w).lru ↔ MoreRecent ways v w)
  found : lruVictim n set ≠ none
  invalid : ∀ w < n, (set w).valid = false → (∀ v < w, (set v).valid = true) →
    lruVictim n set = some w
  oldest : (∀ w < n, (set w).valid = true) → ∃ w < n, lruVictim n set = some w ∧
    ∀ v < n, v ≠ w → MoreRecent ways v w

/-- The lowest-numbered invalid way, if there is one. -/
theorem exists_first_invalid (h : ¬ ∀ w < n, (set w).valid = true) :
    ∃ w < n, (set w).valid = false ∧ ∀ v < w, (set v).valid = true := by
  have hex : ∃ w, w < n ∧ (set w).valid = false := by
    by_contra hno
    refine h fun w hw => Bool.eq_true_of_not_eq_false fun hinvalid => hno ⟨w, hw, hinvalid⟩
  refine ⟨Nat.find hex, (Nat.find_spec hex).1, (Nat.find_spec hex).2, fun v hv => ?_⟩
  have hmin := Nat.find_min hex hv
  have hlt := (Nat.find_spec hex).1
  exact Bool.eq_true_of_not_eq_false fun hinvalid => hmin ⟨by omega, hinvalid⟩

theorem true_lru (hn : 0 < n) (hinit : ∀ i < n, (set i).lru = i) (hways : ∀ w ∈ ways, w < n) :
    TrueLru n ways (lruUpdates n set ways) := by
  have hages := lru_updates hinit hways
  have hranks : Ranks n fun i => (lruUpdates n set ways i).lru := by
    have hages' := ranks_ages hways
    constructor
    · intro v hv
      rw [hages v hv]
      exact hages'.lt v hv
    · intro v hv w hw
      rw [hages v hv, hages w hw]
      exact hages'.inj v hv w hw
  have horder : ∀ v < n, ∀ w < n, ((lruUpdates n set ways v).lru < (lruUpdates n set ways w).lru ↔
      MoreRecent ways v w) := by
    intro v hv w hw
    rw [hages v hv, hages w hw]
    exact ages_lt_iff hways hv hw
  have holdest : (∀ w < n, (lruUpdates n set ways w).valid = true) →
      ∃ w < n, lruVictim n (lruUpdates n set ways) = some w ∧
        ∀ v < n, v ≠ w → MoreRecent ways v w := by
    intro hvalid
    obtain ⟨w, hw, hlast⟩ := hranks.exists_eq (k := n - 1) (by omega)
    refine ⟨w, hw, lruVictim_valid hranks hvalid hw hlast, fun v hv hne => ?_⟩
    exact (horder v hv w hw).mp (hranks.last hw hlast hv hne)
  refine ⟨hranks.perm, ?_, horder, ?_, fun w hw => lruVictim_invalid hw, holdest⟩
  · intro w hlast
    obtain ⟨rest, rfl⟩ := List.getLast?_eq_some_iff.mp hlast
    rw [hages w (hways w (List.mem_append_right _ List.mem_cons_self)), ages_concat, touch_self]
  · by_cases hvalid : ∀ w < n, (lruUpdates n set ways w).valid = true
    · obtain ⟨w, -, hvictim, -⟩ := holdest hvalid
      rw [hvictim]
      exact Option.some_ne_none w
    · obtain ⟨w, hw, hinvalid, hbefore⟩ := exists_first_invalid hvalid
      rw [lruVictim_invalid hw hinvalid hbefore]
      exact Option.some_ne_none w

theorem true_lru_four : TrueLru 4 [2, 0, 2] (lruUpdates 4 Block.new [2, 0, 2]) ∧
    ((List.range 4).map fun w => (lruUpdates 4 Block.new [2, 0, 2] w).lru) = [1, 2, 0, 3] :=
  ⟨true_lru (by decide) (fun _ _ => rfl) (by decide), by decide⟩

end Replacement
end ChampSim
