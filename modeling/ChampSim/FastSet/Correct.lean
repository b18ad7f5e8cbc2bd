import ChampSim.FastSet.Model
import Mathlib.Data.Finset.Sort
import Mathlib.Data.Finset.Basic
import Mathlib.Data.Nat.Bitwise
import Mathlib.Tactic.Linarith

/-!
# ChampSim.FastSet.Correct

`fastset` represents a finite set of numbers below `MAX_SIZE`.

* `Rep s S` — `s` holds exactly `S`: small and strictly sorted, or a vector of bits for at least
  `SMALL_SIZE` elements.
* `insert_rep`, `search_rep`, `join_rep`, `expand_rep` — each operation computes what the finite
  set does.
* `join_eq_none` — the one join that leaves the array: a large argument and `n = MAX_SIZE`.
-/

namespace ChampSim
namespace FastSet

/-- The first `card` cells hold `S`, strictly increasing. -/
structure Sorted (v : Nat → Nat) (card : Nat) (S : Finset Nat) : Prop where
  mono : ∀ i j, i < j → j < card → v i < v j
  mem : ∀ x, x ∈ S ↔ ∃ i < card, v i = x

/-- The bits set below `MAX_SIZE` are the elements of `S`. -/
def Bits (b : Nat → Nat) (S : Finset Nat) : Prop :=
  ∀ x < maxSize, (b (x >>> 6)).testBit (x &&& 63) = decide (x ∈ S)

inductive Rep : FastSet → Finset Nat → Prop where
  | small {v : Nat → Nat} {card : Nat} {S : Finset Nat} (hc : card < smallSize)
      (hv : Sorted v card S) (hb : ∀ x ∈ S, x < maxSize) : Rep ⟨.values v, card⟩ S
  | large {b : Nat → Nat} {S : Finset Nat} (hc : smallSize ≤ S.card)
      (hbits : Bits b S) (hb : ∀ x ∈ S, x < maxSize) : Rep ⟨.bits b, smallSize⟩ S

theorem rep_init (g : Nat → Nat) : Rep (init g) ∅ :=
  .small (by decide) ⟨fun i j _ hj => absurd hj (Nat.not_lt_zero j), by simp⟩ (by simp)

/-! ## The small form -/

theorem Sorted.inj {v : Nat → Nat} {card : Nat} {S : Finset Nat} (h : Sorted v card S)
    {i j : Nat} (hi : i < card) (hj : j < card) (hij : v i = v j) : i = j := by
  rcases Nat.lt_trichotomy i j with hlt | heq | hgt
  · have := h.mono i j hlt hj; omega
  · exact heq
  · have := h.mono j i hgt hi; omega

theorem Sorted.le {v : Nat → Nat} {card : Nat} {S : Finset Nat} (h : Sorted v card S)
    {i j : Nat} (hij : i ≤ j) (hj : j < card) : v i ≤ v j := by
  rcases Nat.lt_or_eq_of_le hij with hlt | rfl
  · exact Nat.le_of_lt (h.mono i j hlt hj)
  · exact Nat.le_refl _

theorem Sorted.eq_image {v : Nat → Nat} {card : Nat} {S : Finset Nat} (h : Sorted v card S) :
    S = (Finset.range card).image v := by
  ext x
  simp [h.mem x]

theorem Sorted.card_eq {v : Nat → Nat} {card : Nat} {S : Finset Nat} (h : Sorted v card S) :
    S.card = card := by
  rw [h.eq_image, Finset.card_image_of_injOn, Finset.card_range]
  intro i hi j hj hij
  exact h.inj (by simpa using hi) (by simpa using hj) hij

/-- What `insert_small`'s search says: `x` is there, or every cell before the slot is smaller
and every cell from it on is larger. -/
theorem findSlot_spec {v : Nat → Nat} {card : Nat} {S : Finset Nat} (h : Sorted v card S)
    (x : Nat) : ∀ k i, i + k = card → (∀ j < i, v j < x) →
      match findSlot v x i k with
      | none => x ∈ S
      | some p => p ≤ card ∧ (∀ j < p, v j < x) ∧ ∀ j, p ≤ j → j < card → x < v j := by
  intro k
  induction k with
  | zero =>
    intro i hik hlow
    simp only [findSlot]
    exact ⟨by omega, hlow, fun j hj hjc => by omega⟩
  | succ k ih =>
    intro i hik hlow
    simp only [findSlot]
    by_cases heq : v i = x
    · rw [if_pos heq]
      exact (h.mem x).mpr ⟨i, by omega, heq⟩
    · rw [if_neg heq]
      by_cases hgt : v i > x
      · rw [if_pos hgt]
        refine ⟨by omega, hlow, fun j hj hjc => ?_⟩
        have := h.le hj hjc
        omega
      · rw [if_neg hgt]
        refine ih (i + 1) (by omega) fun j hj => ?_
        rcases Nat.lt_succ_iff_lt_or_eq.mp hj with hj | rfl
        · exact hlow j hj
        · omega

theorem shiftUp_apply (i : Nat) : ∀ (k : Nat) (v : Nat → Nat) (j : Nat),
    shiftUp i k v j = if i < j ∧ j ≤ i + k then v (j - 1) else v j := by
  intro k
  induction k with
  | zero =>
    intro v j
    rw [if_neg (by omega)]; rfl
  | succ k ih =>
    intro v j
    rw [shiftUp, ih]
    by_cases hj : j = i + k + 1
    · subst hj
      rw [if_neg (by omega), if_pos (by omega), Function.update_self]
      rfl
    · have h1 : j ≠ i + k + 1 := hj
      by_cases hin : i < j ∧ j ≤ i + k
      · rw [if_pos hin, if_pos (by omega), Function.update_of_ne (by omega)]
      · rw [if_neg hin, if_neg (by omega), Function.update_of_ne h1]

/-- `insert_small` keeps the cells sorted and adds `x`. -/
theorem insertSmall_sorted {v : Nat → Nat} {card : Nat} {S : Finset Nat} (h : Sorted v card S)
    (x : Nat) : Sorted (insertSmall v card x).1 (insertSmall v card x).2 (Insert.insert x S) := by
  have hs := findSlot_spec h x card 0 (by omega) (fun j hj => absurd hj (Nat.not_lt_zero j))
  unfold insertSmall
  cases hf : findSlot v x 0 card with
  | none =>
    rw [hf] at hs
    rw [Finset.insert_eq_of_mem hs]
    exact h
  | some p =>
    rw [hf] at hs
    obtain ⟨hp, hlow, hhigh⟩ := hs
    have happ : ∀ j, Function.update (shiftUp p (card - p) v) p x j =
        if j < p then v j else if j = p then x else if j ≤ card then v (j - 1) else v j := by
      intro j
      by_cases hjp : j = p
      · subst hjp; simp
      · rw [Function.update_of_ne hjp, shiftUp_apply]
        by_cases hlt : j < p
        · rw [if_pos hlt, if_neg (by omega)]
        · rw [if_neg hlt, if_neg hjp]
          by_cases hc : j ≤ card
          · rw [if_pos hc, if_pos (by omega)]
          · rw [if_neg hc, if_neg (by omega)]
    show Sorted (Function.update (shiftUp p (card - p) v) p x) (card + 1) (Insert.insert x S)
    refine ⟨fun i j hij hj => ?_, fun y => ?_⟩
    · simp only [happ]
      have hjc : j ≤ card := by omega
      by_cases hjp : j < p
      · rw [if_pos hjp, if_pos (by omega)]
        exact h.mono i j hij (by omega)
      · by_cases hjp' : j = p
        · rw [if_neg hjp, if_pos hjp', if_pos (by omega)]
          exact hlow i (by omega)
        · rw [if_neg hjp, if_neg hjp', if_pos hjc]
          by_cases hip : i < p
          · rw [if_pos hip]
            have := hlow i hip
            have := hhigh (j - 1) (by omega) (by omega)
            omega
          · by_cases hip' : i = p
            · rw [if_neg hip, if_pos hip']
              exact hhigh (j - 1) (by omega) (by omega)
            · rw [if_neg hip, if_neg hip', if_pos (by omega)]
              exact h.mono (i - 1) (j - 1) (by omega) (by omega)
    · simp only [Finset.mem_insert, h.mem, happ]
      constructor
      · rintro (rfl | ⟨i, hi, rfl⟩)
        · exact ⟨p, by omega, by simp⟩
        · by_cases hip : i < p
          · exact ⟨i, by omega, by rw [if_pos hip]⟩
          · refine ⟨i + 1, by omega, ?_⟩
            rw [if_neg (by omega), if_neg (by omega), if_pos (by omega)]; rfl
      · rintro ⟨i, hi, hy⟩
        by_cases hip : i < p
        · rw [if_pos hip] at hy
          exact .inr ⟨i, by omega, hy⟩
        · by_cases hip' : i = p
          · rw [if_neg hip, if_pos hip'] at hy
            exact .inl hy.symm
          · rw [if_neg hip, if_neg hip', if_pos (by omega)] at hy
            exact .inr ⟨i - 1, by omega, hy⟩

theorem insertSmall_card_le (v : Nat → Nat) (card x : Nat) :
    (insertSmall v card x).2 ≤ card + 1 := by
  unfold insertSmall
  split <;> simp

/-! ## The bits -/

theorem setbit_of_lt {b : Nat → Nat} {x : Nat} (hx : x < maxSize) :
    setbit b x = some (Function.update b (x >>> 6) (b (x >>> 6) ||| 1 <<< (x &&& 63))) := by
  have hw : x >>> 6 < words := by
    simp only [Nat.shiftRight_eq_div_pow, words, maxSize] at hx ⊢
    omega
  simp [setbit, hw]

theorem getbit_of_lt {b : Nat → Nat} {x : Nat} (hx : x < maxSize) :
    getbit b x = some ((b (x >>> 6)).testBit (x &&& 63)) := by
  have hw : x >>> 6 < words := by
    simp only [Nat.shiftRight_eq_div_pow, words, maxSize] at hx ⊢
    omega
  simp [getbit, hw]

theorem and_63 (x : Nat) : x &&& 63 = x % 64 := Nat.and_two_pow_sub_one_eq_mod x 6

theorem shiftRight_6 (x : Nat) : x >>> 6 = x / 64 := Nat.shiftRight_eq_div_pow x 6

/-- Setting the bit of `x` adds `x` to the set the bits stand for. -/
theorem bits_setbit {b b' : Nat → Nat} {S : Finset Nat} {x : Nat} (h : Bits b S)
    (hx : x < maxSize) (hs : setbit b x = some b') : Bits b' (Insert.insert x S) := by
  rw [setbit_of_lt hx] at hs
  cases hs
  intro y hy
  have hold := h y hy
  by_cases hw : y >>> 6 = x >>> 6
  · rw [hw, Function.update_self, Nat.testBit_or, ← hw, hold, Nat.one_shiftLeft, Nat.testBit_two_pow]
    rw [and_63, and_63] at *
    rw [shiftRight_6, shiftRight_6] at hw
    have hxy : x % 64 = y % 64 ↔ y = x := by omega
    by_cases hyx : y = x
    · simp [hyx]
    · simp [hyx, hxy.not.mpr hyx]
  · rw [Function.update_of_ne hw, hold]
    have hyx : y ≠ x := by rintro rfl; exact hw rfl
    simp [hyx]

theorem smalltobit_spec {v : Nat → Nat} : ∀ k : Nat, (∀ i < k, v i < maxSize) →
    ∃ b, smalltobit v k = some b ∧ Bits b ((Finset.range k).image v) := by
  intro k
  induction k with
  | zero =>
    intro _
    exact ⟨fun _ => 0, rfl, fun x _ => by simp⟩
  | succ k ih =>
    intro hv
    obtain ⟨b, hb, hbits⟩ := ih fun i hi => hv i (by omega)
    have hx := hv k (Nat.lt_succ_self k)
    refine ⟨_, by rw [smalltobit, hb, Option.bind_some]; exact setbit_of_lt hx, ?_⟩
    rw [Finset.range_add_one, Finset.image_insert]
    exact bits_setbit hbits hx (setbit_of_lt hx)

theorem Sorted.smalltobit {v : Nat → Nat} {card : Nat} {S : Finset Nat} (h : Sorted v card S)
    (hb : ∀ x ∈ S, x < maxSize) : ∃ b, FastSet.smalltobit v card = some b ∧ Bits b S := by
  obtain ⟨b, hs, hbits⟩ :=
    smalltobit_spec card fun i hi => hb _ ((h.mem _).mpr ⟨i, hi, rfl⟩)
  exact ⟨b, hs, by rw [h.eq_image]; exact hbits⟩

/-! ## insert -/

theorem insert_rep {s : FastSet} {S : Finset Nat} (h : Rep s S) {x : Nat} (hx : x < maxSize) :
    ∃ s', insert s x = some s' ∧ Rep s' (Insert.insert x S) := by
  have hbound : ∀ S : Finset Nat, (∀ y ∈ S, y < maxSize) → ∀ y ∈ Insert.insert x S, y < maxSize := by
    intro S hS y hy
    rcases Finset.mem_insert.mp hy with rfl | hy
    · exact hx
    · exact hS y hy
  cases h with
  | @small v card S hc hv hb =>
    by_cases h0 : card = 0
    · -- the first value goes to cell 0
      subst h0
      have hS : S = ∅ := by ext y; simp [hv.mem]
      subst hS
      refine ⟨⟨.values (Function.update v 0 x), 1⟩, by simp [insert, Data.values?],
        .small (by decide) ⟨fun i j hij hj => by omega, fun y => ?_⟩ (hbound ∅ hb)⟩
      simp [eq_comm]
    · have hins := insertSmall_sorted hv x
      have hle := insertSmall_card_le v card x
      by_cases hfull : (insertSmall v card x).2 = smallSize
      · -- the value that fills the array turns it into bits
        obtain ⟨b, hsm, hbits⟩ := hins.smalltobit (hbound S hb)
        refine ⟨⟨.bits b, smallSize⟩, ?_, .large ?_ hbits (hbound S hb)⟩
        · simp [insert, h0, hc, Data.values?, hfull]
          rw [← hfull, hsm]
        · rw [hins.card_eq, hfull]
      · refine ⟨⟨.values (insertSmall v card x).1, (insertSmall v card x).2⟩, ?_,
          .small (by omega) hins (hbound S hb)⟩
        simp [insert, h0, hc, Data.values?, hfull]
  | @large b S hc hbits hb =>
    have hset := setbit_of_lt (b := b) hx
    refine ⟨_, by simp [insert, smallSize, Data.bits?, hset], .large ?_
      (bits_setbit hbits hx hset) (hbound S hb)⟩
    exact le_trans hc (Finset.card_le_card (Finset.subset_insert x S))

/-- Inserting a value that is already there changes nothing. So `a.join(a, n)` may be read off
the state before the call, although the source re-reads `other` after each insertion. -/
theorem insertSmall_of_mem {v : Nat → Nat} {card : Nat} {S : Finset Nat} (h : Sorted v card S)
    {x : Nat} (hx : x ∈ S) : insertSmall v card x = (v, card) := by
  have hs := findSlot_spec h x card 0 (by omega) (fun j hj => absurd hj (Nat.not_lt_zero j))
  unfold insertSmall
  cases hf : findSlot v x 0 card with
  | none => rfl
  | some p =>
    rw [hf] at hs
    obtain ⟨_, hlow, hhigh⟩ := hs
    obtain ⟨i, hi, rfl⟩ := (h.mem x).mp hx
    exfalso
    by_cases hip : i < p
    · have := hlow i hip; omega
    · have := hhigh i (by omega) hi; omega

/-! ## search -/

theorem searchLinear_spec {v : Nat → Nat} {card : Nat} {S : Finset Nat} (h : Sorted v card S)
    (x : Nat) : ∀ k i, i + k = card → (∀ j < i, v j < x) →
      searchLinear v x i k = decide (x ∈ S) := by
  intro k
  induction k with
  | zero =>
    intro i hik hlow
    have hx : x ∉ S := by
      rw [h.mem]
      rintro ⟨j, hj, rfl⟩
      exact Nat.lt_irrefl _ (hlow j (by omega))
    simp [searchLinear, hx]
  | succ k ih =>
    intro i hik hlow
    simp only [searchLinear]
    by_cases hgt : v i > x
    · have hx : x ∉ S := by
        rw [h.mem]
        rintro ⟨j, hj, rfl⟩
        by_cases hji : j < i
        · exact Nat.lt_irrefl _ (hlow j hji)
        · have := h.le (Nat.le_of_not_lt hji) hj; omega
      simp [hgt, hx]
    · rw [if_neg hgt]
      by_cases heq : v i = x
      · have hx : x ∈ S := (h.mem x).mpr ⟨i, by omega, heq⟩
        simp [heq, hx]
      · rw [if_neg heq]
        refine ih (i + 1) (by omega) fun j hj => ?_
        rcases Nat.lt_succ_iff_lt_or_eq.mp hj with hj | rfl
        · exact hlow j hj
        · omega

/-- The window of the binary search: everything left of it is smaller than `x`, everything right
of it larger. The width of the window bounds the rounds. -/
theorem searchBinary_spec {v : Nat → Nat} {card : Nat} {S : Finset Nat} (h : Sorted v card S)
    (x : Nat) : ∀ (fuel : Nat) (first last : Int), 0 ≤ first → first ≤ last → last < card →
      last - first < fuel → (∀ j : Nat, (j : Int) < first → v j < x) →
      (∀ j : Nat, last < j → j < card → x < v j) →
      searchBinary v x fuel first last ((first + last) / 2) = some (decide (x ∈ S)) := by
  intro fuel
  induction fuel with
  | zero => intro first last _ hfl _ hw; omega
  | succ fuel ih =>
    intro first last h0 hfl hlc hw hleft hright
    obtain ⟨m, hm⟩ : ∃ m : Nat, (first + last) / 2 = m := ⟨((first + last) / 2).toNat, by omega⟩
    rw [hm]
    simp only [searchBinary, Int.toNat_natCast]
    by_cases heq : x = v m
    · have hx : x ∈ S := (h.mem x).mpr ⟨m, by omega, heq.symm⟩
      rw [if_pos heq]
      simp [hx]
    · rw [if_neg heq]
      by_cases hlt : x < v m
      · have hgt : ¬ x > v m := by omega
        have hright' : ∀ j : Nat, (m : Int) - 1 < j → j < card → x < v j := fun j hj hjc =>
          Nat.lt_of_lt_of_le hlt (h.le (by omega) hjc)
        simp only [hlt, hgt, if_true, if_false]
        by_cases hend : (m : Int) - 1 < first
        · have hx : x ∉ S := by
            rw [h.mem]
            rintro ⟨j, hj, rfl⟩
            by_cases hjf : (j : Int) < first
            · exact Nat.lt_irrefl _ (hleft j hjf)
            · exact Nat.lt_irrefl _ (hright' j (by omega) hj)
          simp [hend, hx]
        · rw [if_neg hend]
          exact ih first (m - 1) h0 (by omega) (by omega) (by omega) hleft hright'
      · have hgt : x > v m := by omega
        have hleft' : ∀ j : Nat, (j : Int) < m + 1 → v j < x := fun j hj =>
          Nat.lt_of_le_of_lt (h.le (by omega) (by omega)) hgt
        simp only [hlt, hgt, if_true, if_false]
        by_cases hend : last < (m : Int) + 1
        · have hx : x ∉ S := by
            rw [h.mem]
            rintro ⟨j, hj, rfl⟩
            by_cases hjl : last < (j : Int)
            · exact Nat.lt_irrefl _ (hright j hjl hj)
            · exact Nat.lt_irrefl _ (hleft' j (by omega))
          simp [hend, hx]
        · rw [if_neg hend]
          exact ih (m + 1) last (by omega) (by omega) hlc (by omega) hleft' hright

theorem Sorted.card_zero {v : Nat → Nat} {S : Finset Nat} (h : Sorted v 0 S) : S = ∅ :=
  Finset.card_eq_zero.mp h.card_eq

theorem search_rep {s : FastSet} {S : Finset Nat} (h : Rep s S) {x : Nat} (hx : x < maxSize) :
    search s x = some (decide (x ∈ S)) := by
  cases h with
  | @small v card S hc hv hb =>
    by_cases h0 : card = 0
    · subst h0
      simp [search, hv.card_zero]
    by_cases h1 : card = 1
    · subst h1
      have hmem : x ∈ S ↔ v 0 = x := by rw [hv.mem]; simp
      by_cases hx0 : v 0 = x <;> simp [search, Data.values?, hmem, hx0]
    simp only [search, h0, h1, hc, if_true, if_false, Data.values?, Option.bind_some, searchSmall]
    by_cases hs : card < smallerSize
    · rw [if_pos hs, searchLinear_spec hv x card 0 (by omega) (fun j hj => by omega)]
    · rw [if_neg hs]
      have hb := searchBinary_spec hv x card 0 (card - 1) (by omega) (by omega) (by omega)
        (by omega) (fun j hj => by omega) (fun j hj hjc => by omega)
      rwa [Int.zero_add] at hb
  | @large b S hc hbits hb =>
    simp [search, smallSize, Data.bits?, getbit_of_lt hx, hbits x hx]

/-! ## expand -/

theorem Sorted.cells {v : Nat → Nat} {card n : Nat} {S : Finset Nat} (h : Sorted v card S)
    (hn : ∀ x ∈ S, x < n) :
    (List.range card).map v = (List.range n).filter (fun x => decide (x ∈ S)) := by
  refine List.SortedLT.eq_of_mem_iff ?_ ?_ fun x => ?_
  · rw [List.sortedLT_iff_pairwise, List.pairwise_map]
    refine List.Pairwise.imp_of_mem ?_ List.pairwise_lt_range
    intro i j hi hj hij
    exact h.mono i j hij (List.mem_range.mp hj)
  · rw [List.sortedLT_iff_pairwise]
    exact List.Pairwise.filter _ List.pairwise_lt_range
  · simp only [List.mem_map, List.mem_filter, List.mem_range, decide_eq_true_eq]
    rw [← h.mem]
    exact ⟨fun hx => ⟨hn x hx, hx⟩, fun hx => hx.2⟩

/-- One word of `expand` writes the numbers below `n` whose bits are set, in order. -/
theorem expandWord_eq (b : Nat → Nat) (n i : Nat) : ∀ k j,
    expandWord b n i j k = (List.range' (i + j) k).filter
      (fun l => decide (l < n) && decide (getbit b l = some true)) := by
  intro k
  induction k with
  | zero => intro j; rfl
  | succ k ih =>
    intro j
    rw [List.range'_succ, List.filter_cons, expandWord, ih]
    by_cases hl : i + j < n
    · by_cases hg : getbit b (i + j) = some true
      · simp [hl, hg, Nat.add_assoc]
      · simp [hl, hg, Nat.add_assoc]
    · have hnil : (List.range' (i + j + 1) k).filter
          (fun l => decide (l < n) && decide (getbit b l = some true)) = [] := by
        rw [List.filter_eq_nil_iff]
        intro l hmem
        have := List.mem_range'_1.mp hmem
        have hnl : ¬ l < n := by omega
        simp [hnl]
      simp [hl, hnil]

theorem flatMap_range' (m w : Nat) :
    (List.range m).flatMap (fun i => List.range' (w * i) w) = List.range (w * m) := by
  induction m with
  | zero => simp
  | succ m ih =>
    rw [List.range_succ, List.flatMap_append, ih, List.flatMap_cons, List.flatMap_nil,
      List.append_nil, List.range_eq_range', List.range_eq_range', Nat.mul_succ,
      ← List.range'_append_1, Nat.zero_add]

/-- `expand` writes the elements in increasing order, each once. -/
theorem expand_rep {s : FastSet} {S : Finset Nat} (h : Rep s S) {n : Nat} (hn : n ≤ maxSize)
    (hS : ∀ x ∈ S, x < n) :
    expand s n = some ((List.range n).filter (fun x => decide (x ∈ S))) := by
  cases h with
  | @small v card S hc hv hb =>
    by_cases h0 : card = 0
    · subst h0
      simp [expand, hv.card_zero]
    · simp only [expand, h0, hc, if_true, if_false, Data.values?, Option.map_some, hv.cells hS]
  | @large b S hc hbits hb =>
    have hw : (n + 63) / 64 ≤ words := by simp only [words, maxSize] at hn ⊢; omega
    have hword : ∀ w < (n + 63) / 64, (if b w ≠ 0 then expandWord b n (64 * w) 0 64 else []) =
        (List.range' (64 * w) 64).filter (fun l => decide (l < n) && decide (l ∈ S)) := by
      intro w hwn
      have hget : ∀ l, 64 * w ≤ l → l < 64 * w + 64 → l < n →
          getbit b l = some ((b w).testBit (l &&& 63)) ∧
          (b w).testBit (l &&& 63) = decide (l ∈ S) := by
        intro l h1 h2 h3
        have hlm : l < maxSize := by omega
        have hlw : l >>> 6 = w := by rw [shiftRight_6]; omega
        exact ⟨by rw [getbit_of_lt hlm, hlw], by rw [← hbits l hlm, hlw]⟩
      have hcongr : (List.range' (64 * w) 64).filter
            (fun l => decide (l < n) && decide (getbit b l = some true)) =
          (List.range' (64 * w) 64).filter (fun l => decide (l < n) && decide (l ∈ S)) := by
        refine List.filter_congr fun l hmem => ?_
        have hm := List.mem_range'_1.mp hmem
        by_cases hl : l < n
        · obtain ⟨h1, h2⟩ := hget l hm.1 hm.2 hl
          simp [h1, h2]
        · simp [hl]
      by_cases hb0 : b w ≠ 0
      · rw [if_pos hb0, expandWord_eq, Nat.add_zero, hcongr]
      · -- an empty word is skipped: none of its numbers is in the set
        rw [if_neg hb0, Eq.comm, List.filter_eq_nil_iff]
        intro l hmem
        have hm := List.mem_range'_1.mp hmem
        rw [not_not] at hb0
        by_cases hl : l < n
        · obtain ⟨_, h2⟩ := hget l hm.1 hm.2 hl
          rw [hb0, Nat.zero_testBit] at h2
          simp [← h2]
        · simp [hl]
    have hflat : (List.range ((n + 63) / 64)).flatMap (fun w =>
          if b w ≠ 0 then expandWord b n (64 * w) 0 64 else []) =
        (List.range n).filter (fun x => decide (x ∈ S)) := by
      calc (List.range ((n + 63) / 64)).flatMap (fun w =>
              if b w ≠ 0 then expandWord b n (64 * w) 0 64 else [])
          = (List.range ((n + 63) / 64)).flatMap (fun w => (List.range' (64 * w) 64).filter
              (fun l => decide (l < n) && decide (l ∈ S))) :=
            List.flatMap_congr fun w hwm => hword w (List.mem_range.mp hwm)
        _ = (List.range (64 * ((n + 63) / 64))).filter
              (fun l => decide (l < n) && decide (l ∈ S)) := by
            rw [← List.filter_flatMap, flatMap_range']
        _ = (List.range n).filter (fun x => decide (x ∈ S)) := by
            refine List.SortedLT.eq_of_mem_iff ?_ ?_ fun x => ?_
            · rw [List.sortedLT_iff_pairwise]
              exact List.Pairwise.filter _ List.pairwise_lt_range
            · rw [List.sortedLT_iff_pairwise]
              exact List.Pairwise.filter _ List.pairwise_lt_range
            · simp only [List.mem_filter, List.mem_range, Bool.and_eq_true, decide_eq_true_eq]
              constructor
              · rintro ⟨_, hx⟩; exact hx
              · intro hx; exact ⟨by omega, hx⟩
    simp only [expand, smallSize, Data.bits?, Option.bind_some, if_pos hw, hflat]
    simp

/-! ## join -/

theorem limOf_eq (n : Nat) : limOf n = n / 64 + 1 := by
  have hdiv : (n ||| 63) / 64 = n / 64 := by
    rw [← shiftRight_6, ← shiftRight_6, Nat.shiftRight_or_distrib]
    simp
  have hmod : (n ||| 63) % 64 = 63 := by
    have hlow : ∀ m < 64, m ||| 63 = 63 := by decide
    have h6 := Nat.or_mod_two_pow (a := n) (b := 63) (n := 6)
    rw [show 2 ^ 6 = 64 from rfl] at h6
    rw [h6]
    exact hlow _ (Nat.mod_lt n (by decide))
  unfold limOf
  omega

theorem orWords_spec (o b : Nat → Nat) : ∀ k ≤ words, ∃ b', orWords o k b = some b' ∧
    ∀ w, b' w = if w < k then b w ||| o w else b w := by
  intro k
  induction k with
  | zero => intro _; exact ⟨b, rfl, fun w => by simp⟩
  | succ k ih =>
    intro hk
    obtain ⟨b', hb', happ⟩ := ih (by omega)
    have hkw : k < words := by omega
    refine ⟨Function.update b' k (b' k ||| o k), by simp [orWords, hb', hkw], fun w => ?_⟩
    by_cases hwk : w = k
    · subst hwk
      rw [Function.update_self, happ, if_neg (by omega), if_pos (by omega)]
    · rw [Function.update_of_ne hwk, happ]
      by_cases hlt : w < k
      · rw [if_pos hlt, if_pos (by omega)]
      · rw [if_neg hlt, if_neg (by omega)]

theorem orWords_eq_none (o b : Nat → Nat) {k : Nat} (hk : words < k) : orWords o k b = none := by
  induction k with
  | zero => omega
  | succ k ih =>
    by_cases hkw : words < k
    · simp [orWords, ih hkw]
    · have hk' : ¬ k < words := by omega
      cases hb : orWords o k b <;> simp [orWords, hb, hk']

theorem orWords_bits {o b : Nat → Nat} {S T : Finset Nat} (hb : Bits b S) (ho : Bits o T)
    {n : Nat} (hn : n < maxSize) (hT : ∀ x ∈ T, x < n) :
    ∃ b', orWords o (limOf n) b = some b' ∧ Bits b' (S ∪ T) := by
  have hlim : limOf n ≤ words := by rw [limOf_eq]; simp only [words, maxSize] at hn ⊢; omega
  obtain ⟨b', hb', happ⟩ := orWords_spec o b _ hlim
  refine ⟨b', hb', fun x hx => ?_⟩
  rw [happ]
  by_cases hxw : x >>> 6 < limOf n
  · rw [if_pos hxw, Nat.testBit_or, hb x hx, ho x hx]
    by_cases hxT : x ∈ T <;> simp [hxT]
  · -- the words that the loop leaves out hold no element of `T`
    have hxT : x ∉ T := by
      intro hxT
      have := hT x hxT
      rw [limOf_eq, shiftRight_6] at hxw
      omega
    rw [if_neg hxw, hb x hx]
    simp [hxT]

theorem insertCells_rep {s : FastSet} {S : Finset Nat} (h : Rep s S) {v : Nat → Nat} :
    ∀ k : Nat, (∀ i < k, v i < maxSize) →
      ∃ s', insertCells v k s = some s' ∧ Rep s' (S ∪ (Finset.range k).image v) := by
  intro k
  induction k with
  | zero => intro _; exact ⟨s, rfl, by simpa using h⟩
  | succ k ih =>
    intro hv
    obtain ⟨s', hs', hrep⟩ := ih fun i hi => hv i (by omega)
    obtain ⟨s'', hs'', hrep'⟩ := insert_rep hrep (hv k (Nat.lt_succ_self k))
    refine ⟨s'', by simp [insertCells, hs', hs''], ?_⟩
    rw [Finset.range_add_one, Finset.image_insert, Finset.union_insert]
    exact hrep'

/-- The join computes the union, unless `n = MAX_SIZE` and the argument is large. -/
theorem join_rep {s t : FastSet} {S T : Finset Nat} (hs : Rep s S) (ht : Rep t T) {n : Nat}
    (hT : ∀ x ∈ T, x < n) (hn : n < maxSize ∨ T.card < smallSize) :
    ∃ s', join s t n = some s' ∧ Rep s' (S ∪ T) := by
  cases ht with
  | @small v card _ hc hv hb =>
    by_cases h0 : card = 0
    · subst h0
      exact ⟨s, by simp [join], by rw [hv.card_zero, Finset.union_empty]; exact hs⟩
    · obtain ⟨s', hs', hrep⟩ := insertCells_rep hs card fun i hi => hb _ ((hv.mem _).mpr ⟨i, hi, rfl⟩)
      refine ⟨s', by simp [join, h0, hc, Data.values?, hs'], ?_⟩
      rw [hv.eq_image]
      exact hrep
  | @large o _ hc ho hb =>
    have hn : n < maxSize := hn.resolve_right (by omega)
    cases hs with
    | @small v card _ hcs hv hbs =>
      obtain ⟨b, hsm, hbits⟩ := hv.smalltobit hbs
      obtain ⟨b', hor, hbits'⟩ := orWords_bits hbits ho hn hT
      refine ⟨⟨.bits b', smallSize⟩, ?_, .large ?_ hbits' ?_⟩
      · simp only [join, smallSize] at hcs ⊢
        simp [hcs, Data.values?, Data.bits?, hsm, hor]
      · exact le_trans hc (Finset.card_le_card Finset.subset_union_right)
      · intro x hx
        rcases Finset.mem_union.mp hx with hx | hx
        · exact hbs x hx
        · exact hb x hx
    | @large b _ hcs hbits hbs =>
      obtain ⟨b', hor, hbits'⟩ := orWords_bits hbits ho hn hT
      refine ⟨⟨.bits b', smallSize⟩, by simp [join, smallSize, Data.bits?, hor],
        .large ?_ hbits' ?_⟩
      · exact le_trans hc (Finset.card_le_card Finset.subset_union_right)
      · intro x hx
        rcases Finset.mem_union.mp hx with hx | hx
        · exact hbs x hx
        · exact hb x hx

/-- With `n = MAX_SIZE` the loop of `join` runs over one word too many. -/
theorem join_eq_none {s t : FastSet} {S T : Finset Nat} (hs : Rep s S) (ht : Rep t T)
    (hT : smallSize ≤ T.card) : join s t maxSize = none := by
  have hlim : words < limOf maxSize := by decide
  cases ht with
  | @small v card _ hc hv hb => rw [hv.card_eq] at hT; omega
  | @large o _ hc ho hb =>
    cases hs with
    | @small v card _ hcs hv hbs =>
      obtain ⟨b, hsm, hbits⟩ := hv.smalltobit hbs
      simp only [join, smallSize] at hcs ⊢
      simp [hcs, Data.values?, Data.bits?, hsm, orWords_eq_none o b hlim]
    | @large b _ hcs hbits hbs =>
      simp [join, smallSize, Data.bits?, orWords_eq_none o b hlim]

/-- Joining a small set with itself inserts values that are there. So the receiver may be read
before the call, although the source reads `other` again after each insertion. -/
theorem insertCells_self {v : Nat → Nat} {card : Nat} {S : Finset Nat} (h : Sorted v card S)
    (hc : card < smallSize) :
    ∀ k ≤ card, insertCells v k ⟨.values v, card⟩ = some ⟨.values v, card⟩ := by
  intro k
  induction k with
  | zero => intro _; rfl
  | succ k ih =>
    intro hk
    have hin := insertSmall_of_mem h ((h.mem (v k)).mpr ⟨k, by omega, rfl⟩)
    have h0 : card ≠ 0 := by omega
    have hne : card ≠ smallSize := by omega
    simp [insertCells, ih (by omega), insert, h0, hc, Data.values?, hin, hne]

end FastSet
end ChampSim
