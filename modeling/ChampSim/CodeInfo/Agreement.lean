import ChampSim.CodeInfo.Numbering
import Mathlib.Data.List.Flatten
import Mathlib.Tactic.Ring

/-!
# ChampSim.CodeInfo.Agreement

When the two numberings of a function agree.

* `visits_eq`   — the walk depends on the non-debug instructions only.
* `zeroBlocks`  — the numbering from 0 that the walk should give.
* `numbers_eq`  — it gives it once `bb` names the current block.
* `agree_iff`   — the first `advance` finds `bb` unset, so it never counts a block: the walk agrees
  with AddDbg exactly when the entry block holds two instructions or is the only one, and no counter
  wraps.
-/

namespace ChampSim
namespace CodeInfo

section Walk

variable {ι : Type*} {isDebug : ι → Bool}

/-- The numbers given along a list without debug intrinsics, as `advance` computes them. -/
def numbers : Option Nat → UInt32 → UInt16 → List (Nat × ι) → List (Numbered ι)
  | _, _, _, [] => []
  | _, bn, i, [x] => [⟨x.2, bn, i⟩]
  | bb, bn, i, x :: y :: l =>
    ⟨x.2, bn, i⟩ ::
      if bb ≠ none ∧ some y.1 ≠ bb then numbers (some y.1) (bn + 1) 0 (y :: l)
      else numbers (some y.1) bn (i + 1) (y :: l)

theorem numbers_zero (bb : Option Nat) (bn : UInt32) (i : UInt16) (x : Nat × ι)
    (l : List (Nat × ι)) : (numbers bb bn i (x :: l))[0]? = some ⟨x.2, bn, i⟩ := by
  cases l <;> rfl

def keep (isDebug : ι → Bool) (l : List (Nat × ι)) : List (Nat × ι) := l.filter fun x => !isDebug x.2

variable (isDebug) in
theorem skipDebug_cases (l : List (Nat × ι)) :
    (skipDebug isDebug l = [] ∧ keep isDebug l = []) ∨
      ∃ x r, skipDebug isDebug l = x :: r ∧ keep isDebug l = x :: keep isDebug r := by
  induction l with
  | nil => exact .inl ⟨rfl, rfl⟩
  | cons x l ih =>
    cases hx : isDebug x.2 with
    | true =>
      have h1 : skipDebug isDebug (x :: l) = skipDebug isDebug l := by simp [skipDebug, hx]
      have h2 : keep isDebug (x :: l) = keep isDebug l := by simp [keep, hx]
      rw [h1, h2]
      exact ih
    | false => exact .inr ⟨x, l, by simp [skipDebug, hx], by simp [keep, hx]⟩

/-- Each round of the walk consumes one instruction that is not a debug intrinsic. -/
theorem visits_eq (L : List (Nat × ι)) : ∀ (x : Nat × ι) (r : List (Nat × ι)) (fuel : Nat)
    (bb : Option Nat) (bn : UInt32) (i : UInt16), keep isDebug r = L → L.length < fuel →
    visits isDebug fuel ⟨x :: r, bb, bn, i, false⟩ = some (numbers bb bn i (x :: L)) := by
  induction L with
  | nil =>
    intro x r fuel bb bn i hr hf
    obtain ⟨fuel, rfl⟩ : ∃ k, fuel = k + 1 := ⟨fuel - 1, by simp at hf; omega⟩
    rcases skipDebug_cases isDebug r with ⟨hs, _⟩ | ⟨y, s, _, hk⟩
    · have hdone : visits isDebug fuel ⟨[], bb, bn, i, true⟩ = some [] := by
        cases fuel <;> simp [visits]
      simp [visits, Iter.numbered, Iter.advance, hs, hdone, numbers]
    · rw [hr] at hk; cases hk
  | cons y L ih =>
    intro x r fuel bb bn i hr hf
    obtain ⟨fuel, rfl⟩ : ∃ k, fuel = k + 1 := ⟨fuel - 1, by simp at hf; omega⟩
    have hf' : L.length < fuel := by simp at hf; omega
    rcases skipDebug_cases isDebug r with ⟨_, hk⟩ | ⟨z, s, hs, hk⟩
    · rw [hr] at hk; cases hk
    · rw [hr] at hk
      cases hk
      by_cases hb : bb ≠ none ∧ some y.1 ≠ bb
      · have hstep := ih y s fuel (some y.1) (bn + 1) 0 rfl hf'
        simp [visits, Iter.numbered, Iter.advance, hs, hb, hstep, numbers]
      · have hstep := ih y s fuel (some y.1) bn (i + 1) rfl hf'
        simp [visits, Iter.numbered, Iter.advance, hs, hb, hstep, numbers]

/-- The walk is the numbering of the instructions that are kept, with `bb` unset. -/
theorem walk_eq {f : List (List ι)} (hne : keep isDebug (insts f) ≠ []) :
    walk isDebug f = some (numbers none 0 0 (keep isDebug (insts f))) := by
  rcases skipDebug_cases isDebug (insts f) with ⟨_, hk⟩ | ⟨y, r, hs, hk⟩
  · exact absurd hk hne
  · have hlen : (keep isDebug r).length < (insts f).length := by
      have := List.length_filter_le (fun x => !isDebug x.2) (insts f)
      rw [show (insts f).filter (fun x => !isDebug x.2) = y :: keep isDebug r from hk,
        List.length_cons] at this
      omega
    rw [hk, walk, Iter.new, hs]
    exact visits_eq _ y r _ none 0 0 rfl hlen

theorem insts_cons (block : List ι) (blocks : List (List ι)) (k : Nat) :
    ((block :: blocks).zipIdx k).flatMap (fun (b, p) => b.map (p, ·)) =
      block.map (k, ·) ++ (blocks.zipIdx (k + 1)).flatMap fun (b, p) => b.map (p, ·) := by
  simp [List.zipIdx_cons]

/-- Filtering the blocks or filtering the whole walk is the same. -/
theorem keep_insts (f : List (List ι)) :
    keep isDebug (insts f) = insts (f.map fun block => block.filter fun x => !isDebug x) := by
  have h : ∀ k, keep isDebug ((f.zipIdx k).flatMap fun (b, p) => b.map (p, ·)) =
      ((f.map fun block => block.filter fun x => !isDebug x).zipIdx k).flatMap
        fun (b, p) => b.map (p, ·) := by
    induction f with
    | nil => intro k; rfl
    | cons block f ih =>
      intro k
      rw [insts_cons, List.map_cons, insts_cons, ← ih (k + 1)]
      simp only [keep, List.filter_append, List.filter_map]
      rfl
  exact h 0

/-! ## The numbering from 0 -/

def zeroBlocks : UInt32 → List (List ι) → List (Numbered ι)
  | _, [] => []
  | bb, block :: blocks => numberBlock bb 0 block ++ zeroBlocks (bb + 1) blocks

/-- With `bb` set to the block that is being walked, every boundary is counted. -/
theorem numbers_eq : ∀ (blocks : List (List ι)) (x : ι) (block : List ι) (k : Nat) (bn : UInt32)
    (i : UInt16), (∀ b ∈ blocks, b ≠ []) →
    numbers (some k) bn i ((x :: block).map (k, ·) ++
        (blocks.zipIdx (k + 1)).flatMap fun (b, p) => b.map (p, ·)) =
      numberBlock bn i (x :: block) ++ zeroBlocks (bn + 1) blocks := by
  intro blocks
  induction blocks with
  | nil =>
    intro x block
    induction block generalizing x with
    | nil => intro k bn i _; simp [numbers, numberBlock, zeroBlocks]
    | cons y block ih =>
      intro k bn i hne
      have h := ih y k bn (i + 1) hne
      simp only [List.zipIdx_nil, List.flatMap_nil, List.append_nil, List.map_cons, zeroBlocks]
        at h ⊢
      simp [numbers, numberBlock, h]
  | cons next blocks ihb =>
    intro x block
    induction block generalizing x with
    | nil =>
      intro k bn i hne
      cases next with
      | nil => exact absurd rfl (hne [] (by simp))
      | cons z next =>
        have h := ihb z next (k + 1) (bn + 1) 0 fun b hb => hne b (by simp [hb])
        have hk : some (k + 1) ≠ some k := by simp
        rw [insts_cons]
        simp only [List.map_cons, List.map_nil, List.cons_append, List.nil_append] at h ⊢
        simp [numbers, numberBlock, zeroBlocks, h]
    | cons y block ih =>
      intro k bn i hne
      have h := ih y k bn (i + 1) hne
      simp only [List.map_cons, List.cons_append] at h ⊢
      rw [numbers, if_neg (by simp), h]
      rfl

/-- With two instructions in the entry block the first `advance` stays there and sets `bb`. -/
theorem numbers_entry (x y : ι) (block : List ι) {blocks : List (List ι)}
    (hne : ∀ b ∈ blocks, b ≠ []) :
    numbers none 0 0 (insts ((x :: y :: block) :: blocks)) =
      zeroBlocks 0 ((x :: y :: block) :: blocks) := by
  have hnum := numbers_eq blocks y block 0 0 1 hne
  rw [insts, insts_cons]
  simp only [List.map_cons, List.cons_append] at hnum ⊢
  simp [numbers, hnum, zeroBlocks, numberBlock]

/-! ## Counters -/

theorem append_eq_iff {α : Type*} {a a' b b' : List α} (h : a.length = a'.length) :
    a ++ b = a' ++ b' ↔ a = a' ∧ b = b' :=
  ⟨fun he => List.append_inj he h, fun he => by rw [he.1, he.2]⟩

theorem numberBlock_length (bb : UInt32) (i : UInt16) (block : List ι) :
    (numberBlock bb i block).length = block.length := by
  induction block generalizing i with
  | nil => rfl
  | cons x block ih => simp [numberBlock, ih]

/-- A block is numbered alike when the two block numbers match and the instruction counter that
runs one ahead never wraps to 0. -/
theorem numberBlock_agree (a b : UInt32) (block : List ι) : ∀ j,
    ((numberBlock a (UInt16.ofNat j) block).map Numbered.read =
        (numberBlock b (UInt16.ofNat (j + 1)) block).map Numbered.less ↔
      (block ≠ [] → (a.toNat : Int) = b.toNat - 1) ∧
        ∀ t, j ≤ t → t < j + block.length → (t + 1) % 2 ^ 16 ≠ 0) := by
  induction block with
  | nil => intro j; simp [numberBlock]; omega
  | cons x block ih =>
    intro j
    have hs : ∀ t, UInt16.ofNat t + 1 = UInt16.ofNat (t + 1) := by intro t; simp
    simp only [numberBlock, List.map_cons, List.cons.injEq, hs, ih (j + 1)]
    simp only [Numbered.read, Numbered.less, Prod.mk.injEq, true_and, UInt16.toNat_ofNat',
      List.length_cons, ne_eq, reduceCtorEq, not_false_eq_true, forall_const]
    constructor
    · rintro ⟨⟨hab, hj⟩, _, hrest⟩
      refine ⟨hab, fun t ht htl => ?_⟩
      cases Nat.eq_or_lt_of_le ht with
      | inl he => subst he; omega
      | inr hlt => exact hrest t hlt (by omega)
    · rintro ⟨hab, hall⟩
      have hj := hall j (Nat.le_refl _) (by omega)
      exact ⟨⟨hab, by omega⟩, fun _ => hab, fun t ht htl => hall t (by omega) (by omega)⟩

theorem zeroBlocks_agree (f : List (List ι)) : ∀ k, (∀ b ∈ f, b ≠ []) →
    ((zeroBlocks (UInt32.ofNat k) f).map Numbered.read =
        (numberBlocks (UInt32.ofNat (k + 1)) f).map Numbered.less ↔
      (∀ t, k ≤ t → t < k + f.length → (t + 1) % 2 ^ 32 ≠ 0) ∧
        ∀ b ∈ f, b.length < 2 ^ 16) := by
  induction f with
  | nil => intro k _; simp [zeroBlocks, numberBlocks]; omega
  | cons block f ih =>
    intro k hne
    have hs : ∀ t, UInt32.ofNat t + 1 = UInt32.ofNat (t + 1) := by intro t; simp
    have hblock : block ≠ [] := hne block (by simp)
    have h16 : (∀ t, 0 ≤ t → t < 0 + block.length → (t + 1) % 2 ^ 16 ≠ 0) ↔
        block.length < 2 ^ 16 := by
      constructor
      · intro h
        by_contra hlen
        exact h (2 ^ 16 - 1) (Nat.zero_le _) (by omega) (by decide)
      · intro hlen t _ ht
        omega
    simp only [zeroBlocks, numberBlocks, List.map_append, hs]
    rw [append_eq_iff (by simp [numberBlock_length]), ih (k + 1) fun b hb => hne b (by simp [hb])]
    have hb := numberBlock_agree (UInt32.ofNat k) (UInt32.ofNat (k + 1)) block 0
    rw [h16] at hb
    rw [show (0 : UInt16) = UInt16.ofNat 0 from rfl, show (1 : UInt16) = UInt16.ofNat (0 + 1) from rfl,
      hb]
    simp only [UInt32.toNat_ofNat', List.length_cons, List.mem_cons, forall_eq_or_imp]
    constructor
    · rintro ⟨⟨hab, hlen⟩, hrest, hlens⟩
      have hk := hab hblock
      refine ⟨fun t ht htl => ?_, hlen, hlens⟩
      cases Nat.eq_or_lt_of_le ht with
      | inl he => subst he; omega
      | inr hlt => exact hrest t hlt (by omega)
    · rintro ⟨hall, hlen, hlens⟩
      have hk := hall k (Nat.le_refl _) (by omega)
      exact ⟨⟨fun _ => by omega, hlen⟩, fun t ht htl => hall t (by omega) (by omega), hlens⟩

end Walk

/-! ## The result -/

/-- The entry block has two instructions or is the only block, and no counter wraps. -/
structure Numberable {ι : Type*} (f : List (List ι)) : Prop where
  entry : f.length = 1 ∨ ∀ block ∈ f.head?, 2 ≤ block.length
  blocks : f.length < 2 ^ 32
  sizes : ∀ block ∈ f, block.length < 2 ^ 16

theorem numberable_iff {ι : Type*} {f : List (List ι)}
    (hentry : f.length = 1 ∨ ∀ block ∈ f.head?, 2 ≤ block.length) :
    Numberable f ↔ (∀ t, 0 ≤ t → t < 0 + f.length → (t + 1) % 2 ^ 32 ≠ 0) ∧
      ∀ b ∈ f, b.length < 2 ^ 16 := by
  constructor
  · intro h
    exact ⟨fun t _ ht => by have := h.blocks; omega, h.sizes⟩
  · rintro ⟨hall, hsizes⟩
    refine ⟨hentry, ?_, hsizes⟩
    by_contra hlen
    exact hall (2 ^ 32 - 1) (Nat.zero_le _) (by omega) (by decide)

/-- For a function of non-empty blocks and any debug intrinsics inserted into it, the walk sees the
original instructions with the AddDbg numbers exactly when the function is numberable. -/
theorem agree_iff {ι : Type*} (isDebug : ι → Bool) (f f' : List (List ι)) (hne : f ≠ [])
    (hblocks : ∀ block ∈ f, block ≠ []) (hins : Inserted isDebug f f') :
    Agree isDebug f f' ↔ Numberable f := by
  obtain ⟨block, blocks, rfl⟩ := List.exists_cons_of_ne_nil hne
  obtain ⟨x, block, rfl⟩ := List.exists_cons_of_ne_nil (hblocks block (by simp))
  have hblocks' : ∀ b ∈ blocks, b ≠ [] := fun b hb => hblocks b (by simp [hb])
  have hkeep : keep isDebug (insts f') = (0, x) :: (block.map (0, ·) ++
      (blocks.zipIdx 1).flatMap fun (b, p) => b.map (p, ·)) := by
    rw [keep_insts, hins, insts, insts_cons]
    rfl
  have hwalk : walk isDebug f' = some (numbers none 0 0 (keep isDebug (insts f'))) :=
    walk_eq (by rw [hkeep]; exact List.cons_ne_nil _ _)
  have hagree : Agree isDebug ((x :: block) :: blocks) f' ↔
      (numbers none 0 0 (keep isDebug (insts f'))).map Numbered.read =
        (imap ((x :: block) :: blocks)).map Numbered.less := by
    constructor
    · rintro ⟨vs, hvs, heq⟩
      rw [hwalk] at hvs
      cases hvs
      exact heq
    · intro heq
      exact ⟨_, hwalk, heq⟩
  have hzero := zeroBlocks_agree ((x :: block) :: blocks) 0 hblocks
  rw [hagree, hkeep]
  cases block with
  | cons y block =>
    have hfirst := numbers_entry x y block hblocks'
    rw [insts, insts_cons] at hfirst
    simp only [List.map_cons, List.cons_append, Nat.zero_add] at hfirst ⊢
    rw [hfirst, numberable_iff (.inr (by simp))]
    exact hzero
  | nil =>
    cases blocks with
    | nil =>
      rw [numberable_iff (.inl rfl)]
      have hone : numbers none 0 0 ((0, x) :: (([] : List ι).map (0, ·) ++
          (([] : List (List ι)).zipIdx 1).flatMap fun (b, p) => b.map (p, ·))) =
          zeroBlocks 0 [[x]] := rfl
      rw [hone]
      exact hzero
    | cons next blocks =>
      obtain ⟨y, next, rfl⟩ := List.exists_cons_of_ne_nil (hblocks' next (by simp))
      constructor
      · -- the second instruction is numbered (0, 1) and should be (1, 0)
        intro h
        have h1 := congrArg (fun l => (l[1]?).map fun v => v.2.1) h
        rw [insts_cons] at h1
        simp [numbers, imap, numberBlocks, numberBlock, Numbered.read, Numbered.less] at h1
        obtain ⟨v, hv, hbb⟩ := h1
        rw [numbers_zero] at hv
        cases hv
        simp at hbb
      · intro h
        rcases h.entry with h1 | h2
        · simp at h1
        · have := h2 [x] (by simp)
          simp at this

/-- Instruction 0 is the debug intrinsic of the tests below. -/
def isZero (x : Nat) : Bool := x == 0

theorem agree_iff_two_blocks :
    Inserted isZero [[1, 2], [3]] [[0, 1, 0, 2], [3]] ∧
      (Agree isZero [[1, 2], [3]] [[0, 1, 0, 2], [3]] ↔ Numberable [[1, 2], [3]]) := by
  have hins : Inserted isZero [[1, 2], [3]] [[0, 1, 0, 2], [3]] := by unfold Inserted; decide
  exact ⟨hins, agree_iff isZero _ _ (by simp) (by simp) hins⟩

/-- An entry block of one instruction: the walk gives (0, 1) where AddDbg has (1, 0). -/
theorem single_entry_disagrees :
    Inserted isZero [[1], [2]] [[1], [0, 2]] ∧ ¬ Agree isZero [[1], [2]] [[1], [0, 2]] := by
  refine ⟨by unfold Inserted; decide, ?_⟩
  rintro ⟨vs, hvs, heq⟩
  have hwalk : walk isZero [[1], [0, 2]] = some [⟨1, 0, 0⟩, ⟨2, 0, 1⟩] := by decide
  rw [hwalk] at hvs
  cases hvs
  revert heq
  decide

end CodeInfo
end ChampSim
