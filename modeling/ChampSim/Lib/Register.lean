import Mathlib.Data.List.Basic
import Mathlib.Data.Nat.Bitwise

/-!
# ChampSim.Lib.Register

A shift register spread over words of `w` bits: the newest bit is the lowest bit of the first word.

* `push`       — one more bit; every word gives its top bit to the next.
* `Holds`      — the words hold the bits `past 0`, `past 1`, ... in order.
* `push_holds` — `push` moves every bit on by one place.
* `fold`       — the XOR of the first `n` bits, `w` at a time.
* `chunk_full`, `chunk_last` — where the chunks of a fold are found in the words.
* `forBits`    — a loop over the lowest `n` bits of one word, with a mask that moves up.
-/

namespace ChampSim
namespace Lib
namespace Register

variable {w : Nat} {past : Nat → Bool}

/-- A bit that comes before all the others. -/
def now (b : Bool) (past : Nat → Bool) : Nat → Bool
  | 0 => b
  | t + 1 => past t

def push (w : Nat) : Bool → List Nat → List Nat
  | _, [] => []
  | b, v :: vs => (v <<< 1 ||| b.toNat) % 2 ^ w :: push w ((v <<< 1 ||| b.toNat).testBit w) vs

def Holds (w : Nat) (past : Nat → Bool) (ws : List Nat) : Prop :=
  ∀ j v, ws[j]? = some v → v < 2 ^ w ∧ ∀ k < w, v.testBit k = past (w * j + k)

theorem holds_nil : Holds w past [] := by
  intro j v h
  simp at h

theorem holds_cons {v : Nat} {vs : List Nat} : Holds w past (v :: vs) ↔
    (v < 2 ^ w ∧ ∀ k < w, v.testBit k = past k) ∧ Holds w (fun t => past (w + t)) vs := by
  constructor
  · intro h
    refine ⟨by simpa using h 0 v rfl, ?_⟩
    intro j u hu
    obtain ⟨hlt, hbits⟩ := h (j + 1) u (by simpa using hu)
    refine ⟨hlt, fun k hk => ?_⟩
    rw [hbits k hk, Nat.mul_succ]
    congr 1
    omega
  · rintro ⟨hv, hvs⟩ j u hu
    cases j with
    | zero =>
      obtain rfl : v = u := by simpa using hu
      simpa using hv
    | succ j =>
      obtain ⟨hlt, hbits⟩ := hvs j u (by simpa using hu)
      refine ⟨hlt, fun k hk => ?_⟩
      rw [hbits k hk]
      show past (w + (w * j + k)) = past (w * (j + 1) + k)
      rw [Nat.mul_succ]
      congr 1
      omega

theorem holds_replicate (n : Nat) : Holds w (fun _ => false) (List.replicate n 0) := by
  intro j v h
  obtain ⟨-, rfl⟩ := by simpa [List.getElem?_replicate] using h
  exact ⟨Nat.two_pow_pos w, fun _ _ => Nat.zero_testBit _⟩

@[simp] theorem push_length (b : Bool) (ws : List Nat) : (push w b ws).length = ws.length := by
  induction ws generalizing b with
  | nil => rfl
  | cons v vs ih => simp [push, ih]

theorem testBit_shiftIn (v k : Nat) (b : Bool) :
    (v <<< 1 ||| b.toNat).testBit k = now b v.testBit k := by
  rw [Nat.testBit_or, Nat.testBit_shiftLeft]
  cases k with
  | zero => cases b <;> simp [now]
  | succ k =>
    have hb : b.toNat.testBit (k + 1) = false := by
      cases b <;> simp [Nat.testBit_succ]
    simp [now, hb]

/-- Every bit is one place older afterwards. -/
theorem push_holds (hw : 0 < w) {b : Bool} {ws : List Nat} (h : Holds w past ws) :
    Holds w (now b past) (push w b ws) := by
  induction ws generalizing b past with
  | nil => exact holds_nil
  | cons v vs ih =>
    obtain ⟨⟨-, hbits⟩, hvs⟩ := holds_cons.1 h
    refine holds_cons.2 ⟨⟨Nat.mod_lt _ (Nat.pow_pos (by omega)), ?_⟩, ?_⟩
    · intro k hk
      rw [Nat.testBit_mod_two_pow, testBit_shiftIn]
      cases k with
      | zero => simp [now, hk]
      | succ k => simpa [now, hk] using hbits k (by omega)
    · -- the bit carried into the next word is the oldest of this one
      have hcarry : (v <<< 1 ||| b.toNat).testBit w = past (w - 1) := by
        obtain ⟨u, rfl⟩ : ∃ u, w = u + 1 := ⟨w - 1, by omega⟩
        rw [testBit_shiftIn]
        exact hbits u (by omega)
      have hnext : now (past (w - 1)) (fun t => past (w + t)) = fun t => now b past (w + t) := by
        funext t
        obtain ⟨u, rfl⟩ : ∃ u, w = u + 1 := ⟨w - 1, by omega⟩
        cases t with
        | zero => rfl
        | succ t =>
          show past (u + 1 + t) = now b past (u + 1 + t + 1)
          rfl
      rw [hcarry, ← hnext]
      exact ih hvs

/-! ### The fold of the first bits -/

/-- Bits `w * t`, ... of the first `n`. -/
def chunk (w : Nat) (past : Nat → Bool) (n t : Nat) : Nat :=
  Nat.ofBits fun k : Fin w => decide (w * t + k < n) && past (w * t + k)

def fold (w : Nat) (past : Nat → Bool) (n : Nat) : Nat :=
  (List.range (n / w + 1)).foldl (fun x t => x ^^^ chunk w past n t) 0

theorem chunk_lt (n t : Nat) : chunk w past n t < 2 ^ w :=
  Nat.ofBits_lt_two_pow _

theorem foldl_chunk_lt (n : Nat) (ts : List Nat) {x : Nat} (hx : x < 2 ^ w) :
    ts.foldl (fun x t => x ^^^ chunk w past n t) x < 2 ^ w := by
  induction ts generalizing x with
  | nil => exact hx
  | cons t ts ih => exact ih (Nat.xor_lt_two_pow hx (chunk_lt n t))

theorem fold_lt (n : Nat) : fold w past n < 2 ^ w :=
  foldl_chunk_lt n _ (Nat.pow_pos (by omega))

section Words

variable {ws : List Nat} {n t v : Nat}

theorem testBit_chunk {k : Nat} (hk : k < w) :
    (chunk w past n t).testBit k = (decide (w * t + k < n) && past (w * t + k)) := by
  rw [chunk, Nat.testBit_ofBits_lt _ _ hk]

theorem chunk_full (h : Holds w past ws) (hv : ws[t]? = some v) (ht : t < n / w) :
    chunk w past n t = v := by
  obtain ⟨hlt, hbits⟩ := h t v hv
  refine Nat.eq_of_testBit_eq fun k => ?_
  rcases Nat.lt_or_ge k w with hk | hk
  · have hle : w * (t + 1) ≤ n := le_trans (Nat.mul_le_mul_left w ht) (Nat.mul_div_le n w)
    have hin : w * t + k < n := by rw [Nat.mul_succ] at hle; omega
    rw [testBit_chunk hk, hbits k hk, decide_eq_true hin, Bool.true_and]
  · rw [Nat.testBit_lt_two_pow (lt_of_lt_of_le (chunk_lt n t) (Nat.pow_le_pow_right (by omega) hk)),
      Nat.testBit_lt_two_pow (lt_of_lt_of_le hlt (Nat.pow_le_pow_right (by omega) hk))]

/-- The last chunk is the low part of a word, and empty when `w` divides `n`. -/
theorem chunk_last (hw : 0 < w) (h : Holds w past ws) (hv : ws[n / w]? = some v) :
    chunk w past n (n / w) = v % 2 ^ (n % w) := by
  obtain ⟨hlt, hbits⟩ := h (n / w) v hv
  have hn : w * (n / w) + n % w = n := Nat.div_add_mod n w
  have hmod : n % w < w := Nat.mod_lt n hw
  refine Nat.eq_of_testBit_eq fun k => ?_
  rw [Nat.testBit_mod_two_pow]
  rcases Nat.lt_or_ge k w with hk | hk
  · rw [testBit_chunk hk, hbits k hk]
    congr 1
    exact decide_eq_decide.2 (by omega)
  · rw [Nat.testBit_lt_two_pow (lt_of_lt_of_le (chunk_lt n _) (Nat.pow_le_pow_right (by omega) hk)),
      Nat.testBit_lt_two_pow (lt_of_lt_of_le hlt (Nat.pow_le_pow_right (by omega) hk)),
      Bool.and_false]

end Words

/-! ### The lowest bits of one word -/

section ForBits

variable {α : Type*} {n : Nat}

/-- `for (mask = 1, i = 0; i < n; i++, mask <<= 1)`; the body is told whether `v & mask`. -/
def forBits (n : Nat) (f : α → Fin n → Bool → α) (v : Nat) (a : α) : α :=
  (Fin.foldl n (fun r i => (f r.1 i (v &&& r.2 != 0), r.2 <<< 1)) (a, 1)).1

theorem and_two_pow_ne_zero (v k : Nat) : (v &&& 2 ^ k != 0) = v.testBit k := by
  rw [Nat.and_two_pow]
  cases v.testBit k <;> simp

/-- The invariant rule, on the number of bits done. -/
theorem forBits_invariant {f : α → Fin n → Bool → α} {v : Nat} {a : α} {P : Nat → α → Prop}
    (h : P 0 a) (hstep : ∀ (i : Fin n) (b : α), P i b → P (i + 1) (f b i (v.testBit i))) :
    P n (forBits n f v a) := by
  have hloop : ∀ (m : Nat) (hm : m ≤ n),
      ∃ b, P m b ∧ Fin.foldl m (fun r i =>
        (f r.1 (i.castLE hm) (v &&& r.2 != 0), r.2 <<< 1)) (a, 1) = (b, 2 ^ m) := by
    intro m
    induction m with
    | zero =>
      intro _
      exact ⟨a, h, by rw [Fin.foldl_zero, pow_zero]⟩
    | succ m ih =>
      intro hm
      obtain ⟨b, hb, hfold⟩ := ih (by omega)
      refine ⟨f b ⟨m, hm⟩ (v.testBit m), hstep ⟨m, hm⟩ b hb, ?_⟩
      rw [Fin.foldl_succ_last]
      have hprev : Fin.foldl m (fun r i => (f r.1 (i.castSucc.castLE hm) (v &&& r.2 != 0),
          r.2 <<< 1)) (a, 1) = (b, 2 ^ m) := hfold
      rw [hprev, and_two_pow_ne_zero, Nat.shiftLeft_eq, ← pow_succ]
      rfl
  obtain ⟨b, hb, hfold⟩ := hloop n le_rfl
  have heq : forBits n f v a = b := congrArg Prod.fst hfold
  rw [heq]
  exact hb

end ForBits

end Register
end Lib
end ChampSim
