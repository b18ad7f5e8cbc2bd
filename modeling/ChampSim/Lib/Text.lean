import Mathlib.Data.Nat.Digits.Defs
import Mathlib.Tactic.IntervalCases

/-!
# ChampSim.Lib.Text

Numbers in text, and fields of a line.

* `ofDigits`  — the value of a row of digits; it undoes `Nat.toDigits` up to base 16.
* `field`     — the longest nonempty run of characters of a class, and what follows.
-/

namespace ChampSim
namespace Lib

section Text

/-! ## Digits -/

def digitVal (c : Char) : Nat := if c.isDigit then c.toNat - 48 else c.toNat - 87

def ofDigits (b : Nat) (cs : List Char) : Nat := cs.foldl (fun n c => b * n + digitVal c) 0

/-- `[0-9a-f]`. -/
def isHex (c : Char) : Bool := c.isDigit || ('a' ≤ c && c ≤ 'f')

theorem digitVal_digitChar {n : Nat} (h : n < 16) : digitVal n.digitChar = n := by
  interval_cases n <;> rfl

theorem isHex_digitChar {n : Nat} (h : n < 16) : isHex n.digitChar = true := by
  interval_cases n <;> rfl

theorem ofDigits_append (b : Nat) (cs : List Char) (c : Char) :
    ofDigits b (cs ++ [c]) = b * ofDigits b cs + digitVal c := by
  simp [ofDigits]

theorem ofDigits_toDigits {b : Nat} (hb : 1 < b) (hb' : b ≤ 16) (n : Nat) :
    ofDigits b (b.toDigits n) = n := by
  induction n using Nat.strongRecOn with
  | ind n ih =>
    rw [Nat.toDigits_eq_if hb]
    split
    · next h => simp [ofDigits, digitVal_digitChar (show n < 16 by omega)]
    · next h =>
      have hmod := Nat.mod_lt n (show b > 0 by omega)
      rw [ofDigits_append, ih (n / b) (Nat.div_lt_self (by omega) hb),
        digitVal_digitChar (show n % b < 16 by omega)]
      exact Nat.div_add_mod n b

theorem isHex_of_mem_toDigits {b : Nat} (hb : 1 < b) (hb' : b ≤ 16) (n : Nat) :
    ∀ c ∈ b.toDigits n, isHex c = true := by
  induction n using Nat.strongRecOn with
  | ind n ih =>
    rw [Nat.toDigits_eq_if hb]
    split
    · next h =>
      intro c hc
      rw [List.mem_singleton.1 hc]
      exact isHex_digitChar (by omega)
    · next h =>
      intro c hc
      cases List.mem_append.1 hc with
      | inl hinit => exact ih (n / b) (Nat.div_lt_self (by omega) hb) c hinit
      | inr hlast =>
        have hmod := Nat.mod_lt n (show b > 0 by omega)
        rw [List.mem_singleton.1 hlast]
        exact isHex_digitChar (by omega)

/-! ## Fields -/

/-- What `p+` matches at the front of a text. -/
def field (p : Char → Bool) (cs : List Char) : Option (List Char × List Char) :=
  if cs.takeWhile p = [] then none else some (cs.takeWhile p, cs.dropWhile p)

/-- The text does not go on with a character of the class. -/
def Stops (p : Char → Bool) (cs : List Char) : Prop := ∀ c ∈ cs.head?, p c = false

theorem takeWhile_append_of_stops {p : Char → Bool} {w rest : List Char} (hw : ∀ c ∈ w, p c = true)
    (hrest : Stops p rest) : (w ++ rest).takeWhile p = w ∧ (w ++ rest).dropWhile p = rest := by
  have hend : rest.takeWhile p = [] ∧ rest.dropWhile p = rest := by
    cases rest with
    | nil => exact ⟨rfl, rfl⟩
    | cons c cs =>
      have hc : p c = false := hrest c rfl
      exact ⟨List.takeWhile_cons_of_neg (by simp [hc]), List.dropWhile_cons_of_neg (by simp [hc])⟩
  rw [List.takeWhile_append_of_pos hw, List.dropWhile_append_of_pos hw, hend.1, hend.2]
  exact ⟨List.append_nil w, rfl⟩

theorem field_append {p : Char → Bool} {w rest : List Char} (hne : w ≠ [])
    (hw : ∀ c ∈ w, p c = true) (hrest : Stops p rest) : field p (w ++ rest) = some (w, rest) := by
  obtain ⟨htake, hdrop⟩ := takeWhile_append_of_stops hw hrest
  rw [field, htake, hdrop, if_neg hne]

theorem field_none {p : Char → Bool} {cs : List Char} (h : Stops p cs) : field p cs = none := by
  cases cs with
  | nil => rfl
  | cons c cs =>
    have hc : p c = false := h c rfl
    simp [field, hc]

end Text

end Lib
end ChampSim
