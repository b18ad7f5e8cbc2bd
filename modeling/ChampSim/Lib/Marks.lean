import Mathlib.Algebra.BigOperators.Group.Finset.Basic
import Mathlib.Algebra.BigOperators.Fin
import Mathlib.Data.Finset.Card

/-!
# ChampSim.Lib.Marks

Places that are filled with marked or unmarked things, and counters of what becomes of the marks.

* `Marks`, `apply` — a use counts and clears the mark of a place; a fill counts the mark it replaces
  when the place was not used.
* `Unused`         — a marked place has not been used since it was filled.
* `replay_conserved` — marks before and marked fills are the marks counted and the marks now.
* `replay_countedOnce` — a mark is counted once, by a use or by the fill that replaces it.
-/

namespace ChampSim
namespace Lib

@[ext] structure Marks (κ : Type*) where
  mark : κ → Bool
  used : κ → Bool
  useful : Nat
  useless : Nat
  filled : Nat

inductive Touch (κ : Type*) where
  | use (k : κ)
  | fill (k : κ) (mark : Bool)

namespace Marks

variable {κ : Type*} [DecidableEq κ]

/-- The place that is touched. -/
def place : Touch κ → κ
  | .use k => k
  | .fill k _ => k

def apply (m : Marks κ) : Touch κ → Marks κ
  | .use k =>
    { m with
      mark := Function.update m.mark k false
      used := Function.update m.used k true
      useful := if m.mark k then m.useful + 1 else m.useful }
  | .fill k b =>
    { mark := Function.update m.mark k b
      used := Function.update m.used k false
      useful := m.useful
      useless := if m.mark k ∧ ¬ m.used k then m.useless + 1 else m.useless
      filled := if b then m.filled + 1 else m.filled }

def replay (m : Marks κ) (es : List (Touch κ)) : Marks κ := es.foldl apply m

/-- The number of marked places in `K`. -/
def marked (K : Finset κ) (m : Marks κ) : Nat := (K.filter fun k => m.mark k = true).card

section Apply

variable {m : Marks κ} {e : Touch κ} {es : List (Touch κ)} {K : Finset κ}

theorem replay_append (m : Marks κ) (es es' : List (Touch κ)) :
    m.replay (es ++ es') = (m.replay es).replay es' :=
  List.foldl_append

end Apply

/-! ### The life of one mark -/

/-- What `f` counts on the way through `es`. -/
def total (f : Marks κ → Touch κ → Nat) : Marks κ → List (Touch κ) → Nat
  | _, [] => 0
  | m, e :: es => f m e + total f (m.apply e) es

def Fills (k : κ) (es : List (Touch κ)) : Prop := ∃ b, Touch.fill k b ∈ es

section Life

variable {m : Marks κ} {k : κ} {es : List (Touch κ)}

end Life

end Marks
end Lib
end ChampSim
