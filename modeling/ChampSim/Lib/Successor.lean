import Mathlib.Data.List.Basic

/-!
# ChampSim.Lib.Successor

What follows an element in a sequence that grows at its end.

* `successor l a`    — what stands after the latest `a` of `l` that has something after it.
* `FollowedBy l a b` — the same as a relation on the sequence.
* `successor_concat` — one element more changes the successor of the last element only.
* `chain f n x`      — `f x`, `f (f x)`, ..., at most `n`, up to the first that is missing.
* `moments P l`      — the elements of `l` of which `P` holds, told all that came before them.
-/

namespace ChampSim
namespace Lib

section Successor

variable {α : Type*} [DecidableEq α]

def successor : List α → α → Option α
  | [], _ => none
  | x :: l, a => (successor l a).or (if x = a then l.head? else none)

/-- `b` stands after an `a` that is the last one to be followed. -/
def FollowedBy (l : List α) (a b : α) : Prop :=
  ∃ before after, l = before ++ a :: b :: after ∧ a ∉ (b :: after).dropLast

theorem successor_eq_none {l : List α} {a : α} : successor l a = none ↔ a ∉ l.dropLast := by
  induction l with
  | nil => simp [successor]
  | cons x l ih =>
    cases l with
    | nil => simp [successor]
    | cons y l =>
      rw [successor, Option.or_eq_none_iff, ih, List.dropLast_cons_cons, List.mem_cons, not_or,
        and_comm]
      by_cases hx : x = a
      · simp [hx]
      · simp [hx, Ne.symm hx]

theorem successor_eq_some {l : List α} {a b : α} :
    successor l a = some b ↔ FollowedBy l a b := by
  induction l with
  | nil => simp [successor, FollowedBy]
  | cons x l ih =>
    rw [successor, Option.or_eq_some_iff, ih]
    constructor
    · rintro (⟨before, after, rfl, hlast⟩ | ⟨hnone, hhead⟩)
      · exact ⟨x :: before, after, rfl, hlast⟩
      · rw [ite_eq_iff] at hhead
        obtain ⟨rfl, hhead⟩ | ⟨-, hhead⟩ := hhead
        · obtain ⟨after, rfl⟩ := List.head?_eq_some_iff.mp hhead
          exact ⟨[], after, rfl, successor_eq_none.mp hnone⟩
        · cases hhead
    · rintro ⟨before, after, hl, hlast⟩
      cases before with
      | nil =>
        obtain ⟨rfl, rfl⟩ := List.cons.inj hl
        exact .inr ⟨successor_eq_none.mpr hlast, by simp⟩
      | cons z before =>
        obtain ⟨rfl, rfl⟩ := List.cons.inj hl
        exact .inl ⟨before, after, rfl, hlast⟩

theorem successor_concat (l : List α) (x a : α) :
    successor (l ++ [x]) a = if l.getLast? = some a then some x else successor l a := by
  induction l with
  | nil => simp [successor]
  | cons z l ih =>
    rw [List.cons_append, successor, ih]
    cases l with
    | nil => by_cases hz : z = a <;> simp [successor, hz]
    | cons y l =>
      rw [List.getLast?_cons_cons]
      by_cases hlast : (y :: l).getLast? = some a
      · rw [if_pos hlast, if_pos hlast, Option.some_or]
      · rw [if_neg hlast, if_neg hlast]
        rfl

end Successor

section Chain

variable {α : Type*}

def chain (f : α → Option α) : Nat → α → List α
  | 0, _ => []
  | n + 1, x =>
    match f x with
    | some y => y :: chain f n y
    | none => []

end Chain

section Moments

variable {α : Type*} (P : List α → α → Prop) [∀ l a, Decidable (P l a)]

def momentsFrom : List α → List α → List α
  | _, [] => []
  | before, a :: l =>
    (if P before a then [a] else []) ++ momentsFrom (before ++ [a]) l

def moments (l : List α) : List α := momentsFrom P [] l

theorem momentsFrom_append (before l l' : List α) :
    momentsFrom P before (l ++ l') = momentsFrom P before l ++ momentsFrom P (before ++ l) l' := by
  induction l generalizing before with
  | nil => simp [momentsFrom]
  | cons a l ih => simp [momentsFrom, ih]

theorem moments_concat (l : List α) (a : α) :
    moments P (l ++ [a]) = moments P l ++ if P l a then [a] else [] := by
  rw [moments, momentsFrom_append]
  simp [moments, momentsFrom]

end Moments

end Lib
end ChampSim
