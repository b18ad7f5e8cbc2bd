import ChampSim.CodeInfo.CallStack

/-!
# ChampSim.CodeInfo.RealCalls

Ranges that hold a real call next to intrinsic calls (`src/codeinfo/call_stack.cc`).

* `Tracker.onto`    — the same tracker on top of an older vector; what happens above stays above.
* `Recognised`      — the callee is pushed, and its return restores the vector.
* `recognised_iff`  — this holds when the range has no intrinsic and the callee is another function.
* `call_hidden`     — an intrinsic hides the call.
-/

namespace ChampSim
namespace CodeInfo

section RealCalls

variable {φ : Type*}

/-- A call of user code. -/
def RealCall (r : List (Inst φ)) : Prop := ∃ i ∈ r, i.isCall ∧ ¬i.isIntrinsic

def OnlyIntrinsics (r : List (Inst φ)) : Prop := ∀ i ∈ r, i.isCall → i.isIntrinsic

theorem calls_eq_true_iff {r : List (Inst φ)} (hcall : RealCall r) :
    calls (some r) = true ↔ ∀ i ∈ r, ¬i.isIntrinsic := by
  obtain ⟨i, hi, hc, -⟩ := hcall
  have hany : r.any (·.isCall) = true := List.any_eq_true.2 ⟨i, hi, hc⟩
  simp [calls, isInstrType, hany]

theorem calls_of_onlyIntrinsics {r : List (Inst φ)} (h : OnlyIntrinsics r) :
    calls (some r) = false := by
  cases hc : r.any (·.isCall) with
  | false => simp [calls, isInstrType, hc]
  | true =>
    obtain ⟨i, hi, hcall⟩ := List.any_eq_true.1 hc
    have hany : r.any (·.isIntrinsic) = true := List.any_eq_true.2 ⟨i, hi, h i hi hcall⟩
    simp [calls, isInstrType, hany]

theorem stream_append (ms ns : List (Move φ)) : stream (ms ++ ns) = stream ms ++ stream ns := by
  induction ms with
  | nil => rfl
  | cons m ms ih =>
    rw [List.cons_append, stream_cons, ih, stream_cons m ms, List.append_assoc]

/-! ## On top of an older vector -/

def Tracker.onto (s : List φ) (t : Tracker φ) : Tracker φ := { t with callStk := s ++ t.callStk }

@[simp] theorem Tracker.onto_callStk (s : List φ) (t : Tracker φ) :
    (t.onto s).callStk = s ++ t.callStk := rfl

variable [DecidableEq φ] {s : List φ} {t : Tracker φ} {f g : φ} {r : List (Inst φ)}

/-- Only what was pushed above is popped. -/
theorem Follows.move_onto {path : List φ} {last : Option (List (Inst φ))}
    (h : Follows t ⟨f :: path, last⟩) : (t.onto s).move (some f) = s ++ t.move (some f) := by
  cases h with
  | initial ht => simp [ht, Tracker.onto, Tracker.move, Tracker.new]
  | synced hf hs hc hr => simp [Tracker.onto, Tracker.move, hf]
  | called hf hs hc =>
    simp only [Tracker.onto, Tracker.move, hf, hc, if_true]
    split
    · rw [List.append_assoc]
    · rfl
  | @returned _ g path hf hs hc hr =>
    simp only [Tracker.onto, Tracker.move, hf, hc, hr, if_true, hs]
    split
    · rename_i hg
      rw [tracked_push (Ne.symm hg), ← List.append_assoc]
      simp
    · rfl

theorem Follows.retire_onto {e e' : Exec φ} (h : Follows t e)
    (hm : e.step (.retire r) = some e') :
    ((t.onto s).updateImpl (some r)).2 = ((t.updateImpl (some r)).2).onto s := by
  simp only [Exec.step, Option.ite_none_right_eq_some, Option.some.injEq] at hm
  obtain ⟨⟨hne, hall⟩, rfl⟩ := hm
  obtain ⟨path, last⟩ := e
  cases path with
  | nil =>
    obtain ⟨i, hi⟩ := List.exists_mem_of_ne_nil r hne
    have := hall i hi
    simp at this
  | cons f path =>
    have hfunc : getFunc (some r) = some f := getFunc_of_forall hne hall
    simp only [Tracker.updateImpl, hfunc, h.move_onto]
    rfl

theorem Follows.feed_onto {e e' : Exec φ} {ms : List (Move φ)} (h : Follows t e)
    (hm : e.run ms = some e') : (t.onto s).feed (stream ms) = (t.feed (stream ms)).onto s := by
  induction ms generalizing t e with
  | nil => rfl
  | cons m ms ih =>
    simp only [Exec.run, Option.bind_eq_some_iff] at hm
    obtain ⟨e₁, h₁, h₂⟩ := hm
    have hfirst : (t.onto s).feed (stream [m]) = (t.feed (stream [m])).onto s := by
      cases m with
      | retire r => exact h.retire_onto h₁
      | call callee => rfl
      | ret => rfl
    rw [stream_cons, Tracker.feed_append, Tracker.feed_append, hfirst]
    exact ih (h.step h₁) h₂

/-! ## Recognised calls -/

/-- After `r`, the last instruction of the caller `f`, the first instruction of `g` pushes `g`, and
after the last one of `g` the next instruction of `f` finds the vector as it was. -/
def Recognised (t : Tracker φ) (r : List (Inst φ)) (f g : φ) : Prop :=
  (∀ q, OfFunc g q →
    (t.feed [some r, some q]).callStk = (t.feed [some r]).callStk ++ [g]) ∧
  ∀ ms q r', Body g ms → OfFunc g q → (∃ i ∈ q, i.isReturn) → (∀ i ∈ q, ¬i.isCall) →
    OfFunc f r' →
    (t.feed (some r :: stream ms ++ [some q, some r'])).callStk = (t.feed [some r]).callStk

/-- Whatever retires next, it pushes nothing. -/
def NeverPushes (t : Tracker φ) (r : List (Inst φ)) : Prop :=
  ∀ q : InstRange φ, (t.feed [some r, q]).callStk = (t.feed [some r]).callStk ∨
    (t.feed [some r, q]).callStk = (t.feed [some r]).callStk.dropLast

omit [DecidableEq φ] in
theorem OfFunc.getFunc (h : OfFunc f r) : CodeInfo.getFunc (some r) = some f :=
  getFunc_of_forall h.1 fun i hi => congrArg some (h.2 i hi).symm

theorem feed_pair (t : Tracker φ) (r : List (Inst φ)) (q : InstRange φ) :
    (t.feed [some r, q]).callStk = (t.feed [some r]).move (getFunc q) := rfl

theorem feed_move (t : Tracker φ) (hr : OfFunc f r) (g : φ) :
    (t.feed [some r]).move (some g) =
      if f ≠ g then
        if calls (some r) then (t.feed [some r]).callStk ++ [g]
        else if returns (some r) then (t.feed [some r]).callStk.dropLast
        else (t.feed [some r]).callStk
      else (t.feed [some r]).callStk := by
  have hfunc : (t.feed [some r]).prevFunc = some f := hr.getFunc
  simp only [Tracker.move, hfunc]
  rfl

theorem push_iff (t : Tracker φ) (hr : OfFunc f r) (g : φ) :
    (t.feed [some r]).move (some g) = (t.feed [some r]).callStk ++ [g] ↔
      f ≠ g ∧ calls (some r) = true := by
  have hpush : ∀ stk : List φ, stk ≠ stk ++ [g] := by
    intro stk h
    have := congrArg List.length h
    simp at this
  have hpop : ∀ stk : List φ, stk.dropLast ≠ stk ++ [g] := by
    intro stk h
    have := congrArg List.length h
    simp at this
  rw [feed_move t hr]
  split
  · rename_i hfg
    split
    · rename_i hc
      simp [hfg, hc]
    · rename_i hc
      split
      · simp [hc, hpop]
      · simp [hc, hpush]
  · rename_i hfg
    simp [hfg, hpush]

theorem neverPushes (t : Tracker φ) (hr : OfFunc f r) (h : OnlyIntrinsics r) :
    NeverPushes t r := by
  intro q
  rw [feed_pair]
  cases hq : getFunc q with
  | none => exact .inl (Tracker.move_none _)
  | some g =>
    rw [feed_move t hr, calls_of_onlyIntrinsics h]
    split
    · simp only [Bool.false_eq_true, if_false]
      split
      · exact .inr rfl
      · exact .inl rfl
    · exact .inl rfl

/-- The tracker after a recognised call follows the execution from there, on top of its vector. -/
theorem follows_after (t : Tracker φ) (hr : OfFunc f r) :
    ∃ u, t.feed [some r] = Tracker.onto (t.feed [some r]).callStk u ∧
      Follows u ⟨[f], some r⟩ := by
  refine ⟨{ t.feed [some r] with callStk := [] }, ?_, ?_⟩
  · simp [Tracker.onto]
  · exact .synced hr.getFunc rfl rfl rfl

theorem return_restores (t : Tracker φ) (hr : OfFunc f r) (hcall : ∃ i ∈ r, i.isCall)
    (hintr : ∀ i ∈ r, ¬i.isIntrinsic) {ms : List (Move φ)} {q r' : List (Inst φ)}
    (hms : Body g ms) (hq : OfFunc g q) (hret : ∃ i ∈ q, i.isReturn) (hnocall : ∀ i ∈ q, ¬i.isCall)
    (hr' : OfFunc f r') :
    (t.feed (some r :: stream ms ++ [some q, some r'])).callStk = (t.feed [some r]).callStk := by
  obtain ⟨u, hu, hfollows⟩ := follows_after t hr
  have hrun : (Exec.mk [f] (some r)).run (.call g :: (ms ++ [.retire q, .ret, .retire r'])) =
      some ⟨[f], some r'⟩ := by
    have hstep : (Exec.mk [f] (some r)).step (.call g) = some ⟨[g, f], none⟩ :=
      if_pos ⟨hcall, hintr⟩
    have hback : (Exec.mk [g, f] (some q)).step .ret = some ⟨[f], none⟩ :=
      if_pos ⟨hret, hnocall⟩
    obtain ⟨last, hbody⟩ := hms.run [f] none
    rw [Exec.run, hstep, Option.bind_some, Exec.run_append, hbody, Option.bind_some, Exec.run,
      Exec.step_retire hq, Option.bind_some, Exec.run, hback, Option.bind_some, Exec.run,
      Exec.step_retire hr']
    rfl
  have hstream : stream (.call g :: (ms ++ [.retire q, .ret, .retire r'])) =
      stream ms ++ [some q, some r'] := stream_append ms _
  have hend := hfollows.run hrun
  have honto := hfollows.feed_onto (s := (t.feed [some r]).callStk) hrun
  rw [hstream] at hend honto
  rw [← hu] at honto
  rw [List.cons_append, ← List.singleton_append, Tracker.feed_append, honto,
    Tracker.onto_callStk]
  cases hend with
  | synced hf hs hc hr => rw [hs, tracked_root, List.append_nil]

theorem recognised_iff (t : Tracker φ) (hr : OfFunc f r) (g : φ) :
    (RealCall r → Recognised t r f g) ∧ (OnlyIntrinsics r → NeverPushes t r) ↔
      (RealCall r → f ≠ g ∧ ∀ i ∈ r, ¬i.isIntrinsic) := by
  constructor
  · rintro ⟨h, -⟩ hcall
    have hq : OfFunc g [Inst.mk g false false false] := ⟨by simp, by simp⟩
    have hpush := (h hcall).1 _ hq
    rw [feed_pair, hq.getFunc, push_iff t hr, calls_eq_true_iff hcall] at hpush
    exact hpush
  · intro h
    refine ⟨fun hcall => ?_, neverPushes t hr⟩
    obtain ⟨hfg, hintr⟩ := h hcall
    obtain ⟨i, hi, hc, -⟩ := id hcall
    refine ⟨fun q hq => ?_, fun ms q r' hms hq hret hnocall hr' =>
      return_restores t hr ⟨i, hi, hc⟩ hintr hms hq hret hnocall hr'⟩
    rw [feed_pair, hq.getFunc, push_iff t hr, calls_eq_true_iff hcall]
    exact ⟨hfg, hintr⟩

theorem recognised_iff_plain :
    Recognised (Tracker.new (φ := Nat)) [⟨0, false, false, false⟩, ⟨0, true, false, false⟩] 0 1 :=
  ((recognised_iff Tracker.new (r := [⟨0, false, false, false⟩, ⟨0, true, false, false⟩])
    ⟨by simp, by simp⟩ 1).2 fun _ => ⟨by decide, by decide⟩).1 ⟨_, .tail _ (.head _), by decide⟩

/-- A call next to an intrinsic: the callee is not pushed. -/
theorem call_hidden :
    let r := [Inst.mk 0 true true false, Inst.mk 0 true false false]
    let q := [Inst.mk 1 false false false]
    RealCall r ∧ (Tracker.new.feed [some r, some q]).callStk ≠
      (Tracker.new.feed [some r]).callStk ++ [1] := by
  refine ⟨⟨_, .tail _ (.head _), by decide⟩, by decide⟩

end RealCalls

end CodeInfo
end ChampSim
