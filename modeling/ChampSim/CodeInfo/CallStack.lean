import Mathlib.Data.List.Destutter

/-!
# ChampSim.CodeInfo.CallStack

The call-stack tracker of `src/codeinfo/call_stack.cc`, and what it follows.

* `Tracker`   — the static variables of that file; `updateImpl` is the source's function.
* `Exec`      — a well-nested execution of user functions: the active functions and the last
  instruction the innermost of them retired.
* `tracked`   — the active functions without the root, adjacent equal ones counted once.

Instructions that retire see only the tracker's side: it infers a call or a return from the previous
instruction's flags and a change of function. `run_call_stk` says that this is enough when every
instruction is one of user code. Library instructions (a null range) are not always transparent;
`transparent_iff` says where they are.
-/

namespace ChampSim
namespace CodeInfo

section CallStack

variable {φ : Type*}

/-! ## The tracker -/

/-- An `llvm::Instruction`: its parent function and which of the classes asked for it is in. -/
structure Inst (φ : Type*) where
  func : φ
  isCall : Bool
  isIntrinsic : Bool
  isReturn : Bool
deriving DecidableEq

/-- `llvm_info::inst_range*`; `none` is the null pointer. -/
abbrev InstRange (φ : Type*) := Option (List (Inst φ))

def getFunc : InstRange φ → Option φ
  | none => none
  | some r => r.getLast?.map (·.func)

def isInstrType (isa : Inst φ → Bool) : InstRange φ → Bool
  | none => false
  | some r => r.any isa

def stkSize : Nat := 10

/-- The result type `call_stack`; `none` stands for `nullptr`. -/
structure CallStack (φ : Type*) where
  valid : Bool
  callStk : Fin stkSize → Option φ

/-- The constructor: the top of the vector is copied from its back, the rest filled. -/
def CallStack.new (valid : Bool) (stk : List φ) : CallStack φ where
  valid := valid
  callStk k :=
    if k.val < min stkSize stk.length then stk.reverse[k.val]? else none

/-- The static variables; the back of the vector `callStk` is the end of the list. -/
structure Tracker (φ : Type*) where
  prevFunc : Option φ
  callStk : List φ
  prevCall : Bool
  prevRet : Bool
deriving DecidableEq

def Tracker.new : Tracker φ := ⟨none, [], false, false⟩

/-- The array holds the most recent functions first and `nullptr` past the vector's end. -/
theorem CallStack.new_callStk (valid : Bool) (stk : List φ) (k : Fin stkSize) :
    (CallStack.new valid stk).callStk k = stk.reverse[k.val]? := by
  simp only [CallStack.new]
  split
  · rfl
  · have hk := k.isLt
    rw [List.getElem?_eq_none]
    rw [List.length_reverse]
    omega

def calls (r : InstRange φ) : Bool := isInstrType (·.isCall) r && !isInstrType (·.isIntrinsic) r

def returns (r : InstRange φ) : Bool := isInstrType (·.isReturn) r

theorem calls_eq_true {r : List (Inst φ)} (hc : ∃ i ∈ r, i.isCall)
    (hi : ∀ i ∈ r, ¬i.isIntrinsic) : calls (some r) = true := by
  have hany : r.any (·.isCall) = true := List.any_eq_true.2 hc
  have hnone : r.any (·.isIntrinsic) = false := by
    rw [List.any_eq_false]
    exact hi
  simp [calls, isInstrType, hany, hnone]

theorem calls_eq_false {r : List (Inst φ)} (hc : ∀ i ∈ r, ¬i.isCall) :
    calls (some r) = false := by
  have hnone : r.any (·.isCall) = false := by
    rw [List.any_eq_false]
    exact hc
  simp [calls, isInstrType, hnone]

theorem returns_eq_true {r : List (Inst φ)} (hr : ∃ i ∈ r, i.isReturn) :
    returns (some r) = true := List.any_eq_true.2 hr

theorem getFunc_of_forall {r : List (Inst φ)} {f : φ} (hne : r ≠ [])
    (h : ∀ i ∈ r, some f = some i.func) : getFunc (some r) = some f := by
  have hlast : r.getLast? = some (r.getLast hne) := List.getLast?_eq_getLast_of_ne_nil hne
  have hfunc := h _ (List.getLast_mem hne)
  simp only [getFunc, hlast, Option.map_some]
  exact hfunc.symm

variable [DecidableEq φ]

/-- What an instruction of function `curr` does to the vector. -/
def Tracker.move (t : Tracker φ) (curr : Option φ) : List φ :=
  match t.prevFunc, curr with
  | some prev, some curr =>
    if prev ≠ curr then
      if t.prevCall then t.callStk ++ [curr]
      else if t.prevRet then t.callStk.dropLast
      else t.callStk
    else t.callStk
  | _, _ => t.callStk

/-- `code_info_impl<call_stack>::update_impl`. -/
def Tracker.updateImpl (t : Tracker φ) (r : InstRange φ) : CallStack φ × Tracker φ :=
  let curr := getFunc r
  let stk := t.move curr
  (CallStack.new curr.isSome stk, ⟨curr, stk, calls r, returns r⟩)

/-- The static variables after the instructions of a stream. -/
def Tracker.feed (t : Tracker φ) (rs : List (InstRange φ)) : Tracker φ :=
  rs.foldl (fun t r => (t.updateImpl r).2) t

@[simp] theorem Tracker.feed_nil (t : Tracker φ) : t.feed [] = t := rfl

@[simp] theorem Tracker.feed_append (t : Tracker φ) (rs ss : List (InstRange φ)) :
    t.feed (rs ++ ss) = (t.feed rs).feed ss := by
  simp [Tracker.feed]

@[simp] theorem Tracker.feed_singleton (t : Tracker φ) (r : InstRange φ) :
    t.feed [r] = (t.updateImpl r).2 := rfl

theorem Tracker.feed_callStk (t : Tracker φ) (r : InstRange φ) :
    (t.updateImpl r).2.callStk = t.move (getFunc r) := rfl

/-! ## Executions of user functions -/

/-- The active functions, innermost first, and the range of the instruction that the innermost one
retired last, if it has retired one since it last got control. -/
structure Exec (φ : Type*) where
  path : List φ
  last : Option (List (Inst φ))
deriving DecidableEq

inductive Move (φ : Type*) where
  | retire (r : List (Inst φ))
  | call (callee : φ)
  | ret

def Exec.start (root : φ) : Exec φ := ⟨[root], none⟩

/-- A range is of the function being executed; a caller's last instruction holds a call and no
intrinsic, a callee's last one a return and no call. -/
def Exec.step (e : Exec φ) : Move φ → Option (Exec φ)
  | .retire r =>
    if r ≠ [] ∧ ∀ i ∈ r, e.path.head? = some i.func then some ⟨e.path, some r⟩ else none
  | .call callee =>
    match e.last with
    | some r =>
      if (∃ i ∈ r, i.isCall) ∧ ∀ i ∈ r, ¬i.isIntrinsic then some ⟨callee :: e.path, none⟩
      else none
    | none => none
  | .ret =>
    match e.last, e.path with
    | some r, _ :: caller :: path =>
      if (∃ i ∈ r, i.isReturn) ∧ ∀ i ∈ r, ¬i.isCall then some ⟨caller :: path, none⟩ else none
    | _, _ => none

def Exec.run (e : Exec φ) : List (Move φ) → Option (Exec φ)
  | [] => some e
  | m :: ms => (e.step m).bind fun e' => e'.run ms

/-- The stream of retired instructions of an execution. -/
def stream : List (Move φ) → List (InstRange φ)
  | [] => []
  | .retire r :: ms => some r :: stream ms
  | _ :: ms => stream ms

omit [DecidableEq φ] in
theorem stream_cons (m : Move φ) (ms : List (Move φ)) :
    stream (m :: ms) = stream [m] ++ stream ms := by
  cases m <;> rfl

theorem Exec.run_append (e : Exec φ) (ms ns : List (Move φ)) :
    e.run (ms ++ ns) = (e.run ms).bind fun e' => e'.run ns := by
  induction ms generalizing e with
  | nil => rfl
  | cons m ms ih => simp [Exec.run, ih, Option.bind_assoc]

def OfFunc (f : φ) (r : List (Inst φ)) : Prop := r ≠ [] ∧ ∀ i ∈ r, i.func = f

/-- The moves of one activation of `f` up to its last instruction: a call tree, written out. -/
inductive Body : φ → List (Move φ) → Prop where
  | nil {f : φ} : Body f []
  | retire {f : φ} {r : List (Inst φ)} {ms : List (Move φ)} (hr : OfFunc f r) (hms : Body f ms) :
      Body f (.retire r :: ms)
  | call {f g : φ} {r q : List (Inst φ)} {ms ns : List (Move φ)} (hr : OfFunc f r)
      (hcall : (∃ i ∈ r, i.isCall) ∧ ∀ i ∈ r, ¬i.isIntrinsic) (hms : Body g ms) (hq : OfFunc g q)
      (hret : (∃ i ∈ q, i.isReturn) ∧ ∀ i ∈ q, ¬i.isCall) (hns : Body f ns) :
      Body f (.retire r :: .call g :: (ms ++ .retire q :: .ret :: ns))

theorem Exec.step_retire {f : φ} {r : List (Inst φ)} (hr : OfFunc f r) (path : List φ)
    (last : Option (List (Inst φ))) :
    (Exec.mk (f :: path) last).step (.retire r) = some ⟨f :: path, some r⟩ := by
  have hall : ∀ i ∈ r, (f :: path).head? = some i.func := by
    intro i hi
    rw [hr.2 i hi, List.head?_cons]
  exact if_pos ⟨hr.1, hall⟩

/-- Every call tree is an execution, and it ends where it began. -/
theorem Body.run {f : φ} {ms : List (Move φ)} (h : Body f ms) (path : List φ)
    (last : Option (List (Inst φ))) :
    ∃ last', (Exec.mk (f :: path) last).run ms = some ⟨f :: path, last'⟩ := by
  induction h generalizing path last with
  | nil => exact ⟨last, rfl⟩
  | retire hr hms ih =>
    obtain ⟨last', h'⟩ := ih path _
    exact ⟨last', by rw [Exec.run, Exec.step_retire hr]; exact h'⟩
  | @call f g r q ms ns hr hcall hms hq hret hns ihBody ihRest =>
    obtain ⟨lastBody, hbody⟩ := ihBody (f :: path) none
    obtain ⟨last', hrest⟩ := ihRest path none
    refine ⟨last', ?_⟩
    have hstep : (Exec.mk (f :: path) (some r)).step (.call g) = some ⟨g :: f :: path, none⟩ :=
      if_pos hcall
    have hback : (Exec.mk (g :: f :: path) (some q)).step .ret = some ⟨f :: path, none⟩ :=
      if_pos hret
    rw [Exec.run, Exec.step_retire hr, Option.bind_some, Exec.run, hstep, Option.bind_some,
      Exec.run_append, hbody, Option.bind_some, Exec.run, Exec.step_retire hq, Option.bind_some,
      Exec.run, hback, Option.bind_some, hrest]

/-- The path from the root, adjacent equal functions counted once, without the root; the innermost
function is last. -/
def tracked (path : List φ) : List φ := (path.destutter (· ≠ ·)).dropLast.reverse

@[simp] theorem tracked_root (f : φ) : tracked [f] = [] := rfl

theorem tracked_same (f : φ) (path : List φ) : tracked (f :: f :: path) = tracked (f :: path) := by
  simp [tracked, List.destutter_cons']

theorem tracked_push {f g : φ} (h : f ≠ g) (path : List φ) :
    tracked (g :: f :: path) = tracked (f :: path) ++ [g] := by
  have hne : (f :: path).destutter (· ≠ ·) ≠ [] := by
    intro h0
    simp [List.destutter_eq_nil] at h0
  have hcons : (g :: f :: path).destutter (· ≠ ·) = g :: (f :: path).destutter (· ≠ ·) := by
    rw [List.destutter_cons_cons, if_pos (Ne.symm h), List.destutter_cons']
  rw [tracked, hcons, List.dropLast_cons_of_ne_nil hne, List.reverse_cons]
  rfl

/-! ## The tracker follows an execution -/

/-- The tracker has seen the instructions of an execution that is now at `e`. -/
inductive Follows (t : Tracker φ) : Exec φ → Prop where
  | initial {f : φ} (h : t = Tracker.new) : Follows t ⟨[f], none⟩
  | synced {f : φ} {path : List φ} {r : List (Inst φ)} (hf : t.prevFunc = some f)
      (hs : t.callStk = tracked (f :: path)) (hc : t.prevCall = calls (some r))
      (hr : t.prevRet = returns (some r)) : Follows t ⟨f :: path, some r⟩
  | called {f g : φ} {path : List φ} (hf : t.prevFunc = some f)
      (hs : t.callStk = tracked (f :: path)) (hc : t.prevCall = true) :
      Follows t ⟨g :: f :: path, none⟩
  | returned {f g : φ} {path : List φ} (hf : t.prevFunc = some g)
      (hs : t.callStk = tracked (g :: f :: path)) (hc : t.prevCall = false)
      (hr : t.prevRet = true) : Follows t ⟨f :: path, none⟩

/-- The move an instruction of the innermost function makes brings the vector to the path. -/
theorem Follows.move {t : Tracker φ} {f : φ} {path : List φ} {last : Option (List (Inst φ))}
    (h : Follows t ⟨f :: path, last⟩) : t.move (some f) = tracked (f :: path) := by
  cases h with
  | initial ht => simp [ht, Tracker.move, Tracker.new]
  | synced hf hs hc hr => simp [Tracker.move, hf, hs]
  | @called g _ path hf hs hc =>
    simp only [Tracker.move, hf, hc, if_true, hs]
    by_cases hg : g = f
    · rw [if_neg (not_not.2 hg), hg, tracked_same]
    · rw [if_pos hg, tracked_push hg]
  | @returned _ g path hf hs hc hr =>
    simp only [Tracker.move, hf, hc, hr, if_true, hs]
    by_cases hg : g = f
    · rw [if_neg (not_not.2 hg), hg, tracked_same]
    · rw [if_pos hg, tracked_push (Ne.symm hg)]
      simp

/-- A retired instruction leaves the vector at the path and the tracker in step. -/
theorem Follows.retire {t : Tracker φ} {e e' : Exec φ} {r : List (Inst φ)} (h : Follows t e)
    (hm : e.run [.retire r] = some e') :
    (t.updateImpl (some r)).2.callStk = tracked e'.path ∧ (getFunc (some r)).isSome ∧
      Follows (t.updateImpl (some r)).2 e' := by
  simp only [Exec.run, Exec.step, Option.bind_eq_some_iff, Option.ite_none_right_eq_some,
    Option.some.injEq] at hm
  obtain ⟨_, ⟨⟨hne, hall⟩, rfl⟩, rfl⟩ := hm
  obtain ⟨path, last⟩ := e
  cases path with
  | nil =>
    obtain ⟨i, hi⟩ := List.exists_mem_of_ne_nil r hne
    have := hall i hi
    simp at this
  | cons f path =>
    have hfunc : getFunc (some r) = some f := getFunc_of_forall hne hall
    have hstk : (t.updateImpl (some r)).2.callStk = tracked (f :: path) := by
      rw [Tracker.feed_callStk, hfunc]
      exact h.move
    exact ⟨hstk, by simp [hfunc], .synced hfunc hstk rfl rfl⟩

/-- One step of the execution; only a retired instruction reaches the tracker. -/
theorem Follows.step {t : Tracker φ} {e e' : Exec φ} {m : Move φ} (h : Follows t e)
    (hm : e.step m = some e') : Follows (t.feed (stream [m])) e' := by
  cases m with
  | retire r =>
    exact (h.retire (by simpa [Exec.run] using hm)).2.2
  | call callee =>
    cases h with
    | initial ht => simp [Exec.step] at hm
    | @synced f path r hf hs hc hr =>
      simp only [Exec.step, Option.ite_none_right_eq_some, Option.some.injEq] at hm
      obtain ⟨⟨hcall, hintr⟩, rfl⟩ := hm
      exact .called hf hs (hc.trans (calls_eq_true hcall hintr))
    | called hf hs hc => simp [Exec.step] at hm
    | returned hf hs hc hr => simp [Exec.step] at hm
  | ret =>
    cases h with
    | initial ht => simp [Exec.step] at hm
    | @synced f path r hf hs hc hr =>
      cases path with
      | nil => simp [Exec.step] at hm
      | cons g path =>
        simp only [Exec.step, Option.ite_none_right_eq_some, Option.some.injEq] at hm
        obtain ⟨⟨hret, hcall⟩, rfl⟩ := hm
        exact .returned hf hs (hc.trans (calls_eq_false hcall)) (hr.trans (returns_eq_true hret))
    | called hf hs hc => simp [Exec.step] at hm
    | returned hf hs hc hr => simp [Exec.step] at hm

theorem Follows.run {t : Tracker φ} {e e' : Exec φ} {ms : List (Move φ)} (h : Follows t e)
    (hm : e.run ms = some e') : Follows (t.feed (stream ms)) e' := by
  induction ms generalizing t e with
  | nil =>
    cases hm
    exact h
  | cons m ms ih =>
    simp only [Exec.run, Option.bind_eq_some_iff] at hm
    obtain ⟨e₁, h₁, h₂⟩ := hm
    rw [stream_cons, Tracker.feed_append]
    exact ih (h.step h₁) h₂

/-- After each retired instruction the vector is the collapsed path, whatever was called and
returned from before, and the result is valid and shows the top of the path. -/
theorem run_call_stk {root : φ} {ms : List (Move φ)} {r : List (Inst φ)} {e : Exec φ}
    (h : (Exec.start root).run (ms ++ [.retire r]) = some e) :
    let out := (Tracker.new.feed (stream ms)).updateImpl (some r)
    out.2.callStk = tracked e.path ∧ out.1.valid = true ∧
      (∀ k : Fin stkSize, out.1.callStk k = (tracked e.path).reverse[k.val]?) ∧
      ∀ (ns : List (Move φ)) (r' : List (Inst φ)) (e' : Exec φ),
        (Exec.start root).run (ms ++ [.retire r] ++ ns ++ [.retire r']) = some e' →
        e'.path = e.path →
        ((Tracker.new.feed (stream (ms ++ [.retire r] ++ ns))).updateImpl (some r')).2.callStk =
          out.2.callStk := by
  have hstk : ∀ {ms : List (Move φ)} {r : List (Inst φ)} {e : Exec φ},
      (Exec.start root).run (ms ++ [.retire r]) = some e →
      ((Tracker.new.feed (stream ms)).updateImpl (some r)).2.callStk = tracked e.path ∧
        (getFunc (some r)).isSome := by
    intro ms r e h
    obtain ⟨e₁, h₁, h₂⟩ := Option.bind_eq_some_iff.1 ((Exec.run_append _ _ _).symm.trans h)
    have hfollows := (Follows.initial rfl : Follows Tracker.new (Exec.start root)).run h₁
    exact ⟨(hfollows.retire h₂).1, (hfollows.retire h₂).2.1⟩
  obtain ⟨hcallStk, hsome⟩ := hstk h
  refine ⟨hcallStk, hsome, ?_, ?_⟩
  · intro k
    rw [← hcallStk]
    exact CallStack.new_callStk _ _ k
  · intro ns r' e' h' hpath
    rw [(hstk h').1, hpath, hcallStk]

theorem run_call_stk_recursion :
    let main := Inst.mk 0 true false false
    let walk := Inst.mk 1 true false false
    let leave := Inst.mk 1 false false true
    let ms := [Move.retire [main], .call 1, .retire [walk], .call 1, .retire [leave], .ret]
    (Exec.start 0).run (ms ++ [.retire [leave]]) = some ⟨[1, 0], some [leave]⟩ ∧
      ((Tracker.new.feed (stream ms)).updateImpl (some [leave])).2.callStk = [1] :=
  ⟨by decide, (@run_call_stk _ _ 0 _ _ ⟨[1, 0], some [Inst.mk 1 false false true]⟩
    (by decide)).1⟩

/-! ## Library instructions -/

/-- The stream without its library instructions. -/
def users (rs : List (InstRange φ)) : List (InstRange φ) := rs.filter Option.isSome

/-- After every user instruction the vector is what it is without the library instructions. -/
def Transparent (rs : List (InstRange φ)) : Prop :=
  ∀ p r, p ++ [some r] <+: rs →
    (Tracker.new.feed (p ++ [some r])).callStk =
      (Tracker.new.feed (users (p ++ [some r]))).callStk

/-- After `p`, which ends with a library instruction, `r` is in another function than the last user
instruction before it, and that one held a call, or a return with a function to return from. -/
def Lost (p : List (InstRange φ)) (r : InstRange φ) : Prop :=
  ∃ q u f g, p = q ++ [none] ∧ (users q).getLast? = some u ∧ getFunc u = some f ∧
    getFunc r = some g ∧ f ≠ g ∧
    (calls u ∨ returns u ∧ (Tracker.new.feed q).callStk ≠ [])

theorem Tracker.move_none (t : Tracker φ) : t.move none = t.callStk := by
  cases hf : t.prevFunc <;> simp [Tracker.move, hf]

theorem Tracker.move_eq_iff (t : Tracker φ) (curr : Option φ) :
    t.move curr = t.callStk ↔
      ¬∃ f g, t.prevFunc = some f ∧ curr = some g ∧ f ≠ g ∧
        (t.prevCall ∨ t.prevRet ∧ t.callStk ≠ []) := by
  have hpush : ∀ g, t.callStk ++ [g] ≠ t.callStk := by
    intro g h
    have := congrArg List.length h
    simp at this
  have hpop : t.callStk.dropLast = t.callStk ↔ t.callStk = [] := by
    constructor
    · intro h
      have hlen := congrArg List.length h
      rw [List.length_dropLast] at hlen
      exact List.eq_nil_of_length_eq_zero (by omega)
    · intro h
      simp [h]
  cases hf : t.prevFunc with
  | none => simp [Tracker.move, hf]
  | some f =>
    cases curr with
    | none => simp [Tracker.move_none]
    | some g =>
      cases hc : t.prevCall <;> cases hr : t.prevRet <;>
        by_cases hfg : f = g <;> simp [Tracker.move, hf, hc, hr, hfg, hpush, hpop]

theorem feed_concat (p : List (InstRange φ)) (r : InstRange φ) :
    Tracker.new.feed (p ++ [r]) =
      ⟨getFunc r, (Tracker.new.feed p).move (getFunc r), calls r, returns r⟩ := by
  simp [Tracker.updateImpl]

omit [DecidableEq φ] in
theorem users_concat_none (p : List (InstRange φ)) : users (p ++ [none]) = users p := by
  simp [users]

omit [DecidableEq φ] in
theorem users_concat_some (p : List (InstRange φ)) (r : List (Inst φ)) :
    users (p ++ [some r]) = users p ++ [some r] := by
  simp [users]

/-- One more user instruction: the two runs stay together exactly when nothing is lost. -/
theorem agree_step {p : List (InstRange φ)} (r : List (Inst φ))
    (hp : (Tracker.new.feed p).callStk = (Tracker.new.feed (users p)).callStk) :
    (Tracker.new.feed (p ++ [some r])).callStk =
        (Tracker.new.feed (users (p ++ [some r]))).callStk ↔ ¬Lost p (some r) := by
  rw [users_concat_some, feed_concat, feed_concat]
  cases p using List.reverseRecOn with
  | nil => simp [users, Lost]
  | append_singleton q x =>
    cases x with
    | some u =>
      have hsame : Tracker.new.feed (q ++ [some u]) = Tracker.new.feed (users (q ++ [some u])) := by
        rw [users_concat_some, feed_concat, feed_concat]
        rw [users_concat_some, feed_concat, feed_concat] at hp
        simpa using hp
      simp [hsame, Lost]
    | none =>
      have hq : (Tracker.new.feed q).callStk = (Tracker.new.feed (users q)).callStk := by
        rw [users_concat_none, feed_concat, getFunc, Tracker.move_none] at hp
        exact hp
      have hmove : (Tracker.new.feed (q ++ [none])).move (getFunc (some r)) =
          (Tracker.new.feed (users q)).callStk := by
        rw [feed_concat, ← hq]
        simp [Tracker.move, getFunc]
      rw [users_concat_none, hmove, eq_comm, Tracker.move_eq_iff, not_iff_not]
      cases hu : users q using List.reverseRecOn with
      | nil => simp [Lost, hu, Tracker.new]
      | append_singleton us u => simp [Lost, hu, hq, Tracker.updateImpl]

/-- Library instructions leave both runs alone, so it is enough to look at user instructions. -/
theorem agree_prefix {rs p : List (InstRange φ)}
    (h : ∀ p r, p ++ [some r] <+: rs →
      (Tracker.new.feed p).callStk = (Tracker.new.feed (users p)).callStk →
      (Tracker.new.feed (p ++ [some r])).callStk =
        (Tracker.new.feed (users (p ++ [some r]))).callStk)
    (hp : p <+: rs) : (Tracker.new.feed p).callStk = (Tracker.new.feed (users p)).callStk := by
  induction p using List.reverseRecOn with
  | nil => rfl
  | append_singleton p x ih =>
    have hq := ih ((List.prefix_append p [x]).trans hp)
    cases x with
    | some r => exact h p r hp hq
    | none =>
      rw [users_concat_none, feed_concat, ← hq]
      exact Tracker.move_none _

/-- Library instructions are transparent exactly when no call or return is lost behind them. -/
theorem transparent_iff (rs : List (InstRange φ)) :
    Transparent rs ↔ ∀ p r, p ++ [some r] <+: rs → ¬Lost p (some r) := by
  constructor
  · intro h p r hp
    have hagree := agree_prefix (fun p r hp _ => h p r hp)
      ((List.prefix_append p [some r]).trans hp)
    exact (agree_step r hagree).1 (h p r hp)
  · intro h p r hp
    exact agree_prefix (fun p r hp hagree => (agree_step r hagree).2 (h p r hp)) hp

/-- A library stub between a call and the callee hides the call. -/
theorem stub_hides_call :
    ¬Transparent [some [Inst.mk 0 true false false], none, some [Inst.mk 1 false false false]] := by
  intro h
  have := h [some [Inst.mk 0 true false false], none] [Inst.mk 1 false false false]
    (List.prefix_refl _)
  revert this
  decide

end CallStack

end CodeInfo
end ChampSim
