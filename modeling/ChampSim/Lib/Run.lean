import Mathlib.Data.List.Basic
import Mathlib.Data.List.Induction

/-!
# ChampSim.Lib.Run

Runs of a partial step function. `step s a = none` means the step aborts (a failed assertion or
an access outside an array); a run that reaches `none` stops there.

* `run step s as`       — the state after performing `as` from `s`.
* `run_append`          — a run splits at any point.
* `Along step P s as`   — `P` holds of every state and action met on the run.
* `run_invariant`       — what each step preserves, a whole run preserves.
* `run_history`         — the same for what is told of the actions so far.
* `run_total`           — steps that cannot abort under an invariant give runs that do not abort.
* `outputs step out s`  — what the steps of a run put out; `run_outputs` is the rule for it.
* `Ends T Q x`          — the outcome of one step: `Q` holds of the state it gives, and it gives one
  when `T`. With `T` false this is partial correctness.
-/

namespace ChampSim
namespace Lib

section Run

variable {σ α : Type*} {step : σ → α → Option σ}

def run (step : σ → α → Option σ) : σ → List α → Option σ
  | s, [] => some s
  | s, a :: as =>
    match step s a with
    | some s' => run step s' as
    | none => none

@[simp] theorem run_nil (s : σ) : run step s [] = some s := rfl

theorem run_cons_some {s s' : σ} {a : α} {as : List α} (h : step s a = some s') :
    run step s (a :: as) = run step s' as := by
  simp only [run, h]

theorem run_cons_none {s : σ} {a : α} {as : List α} (h : step s a = none) :
    run step s (a :: as) = none := by
  simp only [run, h]

/-- A run of one action more starts with a step. -/
theorem run_cons_inv {s t : σ} {a : α} {as : List α} (h : run step s (a :: as) = some t) :
    ∃ s', step s a = some s' ∧ run step s' as = some t := by
  cases hs : step s a with
  | none => rw [run_cons_none hs] at h; cases h
  | some s' => rw [run_cons_some hs] at h; exact ⟨s', rfl, h⟩

theorem run_singleton (s : σ) (a : α) : run step s [a] = step s a := by
  cases h : step s a with
  | none => exact run_cons_none h
  | some s' => exact run_cons_some h

theorem run_append (s : σ) (as bs : List α) :
    run step s (as ++ bs) = (run step s as).bind (fun t => run step t bs) := by
  induction as generalizing s with
  | nil => rfl
  | cons a as ih =>
    cases hs : step s a with
    | none => rw [List.cons_append, run_cons_none hs, run_cons_none hs]; rfl
    | some s' => rw [List.cons_append, run_cons_some hs, run_cons_some hs, ih]

theorem run_congr {step' : σ → α → Option σ} {s : σ} {as : List α}
    (h : ∀ a ∈ as, ∀ t, step t a = step' t a) : run step s as = run step' s as := by
  induction as generalizing s with
  | nil => rfl
  | cons a as ih =>
    have hs := h a List.mem_cons_self s
    cases hs' : step' s a with
    | none => rw [run_cons_none (hs.trans hs'), run_cons_none hs']
    | some t =>
      rw [run_cons_some (hs.trans hs'), run_cons_some hs',
        ih fun b hb => h b (List.mem_cons_of_mem a hb)]

/-- `P` holds of every state and action met on the run of `as` from `s`. -/
def Along (step : σ → α → Option σ) (P : σ → α → Prop) : σ → List α → Prop
  | _, [] => True
  | s, a :: as => P s a ∧ ∀ s', step s a = some s' → Along step P s' as

/-- A run on concrete actions can be checked by evaluation. -/
instance Along.decidable (P : σ → α → Prop) [∀ s a, Decidable (P s a)] :
    ∀ s as, Decidable (Along step P s as)
  | _, [] => isTrue trivial
  | s, a :: as =>
    have : Decidable (∀ s', step s a = some s' → Along step P s' as) :=
      match step s a with
      | none => isTrue fun _ hs => nomatch hs
      | some s' =>
        match Along.decidable P s' as with
        | isTrue hr => isTrue fun _ hs => Option.some.inj hs ▸ hr
        | isFalse hr => isFalse fun hall => hr (hall s' rfl)
    inferInstanceAs (Decidable (P s a ∧ _))

theorem along_of_forall {A : α → Prop} {as : List α} (h : ∀ a ∈ as, A a) (s : σ) :
    Along step (fun _ a => A a) s as := by
  induction as generalizing s with
  | nil => trivial
  | cons a as ih =>
    exact ⟨h a (by simp), fun s' _ => ih (fun b hb => h b (by simp [hb])) s'⟩

/-- A condition on the actions alone may be added. -/
theorem Along.and_forall {P : σ → α → Prop} {A : α → Prop} {s : σ} {as : List α}
    (h : Along step P s as) (hA : ∀ a ∈ as, A a) : Along step (fun s a => A a ∧ P s a) s as := by
  induction as generalizing s with
  | nil => trivial
  | cons a as ih =>
    exact ⟨⟨hA a (by simp), h.1⟩, fun s' hs => ih (h.2 s' hs) fun b hb => hA b (by simp [hb])⟩

/-- The invariant rule: what every allowed step preserves holds at the end of a run. -/
theorem run_invariant {I : σ → Prop} {P : σ → α → Prop}
    (hstep : ∀ s a s', I s → P s a → step s a = some s' → I s') {s t : σ} {as : List α}
    (hI : I s) (hP : Along step P s as) (h : run step s as = some t) : I t := by
  induction as generalizing s with
  | nil => simp at h; exact h ▸ hI
  | cons a as ih =>
    obtain ⟨s', hs, hr⟩ := run_cons_inv h
    exact ih (hstep s a s' hI hP.1 hs) (hP.2 s' hs) hr

/-- The totality rule: when no allowed step aborts, no allowed run aborts. -/
theorem run_total {I : σ → Prop} {P : σ → α → Prop}
    (hstep : ∀ s a, I s → P s a → ∃ s', step s a = some s' ∧ I s') {s : σ} {as : List α}
    (hI : I s) (hP : Along step P s as) : ∃ t, run step s as = some t ∧ I t := by
  induction as generalizing s with
  | nil => exact ⟨s, rfl, hI⟩
  | cons a as ih =>
    obtain ⟨s', hs, hI'⟩ := hstep s a hI hP.1
    obtain ⟨t, ht, hIt⟩ := ih hI' (hP.2 s' hs)
    exact ⟨t, by rw [run_cons_some hs]; exact ht, hIt⟩

/-- The invariant rule for what is told of the whole run so far. -/
theorem run_history {I : List α → σ → Prop} {P : α → Prop} {s : σ}
    (hstep : ∀ as t a, run step s as = some t → I as t → P a →
      ∃ t', step t a = some t' ∧ I (as ++ [a]) t') {as : List α}
    (hI : I [] s) (hP : ∀ a ∈ as, P a) : ∃ t, run step s as = some t ∧ I as t := by
  induction as using List.reverseRecOn with
  | nil => exact ⟨s, rfl, hI⟩
  | append_singleton as a ih =>
    obtain ⟨t, ht, hIt⟩ := ih fun b hb => hP b (List.mem_append_left _ hb)
    obtain ⟨t', ht', hIt'⟩ := hstep as t a ht hIt (hP a (by simp))
    refine ⟨t', ?_, hIt'⟩
    rw [run_append, ht, Option.bind_some, run_singleton, ht']

variable {β : Type*} {out : σ → α → List β}

/-- What the steps of a run put out, in order. -/
def outputs (step : σ → α → Option σ) (out : σ → α → List β) : σ → List α → List β
  | _, [] => []
  | s, a :: as =>
    out s a ++
      match step s a with
      | none => []
      | some s' => outputs step out s' as

theorem outputs_cons_some {s s' : σ} {a : α} {as : List α} (h : step s a = some s') :
    outputs step out s (a :: as) = out s a ++ outputs step out s' as := by
  simp only [outputs, h]

theorem outputs_cons_none {s : σ} {a : α} {as : List α} (h : step s a = none) :
    outputs step out s (a :: as) = out s a := by
  simp only [outputs, h, List.append_nil]

theorem outputs_singleton (s : σ) (a : α) : outputs step out s [a] = out s a := by
  cases h : step s a with
  | none => exact outputs_cons_none h
  | some s' => rw [outputs_cons_some h, outputs, List.append_nil]

theorem outputs_append (s : σ) (as bs : List α) :
    outputs step out s (as ++ bs) = outputs step out s as ++
      match run step s as with
      | none => []
      | some t => outputs step out t bs := by
  induction as generalizing s with
  | nil => rfl
  | cons a as ih =>
    cases hs : step s a with
    | none =>
      rw [List.cons_append, outputs_cons_none hs, outputs_cons_none hs, run_cons_none hs,
        List.append_nil]
    | some s' =>
      rw [List.cons_append, outputs_cons_some hs, outputs_cons_some hs, run_cons_some hs, ih,
        List.append_assoc]

theorem outputs_eq_nil {as : List α} (h : ∀ a ∈ as, ∀ s, out s a = []) (s : σ) :
    outputs step out s as = [] := by
  induction as generalizing s with
  | nil => rfl
  | cons a as ih =>
    have ha := h a List.mem_cons_self s
    cases hs : step s a with
    | none => rw [outputs_cons_none hs, ha]
    | some s' =>
      rw [outputs_cons_some hs, ha, ih (fun b hb => h b (List.mem_cons_of_mem a hb)) s',
        List.nil_append]

/-- The totality rule for an invariant that tells of all that was put out so far. -/
theorem run_outputs {I : List β → σ → Prop}
    (hstep : ∀ log s a, I log s → ∃ s', step s a = some s' ∧ I (log ++ out s a) s')
    {l : List β} {s : σ} (as : List α) (hI : I l s) :
    ∃ t, run step s as = some t ∧ I (l ++ outputs step out s as) t := by
  induction as generalizing l s with
  | nil => exact ⟨s, rfl, by rwa [outputs, List.append_nil]⟩
  | cons a as ih =>
    obtain ⟨s', hs, hI'⟩ := hstep l s a hI
    obtain ⟨t, ht, hIt⟩ := ih hI'
    refine ⟨t, by rw [run_cons_some hs]; exact ht, ?_⟩
    rwa [outputs_cons_some hs, ← List.append_assoc]

end Run

section Ends

variable {σ τ : Type*} {T : Prop} {Q R : σ → Prop}

def Ends (T : Prop) (Q : σ → Prop) : Option σ → Prop
  | some s => Q s
  | none => ¬ T

theorem Ends.mono {x : Option σ} (h : Ends T Q x) (hQR : ∀ s, Q s → R s) : Ends T R x := by
  cases x with
  | none => exact h
  | some s => exact hQR s h

theorem Ends.bind {x : Option σ} {f : σ → Option τ} {U : τ → Prop} (h : Ends T Q x)
    (hf : ∀ s, Q s → Ends T U (f s)) : Ends T U (x.bind f) := by
  cases x with
  | none => exact h
  | some s => exact hf s h

theorem Ends.map {x : Option σ} {f : σ → τ} {U : τ → Prop} (h : Ends T Q x)
    (hf : ∀ s, Q s → U (f s)) : Ends T U (x.map f) := by
  cases x with
  | none => exact h
  | some s => exact hf s h

theorem Ends.intro {x : Option σ} (h : ∀ s, x = some s → Q s) : Ends False Q x := by
  cases x with
  | none => exact id
  | some s => exact h s rfl

theorem Ends.of_eq {x : Option σ} {s : σ} (h : Ends T Q x) (hx : x = some s) : Q s := by
  subst hx; exact h

theorem Ends.exists {x : Option σ} (h : Ends T Q x) (hT : T) : ∃ s, x = some s ∧ Q s := by
  cases x with
  | none => exact absurd hT h
  | some s => exact ⟨s, rfl, h⟩

end Ends

end Lib
end ChampSim
