import ChampSim.CodeInfo.CallStack

/-!
# ChampSim.CodeInfo.Past

The base class `code_info` of `src/inc/codeinfo/code_info.h`: the duplicate filter and the past
results.

* `Impl`      — what a derived class brings: its state, `update_impl` and the default result.
* `Info`      — `update` and `query_past` over it.
* `described` — for each instruction of a stream, the result that describes it.

An instruction with the ip of the one before is skipped, and then nothing is recorded under its id:
`queryPast` makes up a default result for it. `faithful_iff` says when that never happens.
-/

namespace ChampSim
namespace CodeInfo

section Past

variable {φ α ρ σ : Type*}

/-- The fields of a retired `ooo_model_instr` that are read here, and the rest. -/
structure Retired (α : Type*) where
  ip : UInt64
  instrId : UInt64
  fields : α

/-- A derived class: `default` is the default-constructed result. -/
structure Impl (φ α ρ σ : Type*) where
  init : σ
  default : ρ
  updateImpl : σ → InstRange φ → Retired α → ρ × σ

/-- `code_info`. -/
structure Info (ρ σ : Type*) where
  pastResults : UInt64 → Option ρ
  pastIp : UInt64
  impl : σ

variable (I : Impl φ α ρ σ)

def Info.new : Info ρ σ := ⟨fun _ => none, 0, I.init⟩

def Info.update (ci : Info ρ σ) (llvmInstrs : InstRange φ) (x : Retired α) :
    Info ρ σ :=
  if x.ip ≠ ci.pastIp then
    let (r, s) := I.updateImpl ci.impl llvmInstrs x
    ⟨Function.update ci.pastResults x.instrId (some r), x.ip, s⟩
  else ci

/-- `past_results[instr_id]` inserts what it does not find. -/
def Info.queryPast (ci : Info ρ σ) (instrId : UInt64) : ρ × Info ρ σ :=
  match ci.pastResults instrId with
  | some r => (r, ci)
  | none =>
    (I.default, { ci with pastResults := Function.update ci.pastResults instrId (some I.default) })

/-- A call of one of the two; the range of an instruction is that of its ip. -/
inductive Op (α : Type*) where
  | update (x : Retired α)
  | queryPast (instrId : UInt64)

variable (getLlvmInstrs : UInt64 → InstRange φ)

def Info.step (ci : Info ρ σ) : Op α → Info ρ σ
  | .update x => ci.update I (getLlvmInstrs x.ip) x
  | .queryPast instrId => (ci.queryPast I instrId).2

def Info.run (ci : Info ρ σ) (ops : List (Op α)) : Info ρ σ :=
  ops.foldl (fun ci op => ci.step I getLlvmInstrs op) ci

def updates : List (Op α) → List (Retired α)
  | [] => []
  | .update x :: ops => x :: updates ops
  | .queryPast _ :: ops => updates ops

theorem updates_map (xs : List (Retired α)) : updates (xs.map .update) = xs := by
  induction xs with
  | nil => rfl
  | cons x xs ih => rw [List.map_cons, updates, ih]

/-! ## What the results should be -/

/-- The ids of a stream with the results that describe them: an instruction that repeats the ip of
the one before has that one's result, any other one its own. -/
def described : Option (UInt64 × ρ) → σ → List (Retired α) → List (UInt64 × ρ)
  | _, _, [] => []
  | prev, s, x :: xs =>
    let fresh :=
      let (r, s') := I.updateImpl s (getLlvmInstrs x.ip) x
      (x.instrId, r) :: described (some (x.ip, r)) s' xs
    match prev with
    | some (ip, r) =>
      if x.ip = ip then (x.instrId, r) :: described prev s xs else fresh
    | none => fresh

/-- After the calls `ops` each retired id is answered with its own result, and never with the
default for an instruction of user code that the implementation gives another result. -/
structure Faithful (ops : List (Op α)) : Prop where
  answers : ∀ p ∈ described I getLlvmInstrs none I.init (updates ops),
    (((Info.new I).run I getLlvmInstrs ops).queryPast I p.1).1 = p.2
  valid : ∀ x ∈ updates ops,
    (∀ s, (I.updateImpl s (getLlvmInstrs x.ip) x).1 ≠ I.default) →
      (((Info.new I).run I getLlvmInstrs ops).queryPast I x.instrId).1 ≠ I.default

/-- No instruction has the ip of the one before it, nor the first one ip 0. -/
def Fresh (xs : List (Retired α)) : Prop := List.IsChain (· ≠ ·) (0 :: xs.map (·.ip))

/-! ## What a lookup sees -/

/-- What `queryPast` returns, as a function of the id. -/
def Info.lookup (ci : Info ρ σ) (instrId : UInt64) : ρ :=
  (ci.pastResults instrId).getD I.default

theorem queryPast_fst (ci : Info ρ σ) (instrId : UInt64) :
    (ci.queryPast I instrId).1 = ci.lookup I instrId := by
  cases h : ci.pastResults instrId <;> simp [Info.queryPast, Info.lookup, h]

/-- A lookup changes no later answer and nothing that `update` reads. -/
theorem queryPast_snd (ci : Info ρ σ) (instrId : UInt64) :
    (ci.queryPast I instrId).2.lookup I = ci.lookup I ∧
      (ci.queryPast I instrId).2.pastIp = ci.pastIp ∧
      (ci.queryPast I instrId).2.impl = ci.impl := by
  cases h : ci.pastResults instrId with
  | some r => simp [Info.queryPast, h]
  | none =>
    refine ⟨?_, by simp [Info.queryPast, h], by simp [Info.queryPast, h]⟩
    funext j
    by_cases hj : j = instrId
    · simp [Info.queryPast, Info.lookup, h, hj]
    · simp [Info.queryPast, Info.lookup, h, hj]

theorem update_repeat {ci : Info ρ σ} {x : Retired α} (h : x.ip = ci.pastIp)
    (r : InstRange φ) : ci.update I r x = ci := if_neg (not_not.2 h)

theorem lookup_update {ci : Info ρ σ} {x : Retired α} (h : x.ip ≠ ci.pastIp)
    (r : InstRange φ) :
    (ci.update I r x).lookup I =
      Function.update (ci.lookup I) x.instrId (I.updateImpl ci.impl r x).1 := by
  funext j
  by_cases hj : j = x.instrId
  · simp [Info.update, Info.lookup, h, hj]
  · simp [Info.update, Info.lookup, h, hj]

theorem update_pastIp {ci : Info ρ σ} {x : Retired α} (h : x.ip ≠ ci.pastIp)
    (r : InstRange φ) : (ci.update I r x).pastIp = x.ip := by
  simp [Info.update, h]

theorem update_impl {ci : Info ρ σ} {x : Retired α} (h : x.ip ≠ ci.pastIp)
    (r : InstRange φ) : (ci.update I r x).impl = (I.updateImpl ci.impl r x).2 := by
  simp [Info.update, h]

theorem lookup_update_of_ne (ci : Info ρ σ) {x : Retired α} (r : InstRange φ)
    {j : UInt64} (hj : j ≠ x.instrId) : (ci.update I r x).lookup I j = ci.lookup I j := by
  by_cases h : x.ip = ci.pastIp
  · rw [update_repeat I h]
  · rw [lookup_update I h, Function.update_of_ne hj]

/-- Calls that do not retire `j` leave the answer for `j` alone. -/
theorem lookup_run_of_notMem (ci : Info ρ σ) (ops : List (Op α)) {j : UInt64}
    (hj : j ∉ (updates ops).map (·.instrId)) :
    (ci.run I getLlvmInstrs ops).lookup I j = ci.lookup I j := by
  induction ops generalizing ci with
  | nil => rfl
  | cons op ops ih =>
    cases op with
    | update x =>
      simp only [updates, List.map_cons, List.mem_cons, not_or] at hj
      exact (ih _ hj.2).trans (lookup_update_of_ne I ci _ hj.1)
    | queryPast instrId =>
      exact (ih _ hj).trans (congrFun (queryPast_snd I ci instrId).1 j)

/-! ## When the answers are faithful -/

/-- Without repeats, the calls record for each instruction the result that describes it. -/
theorem lookup_run (ci : Info ρ σ) (ops : List (Op α)) (prev : Option (UInt64 × ρ))
    (hprev : ∀ p ∈ prev, p.1 = ci.pastIp)
    (hfresh : List.IsChain (· ≠ ·) (ci.pastIp :: (updates ops).map (·.ip)))
    (hid : ((updates ops).map (·.instrId)).Nodup) :
    ∀ p ∈ described I getLlvmInstrs prev ci.impl (updates ops),
      (ci.run I getLlvmInstrs ops).lookup I p.1 = p.2 := by
  induction ops generalizing ci prev with
  | nil => simp [updates, described]
  | cons op ops ih =>
    cases op with
    | queryPast instrId =>
      obtain ⟨-, hip, himpl⟩ := queryPast_snd I ci instrId
      have := ih (ci.queryPast I instrId).2 prev (by rwa [hip]) (by rwa [hip]) hid
      rwa [himpl] at this
    | update x =>
      simp only [updates, List.map_cons, List.nodup_cons] at hid
      simp only [updates, List.map_cons, List.isChain_cons_cons] at hfresh
      have hne : x.ip ≠ ci.pastIp := Ne.symm hfresh.1
      have hnext := ih (ci.update I (getLlvmInstrs x.ip) x)
        (some (x.ip, (I.updateImpl ci.impl (getLlvmInstrs x.ip) x).1))
        (by simp [update_pastIp I hne]) (by rw [update_pastIp I hne]; exact hfresh.2) hid.2
      rw [update_impl I hne] at hnext
      have hdesc : described I getLlvmInstrs prev ci.impl (x :: updates ops) =
          (x.instrId, (I.updateImpl ci.impl (getLlvmInstrs x.ip) x).1) ::
            described I getLlvmInstrs
              (some (x.ip, (I.updateImpl ci.impl (getLlvmInstrs x.ip) x).1))
              (I.updateImpl ci.impl (getLlvmInstrs x.ip) x).2 (updates ops) := by
        cases prev with
        | none => simp [described]
        | some p => simp [described, hprev p rfl, hne]
      intro p hp
      rw [updates, hdesc, List.mem_cons] at hp
      obtain rfl | hp := hp
      · have hlast := lookup_run_of_notMem I getLlvmInstrs
          (ci.update I (getLlvmInstrs x.ip) x) ops hid.1
        refine hlast.trans ?_
        rw [lookup_update I hne, Function.update_self]
      · exact hnext p hp

/-- Without repeats, what describes an instruction is its own result. -/
theorem mem_described (prev : Option (UInt64 × ρ)) (s : σ) (xs : List (Retired α)) (ip : UInt64)
    (hprev : ∀ p ∈ prev, p.1 = ip) (hfresh : List.IsChain (· ≠ ·) (ip :: xs.map (·.ip)))
    {x : Retired α} (hx : x ∈ xs) :
    ∃ s', (x.instrId, (I.updateImpl s' (getLlvmInstrs x.ip) x).1) ∈
      described I getLlvmInstrs prev s xs := by
  induction xs generalizing prev s ip with
  | nil => cases hx
  | cons y xs ih =>
    simp only [List.map_cons, List.isChain_cons_cons] at hfresh
    have hne : ∀ p ∈ prev, y.ip ≠ p.1 := fun p hp => by
      rw [hprev p hp]
      exact Ne.symm hfresh.1
    have hdesc : described I getLlvmInstrs prev s (y :: xs) =
        (y.instrId, (I.updateImpl s (getLlvmInstrs y.ip) y).1) ::
          described I getLlvmInstrs (some (y.ip, (I.updateImpl s (getLlvmInstrs y.ip) y).1))
            (I.updateImpl s (getLlvmInstrs y.ip) y).2 xs := by
      cases prev with
      | none => simp [described]
      | some p => simp [described, hne p rfl]
    rw [hdesc]
    cases List.mem_cons.1 hx with
    | inl heq =>
      rw [heq]
      exact ⟨s, List.mem_cons_self⟩
    | inr hmem =>
      obtain ⟨s', hs'⟩ := ih (some (y.ip, _)) (I.updateImpl s (getLlvmInstrs y.ip) y).2 y.ip
        (by simp) hfresh.2 hmem
      exact ⟨s', List.mem_cons_of_mem _ hs'⟩

theorem faithful_of_fresh {ops : List (Op α)} (hfresh : Fresh (updates ops))
    (hid : ((updates ops).map (·.instrId)).Nodup) : Faithful I getLlvmInstrs ops := by
  have hlookup := lookup_run I getLlvmInstrs (Info.new I) ops none (by simp) hfresh hid
  refine ⟨?_, ?_⟩
  · intro p hp
    rw [queryPast_fst]
    exact hlookup p hp
  · intro x hx hdefault
    obtain ⟨s', hs'⟩ := mem_described I getLlvmInstrs none I.init (updates ops) 0 (by simp)
      hfresh hx
    rw [queryPast_fst, hlookup _ hs']
    exact hdefault s'

/-! ## When they are not -/

/-- An implementation that tells every retired instruction from one it has not seen. -/
def seen : Impl φ α Bool Unit := ⟨(), false, fun _ _ _ => (true, ())⟩

theorem described_seen (prev : Option (UInt64 × Bool)) (hprev : ∀ p ∈ prev, p.2 = true)
    (xs : List (Retired α)) {x : Retired α} (hx : x ∈ xs) :
    (x.instrId, true) ∈ described seen getLlvmInstrs prev () xs := by
  induction xs generalizing prev with
  | nil => cases hx
  | cons y xs ih =>
    cases prev with
    | none =>
      cases List.mem_cons.1 hx with
      | inl heq => simp [described, seen, heq]
      | inr hmem =>
        refine List.mem_cons_of_mem _ (ih _ ?_ hmem)
        simp [seen]
    | some p =>
      have hp : p.2 = true := hprev p rfl
      simp only [described]
      split
      · cases List.mem_cons.1 hx with
        | inl heq => simp [heq, hp]
        | inr hmem => exact List.mem_cons_of_mem _ (ih _ hprev hmem)
      · cases List.mem_cons.1 hx with
        | inl heq => simp [seen, heq]
        | inr hmem =>
          refine List.mem_cons_of_mem _ (ih _ ?_ hmem)
          simp [seen]

/-- When every retired id is found to have been seen, no instruction was skipped. -/
theorem fresh_of_seen (ci : Info Bool Unit) (ops : List (Op α))
    (hnew : ∀ x ∈ updates ops, ci.lookup (seen (φ := φ) (α := α)) x.instrId = false)
    (hid : ((updates ops).map (·.instrId)).Nodup)
    (hall : ∀ x ∈ updates ops, (ci.run seen getLlvmInstrs ops).lookup (seen (φ := φ) (α := α))
      x.instrId = true) :
    List.IsChain (· ≠ ·) (ci.pastIp :: (updates ops).map (·.ip)) := by
  induction ops generalizing ci with
  | nil => simp [updates]
  | cons op ops ih =>
    cases op with
    | queryPast instrId =>
      obtain ⟨hlookup, hip, -⟩ := queryPast_snd seen ci instrId
      have := ih (ci.queryPast seen instrId).2 (by rwa [hlookup]) hid hall
      rwa [hip] at this
    | update x =>
      simp only [updates, List.map_cons, List.nodup_cons] at hid
      simp only [updates, List.mem_cons, forall_eq_or_imp] at hnew hall
      have hlast := lookup_run_of_notMem seen getLlvmInstrs
        (ci.update seen (getLlvmInstrs x.ip) x) ops hid.1
      have hne : x.ip ≠ ci.pastIp := by
        intro heq
        have hx := hlast.symm.trans hall.1
        rw [update_repeat seen heq, hnew.1] at hx
        cases hx
      have hrest := ih (ci.update seen (getLlvmInstrs x.ip) x) ?_ hid.2 hall.2
      · rw [update_pastIp seen hne] at hrest
        simp only [updates, List.map_cons, List.isChain_cons_cons]
        exact ⟨Ne.symm hne, hrest⟩
      · intro y hy
        have hy' : y.instrId ≠ x.instrId := by
          intro heq
          exact hid.1 (heq ▸ List.mem_map_of_mem hy)
        rw [lookup_update_of_ne seen ci _ hy']
        exact hnew.2 y hy

/-- Every implementation's past results are faithful, whatever lookups come between the updates,
exactly when no instruction repeats the ip before it. -/
theorem faithful_iff (xs : List (Retired α)) (hid : (xs.map (·.instrId)).Nodup) :
    (∀ {ρ σ : Type} (I : Impl φ α ρ σ) (ops : List (Op α)), updates ops = xs →
      Faithful I getLlvmInstrs ops) ↔ Fresh xs := by
  constructor
  · intro h
    have hseen := (h (seen (φ := φ) (α := α)) (xs.map .update) (updates_map xs)).answers
    have hfresh := fresh_of_seen getLlvmInstrs (Info.new (seen (φ := φ) (α := α)))
      (xs.map .update)
    rw [updates_map] at hseen hfresh
    refine hfresh (fun _ _ => rfl) hid ?_
    intro x hx
    rw [← queryPast_fst]
    exact hseen _ (described_seen getLlvmInstrs none (by simp) xs hx)
  · intro hfresh ρ σ I ops hops
    rw [← hops] at hfresh hid
    exact faithful_of_fresh I getLlvmInstrs hfresh hid

theorem faithful_iff_loop :
    Faithful (seen (φ := Nat)) (fun _ => none) [.update ⟨4, 1, ()⟩, .queryPast 2,
      .update ⟨8, 2, ()⟩, .update ⟨4, 3, ()⟩] :=
  (faithful_iff (fun _ => none) [⟨4, 1, ()⟩, ⟨8, 2, ()⟩, ⟨4, 3, ()⟩] (by decide)).2
    (by simp [Fresh]) seen _ rfl

/-- The second round of a one-instruction loop is answered with the default. -/
theorem repeat_unfaithful :
    ¬Faithful (seen (φ := Nat)) (fun _ => none) [.update ⟨4, 1, ()⟩, .update ⟨4, 2, ()⟩] := by
  intro h
  have h₂ := h.answers (2, true)
    (described_seen (fun _ => none) none (by simp) [⟨4, 1, ()⟩, ⟨4, 2, ()⟩] (x := ⟨4, 2, ()⟩)
      (by simp))
  revert h₂
  decide

end Past

end CodeInfo
end ChampSim
