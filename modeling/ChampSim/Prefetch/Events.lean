import ChampSim.Prefetch.Temporal

/-!
# ChampSim.Prefetch.Events

The temporal prefetcher and the informer together: a load submits a query for its own instruction,
and the line that the callback prints comes when this instruction retires
(`prefetcher/pc_mod_sisb.h`, `src/codeinfo/code_informer.cc`).

* `Observer`  — both, while loads and retirements interleave.
* `asker`     — the query for an instruction, as the calls so far tell it.
* `told`      — what a code info should say of an instruction.
* `after_tracks` — the informer has all the queries and all the retired instructions.
* `events_exact` — what is printed at a retirement, in every run.
-/

namespace ChampSim
namespace Prefetch
namespace Temporal

open Lib CodeInfo

section Observer

variable {φ α : Type*} {n : Nat} {ρ σ : Fin n → Type*}

/-- A call of the prefetcher, or the retirement of an instruction. -/
inductive Move (α : Type*) where
  | load (c : Call)
  | retire (x : Retired α)

structure Observer (ρ σ : Fin n → Type*) where
  sisb : Sisb
  informer : Informer Event ρ σ

variable (I : ∀ i, Impl φ α (ρ i) (σ i)) (getLlvmInstrs : UInt64 → InstRange φ)

namespace Observer

def init : Observer ρ σ := ⟨initial, .new I⟩

/-- The callback prints its line and submits nothing. -/
def step (s : Observer ρ σ) : Move α → Option (Delivery Event ρ) × Observer ρ σ
  | .load c =>
    let (sisb, _, query) := operate c s.sisb
    (none, ⟨sisb, query.elim s.informer s.informer.acceptQuery⟩)
  | .retire x =>
    let (line, informer) := s.informer.handleRetire I getLlvmInstrs (fun _ _ => []) x
    (line, { s with informer := informer })

def after (moves : List (Move α)) : Observer ρ σ :=
  moves.foldl (fun s m => (s.step I getLlvmInstrs m).2) (init I)

end Observer

/-! ## What the moves tell -/

def Move.call? : Move α → Option Call
  | .load c => some c
  | .retire _ => none

def Move.retired? : Move α → Option (Retired α)
  | .load _ => none
  | .retire x => some x

def callsOf (moves : List (Move α)) : List Call := moves.filterMap Move.call?

def retiredOf (moves : List (Move α)) : List (Retired α) := moves.filterMap Move.retired?

def asks (calls : List Call) (c : Call) : Option (Query Event) :=
  if c.type = .load then queryOf calls c else none

/-- All queries, each as the calls before it tell. -/
def queries (calls : List Call) : List (Query Event) :=
  (List.range calls.length).filterMap fun i => calls[i]?.bind (asks (calls.take i))

/-- The last query for the instruction. -/
def asker (instrId : UInt64) (moves : List (Move α)) : Option (Query Event) :=
  ((queries (callsOf moves)).filter fun q => q.trigger = instrId).getLast?

/-- The result that describes `instrId`, once `xs` have retired. -/
def told {ρ σ : Type*} (I : Impl φ α ρ σ) (xs : List (Retired α)) (instrId : UInt64) : ρ :=
  ((described I getLlvmInstrs none I.init xs).lookup instrId).getD I.default

theorem queries_concat (calls : List Call) (c : Call) :
    queries (calls ++ [c]) = queries calls ++ (asks calls c).toList := by
  unfold queries
  rw [List.length_append, List.length_singleton, List.range_succ, List.filterMap_append]
  congr 1
  · refine List.filterMap_congr fun i hi => ?_
    have hlt := List.mem_range.mp hi
    rw [List.getElem?_append_left hlt, List.take_append_of_le_length hlt.le]
  · cases h : asks calls c <;> simp [h]

/-! ## A run -/

variable {I getLlvmInstrs} {moves : List (Move α)}

theorem operate_asks {calls : List Call} {s : Sisb} (h : Learned calls s) (c : Call) :
    (operate c s).2.2 = asks calls c := by
  unfold asks
  split
  · rename_i hload
    exact h.query hload
  · rename_i hother
    unfold operate
    rw [if_pos hother]

/-- The prefetcher has seen the calls, and the informer their queries and the retirements. -/
structure Watches (I : ∀ i, Impl φ α (ρ i) (σ i)) (getLlvmInstrs : UInt64 → InstRange φ)
    (moves : List (Move α)) (s : Observer ρ σ) : Prop where
  sisb : Learned (callsOf moves) s.sisb
  informer : Tracks I getLlvmInstrs s.informer ⟨queries (callsOf moves), retiredOf moves⟩

theorem callsOf_load (moves : List (Move α)) (c : Call) :
    callsOf (moves ++ [.load c]) = callsOf moves ++ [c] := by
  simp [callsOf, Move.call?]

theorem callsOf_retire (moves : List (Move α)) (x : Retired α) :
    callsOf (moves ++ [.retire x]) = callsOf moves := by
  simp [callsOf, Move.call?]

theorem retiredOf_load (moves : List (Move α)) (c : Call) :
    retiredOf (moves ++ [.load c]) = retiredOf moves := by
  simp [retiredOf, Move.retired?]

theorem retiredOf_retire (moves : List (Move α)) (x : Retired α) :
    retiredOf (moves ++ [.retire x]) = retiredOf moves ++ [x] := by
  simp [retiredOf, Move.retired?]

theorem Watches.load {s : Observer ρ σ} (h : Watches I getLlvmInstrs moves s) (c : Call) :
    Watches I getLlvmInstrs (moves ++ [.load c]) (s.step I getLlvmInstrs (.load c)).2 where
  sisb := by
    rw [callsOf_load]
    exact operate_learned c h.sisb
  informer := by
    rw [callsOf_load, retiredOf_load, queries_concat, ← operate_asks h.sisb c]
    show Tracks I getLlvmInstrs ((operate c s.sisb).2.2.elim s.informer s.informer.acceptQuery) _
    cases (operate c s.sisb).2.2 with
    | none =>
      rw [Option.toList_none, List.append_nil]
      exact h.informer
    | some q => exact h.informer.acceptQuery q

/-- The line of a retirement, and what is known after it. -/
theorem Watches.retire {s : Observer ρ σ} (h : Watches I getLlvmInstrs moves s) {x : Retired α}
    (hx : x.instrId ∉ (retiredOf moves).map (·.instrId)) :
    (s.step I getLlvmInstrs (.retire x)).1 = ((asker x.instrId moves).map fun q =>
        ⟨x.instrId, q.cb,
          answers I getLlvmInstrs (retiredOf moves ++ [x]) (x.instrId :: q.iids)⟩) ∧
      Watches I getLlvmInstrs (moves ++ [.retire x]) (s.step I getLlvmInstrs (.retire x)).2 := by
  obtain ⟨hline, htracks⟩ := h.informer.handleRetire (fun _ _ => []) hx
  have hasker : (⟨queries (callsOf moves), retiredOf moves⟩ : Ledger α Event).lastFor x.instrId =
      asker x.instrId moves := rfl
  refine ⟨hline.trans ?_, ?_, ?_⟩
  · unfold Ledger.step
    simp only [hasker]
    cases asker x.instrId moves with
    | none => rfl
    | some q => rfl
  · rw [callsOf_retire]
    exact h.sisb
  · rw [callsOf_retire, retiredOf_retire]
    unfold Ledger.step at htracks
    simp only [hasker] at htracks
    cases hq : asker x.instrId moves with
    | none =>
      rw [hq] at htracks
      exact htracks
    | some q =>
      rw [hq] at htracks
      simp only [List.append_nil] at htracks
      exact htracks

theorem after_watches (hid : ((retiredOf moves).map (·.instrId)).Nodup) :
    Watches I getLlvmInstrs moves (Observer.after I getLlvmInstrs moves) := by
  induction moves using List.reverseRecOn with
  | nil => exact ⟨initial_learned, .new⟩
  | append_singleton moves m ih =>
    have hafter : Observer.after I getLlvmInstrs (moves ++ [m]) =
        ((Observer.after I getLlvmInstrs moves).step I getLlvmInstrs m).2 := by
      simp [Observer.after]
    rw [hafter]
    cases m with
    | load c =>
      rw [retiredOf_load] at hid
      exact (ih hid).load c
    | retire x =>
      rw [retiredOf_retire, List.map_append] at hid
      obtain ⟨hbefore, -, hdisjoint⟩ := List.nodup_append.mp hid
      refine ((ih hbefore).retire fun hmem => ?_).2
      exact hdisjoint _ hmem _ (by simp) rfl

/-! ## What the lines say -/

theorem described_ids {ρ σ : Type*} (I : Impl φ α ρ σ) (getLlvmInstrs : UInt64 → InstRange φ)
    (prev : Option (UInt64 × ρ)) (s : σ) (xs : List (Retired α)) :
    (described I getLlvmInstrs prev s xs).map Prod.fst = xs.map (·.instrId) := by
  induction xs generalizing prev s with
  | nil => rfl
  | cons x xs ih =>
    unfold described
    cases prev with
    | none => exact congrArg (x.instrId :: ·) (ih _ _)
    | some p =>
      dsimp only
      split
      · exact congrArg (x.instrId :: ·) (ih _ _)
      · exact congrArg (x.instrId :: ·) (ih _ _)

/-- Without repeats a lookup finds what describes the instruction. -/
theorem queryPast_told {ρ σ : Type*} (I : Impl φ α ρ σ) {xs : List (Retired α)} (hfresh : Fresh xs)
    (hid : (xs.map (·.instrId)).Nodup) (instrId : UInt64) :
    (((Info.new I).run I getLlvmInstrs (xs.map .update)).queryPast I instrId).1 =
      told getLlvmInstrs I xs instrId := by
  rw [queryPast_fst]
  unfold told
  cases hl : (described I getLlvmInstrs none I.init xs).lookup instrId with
  | some r =>
    obtain ⟨before, behind, hsplit, -⟩ := List.lookup_eq_some_iff.mp hl
    have hmem : (instrId, r) ∈ described I getLlvmInstrs none I.init xs := by simp [hsplit]
    rw [← updates_map xs] at hfresh hid hmem
    exact lookup_run I getLlvmInstrs (Info.new I) (xs.map .update) none (by simp) hfresh hid _ hmem
  | none =>
    refine lookup_run_of_notMem I getLlvmInstrs (Info.new I) (xs.map .update) ?_
    rw [updates_map, ← described_ids I getLlvmInstrs none I.init xs]
    intro hmem
    obtain ⟨p, hp, heq⟩ := List.mem_map.mp hmem
    have hne := List.lookup_eq_none_iff.mp hl p hp
    simp [heq] at hne

/-- At every retirement, after any interleaving of loads and retirements, exactly the last query for
the instruction is answered: with its own load and the load that it was trained with before. -/
theorem events_exact (I : ∀ i, Impl φ α (ρ i) (σ i)) (getLlvmInstrs : UInt64 → InstRange φ)
    (moves : List (Move α)) (x : Retired α)
    (hid : ((retiredOf moves ++ [x]).map (·.instrId)).Nodup) :
    ((Observer.after I getLlvmInstrs moves).step I getLlvmInstrs (.retire x)).1 =
        ((asker x.instrId moves).map fun q => ⟨x.instrId, q.cb,
          answers I getLlvmInstrs (retiredOf moves ++ [x]) (x.instrId :: q.iids)⟩) ∧
      (Fresh (retiredOf moves ++ [x]) → ∀ iids i,
        answers I getLlvmInstrs (retiredOf moves ++ [x]) iids i =
          iids.map (told getLlvmInstrs (I i) (retiredOf moves ++ [x]))) := by
  rw [List.map_append] at hid
  obtain ⟨hbefore, -, hdisjoint⟩ := List.nodup_append.mp hid
  rw [← List.map_append] at hid
  refine ⟨((after_watches hbefore).retire fun hmem => ?_).1, fun hfresh iids i => ?_⟩
  · exact hdisjoint _ hmem _ (by simp) rfl
  · exact List.map_congr_left fun iid _ => queryPast_told (I i) hfresh hid iid

/-- A pc that loads blocks 1, 2, 1, 2: the line of the last load tells of it and of the second. -/
def alternating : List (Move Unit) :=
  [.load ⟨64, 7, .load, 2, 1⟩, .load ⟨128, 7, .load, 2, 2⟩, .retire ⟨4, 1, ()⟩,
    .load ⟨64, 7, .load, 2, 3⟩, .retire ⟨8, 2, ()⟩, .load ⟨128, 7, .load, 2, 4⟩,
    .retire ⟨4, 3, ()⟩]

theorem events_exact_alternating :
    let I : Fin 1 → Impl Nat Unit Bool Unit := fun _ => seen
    ((Observer.after I (fun _ => none) alternating).step I (fun _ => none)
        (.retire ⟨8, 4, ()⟩)).1.map (fun d => (d.cb.pc, d.cb.convergent, d.results 0)) =
      some (7, true, [true, true]) := by
  intro I
  obtain ⟨hline, htold⟩ := events_exact I (fun _ => none) alternating ⟨8, 4, ()⟩ (by decide)
  rw [hline]
  have hasker : asker 4 alternating = some ⟨4, [2], ⟨7, false, true⟩⟩ := rfl
  have hfresh : Fresh (retiredOf alternating ++ [⟨8, 4, ()⟩]) := by
    unfold Fresh
    decide
  rw [hasker]
  show some (7, true,
    answers I (fun _ => none) (retiredOf alternating ++ [⟨8, 4, ()⟩]) [4, 2] 0) = _
  rw [htold hfresh]
  decide

end Observer

end Temporal
end Prefetch
end ChampSim
