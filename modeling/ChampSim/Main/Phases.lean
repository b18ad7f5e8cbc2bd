import ChampSim.Main.Loop
import ChampSim.Lib.Flags
import ChampSim.O3.Stall

/-!
# ChampSim.Main.Phases

Warm-up, measurement and end of a simulation.

* `Visits S s s'`, `Reached S s` — visits of the cores in any order, with the uncore in between.
* `core_reaches` — the cores beside one are its environment, so what holds of a core by itself holds
  here.
* `Counted S s`  — the counters and flags, at any point of a visit.
* `AtRest S s`   — between two visits, the flags also say how far the cores have come.
* `WarmedUp`, `Measured` — the visits at which `finish_warmup` and `record_roi_stats` were called.
* `phases_exact` — both happen as they should, in every run.
-/

namespace ChampSim
namespace Main

open Lib O3

variable {μ ς : Type} {n : Nat}

section Steps

variable (S : System μ ς n)

inductive Step : State μ ς n → State μ ς n → Prop
  | visit {s s' : State μ ς n} (i : Fin n) (turn : CoreTurn) (h : visit S i turn s = some s') :
    Step s s'
  | uncore (s : State μ ς n) (mem : μ) : Step s { s with mem := mem }

def Visits : State μ ς n → State μ ς n → Prop := Relation.ReflTransGen (Step S)

def Reached (s : State μ ς n) : Prop := ∃ mem, Visits S (.init S mem) s

end Steps

variable {S : System μ ς n} {s s' : State μ ς n} {i : Fin n} {turn : CoreTurn}

/-! ## The cores -/

/-- Instructions retire, and the clock stays a `uint64_t`. -/
structure Later (s s' : Cpu μ) : Prop where
  retired : s.retired.length ≤ s'.retired.length
  clock : s.cycle < 2 ^ 64 → s'.cycle < 2 ^ 64

theorem Later.refl (s : Cpu μ) : Later s s := ⟨le_rfl, id⟩

theorem Later.trans {s s' s'' : Cpu μ} (h : Later s s') (h' : Later s' s'') : Later s s'' :=
  ⟨h.retired.trans h'.retired, fun hlt => h'.clock (h.clock hlt)⟩

theorem Later.of_eq {s s' : Cpu μ} (hretired : s'.retired = s.retired) (hcycle : s'.cycle = s.cycle) :
    Later s s' :=
  ⟨hretired ▸ le_rfl, fun hlt => hcycle ▸ hlt⟩

theorem later_move {c : Config} {t : Core.Trace} {s s' : Cpu μ} (hf : Flow c s)
    (hm : Move c t s s') : Later s s' := by
  cases hm with
  | tick => exact ⟨le_rfl, fun _ => Nat.mod_lt _ (by decide)⟩
  | resume env =>
    unfold Core.resumeFetch
    split <;> exact .of_eq rfl rfl
  | complete hc =>
    rcases hf.completes hc with rfl | hdone
    · exact .refl _
    · rw [hdone.rest]
      exact .of_eq rfl rfl
  | schedule hfetched hidle hs =>
    rw [(hf.schedules hfetched hidle hs).rest]
    exact .of_eq rfl rfl
  | addStore hi hj hm ha hbefore hroom hsta hs =>
    obtain ⟨-, rfl⟩ := addStoreQueue_eq hs
    exact .of_eq rfl rfl
  | retire hip hdone =>
    refine ⟨?_, id⟩
    show _ ≤ (s.retired ++ [_]).length
    rw [List.length_append]
    exact Nat.le_add_right _ _
  | _ => exact .of_eq rfl rfl

theorem later_ops {M : Memory μ} {c : Config} {t : Core.Trace} {O : μ → μ → Prop}
    {s s' : Cpu μ} (hf : Flow c s) (h : Ops M c t O s s') : Flow c s' ∧ Later s s' := by
  induction h with
  | refl => exact ⟨hf, .refl _⟩
  | tail _ hop ih =>
    obtain ⟨hf, hle⟩ := ih
    rcases hop.move with hq | hm
    · have hrest := hq.rest
      exact ⟨hf.quiet hq,
        hle.trans (.of_eq (congrArg O3.Rest.retired hrest) (congrArg O3.Rest.cycle hrest))⟩
    · exact ⟨hf.move hm, hle.trans (later_move hf hm)⟩

/-- What a core meets of the others is its environment. -/
def CoreReaches (S : System μ ς n) (s : State μ ς n) (i : Fin n) : Prop :=
  Reaches (S.memory i) (S.config i) (S.trace i) (fun _ _ => True) (s.core i)

theorem CoreReaches.clock (h : CoreReaches S s i) : (s.core i).cycle < 2 ^ 64 := by
  obtain ⟨mem, hops⟩ := h
  exact (later_ops (flow_init mem) hops).2.clock (Nat.two_pow_pos 64)

/-- One core goes on, and the others are as they were. -/
structure Advanced (S : System μ ς n) (i : Fin n) (s s' : State μ ς n) : Prop where
  ops : Ops (S.memory i) (S.config i) (S.trace i) (fun _ _ => True) (s.core i) (s'.core i)
  others : ∀ j, j ≠ i → s'.core j = s.core j
  rest : s' = { s with core := s'.core, mem := s'.mem }

theorem advance_does (h : advance S i turn s = some s') : Advanced S i s s' := by
  obtain ⟨core, hcycle, rfl⟩ := Option.map_eq_some_iff.mp h
  refine ⟨?_, fun j hj => Function.update_of_ne hj .., rfl⟩
  have hops := cycle_ops (O := fun _ _ => True) (fun _ _ _ => trivial) hcycle
  show Ops _ _ _ _ _ (Function.update s.core i core i)
  rw [Function.update_self]
  exact hops

theorem Advanced.reaches (h : Advanced S i s s') (hs : ∀ j, CoreReaches S s j) (j : Fin n) :
    CoreReaches S s' j := by
  by_cases hj : j = i
  · subst hj
    exact (hs j).ops h.ops
  · have hsame := h.others j hj
    unfold CoreReaches
    rw [hsame]
    exact hs j

theorem Advanced.later (h : Advanced S i s s') (hs : ∀ j, CoreReaches S s j) (j : Fin n) :
    Later (s.core j) (s'.core j) := by
  by_cases hj : j = i
  · subst hj
    exact (later_ops (reaches_pipe (hs j)).flow h.ops).2
  · rw [h.others j hj]
    exact .refl _

/-! ## Flags and counters -/

/-- `num_retired` and the sums with it stay below `2 ^ 64`. -/
def Fits (S : System μ ς n) (s : State μ ς n) : Prop :=
  ∀ i, (s.core i).retired.length + S.simulationInstructions < 2 ^ 64

theorem Fits.numRetired (h : Fits S s) (i : Fin n) :
    s.numRetired i = (s.core i).retired.length := by
  have hlt := h i
  exact Nat.mod_eq_of_lt (by omega)

theorem Fits.earlier (h : Fits S s') (hlater : ∀ j, Later (s.core j) (s'.core j)) : Fits S s :=
  fun j => Nat.lt_of_le_of_lt (Nat.add_le_add_right (hlater j).retired _) (h j)

/-- `finish_warmup` has been called. -/
def State.Begun (s : State μ ς n) : Prop := s.decodeLatency = 2

instance (s : State μ ς n) : Decidable s.Begun := inferInstanceAs (Decidable (_ = _))

structure Counted (S : System μ ς n) (s : State μ ς n) : Prop where
  core : ∀ i, CoreReaches S s i
  warm : ∀ i, s.warmupComplete i = true → S.warmupInstructions < s.numRetired i
  count : s.allWarmupComplete.toNat = if s.Begun then n + 1 else numSet s.warmupComplete
  all : s.Begun → AllSet s.warmupComplete
  begun : s.Begun → ∀ i, S.warmupInstructions < s.beginSimInstr i ∧
    s.beginSimInstr i ≤ s.numRetired i
  cold : ¬ s.Begun → ∀ i, s.simulationComplete i = false
  done : s.allSimulationComplete.toNat = numSet s.simulationComplete

theorem not_begun_init (mem : μ) : ¬ (State.init S mem).Begun := by
  show ¬ 0 = 2
  decide

theorem counted_init (mem : μ) : Counted S (.init S mem) where
  core := fun _ => ⟨mem, .refl _⟩
  warm := fun _ h => absurd h Bool.false_ne_true
  count := numSet_none.symm
  all := fun h => absurd h (not_begun_init mem)
  begun := fun h => absurd h (not_begun_init mem)
  cold := fun _ _ => rfl
  done := numSet_none.symm

/-- The core retires instructions. -/
theorem Counted.advance (h : Counted S s) (ha : Advanced S i s s') (hfits : Fits S s') :
    Counted S s' := by
  have hlater := ha.later h.core
  have hfits₀ := hfits.earlier hlater
  have hnum : ∀ j, s.numRetired j ≤ s'.numRetired j := by
    intro j
    rw [hfits₀.numRetired, hfits.numRetired]
    exact (hlater j).retired
  refine ⟨ha.reaches h.core, ?_, ?_, ?_, ?_, ?_, ?_⟩
  · intro j hj
    rw [ha.rest] at hj
    exact (h.warm j hj).trans_le (hnum j)
  · have hcount := h.count
    rw [ha.rest]
    exact hcount
  · have hall := h.all
    rw [ha.rest]
    exact hall
  · intro hb j
    rw [ha.rest] at hb
    have hinstr : s'.beginSimInstr = s.beginSimInstr := by rw [ha.rest]
    rw [hinstr]
    obtain ⟨hlt, hretired⟩ := h.begun hb j
    exact ⟨hlt, hretired.trans (hnum j)⟩
  · have hcold := h.cold
    rw [ha.rest]
    exact hcold
  · have hdone := h.done
    rw [ha.rest]
    exact hdone

theorem numSet_le_cores (f : Fin n → Bool) : numSet f ≤ n := by
  have hle := numSet_le (f := f)
  rwa [Fintype.card_fin] at hle

theorem toNat_succ {x : UInt8} (hx : x.toNat < 255) : (x + 1).toNat = x.toNat + 1 := by
  rw [UInt8.toNat_add]
  exact Nat.mod_eq_of_lt (Nat.succ_lt_succ hx)

/-- A core that has come far enough is marked, once. -/
theorem Counted.checkWarmup (h : Counted S s) (hcpus : n < 255) (i : Fin n) :
    Counted S (checkWarmup S i s) := by
  unfold Main.checkWarmup
  split
  · rename_i hmark
    obtain ⟨hcold, hretired⟩ := hmark
    have hbegun : ¬ s.Begun := fun hb => by
      have hwarm := h.all hb i
      rw [hcold] at hwarm
      cases hwarm
    have hcount := h.count
    rw [if_neg hbegun] at hcount
    have hle := numSet_le_cores s.warmupComplete
    refine ⟨h.core, ?_, ?_, fun hb => absurd hb hbegun, h.begun, h.cold, h.done⟩
    · intro j hj
      by_cases hji : j = i
      · rw [hji]
        exact hretired
      · exact h.warm j ((Function.update_of_ne hji ..).symm.trans hj)
    · refine Eq.trans ?_ (if_neg hbegun).symm
      show (s.allWarmupComplete + 1).toNat = numSet (Function.update s.warmupComplete i true)
      rw [toNat_succ (by omega), hcount, numSet_set hcold]
  · exact h

/-- The last core starts the measurement. -/
theorem Counted.checkAllWarm (h : Counted S s) (hcpus : n < 255) :
    Counted S (checkAllWarm S s) := by
  unfold Main.checkAllWarm
  split
  · rename_i hfull
    have hbegun : ¬ s.Begun := fun hb => by
      have hcount := h.count
      rw [if_pos hb] at hcount
      omega
    have hcount := h.count
    rw [if_neg hbegun, hfull] at hcount
    have hall : AllSet s.warmupComplete := numSet_eq_card.mp (by rw [Fintype.card_fin, ← hcount])
    have hnow : (finishWarmup S { s with allWarmupComplete := s.allWarmupComplete + 1 }).Begun := rfl
    refine ⟨h.core, h.warm, ?_, fun _ => hall, ?_, fun hb => absurd hnow hb, h.done⟩
    · rw [if_pos hnow]
      show (s.allWarmupComplete + 1).toNat = n + 1
      rw [toNat_succ (by omega), hfull]
    · exact fun _ j => ⟨h.warm j (hall j), le_rfl⟩
  · exact h

/-- Only what has begun can end. -/
theorem Counted.checkSimulation (h : Counted S s) (hcpus : n < 255) (i : Fin n) :
    Counted S (checkSimulation S i s) := by
  unfold Main.checkSimulation
  split
  · rename_i hend
    obtain ⟨hmore, hgoing, -⟩ := hend
    have hbegun : s.Begun := by
      by_contra hb
      have hcount := h.count
      have hle := numSet_le_cores s.warmupComplete
      rw [if_neg hb] at hcount
      omega
    have hle := numSet_le_cores s.simulationComplete
    refine ⟨h.core, h.warm, h.count, h.all, h.begun, fun hb => absurd hbegun hb, ?_⟩
    show (s.allSimulationComplete + 1).toNat = numSet (Function.update s.simulationComplete i true)
    have hdone := h.done
    rw [toNat_succ (by omega), hdone, numSet_set hgoing]
  · exact h

theorem Counted.checkEnd (h : Counted S s) : Counted S (checkEnd s) := by
  unfold Main.checkEnd
  split
  · exact ⟨h.core, h.warm, h.count, h.all, h.begun, h.cold, h.done⟩
  · exact h

/-! ## Between two visits -/

/-- What is kept of the start of the measurement. -/
def State.start (s : State μ ς n) : Nat × (Fin n → Nat) × (Fin n → Nat) :=
  (s.decodeLatency, s.beginSimInstr, s.beginSimCycle)

/-- What is kept of its end, for one core. -/
def State.result (s : State μ ς n) (i : Fin n) : Bool × Nat × Nat × Option ς :=
  (s.simulationComplete i, s.finishSimInstr i, s.finishSimCycle i, s.roi i)

section Frame

variable (S s i)

theorem checkWarmup_frame : (checkWarmup S i s).core = s.core ∧
    (checkWarmup S i s).start = s.start ∧ (checkWarmup S i s).result = s.result ∧
    (checkWarmup S i s).runSimulation = s.runSimulation := by
  unfold checkWarmup
  split <;> exact ⟨rfl, rfl, rfl, rfl⟩

theorem checkAllWarm_frame : (checkAllWarm S s).core = s.core ∧
    (checkAllWarm S s).warmupComplete = s.warmupComplete ∧ (checkAllWarm S s).result = s.result ∧
    (checkAllWarm S s).runSimulation = s.runSimulation := by
  unfold checkAllWarm
  split <;> exact ⟨rfl, rfl, rfl, rfl⟩

theorem checkSimulation_frame : (checkSimulation S i s).core = s.core ∧
    (checkSimulation S i s).warmupComplete = s.warmupComplete ∧
    (checkSimulation S i s).start = s.start ∧ (checkSimulation S i s).mem = s.mem ∧
    (checkSimulation S i s).runSimulation = s.runSimulation := by
  unfold checkSimulation
  split <;> exact ⟨rfl, rfl, rfl, rfl, rfl⟩

theorem checkEnd_frame : (checkEnd s).core = s.core ∧
    (checkEnd s).warmupComplete = s.warmupComplete ∧ (checkEnd s).start = s.start ∧
    (checkEnd s).mem = s.mem ∧ (checkEnd s).result = s.result := by
  unfold checkEnd
  split <;> exact ⟨rfl, rfl, rfl, rfl, rfl⟩

end Frame

theorem Advanced.frame (h : Advanced S i s s') : s'.start = s.start ∧ s'.result = s.result ∧
    s'.warmupComplete = s.warmupComplete ∧ s'.runSimulation = s.runSimulation := by
  rw [h.rest]
  exact ⟨rfl, rfl, rfl, rfl⟩

theorem begun_of_start (h : s'.start = s.start) : s'.Begun ↔ s.Begun := by
  have hlatency : s'.decodeLatency = s.decodeLatency := congrArg Prod.fst h
  unfold State.Begun
  rw [hlatency]

theorem complete_of_result (h : s'.result = s.result) :
    s'.simulationComplete = s.simulationComplete :=
  funext fun j => congrArg Prod.fst (congrFun h j)

structure AtRest (S : System μ ς n) (s : State μ ς n) : Prop extends Counted S s where
  hot : ∀ i, s.warmupComplete i = false → s.numRetired i ≤ S.warmupInstructions
  begins : AllSet s.warmupComplete → s.Begun
  going : s.Begun → ∀ i, s.simulationComplete i = false →
    s.numRetired i < s.beginSimInstr i + S.simulationInstructions
  ended : s.runSimulation = false ↔ AllSet s.simulationComplete

theorem numRetired_congr (h : s'.core = s.core) : s'.numRetired = s.numRetired :=
  funext fun i => congrArg (fun core : Cpu μ => core.retired.length % 2 ^ 64) (congrFun h i)

theorem Fits.congr (h : Fits S s) (hcore : s'.core = s.core) : Fits S s' := by
  intro i
  rw [hcore]
  exact h i

/-- After the check the flags of all cores are up to date. -/
theorem checkWarmup_hot (hothers : ∀ j, j ≠ i → s.warmupComplete j = false →
      s.numRetired j ≤ S.warmupInstructions) (j : Fin n) :
    (checkWarmup S i s).warmupComplete j = false →
      (checkWarmup S i s).numRetired j ≤ S.warmupInstructions := by
  unfold checkWarmup
  split
  · intro hfalse
    obtain ⟨hji, hfalse⟩ := unset_of_set (f := s.warmupComplete) hfalse
    exact hothers j hji hfalse
  · rename_i hnot
    intro hfalse
    by_cases hji : j = i
    · subst hji
      exact not_lt.mp fun hlt => hnot ⟨hfalse, hlt⟩
    · exact hothers j hji hfalse

/-- With all cores warm the measurement has begun. -/
theorem Counted.begins (h : Counted S s) (hall : AllSet (Main.checkAllWarm S s).warmupComplete) :
    (Main.checkAllWarm S s).Begun := by
  revert hall
  unfold Main.checkAllWarm
  split
  · exact fun _ => rfl
  · rename_i hfull
    intro hall
    by_contra hb
    have hcount := h.count
    rw [if_neg hb, numSet_eq_card.mpr hall, Fintype.card_fin] at hcount
    exact hfull hcount

/-- Once it has begun, the check does nothing. -/
theorem Counted.checkAllWarm_begun (h : Counted S s) (hb : s.Begun) :
    Main.checkAllWarm S s = s := by
  have hcount := h.count
  rw [if_pos hb] at hcount
  exact if_neg (by omega)

theorem checkAllWarm_starts (hb : ¬ s.Begun) (hb' : (checkAllWarm S s).Begun) :
    checkAllWarm S s = finishWarmup S { s with allWarmupComplete := s.allWarmupComplete + 1 } := by
  revert hb'
  unfold checkAllWarm
  split
  · exact fun _ => rfl
  · exact fun hb' => absurd hb' hb

/-- A core that has not ended is short of the number of instructions to simulate. -/
theorem Counted.going (h : Counted S s) (hfits : Fits S s)
    (hothers : s.Begun → ∀ j, j ≠ i → s.simulationComplete j = false →
      s.numRetired j < s.beginSimInstr j + S.simulationInstructions) :
    (Main.checkSimulation S i s).Begun →
      ∀ j, (Main.checkSimulation S i s).simulationComplete j = false →
      (Main.checkSimulation S i s).numRetired j <
        (Main.checkSimulation S i s).beginSimInstr j + S.simulationInstructions := by
  unfold Main.checkSimulation
  split
  · intro hb j hfalse
    obtain ⟨hji, hfalse⟩ := unset_of_set (f := s.simulationComplete) hfalse
    exact hothers hb j hji hfalse
  · rename_i hnot
    intro hb j hfalse
    by_cases hji : j = i
    · rw [hji] at hfalse ⊢
      have hcount := h.count
      rw [if_pos hb] at hcount
      have hbegin := (h.begun hb i).2
      have hnum := hfits.numRetired i
      have hlt := hfits i
      have hsum : add64 (s.beginSimInstr i) S.simulationInstructions =
          s.beginSimInstr i + S.simulationInstructions := Nat.mod_eq_of_lt (by omega)
      rw [hsum] at hnot
      exact not_le.mp fun hle => hnot ⟨by omega, hfalse, hle⟩
    · exact hothers hb j hji hfalse

/-- The run ends with the last core. -/
theorem Counted.ended (h : Counted S s)
    (hended : s.runSimulation = false → AllSet s.simulationComplete) :
    (Main.checkEnd s).runSimulation = false ↔ AllSet (Main.checkEnd s).simulationComplete := by
  have hdone := h.done
  unfold Main.checkEnd
  split
  · rename_i hall
    rw [hdone] at hall
    exact ⟨fun _ => numSet_eq_card.mp (hall.trans (Fintype.card_fin n).symm), fun _ => rfl⟩
  · rename_i hnot
    refine ⟨hended, fun hall => absurd ?_ hnot⟩
    rw [hdone, numSet_eq_card.mpr hall, Fintype.card_fin]

/-! ## A visit -/

structure Visited (S : System μ ς n) (i : Fin n) (s s' : State μ ς n) : Prop where
  rest : AtRest S s'
  kept : s.Begun → s'.start = s.start
  starts : ¬ s.Begun → s'.Begun → s'.beginSimInstr = s'.numRetired ∧
    s'.beginSimCycle = fun j => (s'.core j).cycle
  frozen : ∀ j, s.simulationComplete j = true → s'.result j = s.result j
  measures : ∀ j, s.simulationComplete j = false → s'.simulationComplete j = true →
    j = i ∧ s'.Begun ∧ s'.beginSimInstr i + S.simulationInstructions ≤ s'.numRetired i ∧
      s'.result i = (true, s'.numRetired i - s'.beginSimInstr i,
        sub64 (s'.core i).cycle (s'.beginSimCycle i), some (S.simStats i s'.mem))

theorem visit_cases (h : visit S i turn s = some s') : ∃ s₁, Advanced S i s s₁ ∧
    s' = checkEnd (checkSimulation S i (checkAllWarm S (checkWarmup S i s₁))) := by
  obtain ⟨s₁, hadvance, h⟩ := Option.bind_eq_some_iff.mp h
  split at h
  · cases h
  · cases h
    exact ⟨s₁, advance_does hadvance, rfl⟩

/-- The check at which the measurement of a core ends. -/
theorem Counted.checkSimulation_ends (h : Counted S s) (hfits : Fits S s) {j : Fin n}
    (hgoing : s.simulationComplete j = false)
    (hends : (Main.checkSimulation S i s).simulationComplete j = true) :
    j = i ∧ s.Begun ∧ s.beginSimInstr i + S.simulationInstructions ≤ s.numRetired i ∧
      (Main.checkSimulation S i s).result i = (true, s.numRetired i - s.beginSimInstr i,
        sub64 (s.core i).cycle (s.beginSimCycle i), some (S.simStats i s.mem)) := by
  revert hends
  unfold Main.checkSimulation
  split
  · rename_i hend
    obtain ⟨hmore, -, hretired⟩ := hend
    intro hends
    have hji : j = i := by
      by_contra hji
      have hsame : s.simulationComplete j = true := (Function.update_of_ne hji ..).symm.trans hends
      rw [hgoing] at hsame
      cases hsame
    have hbegun : s.Begun := by
      by_contra hb
      have hcount := h.count
      have hle := numSet_le_cores s.warmupComplete
      rw [if_neg hb] at hcount
      omega
    have hbegin := (h.begun hbegun i).2
    have hnum := hfits.numRetired i
    have hlt := hfits i
    have hsum : add64 (s.beginSimInstr i) S.simulationInstructions =
        s.beginSimInstr i + S.simulationInstructions := Nat.mod_eq_of_lt (by omega)
    have hdiff : sub64 (s.numRetired i) (s.beginSimInstr i) =
        s.numRetired i - s.beginSimInstr i := by
      unfold sub64
      omega
    rw [hsum] at hretired
    refine ⟨hji, hbegun, hretired, ?_⟩
    simp only [State.result, Function.update_self, hdiff]
  · intro hends
    rw [hgoing] at hends
    cases hends

theorem checkSimulation_frozen {j : Fin n} (h : s.simulationComplete j = true) :
    (checkSimulation S i s).result j = s.result j := by
  unfold checkSimulation
  split
  · rename_i hend
    obtain ⟨-, hgoing, -⟩ := hend
    have hji : j ≠ i := by
      rintro rfl
      rw [h] at hgoing
      cases hgoing
    simp only [State.result, Function.update_of_ne hji]
  · rfl

theorem AtRest.visit (h : AtRest S s) (hcpus : n < 255) (hsim : 0 < S.simulationInstructions)
    (hv : visit S i turn s = some s') (hfits : Fits S s') : Visited S i s s' := by
  obtain ⟨s₁, hadvance, rfl⟩ := visit_cases hv
  -- the state after each check
  set s₂ := checkWarmup S i s₁ with hs₂
  set s₃ := checkAllWarm S s₂ with hs₃
  set s₄ := checkSimulation S i s₃ with hs₄
  obtain ⟨hstart₁, hresult₁, hwarm₁, hrun₁⟩ := hadvance.frame
  obtain ⟨hcore₂, hstart₂, hresult₂, hrun₂⟩ := checkWarmup_frame S s₁ i
  obtain ⟨hcore₃, hwarm₃, hresult₃, hrun₃⟩ := checkAllWarm_frame S s₂
  obtain ⟨hcore₄, hwarm₄, hstart₄, hmem₄, hrun₄⟩ := checkSimulation_frame S s₃ i
  obtain ⟨hcore₅, hwarm₅, hstart₅, hmem₅, hresult₅⟩ := checkEnd_frame s₄
  rw [← hs₂] at hcore₂ hstart₂ hresult₂ hrun₂
  rw [← hs₃] at hcore₃ hwarm₃ hresult₃ hrun₃
  rw [← hs₄] at hcore₄ hwarm₄ hstart₄ hmem₄ hrun₄
  have hfits₃ : Fits S s₃ := (hfits.congr hcore₅.symm).congr hcore₄.symm
  have hfits₁ : Fits S s₁ := (hfits₃.congr hcore₃.symm).congr hcore₂.symm
  have h₁ : Counted S s₁ := h.toCounted.advance hadvance hfits₁
  have h₂ : Counted S s₂ := h₁.checkWarmup hcpus i
  have h₃ : Counted S s₃ := h₂.checkAllWarm hcpus
  have h₄ : Counted S s₄ := h₃.checkSimulation hcpus i
  have hbegun₂ : s₂.Begun ↔ s.Begun := begun_of_start (hstart₂.trans hstart₁)
  have hbegun₅ : (checkEnd s₄).Begun ↔ s₃.Begun := begun_of_start (hstart₅.trans hstart₄)
  have hcomplete₃ : s₃.simulationComplete = s.simulationComplete :=
    complete_of_result ((hresult₃.trans hresult₂).trans hresult₁)
  have hnum₅ : (checkEnd s₄).numRetired = s₃.numRetired := numRetired_congr (hcore₅.trans hcore₄)
  have hinstr₅ : (checkEnd s₄).beginSimInstr = s₃.beginSimInstr :=
    congrArg (fun p => p.2.1) (hstart₅.trans hstart₄)
  have hcycle₅ : (checkEnd s₄).beginSimCycle = s₃.beginSimCycle :=
    congrArg (fun p => p.2.2) (hstart₅.trans hstart₄)
  have hsame : s.Begun → s₃.start = s.start := by
    intro hb
    rw [hs₃, h₂.checkAllWarm_begun (hbegun₂.mpr hb)]
    exact hstart₂.trans hstart₁
  have hnew : ¬ s.Begun → s₃.Begun → s₃.beginSimInstr = s₃.numRetired ∧
      s₃.beginSimCycle = fun j => (s₃.core j).cycle := by
    intro hb hb'
    rw [hs₃, checkAllWarm_starts (fun h => hb (hbegun₂.mp h)) hb']
    exact ⟨rfl, rfl⟩
  have hfrozen : ∀ j, s.simulationComplete j = true → (checkEnd s₄).result j = s.result j := by
    intro j hj
    rw [hresult₅]
    refine (checkSimulation_frozen (by rw [hcomplete₃]; exact hj)).trans ?_
    exact congrFun ((hresult₃.trans hresult₂).trans hresult₁) j
  refine ⟨⟨h₄.checkEnd, ?_, ?_, ?_, ?_⟩, ?_, ?_, hfrozen, ?_⟩
  · intro j hfalse
    rw [hwarm₅, hwarm₄, hwarm₃] at hfalse
    rw [hnum₅, numRetired_congr hcore₃]
    refine checkWarmup_hot (fun k hk hfalse => ?_) j hfalse
    have hnum : s₁.numRetired k = s.numRetired k :=
      congrArg (fun core : Cpu μ => core.retired.length % 2 ^ 64) (hadvance.others k hk)
    rw [hwarm₁] at hfalse
    rw [hnum]
    exact h.hot k hfalse
  · intro hall
    rw [hwarm₅, hwarm₄] at hall
    exact hbegun₅.mpr (h₂.begins hall)
  · intro hb j hfalse
    have hothers : s₃.Begun → ∀ k, k ≠ i → s₃.simulationComplete k = false →
        s₃.numRetired k < s₃.beginSimInstr k + S.simulationInstructions := by
      intro hb₃ k hk hfalse
      by_cases hbs : s.Begun
      · have hinstr : s₃.beginSimInstr = s.beginSimInstr := congrArg (fun p => p.2.1) (hsame hbs)
        have hnum : s₃.numRetired k = s.numRetired k := by
          rw [numRetired_congr (hcore₃.trans hcore₂)]
          exact congrArg (fun core : Cpu μ => core.retired.length % 2 ^ 64) (hadvance.others k hk)
        rw [hcomplete₃] at hfalse
        rw [hinstr, hnum]
        exact h.going hbs k hfalse
      · rw [(hnew hbs hb₃).1]
        exact Nat.lt_add_of_pos_right hsim
    have hcomplete₅ := complete_of_result hresult₅
    have hgoing := h₃.going hfits₃ hothers ((begun_of_start hstart₅).mp hb) j
      (hcomplete₅ ▸ hfalse)
    have hinstr : (checkEnd s₄).beginSimInstr = s₄.beginSimInstr :=
      congrArg (fun p => p.2.1) hstart₅
    rw [numRetired_congr hcore₅, hinstr]
    exact hgoing
  · refine h₄.ended fun hrun => ?_
    have hall := h.ended.mp (by rw [← hrun₁, ← hrun₂, ← hrun₃, ← hrun₄]; exact hrun)
    intro j
    have hresult := congrArg Prod.fst (hfrozen j (hall j))
    have hcomplete₅ := congrFun (complete_of_result hresult₅) j
    exact hcomplete₅.symm.trans (hresult.trans (hall j))
  · exact fun hb => (hstart₅.trans hstart₄).trans (hsame hb)
  · intro hb hb'
    have hstarted := hnew hb (hbegun₅.mp hb')
    rw [hinstr₅, hcycle₅, hnum₅, hcore₅, hcore₄]
    exact hstarted
  · intro j hgoing hends
    rw [complete_of_result hresult₅] at hends
    obtain ⟨hji, hb, hretired, hresult⟩ :=
      h₃.checkSimulation_ends hfits₃ (by rw [hcomplete₃]; exact hgoing) hends
    rw [hinstr₅, hcycle₅, hnum₅, hcore₅, hcore₄, hmem₅, hmem₄, hresult₅]
    exact ⟨hji, hbegun₅.mpr hb, hretired, hresult⟩

/-! ## A run -/

theorem visit_cores (hs : ∀ j, CoreReaches S s j) (hv : visit S i turn s = some s') :
    (∀ j, CoreReaches S s' j) ∧ ∀ j, Later (s.core j) (s'.core j) := by
  obtain ⟨s₁, hadvance, rfl⟩ := visit_cases hv
  have hcore :
      (checkEnd (checkSimulation S i (checkAllWarm S (checkWarmup S i s₁)))).core = s₁.core := by
    rw [(checkEnd_frame _).1, (checkSimulation_frame S _ i).1, (checkAllWarm_frame S _).1,
      (checkWarmup_frame S _ i).1]
  rw [hcore]
  refine ⟨fun j => ?_, hadvance.later hs⟩
  unfold CoreReaches
  rw [hcore]
  exact hadvance.reaches hs j

theorem visits_cores (hs : ∀ j, CoreReaches S s j) (h : Visits S s s') :
    (∀ j, CoreReaches S s' j) ∧ ∀ j, Later (s.core j) (s'.core j) := by
  induction h with
  | refl => exact ⟨hs, fun _ => .refl _⟩
  | tail _ hstep ih =>
    obtain ⟨hcores, hlater⟩ := ih
    cases hstep with
    | visit i turn hv =>
      obtain ⟨hcores', hlater'⟩ := visit_cores hcores hv
      exact ⟨hcores', fun j => (hlater j).trans (hlater' j)⟩
    | uncore mem => exact ⟨hcores, hlater⟩

/-- What holds of every run of a core by itself holds of each core here. -/
theorem reached_cores (h : Reached S s) (j : Fin n) : CoreReaches S s j := by
  obtain ⟨mem, hvisits⟩ := h
  exact (visits_cores (fun _ => ⟨mem, .refl _⟩) hvisits).1 j

/-- `finish_warmup` was called in the visit in which the last core became warm. -/
def WarmedUp (S : System μ ς n) (s : State μ ς n) : Prop :=
  ∃ j turn s₁ s₂, Reached S s₁ ∧ visit S j turn s₁ = some s₂ ∧ Visits S s₂ s ∧
    ¬ AllSet s₁.warmupComplete ∧ AllSet s₂.warmupComplete ∧
    ∀ i, S.warmupInstructions < s₂.numRetired i ∧ s.beginSimInstr i = s₂.numRetired i ∧
      s.beginSimCycle i = (s₂.core i).cycle

/-- The measurement of core `i` ended with the first of its cycles after which it had retired as many
instructions as asked for, and `roi` holds what the caches had counted by then. -/
def Measured (S : System μ ς n) (s : State μ ς n) (i : Fin n) : Prop :=
  ∃ turn s₁ s₂, Reached S s₁ ∧ visit S i turn s₁ = some s₂ ∧ Visits S s₂ s ∧
    s₁.numRetired i < s.beginSimInstr i + S.simulationInstructions ∧
    s.beginSimInstr i + S.simulationInstructions ≤ s₂.numRetired i ∧
    s.beginSimInstr i + s.finishSimInstr i = s₂.numRetired i ∧
    add64 (s.beginSimCycle i) (s.finishSimCycle i) = (s₂.core i).cycle ∧
    s.roi i = some (S.simStats i s₂.mem)

/-- What has passed since `b`, counted on from `b`. -/
theorem add64_sub64 {a : Nat} (ha : a < 2 ^ 64) (b : Nat) : add64 b (sub64 a b) = a := by
  unfold add64 sub64
  omega

theorem atRest_init (hn : 0 < n) (mem : μ) : AtRest S (.init S mem) where
  toCounted := counted_init mem
  hot := fun _ _ => Nat.zero_le _
  begins := fun h => absurd (h ⟨0, hn⟩) Bool.false_ne_true
  going := fun h => absurd h (not_begun_init mem)
  ended := ⟨fun h => absurd h.symm Bool.false_ne_true,
    fun h => absurd (h ⟨0, hn⟩) Bool.false_ne_true⟩

theorem AtRest.uncore (h : AtRest S s) (mem : μ) : AtRest S { s with mem := mem } :=
  ⟨⟨h.core, h.warm, h.count, h.all, h.begun, h.cold, h.done⟩, h.hot, h.begins, h.going, h.ended⟩

theorem WarmedUp.step (h : WarmedUp S s) (hstep : Step S s s') (hstart : s'.start = s.start) :
    WarmedUp S s' := by
  obtain ⟨j, turn, s₁, s₂, hreached, hv, hvisits, hnot, hall, hbegin⟩ := h
  have hinstr : s'.beginSimInstr = s.beginSimInstr := congrArg (fun p => p.2.1) hstart
  have hcycle : s'.beginSimCycle = s.beginSimCycle := congrArg (fun p => p.2.2) hstart
  refine ⟨j, turn, s₁, s₂, hreached, hv, hvisits.tail hstep, hnot, hall, fun i => ?_⟩
  rw [hinstr, hcycle]
  exact hbegin i

theorem Measured.step (h : Measured S s i) (hstep : Step S s s') (hstart : s'.start = s.start)
    (hresult : s'.result i = s.result i) : Measured S s' i := by
  obtain ⟨turn, s₁, s₂, hreached, hv, hvisits, hrest⟩ := h
  have hinstr : s'.beginSimInstr = s.beginSimInstr := congrArg (fun p => p.2.1) hstart
  have hcycle : s'.beginSimCycle = s.beginSimCycle := congrArg (fun p => p.2.2) hstart
  obtain ⟨-, hfinish, hfinishCycle, hroi⟩ : _ ∧ _ ∧ _ ∧ _ := by
    simpa only [State.result, Prod.mk.injEq] using hresult
  refine ⟨turn, s₁, s₂, hreached, hv, hvisits.tail hstep, ?_⟩
  rw [hinstr, hcycle, hfinish, hfinishCycle, hroi]
  exact hrest

/-- A visit after which the measurement of core `i` has ended, for the first time. -/
theorem AtRest.measured (h : AtRest S s) (hreached : Reached S s)
    (hsim : 0 < S.simulationInstructions)
    (hv : Main.visit S i turn s = some s') (hvisited : Visited S i s s') {j : Fin n}
    (hgoing : s.simulationComplete j = false) (hends : s'.simulationComplete j = true) :
    Measured S s' j := by
  obtain ⟨rfl, hb, hretired, hresult⟩ := hvisited.measures j hgoing hends
  obtain ⟨-, hfinish, hfinishCycle, hroi⟩ : _ ∧ _ ∧ _ ∧ _ := by
    simpa only [State.result, Prod.mk.injEq] using hresult
  obtain ⟨-, hbegin⟩ := hvisited.rest.begun hb j
  refine ⟨turn, s, s', hreached, hv, .refl, ?_, hretired, ?_, ?_, hroi⟩
  · by_cases hbs : s.Begun
    · have hinstr : s'.beginSimInstr = s.beginSimInstr :=
        congrArg (fun p => p.2.1) (hvisited.kept hbs)
      rw [hinstr]
      exact h.going hbs j hgoing
    · rw [(hvisited.starts hbs hb).1] at hretired
      omega
  · rw [hfinish]
    exact Nat.add_sub_cancel' hbegin
  · rw [hfinishCycle]
    exact add64_sub64 (hvisited.rest.core j).clock _

structure History (S : System μ ς n) (s : State μ ς n) : Prop where
  rest : AtRest S s
  warmed : s.Begun → WarmedUp S s
  measured : ∀ i, s.simulationComplete i = true → Measured S s i

theorem History.visit (h : History S s) (hreached : Reached S s) (hcpus : n < 255)
    (hsim : 0 < S.simulationInstructions) (hv : visit S i turn s = some s') (hfits : Fits S s') :
    History S s' := by
  have hvisited := h.rest.visit hcpus hsim hv hfits
  have hstep : Step S s s' := .visit i turn hv
  refine ⟨hvisited.rest, fun hb => ?_, fun j hj => ?_⟩
  · by_cases hbs : s.Begun
    · exact (h.warmed hbs).step hstep (hvisited.kept hbs)
    · obtain ⟨hinstr, hcycle⟩ := hvisited.starts hbs hb
      refine ⟨i, turn, s, s', hreached, hv, .refl, fun hall => hbs (h.rest.begins hall),
        hvisited.rest.all hb, fun j => ⟨hvisited.rest.warm j (hvisited.rest.all hb j), ?_, ?_⟩⟩
      · rw [hinstr]
      · rw [hcycle]
  · cases hold : s.simulationComplete j with
    | false => exact h.rest.measured hreached hsim hv hvisited hold hj
    | true =>
      have hbs : s.Begun := by
        by_contra hbs
        rw [h.rest.cold hbs j] at hold
        cases hold
      exact (h.measured j hold).step hstep (hvisited.kept hbs) (hvisited.frozen j hold)

theorem reached_history (hn : 0 < n) (hcpus : n < 255) (hsim : 0 < S.simulationInstructions)
    (h : Reached S s) (hfits : Fits S s) : History S s := by
  obtain ⟨mem, hvisits⟩ := h
  induction hvisits with
  | refl =>
    exact ⟨atRest_init hn mem, fun hb => absurd hb (not_begun_init mem),
      fun _ hi => absurd hi Bool.false_ne_true⟩
  | tail hvisits hstep ih =>
    have hreached : Reached S _ := ⟨mem, hvisits⟩
    cases hstep with
    | visit i turn hv =>
      have hlater := (visit_cores (reached_cores hreached) hv).2
      exact (ih (hfits.earlier hlater)).visit hreached hcpus hsim hv hfits
    | uncore mem' =>
      have hold := ih hfits
      exact ⟨hold.rest.uncore mem',
        fun hb => (hold.warmed hb).step (.uncore _ mem') rfl,
        fun i hi => (hold.measured i hi).step (.uncore _ mem') rfl rfl⟩

theorem iteration_visits {turn : Turn μ n} (h : iteration S s turn = some s') : Visits S s s' := by
  obtain ⟨s₁, hrun, h⟩ := Option.bind_eq_some_iff.mp h
  obtain ⟨mem, -, rfl⟩ := Option.map_eq_some_iff.mp h
  have hvisits : Visits S s s₁ := by
    refine run_invariant (I := Visits S s) (P := fun _ _ => True) ?_ .refl
      (along_of_forall (fun _ _ => trivial) _) hrun
    intro t i t' ht _ hv
    exact ht.tail (.visit i _ hv)
  exact hvisits.tail (.uncore s₁ mem)

/-- The loops of `main` are such runs. -/
theorem simulate_visits (turns : List (Turn μ n)) :
    ∀ {s}, simulate S turns s = some s' → Visits S s s' := by
  induction turns with
  | nil =>
    intro s h
    cases h
    exact .refl
  | cons turn turns ih =>
    intro s h
    unfold simulate at h
    split at h
    · obtain ⟨s₁, hturn, h⟩ := Option.bind_eq_some_iff.mp h
      exact (iteration_visits hturn).trans (ih h)
    · cases h
      exact .refl

/-- A core is marked warm when it has retired more instructions than the warm-up has; with the last
one `finish_warmup` is called, and never again, and no core ends before. From then on a core ends when
it has retired as many instructions as asked for, once, and keeps what it had counted by then. The
simulation ends with the last core. Each core by itself is a run of one core. -/
theorem phases_exact (hn : 0 < n) (hcpus : n < 255) (hsim : 0 < S.simulationInstructions)
    (h : Reached S s)
    (hfits : Fits S s) :
    (∀ i, s.warmupComplete i = true ↔ S.warmupInstructions < s.numRetired i) ∧
      (s.decodeLatency = 2 ↔ ∀ i, s.warmupComplete i = true) ∧
      ((∀ i, s.warmupComplete i = true) → WarmedUp S s) ∧
      (∀ i, s.simulationComplete i = true ↔ (∀ j, s.warmupComplete j = true) ∧
        s.beginSimInstr i + S.simulationInstructions ≤ s.numRetired i) ∧
      (∀ i, s.simulationComplete i = true → Measured S s i) ∧
      (s.runSimulation = false ↔ ∀ i, s.simulationComplete i = true) ∧
      ∀ i, CoreReaches S s i := by
  obtain ⟨hrest, hwarmed, hmeasured⟩ := reached_history hn hcpus hsim h hfits
  refine ⟨fun i => ⟨hrest.warm i, fun hlt => ?_⟩, ⟨hrest.all, hrest.begins⟩,
    fun hall => hwarmed (hrest.begins hall), fun i => ⟨fun hi => ?_, fun hi => ?_⟩, hmeasured,
    hrest.ended, hrest.core⟩
  · by_contra hcold
    exact absurd (hrest.hot i (Bool.eq_false_of_not_eq_true hcold)) (not_le.mpr hlt)
  · have hb : s.Begun := by
      by_contra hb
      rw [hrest.cold hb i] at hi
      cases hi
    obtain ⟨turn, s₁, s₂, hreached, hv, hvisits, -, hle, -⟩ := hmeasured i hi
    obtain ⟨mem, hstart⟩ := hreached
    have hcores₂ := reached_cores (S := S) ⟨mem, hstart.tail (.visit i turn hv)⟩
    have hlater := (visits_cores hcores₂ hvisits).2
    have hnum : s₂.numRetired i ≤ s.numRetired i := by
      rw [Fits.numRetired (hfits.earlier hlater), Fits.numRetired hfits]
      exact (hlater i).retired
    exact ⟨hrest.all hb, hle.trans hnum⟩
  · obtain ⟨hall, hle⟩ := hi
    by_contra hgoing
    have hlt := hrest.going (hrest.begins hall) i (Bool.eq_false_of_not_eq_true hgoing)
    omega

/-! ## A run -/

/-- Each core has caches of its own. -/
def apart (M : Memory μ) (i : Fin n) : Memory (Fin n → μ) where
  addRq := fun server cycle p m => (M.addRq server cycle p (m i)).map fun (taken, k) =>
    (taken, Function.update m i k)
  addWq := fun cycle p m => (M.addWq cycle p (m i)).map (Function.update m i)
  wqOccupancy := fun m => M.wqOccupancy (m i)
  wqSize := M.wqSize
  processed := fun server cycle m => M.processed server cycle (m i)
  removeProcessed := fun server m => (M.removeProcessed server (m i)).map (Function.update m i)
  operate := fun cycle m => (M.operate cycle (m i)).map (Function.update m i)

/-- Two cores over traces of a taken branch, which they predict not taken. -/
def twoCores : System (Fin 2 → Server → List Packet) Nat 2 where
  warmupInstructions := 0
  simulationInstructions := 1
  memory := apart echo
  config := fun _ => echoConfig
  trace := fun _ => ⟨[takenBranch], List.cons_ne_nil _ _⟩
  simStats := fun i m => (m i .l1i).length
  resetStats := id

def twoCoresTurn : Turn (Fin 2 → Server → List Packet) 2 where
  core := fun _ => { stalled := false, vaToPa := fun x => x.ip, predictBranch := fun _ => 0 }
  uncore := some

def twoCoresRun (k : Nat) : Option (State (Fin 2 → Server → List Packet) Nat 2) :=
  simulate twoCores (List.replicate k twoCoresTurn) (.init twoCores fun _ _ => [])

theorem phases_exact_twoCores : ∃ s, twoCoresRun 7 = some s ∧ s.runSimulation = false ∧
    (∀ i, Measured twoCores s i) ∧ (∀ i, CoreReaches twoCores s i) ∧
      ∀ i, s.beginSimInstr i = 4 ∧ s.finishSimInstr i = 2 := by
  have hrun : (twoCoresRun 7).map (fun s => (s.runSimulation, fun i : Fin 2 =>
      ((s.core i).retired.length, s.beginSimInstr i, s.finishSimInstr i))) =
      some (false, fun _ => (6, 4, 2)) := by decide +kernel
  obtain ⟨s, hs, heq⟩ := Option.map_eq_some_iff.mp hrun
  obtain ⟨hend, hcores⟩ := Prod.mk.inj heq
  have hcore : ∀ i : Fin 2, (s.core i).retired.length = 6 ∧ s.beginSimInstr i = 4 ∧
      s.finishSimInstr i = 2 := by
    intro i
    simpa only [Prod.mk.injEq] using congrFun hcores i
  have hreached : Reached twoCores s := ⟨_, simulate_visits _ hs⟩
  obtain ⟨-, -, -, -, hmeasured, hended, hcores⟩ :=
    phases_exact (by decide) (by decide) (by decide) hreached
      fun i => by rw [(hcore i).1]; decide
  exact ⟨s, hs, hend, fun i => hmeasured i (hended.mp hend i), hcores, fun i => (hcore i).2⟩

end Main
end ChampSim
