import ChampSim.O3.Cycle
import Mathlib.Data.List.FinRange
import Mathlib.Data.UInt
import Mathlib.Logic.Function.Basic

/-!
# ChampSim.Main.Loop

The loop over the cores in `main` (`src/main.cc`).

* `System μ ς n` — what the command line and the build choose for `n` cores. `μ` is the state of all
  caches and of the DRAM, `ς` what `record_roi_stats` copies for a core.
* `State μ ς n`  — the cores, and the variables of `main`.
* `visit`        — the body of the inner loop, for one core.
* `iteration`    — one round of the outer loop.
* `simulate`     — `while (run_simulation)`.
-/

namespace ChampSim
namespace Main

open Lib O3

variable {μ ς : Type} {n : Nat}

def deadlockCycle : Nat := 1000000

structure System (μ ς : Type) (n : Nat) where
  warmupInstructions : Nat
  simulationInstructions : Nat
  memory : Fin n → Memory μ
  config : Fin n → O3.Config
  trace : Fin n → Core.Trace
  /-- `sim_access`, `sim_hit` and `sim_miss` of the L1D, the L1I, the L2C and the LLC for a core. -/
  simStats : Fin n → μ → ς
  /-- What `finish_warmup` resets and sets in the caches and the DRAM. -/
  resetStats : μ → μ

structure State (μ ς : Type) (n : Nat) where
  /-- Each with the caches as it has left them. -/
  core : Fin n → Cpu μ
  mem : μ
  warmupComplete : Fin n → Bool
  simulationComplete : Fin n → Bool
  allWarmupComplete : UInt8
  allSimulationComplete : UInt8
  decodeLatency : Nat
  beginSimInstr : Fin n → Nat
  beginSimCycle : Fin n → Nat
  finishSimInstr : Fin n → Nat
  finishSimCycle : Fin n → Nat
  roi : Fin n → Option ς
  runSimulation : Bool

def State.init (S : System μ ς n) (mem : μ) : State μ ς n where
  core := fun _ => .init mem
  mem := mem
  warmupComplete := fun _ => false
  simulationComplete := fun _ => false
  allWarmupComplete := 0
  allSimulationComplete := 0
  decodeLatency := 0
  beginSimInstr := fun _ => S.warmupInstructions
  beginSimCycle := fun _ => 0
  finishSimInstr := fun _ => 0
  finishSimCycle := fun _ => 0
  roi := fun _ => none
  runSimulation := true

/-- `num_retired`. -/
def State.numRetired (s : State μ ς n) (i : Fin n) : Nat := (s.core i).retired.length % 2 ^ 64

/-- What a core meets in its cycle. -/
structure CoreTurn where
  /-- `stall_cycle` lies in the future. -/
  stalled : Bool
  vaToPa : Core.OooModelInstr → Nat
  predictBranch : Core.OooModelInstr → UInt8

/-! ## One core -/

section Visit

variable (S : System μ ς n) (i : Fin n)

def advance (turn : CoreTurn) (s : State μ ς n) : Option (State μ ς n) :=
  (cycle (S.memory i) (S.config i) (S.trace i) (s.core i)
    { stalled := turn.stalled
      warmupComplete := s.warmupComplete i
      decodeLatency := s.decodeLatency
      vaToPa := turn.vaToPa
      predictBranch := turn.predictBranch
      outside := fun _ => some s.mem }).map fun core =>
    { s with core := Function.update s.core i core, mem := core.mem }

/-- `print_deadlock` would end the program. -/
def Deadlocked (core : Cpu μ) : Prop :=
  (core.rob.entry core.rob.head).ip ≠ 0 ∧
    add64 (core.rob.entry core.rob.head).eventCycle deadlockCycle ≤ core.cycle

instance (core : Cpu μ) : Decidable (Deadlocked core) := inferInstanceAs (Decidable (_ ∧ _))

def checkWarmup (s : State μ ς n) : State μ ς n :=
  if s.warmupComplete i = false ∧ s.numRetired i > S.warmupInstructions then
    { s with
      warmupComplete := Function.update s.warmupComplete i true
      allWarmupComplete := s.allWarmupComplete + 1 }
  else s

def finishWarmup (s : State μ ς n) : State μ ς n :=
  { s with
    decodeLatency := 2
    beginSimCycle := fun i => (s.core i).cycle
    beginSimInstr := s.numRetired
    mem := S.resetStats s.mem }

def checkAllWarm (s : State μ ς n) : State μ ς n :=
  if s.allWarmupComplete.toNat = n then
    finishWarmup S { s with allWarmupComplete := s.allWarmupComplete + 1 }
  else s

def checkSimulation (s : State μ ς n) : State μ ς n :=
  if s.allWarmupComplete.toNat > n ∧ s.simulationComplete i = false ∧
      s.numRetired i ≥ add64 (s.beginSimInstr i) S.simulationInstructions then
    { s with
      simulationComplete := Function.update s.simulationComplete i true
      finishSimInstr :=
        Function.update s.finishSimInstr i (sub64 (s.numRetired i) (s.beginSimInstr i))
      finishSimCycle :=
        Function.update s.finishSimCycle i (sub64 (s.core i).cycle (s.beginSimCycle i))
      roi := Function.update s.roi i (some (S.simStats i s.mem))
      allSimulationComplete := s.allSimulationComplete + 1 }
  else s

def checkEnd (s : State μ ς n) : State μ ς n :=
  if s.allSimulationComplete.toNat = n then { s with runSimulation := false } else s

def visit (turn : CoreTurn) (s : State μ ς n) : Option (State μ ς n) :=
  (advance S i turn s).bind fun s =>
    if Deadlocked (s.core i) then none
    else some (checkEnd (checkSimulation S i (checkAllWarm S (checkWarmup S i s))))

end Visit

/-! ## The loops -/

structure Turn (μ : Type) (n : Nat) where
  core : Fin n → CoreTurn
  /-- `uncore.DRAM.operate()` and `uncore.LLC.operate()`. -/
  uncore : μ → Option μ

def iteration (S : System μ ς n) (s : State μ ς n) (turn : Turn μ n) : Option (State μ ς n) :=
  (run (fun s i => visit S i (turn.core i) s) s (List.finRange n)).bind fun s =>
    (turn.uncore s.mem).map fun mem => { s with mem := mem }

/-- The rounds of a run that has not ended are those of `turns`. -/
def simulate (S : System μ ς n) : List (Turn μ n) → State μ ς n → Option (State μ ς n)
  | [], s => some s
  | turn :: turns, s =>
    if s.runSimulation then (iteration S s turn).bind (simulate S turns) else some s

end Main
end ChampSim
