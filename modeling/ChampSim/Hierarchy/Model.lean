import ChampSim.Cache.Levels
import ChampSim.Cache.Handlers
import ChampSim.Core.Requests
import Mathlib.Data.List.FinRange

/-!
# ChampSim.Hierarchy.Model

The caches of all cores and the LLC while they run, connected as in `main` (`src/main.cc`).

* `Node`    — a private cache of a core, or the LLC; `lower`, `upperIcache` and `upperDcache` are
  the pointers of these names, `uppers` the caches above.
* `Machine` — their states. `refused` has the packets for which `lower_level->add_rq` answered -2,
  `crowded` those that found the `RQ` below full; they have no counterpart in the source.
* `handle`  — a handler of a node runs, then the calls it made are performed in their order. What
  the lower level returns to the caller while it is being called are the handler's `answers`.
* `operate` — one cycle of a node.
* `Action`  — a cycle, a request or a store of a core, a call of a prefetcher, data from the DRAM, a
  line of a swapped page, a packet that a core takes.

The LLC calls the DRAM and the STLB walks the page table; neither is a node here.
-/

namespace ChampSim
namespace Cache

open Lib

variable {numCpus : Nat} {ρ : Type}

inductive Node (numCpus : Nat) where
  | ofCore (level : Level) (cpu : Fin numCpus)
  | llc
deriving DecidableEq

namespace Node

def config : Node numCpus → Config
  | .ofCore level cpu => level.config numCpus cpu
  | .llc => Cache.llc numCpus

def lower : Node numCpus → Option (Node numCpus)
  | .ofCore .itlb cpu | .ofCore .dtlb cpu => some (.ofCore .stlb cpu)
  | .ofCore .l1i cpu | .ofCore .l1d cpu => some (.ofCore .l2c cpu)
  | .ofCore .l2c _ => some .llc
  | .ofCore .stlb _ | .llc => none

/-- A core has its own second level only. -/
def upperIcache (cpu : Nat) : Node numCpus → Option (Node numCpus)
  | .ofCore .stlb i => if cpu = i then some (.ofCore .itlb i) else none
  | .ofCore .l2c i => if cpu = i then some (.ofCore .l1i i) else none
  | .llc => if h : cpu < numCpus then some (.ofCore .l2c ⟨cpu, h⟩) else none
  | .ofCore .itlb _ | .ofCore .dtlb _ | .ofCore .l1i _ | .ofCore .l1d _ => none

def upperDcache (cpu : Nat) : Node numCpus → Option (Node numCpus)
  | .ofCore .stlb i => if cpu = i then some (.ofCore .dtlb i) else none
  | .ofCore .l2c i => if cpu = i then some (.ofCore .l1d i) else none
  | .llc => if h : cpu < numCpus then some (.ofCore .l2c ⟨cpu, h⟩) else none
  | .ofCore .itlb _ | .ofCore .dtlb _ | .ofCore .l1i _ | .ofCore .l1d _ => none

def uppers : Node numCpus → List (Node numCpus)
  | .ofCore .stlb i => [.ofCore .itlb i, .ofCore .dtlb i]
  | .ofCore .l2c i => [.ofCore .l1i i, .ofCore .l1d i]
  | .llc => (List.finRange numCpus).map (.ofCore .l2c)
  | .ofCore .itlb _ | .ofCore .dtlb _ | .ofCore .l1i _ | .ofCore .l1d _ => []

/-- The cache that a `return_data` call of this one reaches, and the packet. -/
def target (l : Node numCpus) : Call → Option (Node numCpus × Packet)
  | .returnIcache cpu p => (l.upperIcache cpu).map fun u => (u, p)
  | .returnDcache cpu p => (l.upperDcache cpu).map fun u => (u, p)
  | .lowerAddRq _ | .lowerAddWq _ | .lowerAddPq _ | .lowerWqFull _ => none

/-- The data that a call of `l` returns to `n`. -/
def answerTo (l n : Node numCpus) (k : Call) : Option Nat :=
  match l.target k with
  | some (u, p) => if u = n then some p.data else none
  | none => none

end Node

structure Machine (numCpus : Nat) (ρ : Type) where
  node : Node numCpus → State ρ
  refused : List Packet
  crowded : List Packet

namespace Machine

def init (P : ∀ n : Node numCpus, Policy n.config ρ) : Machine numCpus ρ where
  node := fun n => State.init (P n)
  refused := []
  crowded := []

def set (m : Machine numCpus ρ) (n : Node numCpus) (s : State ρ) : Machine numCpus ρ :=
  { m with node := Function.update m.node n s }

/-- What a handler of `n` sees of the lower level. -/
def outside (m : Machine numCpus ρ) (n : Node numCpus) (env : Env) : Env :=
  match n.lower with
  | some l =>
    { env with
      lowerRqFull := fun _ => (m.node l).rq.occupancy == (m.node l).rq.size
      lowerWqFull := fun _ => (m.node l).wq.occupancy == (m.node l).wq.size
      lowerPqFull := fun _ => (m.node l).pq.occupancy == (m.node l).pq.size }
  | none => env

/-! ## Calls -/

/-- `l` hands data to a cache above it. -/
def returnUp (env : Env) (l : Node numCpus) (m : Machine numCpus ρ) (k : Call) :
    Option (Machine numCpus ρ) :=
  (l.target k).bind fun (u, p) => (returnData u.config env (m.node u) p).map (m.set u)

/-- The calls that `l` made while `n` called it. Those on `n` are the answers that `n` has seen. -/
def answered (env : Env) (n l : Node numCpus) (m : Machine numCpus ρ) :
    Option (Machine numCpus ρ) :=
  let calls := (m.node l).calls
  if calls.filterMap (l.answerTo n) = env.answers then
    run (returnUp env l) m (calls.filter fun k => (l.answerTo n k).isNone)
  else none

/-- `n` calls `l`, its lower level. -/
def callLower (env : Env) (n l : Node numCpus) (m : Machine numCpus ρ) :
    Call → Option (Machine numCpus ρ)
  | .lowerAddRq p =>
    let s := { m.node l with calls := [] }
    (addRq l.config env s p).bind fun (r, s') =>
      answered env n l
        { m.set l s' with
          refused := if r = .full then m.refused ++ [p] else m.refused
          crowded := if s.rq.occupancy = s.rq.size then m.crowded ++ [p] else m.crowded }
  | .lowerAddPq p =>
    (addPq l.config env { m.node l with calls := [] } p).bind fun (_, s') =>
      answered env n l (m.set l s')
  | .lowerAddWq p =>
    (addWq l.config env (m.node l) p).map fun (_, s') => m.set l s'
  | .lowerWqFull _ =>
    let s := m.node l
    some (m.set l { s with wq := { s.wq with full := s.wq.full + 1 } })
  | .returnIcache _ _ | .returnDcache _ _ => none

def perform (env : Env) (n : Node numCpus) (m : Machine numCpus ρ) (k : Call) :
    Option (Machine numCpus ρ) :=
  match k with
  | .returnIcache _ _ | .returnDcache _ _ => returnUp env n m k
  | .lowerAddRq _ | .lowerAddPq _ | .lowerAddWq _ | .lowerWqFull _ =>
    match n.lower with
    | some l => callLower env n l m k
    | none => some m

/-! ## A cycle -/

def handle (n : Node numCpus) (env : Env) (f : Env → State ρ → Option (State ρ))
    (m : Machine numCpus ρ) : Option (Machine numCpus ρ) :=
  (f (m.outside n env) { m.node n with calls := [] }).bind fun s =>
    run (perform env n) (m.set n s) s.calls

/-- `serveLoop`, with the calls of each round performed. -/
def serve (n : Node numCpus) (queue : State ρ → PacketQueue)
    (one : Env → State ρ → Option (State ρ)) (E : Nat → Env) :
    Nat → Machine numCpus ρ → Option (Machine numCpus ρ)
  | 0, m => some m
  | k + 1, m =>
    let env := E (n.config.maxRead - (k + 1))
    if Ready n.config env (queue (m.node n)) then
      (m.handle n env one).bind fun m =>
        if (m.node n).readsAvailable = 0 then some m else serve n queue one E k m
    else some m

def operate (P : ∀ n : Node numCpus, Policy n.config ρ) (n : Node numCpus) (E : CycleEnv)
    (m : Machine numCpus ρ) : Option (Machine numCpus ρ) :=
  (m.handle n E.fill (handleFill (P n))).bind fun m =>
    (m.handle n E.writeback (handleWriteback (P n))).bind fun m =>
      let m := m.set n { m.node n with readsAvailable := n.config.maxRead }
      (m.serve n State.rq (readOne (P n)) E.read n.config.maxRead).bind fun m =>
        if (m.node n).pq.occupancy ≠ 0 ∧ (m.node n).readsAvailable > 0 then
          m.serve n State.pq (prefetchOne (P n)) E.prefetch n.config.maxRead
        else some m

end Machine

/-! ## Actions -/

/-- The requests of a core that enter an `RQ`. -/
inductive Request where
  | fetchTranslation (ip i cycle : Nat)
  | fetchLine (ip instructionPa cycle : Nat)
  | storeTranslation (cloudsuite : Bool) (sqIndex : Nat) (e : Core.LsqEntry)
  | loadTranslation (cloudsuite : Bool) (lqIndex : Nat) (e : Core.LsqEntry)
  | loadData (lqIndex : Nat) (e : Core.LsqEntry)

def Request.level : Request → Level
  | .fetchTranslation .. => .itlb
  | .fetchLine .. => .l1i
  | .storeTranslation .. | .loadTranslation .. => .dtlb
  | .loadData .. => .l1d

def Request.packet (numCpus cpu : Nat) : Request → Packet
  | .fetchTranslation ip i cycle => Core.fetchTranslation numCpus cpu ip i cycle
  | .fetchLine ip instructionPa cycle => Core.fetchLine numCpus cpu ip instructionPa cycle
  | .storeTranslation cloudsuite sqIndex e =>
    Core.storeTranslation numCpus cpu cloudsuite sqIndex e
  | .loadTranslation cloudsuite lqIndex e => Core.loadTranslation numCpus cpu cloudsuite lqIndex e
  | .loadData lqIndex e => Core.loadData numCpus cpu lqIndex e

inductive Action (numCpus : Nat) where
  | operate (n : Node numCpus) (E : CycleEnv)
  | request (cpu : Fin numCpus) (env : Env) (r : Request)
  | store (cpu : Fin numCpus) (env : Env) (cycle sqIndex : Nat) (e : Core.LsqEntry)
  | prefetch (n : Node numCpus) (env : Env) (k : Callback)
  | returnData (env : Env) (p : Packet)
  | invalidateEntry (n : Node numCpus) (address : Nat)
  | complete (n : Node numCpus)

open Machine in
def Machine.step (P : ∀ n : Node numCpus, Policy n.config ρ) (m : Machine numCpus ρ) :
    Action numCpus → Option (Machine numCpus ρ)
  | .operate n E => operate P n E m
  | .request cpu env r =>
    let n := Node.ofCore r.level cpu
    m.handle n env fun env s => (addRq n.config env s (r.packet numCpus cpu)).map Prod.snd
  | .store cpu env cycle sqIndex e =>
    let n := Node.ofCore .l1d cpu
    m.handle n env fun env s =>
      (addWq n.config env s (Core.storeData numCpus cpu cycle sqIndex e)).map Prod.snd
  | .prefetch n env k => m.handle n env fun env s => runCallback n.config env n.config.cpu s k
  | .returnData env p =>
    m.handle .llc env fun env s => Cache.returnData (Cache.llc numCpus) env s p
  | .invalidateEntry n address => some (m.set n (Cache.invalidateEntry n.config (m.node n) address))
  | .complete n =>
    let s := m.node n
    (s.processed.removeQueue n.config.numCpus s.processed.head).map fun q =>
      m.set n { s with processed := q }

end Cache
end ChampSim
