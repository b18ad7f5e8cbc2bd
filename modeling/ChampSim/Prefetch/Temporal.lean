import ChampSim.Lib.Successor
import ChampSim.CodeInfo.Informer
import ChampSim.Cache.Model

/-!
# ChampSim.Prefetch.Temporal

The temporal prefetcher (`prefetcher/pc_mod_sisb.h`): for every pc the block that followed each
block.

* `operate`   — `sisb_prefetcher_operate`: the tables, the candidates and the query it submits.
* `loads`     — the blocks that one pc has loaded, in order.
* `Learned`   — the tables as functions of all the calls so far.
* `operate_learned` — one call learns what it adds to them.
* `temporal_prefetcher_exact` — what every call predicts, counts and asks.
-/

namespace ChampSim
namespace Prefetch
namespace Temporal

open Lib

/-- The arguments that are read. -/
structure Call where
  addr : Nat
  pc : Nat
  type : PacketType
  degree : Nat
  instrId : UInt64

def Call.block (c : Call) : Nat := c.addr >>> Cache.logBlockSize

/-- What the callback of a query holds on to. -/
structure Event where
  pc : Nat
  divergent : Bool
  convergent : Bool

/-- The global tables; `context[idx]` makes up 0 for what it does not find. -/
structure Sisb where
  tu : Nat → Option Nat
  cache : Nat × Nat → Option Nat
  context : Nat × Nat → UInt64
  divergence : Nat

def initial : Sisb := ⟨fun _ => none, fun _ => none, fun _ => 0, 0⟩

def getPrediction (s : Sisb) (pc addr : Nat) : Nat := (s.cache (pc, addr)).getD 0

def train (c : Call) (s : Sisb) : Sisb × Option (CodeInfo.Query Event) :=
  match s.tu c.pc with
  | none => ({ s with tu := Function.update s.tu c.pc (some c.block) }, none)
  | some lastAddr =>
    let idx := (c.pc, lastAddr)
    let divergent := (s.cache idx).any fun b => b != c.block
    let convergent := (s.cache idx).any fun b => b == c.block
    ({ tu := Function.update s.tu c.pc (some c.block)
       cache := Function.update s.cache idx (some c.block)
       context := Function.update s.context idx c.instrId
       divergence := if divergent then s.divergence + 1 else s.divergence },
     some ⟨c.instrId, [s.context idx], ⟨c.pc, divergent, convergent⟩⟩)

/-- The loop over predictions, `left` short of the degree; 0 is no prediction. -/
def predict (s : Sisb) (pc : Nat) : (left pred : Nat) → List Nat
  | 0, _ => []
  | left + 1, pred =>
    if pred ≠ 0 then
      let addr := pred <<< Cache.logBlockSize % 2 ^ 64
      addr :: predict s pc left (getPrediction s pc (addr >>> Cache.logBlockSize))
    else []

def operate (c : Call) (s : Sisb) : Sisb × List Nat × Option (CodeInfo.Query Event) :=
  if c.type ≠ .load then (s, [], none)
  else
    let (s, query) := train c s
    (s, predict s c.pc c.degree (getPrediction s c.pc c.block), query)

def run (calls : List Call) : Sisb := calls.foldl (fun s c => (operate c s).1) initial

/-! ## What the calls so far tell -/

/-- The blocks that `pc` has loaded, the latest last. -/
def loads (pc : Nat) (calls : List Call) : List Nat :=
  (calls.filter fun c => c.type = .load ∧ c.pc = pc).map Call.block

/-- `c` is a load by `pc`, and the load by `pc` before it was of block `a`. -/
def Trains (pc a : Nat) (calls : List Call) (c : Call) : Prop :=
  c.type = .load ∧ c.pc = pc ∧ (loads pc calls).getLast? = some a

/-- `c` trains a pair whose successor so far is another block. -/
def Diverges (calls : List Call) (c : Call) : Prop :=
  c.type = .load ∧ ∃ a ∈ (loads c.pc calls).getLast?,
    ∃ b ∈ successor (loads c.pc calls) a, b ≠ c.block

instance Trains.decidable (pc a : Nat) (calls : List Call) (c : Call) :
    Decidable (Trains pc a calls c) :=
  inferInstanceAs (Decidable (_ ∧ _ ∧ _))

instance Diverges.decidable (calls : List Call) (c : Call) : Decidable (Diverges calls c) :=
  inferInstanceAs (Decidable (_ ∧ _))

/-- The id of the latest load that trained `(pc, a)`, 0 if there was none. -/
def lastTrainer (pc a : Nat) (calls : List Call) : UInt64 :=
  ((moments (Trains pc a) calls).getLast?.map Call.instrId).getD 0

/-- The tables after `calls`. -/
structure Learned (calls : List Call) (s : Sisb) : Prop where
  tu : ∀ pc, s.tu pc = (loads pc calls).getLast?
  cache : ∀ pc a, s.cache (pc, a) = successor (loads pc calls) a
  context : ∀ pc a, s.context (pc, a) = lastTrainer pc a calls
  divergence : s.divergence = (moments Diverges calls).length

theorem initial_learned : Learned [] initial where
  tu := fun _ => rfl
  cache := fun _ _ => rfl
  context := fun _ _ => rfl
  divergence := rfl

section Concat

variable {pc a : Nat} {calls : List Call} {c : Call}

theorem loads_concat : loads pc (calls ++ [c]) =
    if c.type = .load ∧ c.pc = pc then loads pc calls ++ [c.block] else loads pc calls := by
  unfold loads
  rw [List.filter_append, List.map_append]
  by_cases h : c.type = .load ∧ c.pc = pc
  · simp [h]
  · simp [h]

theorem loads_own (hload : c.type = .load) :
    loads c.pc (calls ++ [c]) = loads c.pc calls ++ [c.block] := by
  rw [loads_concat, if_pos ⟨hload, rfl⟩]

theorem loads_other (h : ¬ (c.type = .load ∧ c.pc = pc)) :
    loads pc (calls ++ [c]) = loads pc calls := by
  rw [loads_concat, if_neg h]

theorem lastTrainer_concat : lastTrainer pc a (calls ++ [c]) =
    if Trains pc a calls c then c.instrId else lastTrainer pc a calls := by
  rw [lastTrainer, moments_concat]
  by_cases h : Trains pc a calls c
  · simp [h]
  · simp [h, lastTrainer]

theorem divergences_concat : (moments Diverges (calls ++ [c])).length =
    if Diverges calls c then (moments Diverges calls).length + 1
    else (moments Diverges calls).length := by
  rw [moments_concat]
  by_cases h : Diverges calls c
  · simp [h]
  · simp [h]

end Concat

/-! ## One call -/

section Call

variable {calls : List Call} {s : Sisb} {c : Call}

theorem Learned.other (h : Learned calls s) (hc : c.type ≠ .load) : Learned (calls ++ [c]) s where
  tu := fun pc => by rw [loads_other fun hp => hc hp.1, h.tu]
  cache := fun pc a => by rw [loads_other fun hp => hc hp.1, h.cache]
  context := fun pc a => by rw [lastTrainer_concat, if_neg fun ht => hc ht.1, h.context]
  divergence := by rw [divergences_concat, if_neg fun hd => hc hd.1, h.divergence]

/-- The test of the table is the test of the history. -/
theorem Learned.divergent (h : Learned calls s) (hload : c.type = .load) {a : Nat}
    (ha : (loads c.pc calls).getLast? = some a) :
    ((s.cache (c.pc, a)).any fun b => b != c.block) = true ↔ Diverges calls c := by
  rw [h.cache, Diverges, ha, Option.any_eq_true]
  simp [hload]

/-- A load is the last of its pc. -/
theorem Learned.tu_load (h : Learned calls s) (hload : c.type = .load) (pc : Nat) :
    Function.update s.tu c.pc (some c.block) pc = (loads pc (calls ++ [c])).getLast? := by
  by_cases hpc : pc = c.pc
  · rw [hpc, loads_own hload, List.getLast?_concat, Function.update_self]
  · rw [loads_other fun hp => hpc hp.2.symm, Function.update_of_ne hpc, h.tu]

/-- The block of a load succeeds the load before it, and no other. -/
theorem Learned.cache_load (h : Learned calls s) (hload : c.type = .load) {lastAddr : Nat}
    (hlast : (loads c.pc calls).getLast? = some lastAddr) (pc a : Nat) :
    Function.update s.cache (c.pc, lastAddr) (some c.block) (pc, a) =
      successor (loads pc (calls ++ [c])) a := by
  by_cases hpc : pc = c.pc
  · rw [hpc, loads_own hload, successor_concat, hlast]
    by_cases ha : a = lastAddr
    · rw [ha, Function.update_self, if_pos rfl]
    · rw [Function.update_of_ne (by simpa using ha), if_neg (by simpa using Ne.symm ha), h.cache]
  · have hkey : (pc, a) ≠ (c.pc, lastAddr) := fun heq => hpc (Prod.mk.inj heq).1
    rw [loads_other fun hp => hpc hp.2.symm, Function.update_of_ne hkey, h.cache]

theorem Learned.context_load (h : Learned calls s) (hload : c.type = .load) {lastAddr : Nat}
    (hlast : (loads c.pc calls).getLast? = some lastAddr) (pc a : Nat) :
    Function.update s.context (c.pc, lastAddr) c.instrId (pc, a) =
      lastTrainer pc a (calls ++ [c]) := by
  have htrains : (pc, a) = (c.pc, lastAddr) ↔ Trains pc a calls c := by
    rw [Trains, Prod.mk.injEq]
    constructor
    · rintro ⟨rfl, rfl⟩
      exact ⟨hload, rfl, hlast⟩
    · rintro ⟨-, rfl, ha⟩
      exact ⟨rfl, Option.some.inj (ha.symm.trans hlast)⟩
  rw [lastTrainer_concat, Function.update_apply, h.context]
  exact if_congr htrains rfl rfl

/-- The first load of a pc trains nothing. -/
theorem Learned.first (h : Learned calls s) (hload : c.type = .load)
    (hlast : (loads c.pc calls).getLast? = none) :
    Learned (calls ++ [c]) { s with tu := Function.update s.tu c.pc (some c.block) } where
  tu := h.tu_load hload
  cache := by
    intro pc a
    rw [h.cache]
    by_cases hpc : pc = c.pc
    · rw [hpc, loads_own hload, successor_concat, hlast, if_neg (by simp)]
    · rw [loads_other fun hp => hpc hp.2.symm]
  context := by
    intro pc a
    have htrains : ¬ Trains pc a calls c := by
      rintro ⟨-, rfl, ha⟩
      rw [hlast] at ha
      cases ha
    rw [lastTrainer_concat, if_neg htrains, h.context]
  divergence := by
    have hdiverges : ¬ Diverges calls c := by
      rintro ⟨-, a, ha, -⟩
      rw [hlast] at ha
      cases ha
    rw [divergences_concat, if_neg hdiverges, h.divergence]

theorem Learned.later (h : Learned calls s) (hload : c.type = .load) {lastAddr : Nat}
    (hlast : (loads c.pc calls).getLast? = some lastAddr) :
    Learned (calls ++ [c])
      { tu := Function.update s.tu c.pc (some c.block)
        cache := Function.update s.cache (c.pc, lastAddr) (some c.block)
        context := Function.update s.context (c.pc, lastAddr) c.instrId
        divergence := if (s.cache (c.pc, lastAddr)).any fun b => b != c.block
          then s.divergence + 1 else s.divergence } where
  tu := h.tu_load hload
  cache := h.cache_load hload hlast
  context := h.context_load hload hlast
  divergence := by
    rw [divergences_concat, h.divergence]
    exact if_congr (h.divergent hload hlast) rfl rfl

theorem Learned.train (h : Learned calls s) (hload : c.type = .load) :
    Learned (calls ++ [c]) (train c s).1 := by
  unfold Temporal.train
  cases hlast : s.tu c.pc with
  | none => exact h.first hload ((h.tu c.pc).symm.trans hlast)
  | some lastAddr => exact h.later hload ((h.tu c.pc).symm.trans hlast)

theorem operate_learned (c : Call) (h : Learned calls s) :
    Learned (calls ++ [c]) (operate c s).1 := by
  unfold operate
  by_cases hload : c.type = .load
  · rw [if_neg (not_not_intro hload)]
    exact h.train hload
  · rw [if_pos hload]
    exact h.other hload

theorem run_learned (calls : List Call) : Learned calls (run calls) := by
  induction calls using List.reverseRecOn with
  | nil => exact initial_learned
  | append_singleton calls c ih =>
    have hrun : run (calls ++ [c]) = (operate c (run calls)).1 := by simp [run]
    rw [hrun]
    exact operate_learned c ih

/-- The query of a load, which there is from the second load of its pc on. -/
def queryOf (calls : List Call) (c : Call) : Option (CodeInfo.Query Event) :=
  (loads c.pc calls).getLast?.map fun a =>
    { trigger := c.instrId
      iids := [lastTrainer c.pc a calls]
      cb := ⟨c.pc, decide (Diverges calls c), (successor (loads c.pc calls) a).any (· == c.block)⟩ }

theorem Learned.query (h : Learned calls s) (hload : c.type = .load) :
    (operate c s).2.2 = queryOf calls c := by
  unfold operate Temporal.train queryOf
  rw [if_neg (not_not_intro hload), ← h.tu]
  cases hlast : s.tu c.pc with
  | none => rfl
  | some lastAddr =>
    have hd : ((s.cache (c.pc, lastAddr)).any fun b => b != c.block) =
        decide (Diverges calls c) := by
      rw [Bool.eq_iff_iff, h.divergent hload ((h.tu c.pc).symm.trans hlast), decide_eq_true_iff]
    simp only [Option.map_some, ← hd, ← h.context, ← h.cache]

/-! ## The candidates -/

/-- Blocks of `uint64_t` addresses, with 0 for no block. -/
def Blocks (calls : List Call) : Prop :=
  ∀ c ∈ calls, c.type = .load → c.block ≠ 0 ∧ c.block < 2 ^ 58

theorem Blocks.successor (h : Blocks calls) {pc a b : Nat}
    (hb : Lib.successor (loads pc calls) a = some b) : b ≠ 0 ∧ b < 2 ^ 58 := by
  obtain ⟨before, after, hl, -⟩ := successor_eq_some.mp hb
  have hmem : b ∈ loads pc calls := by simp [hl]
  obtain ⟨d, hd, rfl⟩ := List.mem_map.mp hmem
  obtain ⟨hd, hload⟩ := List.mem_filter.mp hd
  exact h d hd (of_decide_eq_true hload).1

theorem predict_eq {pc : Nat} {f : Nat → Option Nat} (hf : ∀ a, s.cache (pc, a) = f a)
    (hblock : ∀ a b, f a = some b → b ≠ 0 ∧ b < 2 ^ 58) (degree x : Nat) :
    predict s pc degree (getPrediction s pc x) =
      (chain f degree x).map fun b => b <<< Cache.logBlockSize := by
  induction degree generalizing x with
  | zero => rfl
  | succ degree ih =>
    unfold predict chain
    cases hx : f x with
    | none => simp [getPrediction, hf, hx]
    | some b =>
      obtain ⟨hne, hlt⟩ := hblock x b hx
      have haddr : b <<< Cache.logBlockSize % 2 ^ 64 = b <<< Cache.logBlockSize := by
        rw [Nat.shiftLeft_eq, Cache.logBlockSize]
        omega
      have hback : (b <<< Cache.logBlockSize) >>> Cache.logBlockSize = b := by
        rw [Nat.shiftLeft_shiftRight]
      have hpred : getPrediction s pc x = b := by simp [getPrediction, hf, hx]
      simp only [hpred, if_pos hne, haddr, hback, ih, List.map_cons]

theorem Learned.candidates (h : Learned calls s) (hload : c.type = .load)
    (hb : Blocks (calls ++ [c])) : (operate c s).2.1 =
      (chain (successor (loads c.pc (calls ++ [c]))) c.degree c.block).map
        fun b => b <<< Cache.logBlockSize := by
  unfold operate
  rw [if_neg (not_not_intro hload)]
  exact predict_eq (fun a => (h.train hload).cache c.pc a) (fun a b => hb.successor) _ _

end Call

/-- The loads of `pc` alone. -/
def own (pc : Nat) (calls : List Call) : List Call :=
  calls.filter fun c => c.type = .load ∧ c.pc = pc

theorem loads_own_filter (pc : Nat) (calls : List Call) (c : Call) :
    loads pc (own pc calls ++ [c]) = loads pc (calls ++ [c]) := by
  simp [loads, own]

/-- Every load by `c.pc`, after every sequence of calls. -/
theorem temporal_prefetcher_exact (calls : List Call) (c : Call) (hload : c.type = .load)
    (hblocks : Blocks (calls ++ [c])) :
    let after := (operate c (run calls)).1
    let seq := loads c.pc (calls ++ [c])
    (∀ pc a b, after.cache (pc, a) = some b ↔ FollowedBy (loads pc (calls ++ [c])) a b) ∧
      (∀ pc a, after.cache (pc, a) = none ↔ a ∉ (loads pc (calls ++ [c])).dropLast) ∧
      (operate c (run calls)).2.1 = (chain (successor seq) c.degree c.block).map
        (fun b => b <<< Cache.logBlockSize) ∧
      (operate c (run calls)).2.1 = (operate c (run (own c.pc calls))).2.1 ∧
      after.divergence = (moments Diverges (calls ++ [c])).length ∧
      (operate c (run calls)).2.2 = queryOf calls c := by
  have hlearned := run_learned calls
  have hafter := operate_learned c hlearned
  have hown : Blocks (own c.pc calls ++ [c]) := by
    intro d hd
    refine hblocks d ?_
    rcases List.mem_append.mp hd with hd | hd
    · exact List.mem_append_left _ (List.mem_of_mem_filter hd)
    · exact List.mem_append_right _ hd
  refine ⟨?_, ?_, hlearned.candidates hload hblocks, ?_, hafter.divergence, hlearned.query hload⟩
  · intro pc a b
    rw [hafter.cache, successor_eq_some]
  · intro pc a
    rw [hafter.cache, successor_eq_none]
  · rw [hlearned.candidates hload hblocks, (run_learned (own c.pc calls)).candidates hload hown,
      loads_own_filter]

/-- A pc that loads blocks 1, 2, 1: a load of block 3 replaces the successor of 1. -/
theorem temporal_prefetcher_exact_divergence :
    (operate ⟨192, 7, .load, 2, 4⟩
      (run [⟨64, 7, .load, 2, 1⟩, ⟨128, 7, .load, 2, 2⟩, ⟨64, 7, .load, 2, 3⟩])).1.divergence = 1 := by
  have hblocks : Blocks ([⟨64, 7, .load, 2, 1⟩, ⟨128, 7, .load, 2, 2⟩, ⟨64, 7, .load, 2, 3⟩] ++
      [⟨192, 7, .load, 2, 4⟩]) := by
    intro d hd _
    revert d
    decide
  have h := temporal_prefetcher_exact
    [⟨64, 7, .load, 2, 1⟩, ⟨128, 7, .load, 2, 2⟩, ⟨64, 7, .load, 2, 3⟩] ⟨192, 7, .load, 2, 4⟩
    rfl hblocks
  rw [h.2.2.2.2.1]
  decide

end Temporal
end Prefetch
end ChampSim
