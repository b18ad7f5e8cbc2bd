import ChampSim.Prefetch.Temporal

/-!
# ChampSim.Prefetch.Sisb

The temporal prefetcher of the LLC (`prefetcher/sisb.llc_pref`, `prefetcher/sisb.h`): one successor
for each block, whichever pc loads it.

* `llcPrefetcherOperate` — the function of this name, with the requests it makes.
* `lastFollower`  — the block that some pc loaded last after a block of its own.
* `Learned`       — the tables as functions of all the accesses so far.
* `lastFollower_own` — of a block that one pc loads alone it is the successor there.
* `llc_prefetcher_exact` — what every access requests and counts, and when the version with pcs asks
  for the same.
-/

namespace ChampSim
namespace Prefetch
namespace Sisb

open Lib

def degree : Nat := 2

/-- The arguments that are read. -/
structure Access where
  addr : Nat
  ip : Nat
  type : PacketType
  instrId : UInt64

def Access.block (a : Access) : Nat := a.addr >>> Cache.logBlockSize

/-- The global tables. -/
structure Tables where
  tu : Nat → Option Nat
  cache : Nat → Option Nat
  divergence : Nat

def initial : Tables := ⟨fun _ => none, fun _ => none, 0⟩

def getPrediction (s : Tables) (addr : Nat) : Nat := (s.cache addr).getD 0

def train (a : Access) (s : Tables) : Tables :=
  match s.tu a.ip with
  | none => { s with tu := Function.update s.tu a.ip (some a.block) }
  | some lastAddr =>
    { tu := Function.update s.tu a.ip (some a.block)
      cache := Function.update s.cache lastAddr (some a.block)
      divergence := if (s.cache lastAddr).any fun b => b != a.block
        then s.divergence + 1 else s.divergence }

/-- The loop over predictions, `left` short of the degree; 0 is no prediction. -/
def predict (s : Tables) : (left pred : Nat) → List Nat
  | 0, _ => []
  | left + 1, pred =>
    if pred ≠ 0 then
      let addr := pred <<< Cache.logBlockSize % 2 ^ 64
      addr :: predict s left (getPrediction s (addr >>> Cache.logBlockSize))
    else []

def sisbPrefetcherOperate (a : Access) (degree : Nat) (s : Tables) : Tables × List Nat :=
  if a.type ≠ .load then (s, [])
  else
    let s := train a s
    (s, predict s degree (getPrediction s a.block))

def llcPrefetcherOperate (a : Access) (s : Tables) : Tables × List Cache.Callback :=
  if a.instrId = 0 then (s, [])
  else
    let (s, candidates) := sisbPrefetcherOperate a degree s
    (s, candidates.map fun pf => .prefetchLine a.ip a.addr pf Cache.fillLlc 0)

def run (accesses : List Access) : Tables :=
  accesses.foldl (fun s a => (llcPrefetcherOperate a s).1) initial

/-! ## What the accesses so far tell -/

/-- The access of a load instruction. -/
def Seen (a : Access) : Prop := a.instrId ≠ 0 ∧ a.type = .load

instance (a : Access) : Decidable (Seen a) := inferInstanceAs (Decidable (_ ∧ _))

/-- The blocks that `pc` has loaded, the latest last. -/
def loads (pc : Nat) (accesses : List Access) : List Nat :=
  (accesses.filter fun a => Seen a ∧ a.ip = pc).map Access.block

/-- `a` is a load, and the load by its pc before it was of the block `x`. -/
def Follows (x : Nat) (accesses : List Access) (a : Access) : Prop :=
  Seen a ∧ (loads a.ip accesses).getLast? = some x

instance (x : Nat) (accesses : List Access) (a : Access) : Decidable (Follows x accesses a) :=
  inferInstanceAs (Decidable (_ ∧ _))

def lastFollower (accesses : List Access) (x : Nat) : Option Nat :=
  (moments (Follows x) accesses).getLast?.map Access.block

/-- `a` trains a block whose successor so far is another one. -/
def Diverges (accesses : List Access) (a : Access) : Prop :=
  Seen a ∧ ∃ x ∈ (loads a.ip accesses).getLast?, ∃ b ∈ lastFollower accesses x, b ≠ a.block

instance (accesses : List Access) (a : Access) : Decidable (Diverges accesses a) :=
  inferInstanceAs (Decidable (_ ∧ _))

/-- The tables after `accesses`. -/
structure Learned (accesses : List Access) (s : Tables) : Prop where
  tu : ∀ pc, s.tu pc = (loads pc accesses).getLast?
  cache : ∀ x, s.cache x = lastFollower accesses x
  divergence : s.divergence = (moments Diverges accesses).length

theorem initial_learned : Learned [] initial := ⟨fun _ => rfl, fun _ => rfl, rfl⟩

section Concat

variable {pc x : Nat} {accesses : List Access} {a : Access}

theorem loads_concat : loads pc (accesses ++ [a]) =
    if Seen a ∧ a.ip = pc then loads pc accesses ++ [a.block] else loads pc accesses := by
  unfold loads
  rw [List.filter_append, List.map_append]
  by_cases h : Seen a ∧ a.ip = pc
  · simp [h]
  · simp [h]

theorem lastFollower_concat : lastFollower (accesses ++ [a]) x =
    if Follows x accesses a then some a.block else lastFollower accesses x := by
  unfold lastFollower
  rw [moments_concat]
  by_cases h : Follows x accesses a
  · simp [h]
  · simp [h]

theorem divergences_concat : (moments Diverges (accesses ++ [a])).length =
    if Diverges accesses a then (moments Diverges accesses).length + 1
    else (moments Diverges accesses).length := by
  rw [moments_concat]
  split <;> simp

end Concat

/-! ## One access -/

section Access

variable {accesses : List Access} {s : Tables} {a : Access}

theorem Learned.other (h : Learned accesses s) (ha : ¬ Seen a) : Learned (accesses ++ [a]) s where
  tu := fun pc => by rw [loads_concat, if_neg fun hp => ha hp.1, h.tu]
  cache := fun x => by rw [lastFollower_concat, if_neg fun hf => ha hf.1, h.cache]
  divergence := by rw [divergences_concat, if_neg fun hd => ha hd.1, h.divergence]

/-- A load is the last of its pc. -/
theorem Learned.tu_load (h : Learned accesses s) (ha : Seen a) (pc : Nat) :
    Function.update s.tu a.ip (some a.block) pc = (loads pc (accesses ++ [a])).getLast? := by
  rw [loads_concat]
  by_cases hpc : a.ip = pc
  · subst hpc
    rw [Function.update_self, if_pos ⟨ha, rfl⟩, List.getLast?_concat]
  · rw [Function.update_of_ne (Ne.symm hpc), if_neg fun hp => hpc hp.2, h.tu]

theorem Learned.train (h : Learned accesses s) (ha : Seen a) :
    Learned (accesses ++ [a]) (train a s) := by
  unfold Sisb.train
  have htu := h.tu a.ip
  cases hlast : s.tu a.ip with
  | none =>
    rw [hlast] at htu
    refine ⟨h.tu_load ha, fun x => ?_, ?_⟩
    · have hfollows : ¬ Follows x accesses a := by
        rintro ⟨-, hx⟩
        rw [← htu] at hx
        cases hx
      rw [lastFollower_concat, if_neg hfollows]
      exact h.cache x
    · have hdiverges : ¬ Diverges accesses a := by
        rintro ⟨-, x, hx, -⟩
        rw [← htu] at hx
        cases hx
      rw [divergences_concat, if_neg hdiverges]
      exact h.divergence
  | some lastAddr =>
    rw [hlast] at htu
    have hfollows : ∀ x, Follows x accesses a ↔ x = lastAddr := by
      intro x
      unfold Follows
      rw [← htu, Option.some.injEq]
      exact ⟨fun hx => hx.2.symm, fun hx => ⟨ha, hx.symm⟩⟩
    refine ⟨h.tu_load ha, fun x => ?_, ?_⟩
    · show Function.update s.cache lastAddr (some a.block) x = _
      rw [lastFollower_concat, Function.update_apply, h.cache]
      exact if_congr (hfollows x).symm rfl rfl
    · show (if (s.cache lastAddr).any (fun b => b != a.block) = true then s.divergence + 1
        else s.divergence) = _
      rw [divergences_concat, h.divergence, h.cache]
      refine if_congr ?_ rfl rfl
      unfold Diverges
      rw [← htu, Option.any_eq_true]
      simp [ha]

theorem operate_learned (h : Learned accesses s) (a : Access) :
    Learned (accesses ++ [a]) (llcPrefetcherOperate a s).1 := by
  unfold llcPrefetcherOperate sisbPrefetcherOperate
  by_cases hid : a.instrId = 0
  · rw [if_pos hid]
    exact h.other fun ha => ha.1 hid
  rw [if_neg hid]
  by_cases hload : a.type = .load
  · rw [if_neg (not_not_intro hload)]
    exact h.train ⟨hid, hload⟩
  · rw [if_pos hload]
    exact h.other fun ha => hload ha.2

theorem run_learned (accesses : List Access) : Learned accesses (run accesses) := by
  induction accesses using List.reverseRecOn with
  | nil => exact initial_learned
  | append_singleton accesses a ih =>
    have hrun : run (accesses ++ [a]) = (llcPrefetcherOperate a (run accesses)).1 := by simp [run]
    rw [hrun]
    exact operate_learned ih a

/-! ## The requests -/

/-- Blocks of `uint64_t` addresses, with 0 for no block. -/
def Blocks (accesses : List Access) : Prop :=
  ∀ a ∈ accesses, Seen a → a.block ≠ 0 ∧ a.block < 2 ^ 58

/-- The loop is that of the other version, where the successors have no pc. -/
theorem predict_temporal (s : Tables) (pc left pred : Nat) : predict s left pred =
    Temporal.predict ⟨s.tu, fun k => s.cache k.2, fun _ => 0, s.divergence⟩ pc left pred := by
  induction left generalizing pred with
  | zero => rfl
  | succ left ih =>
    unfold predict Temporal.predict
    split
    · exact congrArg (_ :: ·) (ih _)
    · rfl

theorem lastFollower_mem {x b : Nat} (h : lastFollower accesses x = some b) :
    ∃ d ∈ accesses, Seen d ∧ d.block = b := by
  induction accesses using List.reverseRecOn with
  | nil => cases h
  | append_singleton accesses a ih =>
    rw [lastFollower_concat] at h
    split at h
    · rename_i hfollows
      exact ⟨a, by simp, hfollows.1, Option.some.inj h⟩
    · obtain ⟨d, hd, hseen, hb⟩ := ih h
      exact ⟨d, List.mem_append_left _ hd, hseen, hb⟩

theorem Learned.requests (h : Learned accesses s) (ha : Seen a) (hb : Blocks (accesses ++ [a])) :
    (llcPrefetcherOperate a s).2 =
      (chain (lastFollower (accesses ++ [a])) degree a.block).map fun b =>
        .prefetchLine a.ip a.addr (b <<< Cache.logBlockSize) Cache.fillLlc 0 := by
  have htrained := h.train ha
  have hblock : ∀ x b, lastFollower (accesses ++ [a]) x = some b → b ≠ 0 ∧ b < 2 ^ 58 := by
    intro x b hx
    obtain ⟨d, hd, hseen, rfl⟩ := lastFollower_mem hx
    exact hb d hd hseen
  have hpredict : predict (Sisb.train a s) degree (getPrediction (Sisb.train a s) a.block) =
      (chain (lastFollower (accesses ++ [a])) degree a.block).map
        fun b => b <<< Cache.logBlockSize := by
    rw [predict_temporal _ a.ip]
    exact Temporal.predict_eq (fun x => htrained.cache x) hblock _ _
  unfold llcPrefetcherOperate sisbPrefetcherOperate
  rw [if_neg ha.1, if_neg (not_not_intro ha.2)]
  show List.map _ (predict (Sisb.train a s) degree (getPrediction (Sisb.train a s) a.block)) = _
  rw [hpredict, List.map_map]
  rfl

end Access

/-! ## The two versions -/

section Versions

variable {accesses : List Access} {a : Access} {pc x : Nat}

/-- Only `pc` loads the block. -/
def Owns (accesses : List Access) (pc x : Nat) : Prop :=
  ∀ d ∈ accesses, Seen d → d.block = x → d.ip = pc

/-- No block is loaded by two pcs. -/
def Apart (accesses : List Access) : Prop :=
  ∀ d ∈ accesses, Seen d → Owns accesses d.ip d.block

/-- The call of the version with pcs. -/
def toCall (a : Access) : Temporal.Call := ⟨a.addr, a.ip, a.type, degree, a.instrId⟩

def callsOf (accesses : List Access) : List Temporal.Call :=
  (accesses.filter fun a => a.instrId ≠ 0).map toCall

theorem loads_callsOf (pc : Nat) (accesses : List Access) :
    Temporal.loads pc (callsOf accesses) = loads pc accesses := by
  unfold Temporal.loads callsOf loads
  rw [List.filter_map, List.map_map, List.filter_filter]
  refine congrArg₂ List.map rfl (List.filter_congr fun a _ => ?_)
  rw [Bool.eq_iff_iff, Bool.and_eq_true]
  constructor
  · rintro ⟨hcall, hid⟩
    obtain ⟨hload, hip⟩ := of_decide_eq_true hcall
    exact decide_eq_true ⟨⟨of_decide_eq_true hid, hload⟩, hip⟩
  · intro hseen
    obtain ⟨⟨hid, hload⟩, hip⟩ := of_decide_eq_true hseen
    exact ⟨decide_eq_true ⟨hload, hip⟩, decide_eq_true hid⟩

theorem mem_loads : x ∈ loads pc accesses ↔ ∃ d ∈ accesses, Seen d ∧ d.ip = pc ∧ d.block = x := by
  unfold loads
  simp [and_assoc]

/-- Of a block that one pc loads alone the follower is the successor. -/
theorem lastFollower_own (h : Owns accesses pc x) :
    lastFollower accesses x = successor (loads pc accesses) x := by
  induction accesses using List.reverseRecOn with
  | nil => rfl
  | append_singleton accesses a ih =>
    have hbefore : Owns accesses pc x := fun d hd => h d (List.mem_append_left _ hd)
    rw [lastFollower_concat, loads_concat, ih hbefore]
    by_cases hown : Seen a ∧ a.ip = pc
    · obtain ⟨ha, rfl⟩ := hown
      rw [if_pos (show Seen a ∧ a.ip = a.ip from ⟨ha, rfl⟩), successor_concat]
      refine if_congr ?_ rfl rfl
      exact ⟨fun hf => hf.2, fun hlast => ⟨ha, hlast⟩⟩
    · have hfollows : ¬ Follows x accesses a := by
        rintro ⟨ha, hlast⟩
        obtain ⟨d, hd, hseen, hip, hx⟩ := mem_loads.mp (List.mem_of_getLast? hlast)
        exact hown ⟨ha, hip.symm.trans (hbefore d hd hseen hx)⟩
      rw [if_neg hown, if_neg hfollows]

/-- A chain from a block of `pc` stays with `pc`. -/
theorem chain_own (h : Apart accesses) (n : Nat) (hx : x ∈ loads pc accesses) :
    chain (lastFollower accesses) n x = chain (successor (loads pc accesses)) n x := by
  induction n generalizing x with
  | zero => rfl
  | succ n ih =>
    obtain ⟨d, hd, hseen, rfl, rfl⟩ := mem_loads.mp hx
    unfold chain
    rw [lastFollower_own (h d hd hseen)]
    cases hnext : successor (loads d.ip accesses) d.block with
    | none => rfl
    | some y =>
      obtain ⟨before, after, hl, -⟩ := successor_eq_some.mp hnext
      exact congrArg (y :: ·) (ih (by simp [hl]))

theorem callsOf_concat (ha : Seen a) :
    callsOf (accesses ++ [a]) = callsOf accesses ++ [toCall a] := by
  simp [callsOf, ha.1]

theorem blocks_callsOf (h : Blocks accesses) : Temporal.Blocks (callsOf accesses) := by
  intro c hc hload
  obtain ⟨d, hd, rfl⟩ := List.mem_map.mp hc
  obtain ⟨hd, hid⟩ := List.mem_filter.mp hd
  exact h d hd ⟨of_decide_eq_true hid, hload⟩

/-- When no block is loaded by two pcs, the two versions choose the same lines. -/
theorem candidates_apart (ha : Seen a) (hblocks : Blocks (accesses ++ [a]))
    (hapart : Apart (accesses ++ [a])) :
    (Temporal.operate (toCall a) (Temporal.run (callsOf accesses))).2.1 =
      (chain (lastFollower (accesses ++ [a])) degree a.block).map
        fun b => b <<< Cache.logBlockSize := by
  have hown : a.block ∈ loads a.ip (accesses ++ [a]) :=
    mem_loads.mpr ⟨a, by simp, ha, rfl, rfl⟩
  have hcall := blocks_callsOf hblocks
  rw [callsOf_concat ha] at hcall
  have hlearned := Temporal.run_learned (callsOf accesses)
  have hcandidates := hlearned.candidates (c := toCall a) ha.2 hcall
  rw [← callsOf_concat ha, loads_callsOf] at hcandidates
  rw [chain_own hapart degree hown]
  exact hcandidates

end Versions

/-- After any accesses a load requests the lines along the last followers, two at most, and other
accesses request none. When no block is loaded by two pcs, these are the lines that the version with
pcs asks for. -/
theorem llc_prefetcher_exact (accesses : List Access) (a : Access)
    (hblocks : Blocks (accesses ++ [a])) :
    let after := (llcPrefetcherOperate a (run accesses)).1
    let requests := (llcPrefetcherOperate a (run accesses)).2
    (∀ x, after.cache x = lastFollower (accesses ++ [a]) x) ∧
      after.divergence = (moments Diverges (accesses ++ [a])).length ∧
      (¬ Seen a → requests = []) ∧
      (Seen a → requests = (chain (lastFollower (accesses ++ [a])) degree a.block).map fun b =>
        .prefetchLine a.ip a.addr (b <<< Cache.logBlockSize) Cache.fillLlc 0) ∧
      (Seen a → Apart (accesses ++ [a]) → requests =
        ((Temporal.operate (toCall a) (Temporal.run (callsOf accesses))).2.1.map fun pf =>
          .prefetchLine a.ip a.addr pf Cache.fillLlc 0)) := by
  intro after requests
  have hlearned := run_learned accesses
  have hafter : Learned (accesses ++ [a]) after := operate_learned hlearned a
  refine ⟨hafter.cache, hafter.divergence, ?_, fun ha => hlearned.requests ha hblocks, ?_⟩
  · intro hother
    show (llcPrefetcherOperate a (run accesses)).2 = []
    unfold llcPrefetcherOperate sisbPrefetcherOperate
    by_cases hid : a.instrId = 0
    · rw [if_pos hid]
    · rw [if_neg hid, if_pos fun hload => hother ⟨hid, hload⟩]
      rfl
  · intro ha hapart
    rw [candidates_apart ha hblocks hapart, List.map_map]
    exact hlearned.requests ha hblocks

/-- One pc goes from block 1 to block 2, later another one from block 1 to block 3: from then on the
first one gets block 3, too. -/
theorem llc_prefetcher_exact_shared :
    (llcPrefetcherOperate ⟨64, 7, .load, 6⟩ (run [⟨64, 7, .load, 1⟩, ⟨128, 7, .load, 2⟩,
      ⟨64, 9, .load, 3⟩, ⟨192, 9, .load, 4⟩, ⟨64, 8, .load, 0⟩])).2 =
      [.prefetchLine 7 64 192 Cache.fillLlc 0] := by
  have hblocks : Blocks ([⟨64, 7, .load, 1⟩, ⟨128, 7, .load, 2⟩, ⟨64, 9, .load, 3⟩,
      ⟨192, 9, .load, 4⟩, ⟨64, 8, .load, 0⟩] ++ [⟨64, 7, .load, 6⟩]) := by
    intro d hd _
    revert d
    decide
  have h := llc_prefetcher_exact [⟨64, 7, .load, 1⟩, ⟨128, 7, .load, 2⟩, ⟨64, 9, .load, 3⟩,
    ⟨192, 9, .load, 4⟩, ⟨64, 8, .load, 0⟩] ⟨64, 7, .load, 6⟩ hblocks
  rw [h.2.2.2.1 (by decide)]
  rfl

end Sisb
end Prefetch
end ChampSim
