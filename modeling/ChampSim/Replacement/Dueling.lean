import ChampSim.Lib.Saturating
import ChampSim.Lib.Successor
import ChampSim.Replacement.Victims

/-!
# ChampSim.Replacement.Dueling

The duel of SRRIP and BIP in DRRIP (`replacement/drrip.llc_repl`).

* `votes`      — the misses of a core in its leader sets: `true` against SRRIP, `false` against BIP.
* `FollowsBip` — the choice for a miss, as the calls so far tell it.
* `bipFills`   — the number of misses so far that chose BIP.
* `update_tells` — one update writes what the calls before it tell.
* `set_dueling_exact` — so does every update after any run, and the last votes decide for the sets
  that follow.
-/

namespace ChampSim
namespace Replacement
namespace Drrip

open Lib

/-! ## What the calls tell -/

section History

variable (randSets : Nat → Nat)

/-- An update that chooses between the two policies. -/
def Misses (a : Access) : Prop := a.type ≠ .writeback ∧ a.hit = false

instance (a : Access) : Decidable (Misses a) := inferInstanceAs (Decidable (_ ∧ _))

/-- A miss in a leader set speaks against the policy of the set. -/
def ballot : Rrip.Call → Option (Nat × Bool)
  | .llcFindVictim _ => none
  | .llcUpdateReplacementState a =>
    if Misses a then (isItLeader randSets a.cpu a.set).map fun leader => (a.cpu, leader == 1)
    else none

def votes (cpu : Nat) (calls : List Rrip.Call) : List Bool :=
  eventsOf cpu (calls.filterMap (ballot randSets))

/-- What `PSEL[cpu]` must be. -/
def pselOf (calls : List Rrip.Call) (cpu : Nat) : Nat :=
  (votes randSets cpu calls).foldl (saturate pselMax) 0

def FollowsBip (calls : List Rrip.Call) (cpu set : Nat) : Prop :=
  isItLeader randSets cpu set = some 0 ∨
    isItLeader randSets cpu set = none ∧ pselOf randSets calls cpu > pselThrs

instance (calls : List Rrip.Call) (cpu set : Nat) : Decidable (FollowsBip randSets calls cpu set) :=
  inferInstanceAs (Decidable (_ ∨ _))

/-- `k`, called after `calls`, is a miss that chooses BIP. -/
def FillsBip (calls : List Rrip.Call) : Rrip.Call → Prop
  | .llcFindVictim _ => False
  | .llcUpdateReplacementState a => Misses a ∧ FollowsBip randSets calls a.cpu a.set

instance : ∀ (calls : List Rrip.Call) (k : Rrip.Call), Decidable (FillsBip randSets calls k)
  | _, .llcFindVictim _ => inferInstanceAs (Decidable False)
  | _, .llcUpdateReplacementState _ => inferInstanceAs (Decidable (_ ∧ _))

def bipFills (calls : List Rrip.Call) : Nat := (moments (FillsBip randSets) calls).length

/-- What an update after `calls` writes. BIP inserts as SRRIP does every 32nd time. -/
def insertion (calls : List Rrip.Call) (a : Access) : Nat :=
  if a.type = .writeback then maxRrpv - 1
  else if a.hit then 0
  else if FollowsBip randSets calls a.cpu a.set ∧ (bipFills randSets calls + 1) % bipMax ≠ 0 then
    maxRrpv
  else maxRrpv - 1

end History

variable {randSets : Nat → Nat} {calls : List Rrip.Call} {s : Drrip} {a : Access}

theorem votes_append (cpu : Nat) (pre post : List Rrip.Call) :
    votes randSets cpu (pre ++ post) = votes randSets cpu pre ++ votes randSets cpu post := by
  simp [votes, eventsOf]

theorem votes_replicate {k : Rrip.Call} {cpu : Nat} {up : Bool}
    (h : ballot randSets k = some (cpu, up)) (n : Nat) :
    votes randSets cpu (List.replicate n k) = List.replicate n up := by
  simp [votes, eventsOf, List.filterMap_replicate_of_some h]

theorem pselOf_concat (k : Rrip.Call) : pselOf randSets (calls ++ [k]) =
    match ballot randSets k with
    | some vote => tableStep (saturate pselMax) (pselOf randSets calls) vote
    | none => pselOf randSets calls := by
  funext cpu
  unfold pselOf
  rw [votes_append, List.foldl_append]
  cases hk : ballot randSets k with
  | none => simp [votes, eventsOf, hk]
  | some vote =>
    obtain ⟨cpu', up⟩ := vote
    have hone : [k].filterMap (ballot randSets) = [(cpu', up)] := by simp [hk]
    unfold votes tableStep
    rw [hone]
    by_cases hcpu : cpu' = cpu
    · subst hcpu
      rw [eventsOf_cons_self]
      simp [eventsOf]
    · rw [eventsOf_cons_ne hcpu]
      simp [eventsOf, Function.update_of_ne (Ne.symm hcpu)]

theorem bipFills_concat (k : Rrip.Call) : bipFills randSets (calls ++ [k]) =
    if FillsBip randSets calls k then bipFills randSets calls + 1 else bipFills randSets calls := by
  unfold bipFills
  rw [moments_concat, List.length_append]
  split <;> rfl

theorem followsBip_follower {cpu set : Nat} (h : isItLeader randSets cpu set = none) :
    FollowsBip randSets calls cpu set ↔ pselOf randSets calls cpu > pselThrs := by
  simp [FollowsBip, h]

theorem followsBip_leader {cpu set leader : Nat} (h : isItLeader randSets cpu set = some leader) :
    FollowsBip randSets calls cpu set ↔ leader = 0 := by
  simp [FollowsBip, h]

/-! ## One update -/

theorem bip_snd (n : Nat) : (bip (n % bipMax)).2 = (n + 1) % bipMax := by
  show (if n % 32 + 1 = 32 then 0 else n % 32 + 1) = (n + 1) % 32
  split <;> omega

theorem bip_fst (n : Nat) : (bip (n % bipMax)).1 =
    if (n + 1) % bipMax ≠ 0 then maxRrpv else maxRrpv - 1 := by
  show (if (bip (n % bipMax)).2 = 0 then maxRrpv - 1 else maxRrpv) = _
  rw [bip_snd, ite_not]

/-- The counters are those that the calls tell. -/
structure Tells (randSets : Nat → Nat) (calls : List Rrip.Call) (s : Drrip) : Prop where
  psel : s.psel = pselOf randSets calls
  bipCounter : s.bipCounter = bipFills randSets calls % bipMax

theorem tells_init (randSets : Nat → Nat) : Tells randSets [] init := ⟨rfl, rfl⟩

/-- A call that is no miss leaves the counters. -/
theorem Tells.idle {s' : Drrip} (h : Tells randSets calls s) {k : Rrip.Call}
    (hballot : ballot randSets k = none) (hfills : ¬ FillsBip randSets calls k)
    (hpsel : s'.psel = s.psel) (hbip : s'.bipCounter = s.bipCounter) :
    Tells randSets (calls ++ [k]) s' where
  psel := by rw [pselOf_concat, hballot, hpsel, h.psel]
  bipCounter := by rw [bipFills_concat, if_neg hfills, hbip, h.bipCounter]

/-- A miss that chooses BIP. -/
theorem Tells.bip (h : Tells randSets calls s) {k : Rrip.Call}
    (hfills : FillsBip randSets calls k) :
    (Drrip.bip s.bipCounter).1 =
        (if (bipFills randSets calls + 1) % bipMax ≠ 0 then maxRrpv else maxRrpv - 1) ∧
      (Drrip.bip s.bipCounter).2 = bipFills randSets (calls ++ [k]) % bipMax := by
  rw [h.bipCounter, bip_fst, bip_snd, bipFills_concat, if_pos hfills]
  exact ⟨rfl, rfl⟩

/-- What a miss does, by the leader of its set. -/
theorem miss_tells (h : Tells randSets calls s) (hmiss : Misses a) :
    ∃ s', llcUpdateReplacementState randSets a s = some s' ∧
      s'.rrpv = setRrpv s.rrpv a.set a.way (insertion randSets calls a) ∧
      Tells randSets (calls ++ [.llcUpdateReplacementState a]) s' := by
  have hballot : ballot randSets (.llcUpdateReplacementState a) =
      (isItLeader randSets a.cpu a.set).map fun leader => (a.cpu, leader == 1) := by
    simp only [ballot, if_pos hmiss]
  have hpsel : pselOf randSets (calls ++ [.llcUpdateReplacementState a]) = _ := pselOf_concat _
  have hcount : bipFills randSets (calls ++ [.llcUpdateReplacementState a]) = _ := bipFills_concat _
  rw [hballot, ← h.psel] at hpsel
  unfold llcUpdateReplacementState insertion
  rw [if_neg hmiss.1, if_neg hmiss.1, hmiss.2]
  simp only [Bool.false_eq_true, if_false]
  cases hleader : isItLeader randSets a.cpu a.set with
  | none =>
    rw [hleader] at hpsel
    have hpos : FollowsBip randSets calls a.cpu a.set ↔ s.psel a.cpu > pselThrs := by
      rw [followsBip_follower hleader, h.psel]
    by_cases hgt : s.psel a.cpu > pselThrs
    · have hfollows := hpos.mpr hgt
      obtain ⟨hvalue, hnext⟩ := h.bip (k := .llcUpdateReplacementState a) ⟨hmiss, hfollows⟩
      simp only [if_pos hgt, hfollows, true_and]
      exact ⟨_, rfl, by rw [hvalue], hpsel.symm, hnext⟩
    · have hfollows : ¬ FollowsBip randSets calls a.cpu a.set := fun hf => hgt (hpos.mp hf)
      rw [if_neg fun hfills => hfollows hfills.2] at hcount
      simp only [if_neg hgt, hfollows, false_and, if_false]
      exact ⟨_, rfl, rfl, hpsel.symm, h.bipCounter.trans (congrArg (· % bipMax) hcount.symm)⟩
  | some leader =>
    rw [hleader] at hpsel
    have hzero : FollowsBip randSets calls a.cpu a.set ↔ leader = 0 := followsBip_leader hleader
    have hlt : leader < 2 := isItLeader_lt hleader
    obtain rfl | rfl : leader = 0 ∨ leader = 1 := by omega
    · have hfollows := hzero.mpr rfl
      obtain ⟨hvalue, hnext⟩ := h.bip (k := .llcUpdateReplacementState a) ⟨hmiss, hfollows⟩
      simp only [hfollows, true_and]
      exact ⟨_, rfl, by rw [hvalue], hpsel.symm, hnext⟩
    · have hfollows : ¬ FollowsBip randSets calls a.cpu a.set := fun hf => one_ne_zero (hzero.mp hf)
      rw [if_neg fun hfills => hfollows hfills.2] at hcount
      simp only [hfollows, false_and, if_false]
      exact ⟨_, rfl, rfl, hpsel.symm, h.bipCounter.trans (congrArg (· % bipMax) hcount.symm)⟩

/-- The cases are those of the source: a write-back, a hit, and a miss. -/
theorem update_tells (h : Tells randSets calls s) (a : Access) :
    ∃ s', llcUpdateReplacementState randSets a s = some s' ∧
      s'.rrpv = setRrpv s.rrpv a.set a.way (insertion randSets calls a) ∧
      Tells randSets (calls ++ [.llcUpdateReplacementState a]) s' := by
  by_cases hmiss : Misses a
  · exact miss_tells h hmiss
  have hidle : ∀ {s' : Drrip}, s'.psel = s.psel → s'.bipCounter = s.bipCounter →
      Tells randSets (calls ++ [.llcUpdateReplacementState a]) s' :=
    h.idle (by simp [ballot, hmiss]) fun hfills => hmiss hfills.1
  unfold llcUpdateReplacementState insertion
  by_cases hwb : a.type = .writeback
  · rw [if_pos hwb, if_pos hwb]
    exact ⟨_, rfl, rfl, hidle rfl rfl⟩
  · have hhit : a.hit = true := by
      by_contra hno
      exact hmiss ⟨hwb, by simpa using hno⟩
    rw [if_neg hwb, if_neg hwb, if_pos hhit, if_pos hhit]
    exact ⟨_, rfl, rfl, hidle rfl rfl⟩

/-! ## A run -/

/-- One call of a run. A search changes neither counter. -/
theorem step_tells (hrun : run (drrip randSets).step (drrip randSets).init calls = some s)
    (h : Tells randSets calls s) (k : Rrip.Call) :
    ∃ s', (drrip randSets).step s k = some s' ∧ Tells randSets (calls ++ [k]) s' := by
  cases k with
  | llcFindVictim set =>
    obtain ⟨way, s', hfound⟩ := Rrip.searched (Rrip.run_inRange hrun) set
    have hsearch := hfound.terminates (maxRrpv + 1) (by decide)
    refine ⟨s', congrArg (Option.map Prod.snd) hsearch, ?_⟩
    obtain ⟨_, -, heq⟩ := Option.map_eq_some_iff.mp hsearch
    cases heq
    exact h.idle rfl id rfl rfl
  | llcUpdateReplacementState a =>
    obtain ⟨s', hs, -, htells⟩ := update_tells h a
    exact ⟨s', hs, htells⟩

theorem run_tells (randSets : Nat → Nat) (calls : List Rrip.Call) :
    ∃ s, run (drrip randSets).step (drrip randSets).init calls = some s ∧
      Tells randSets calls s :=
  run_history (I := Tells randSets) (P := fun _ => True)
    (fun _ _ k hrun h _ => step_tells hrun h k) (tells_init randSets) fun _ _ => trivial

/-- The votes since any moment bound `PSEL`, whatever came before. -/
theorem pselOf_window (randSets : Nat → Nat) (calls : List Rrip.Call) (cpu n : Nat) :
    min pselMax ((votes randSets cpu (calls.drop n)).count true) ≤
        pselOf randSets calls cpu + (votes randSets cpu (calls.drop n)).count false ∧
      pselOf randSets calls cpu ≤ (votes randSets cpu (calls.drop n)).count true +
        (pselMax - (votes randSets cpu (calls.drop n)).count false) := by
  have hsplit : pselOf randSets calls cpu = (votes randSets cpu (calls.drop n)).foldl
      (saturate pselMax) (pselOf randSets (calls.take n) cpu) := by
    unfold pselOf
    rw [← List.foldl_append, ← votes_append, List.take_append_drop]
  have hbefore : pselOf randSets (calls.take n) cpu ≤ pselMax := saturates_le (Nat.zero_le _) _
  have hlow := le_saturates pselMax (pselOf randSets (calls.take n) cpu)
    (votes randSets cpu (calls.drop n))
  have hhigh := saturates_le_count pselMax (pselOf randSets (calls.take n) cpu)
    (votes randSets cpu (calls.drop n))
  rw [← hsplit] at hlow hhigh
  omega

/-- `b` is voted for more often, by more than half of the range of `PSEL`. -/
def Wins (b : Bool) (vs : List Bool) : Prop :=
  vs.count (!b) ≤ pselThrs ∧ vs.count (!b) + pselThrs < vs.count b

/-- A set that leads for no policy follows the winner of the last votes. -/
theorem followsBip_window {cpu set : Nat} (hset : isItLeader randSets cpu set = none)
    (calls : List Rrip.Call) (n : Nat) :
    (Wins true (votes randSets cpu (calls.drop n)) → FollowsBip randSets calls cpu set) ∧
      (Wins false (votes randSets cpu (calls.drop n)) → ¬ FollowsBip randSets calls cpu set) := by
  obtain ⟨hlow, hhigh⟩ := pselOf_window randSets calls cpu n
  have hmax : pselMax = 1023 := rfl
  have hthrs : pselThrs = 511 := rfl
  rw [followsBip_follower hset]
  constructor
  · rintro ⟨hfew, hmore⟩
    rw [Bool.not_true] at hfew hmore
    omega
  · rintro ⟨hfew, hmore⟩
    rw [Bool.not_false] at hfew hmore
    omega

/-- After any calls `PSEL` is the saturated sum of the votes of its core, the next update writes
what the calls tell, and the sets that follow go with the policy that won since any moment. -/
theorem set_dueling_exact (randSets : Nat → Nat) (calls : List Rrip.Call) :
    ∃ s, run (drrip randSets).step (drrip randSets).init calls = some s ∧
      (∀ cpu, s.psel cpu = (votes randSets cpu calls).foldl (saturate pselMax) 0) ∧
      s.bipCounter = bipFills randSets calls % bipMax ∧
      (∀ a, ∃ s', llcUpdateReplacementState randSets a s = some s' ∧
        s'.rrpv = setRrpv s.rrpv a.set a.way (insertion randSets calls a)) ∧
      ∀ cpu set, isItLeader randSets cpu set = none → ∀ n,
        (Wins true (votes randSets cpu (calls.drop n)) →
            FollowsBip randSets calls cpu set) ∧
          (Wins false (votes randSets cpu (calls.drop n)) →
            ¬ FollowsBip randSets calls cpu set) := by
  obtain ⟨s, hrun, htells⟩ := run_tells randSets calls
  refine ⟨s, hrun, fun cpu => congrFun htells.psel cpu, htells.bipCounter, fun a => ?_,
    fun cpu set hset n => followsBip_window hset calls n⟩
  obtain ⟨s', hs, hwrites, -⟩ := update_tells htells a
  exact ⟨s', hs, hwrites⟩

/-- A load of core 0 that misses in its set 40, which leads for SRRIP. -/
def srripMiss : Access := ⟨0, 40, 0, 0, 0, .load, false⟩

/-- After 512 of them the sets that follow have changed to BIP. -/
theorem set_dueling_exact_srripLoses :
    FollowsBip id (List.replicate 512 (.llcUpdateReplacementState srripMiss)) 0 100 := by
  obtain ⟨_, -, -, -, -, hwindow⟩ :=
    set_dueling_exact id (List.replicate 512 (.llcUpdateReplacementState srripMiss))
  have hballot : ballot id (.llcUpdateReplacementState srripMiss) = some (0, true) := by decide
  refine (hwindow 0 100 (by decide) 0).1 ?_
  rw [List.drop_zero, votes_replicate hballot]
  unfold Wins
  rw [List.count_replicate_self, List.count_replicate]
  decide

end Drrip
end Replacement
end ChampSim
