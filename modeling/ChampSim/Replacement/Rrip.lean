import ChampSim.Packet
import ChampSim.Lib.Aging
import ChampSim.Lib.Recency
import ChampSim.Lib.Run

/-!
# ChampSim.Replacement.Rrip

The RRIP policies of the LLC (`replacement/srrip.llc_repl`, `drrip.llc_repl`, `ship.llc_repl`).

* `Access`      — the arguments of `llc_update_replacement_state` that a policy reads.
* `Rrip σ`      — a policy with the state `σ`: its `rrpv` array, and what an update writes there.
* `Rrip.llcFindVictim` — the search of all three, for `fuel` rounds of `while(1)`.
* `srrip`, `drrip`, `ship` — the policies.

A failed assertion is `none`. The sampler sets are drawn at the start, here they are given.
-/

namespace ChampSim
namespace Replacement

open Lib

def maxRrpv : Nat := 3

def llcWay : Nat := 16

structure Access where
  cpu : Nat
  set : Nat
  way : Nat
  fullAddr : Nat
  ip : Nat
  type : PacketType
  hit : Bool

/-- `rrpv[set][way] = v`. -/
def setRrpv (rrpv : Nat → Nat → Nat) (set way v : Nat) : Nat → Nat → Nat :=
  Function.update rrpv set (Function.update (rrpv set) way v)

/-- `updates` is what the invariants need of an update: it writes one value, in range, or none. -/
structure Rrip (σ : Type) where
  init : σ
  rrpv : σ → Nat → Nat → Nat
  withRrpv : σ → (Nat → Nat → Nat) → σ
  llcUpdateReplacementState : Access → σ → Option σ
  rrpv_init : ∀ set way, rrpv init set way = maxRrpv
  rrpv_withRrpv : ∀ s r, rrpv (withRrpv s r) = r
  withRrpv_rrpv : ∀ s, withRrpv s (rrpv s) = s
  updates : ∀ {a s s'}, llcUpdateReplacementState a s = some s' →
    rrpv s' = rrpv s ∨ ∃ v ≤ maxRrpv, rrpv s' = setRrpv (rrpv s) a.set a.way v

namespace Rrip

variable {σ : Type}

def llcFindVictim (P : Rrip σ) (fuel : Nat) (s : σ) (set : Nat) : Option (Nat × σ) :=
  (Aging.search llcWay maxRrpv fuel (P.rrpv s set)).map fun (way, r) =>
    (way, P.withRrpv s (Function.update (P.rrpv s) set r))

inductive Call where
  | llcFindVictim (set : Nat)
  | llcUpdateReplacementState (a : Access)

def step (P : Rrip σ) (s : σ) : Call → Option σ
  | .llcFindVictim set => (P.llcFindVictim (maxRrpv + 1) s set).map Prod.snd
  | .llcUpdateReplacementState a => P.llcUpdateReplacementState a s

end Rrip

/-! ## SRRIP -/

structure Srrip where
  rrpv : Nat → Nat → Nat

namespace Srrip

def init : Srrip := ⟨fun _ _ => maxRrpv⟩

def llcUpdateReplacementState (a : Access) (s : Srrip) : Option Srrip :=
  if a.type = .writeback ∧ a.ip ≠ 0 then none
  else some ⟨setRrpv s.rrpv a.set a.way (if a.hit then 0 else maxRrpv - 1)⟩

end Srrip

def srrip : Rrip Srrip where
  init := .init
  rrpv := Srrip.rrpv
  withRrpv := fun _ r => ⟨r⟩
  llcUpdateReplacementState := Srrip.llcUpdateReplacementState
  rrpv_init := fun _ _ => rfl
  rrpv_withRrpv := fun _ _ => rfl
  withRrpv_rrpv := fun _ => rfl
  updates := by
    intro a s s' h
    unfold Srrip.llcUpdateReplacementState at h
    split at h
    · cases h
    · cases h
      refine .inr ⟨_, ?_, rfl⟩
      split <;> decide

/-! ## DRRIP -/

structure Drrip where
  rrpv : Nat → Nat → Nat
  bipCounter : Nat
  psel : Nat → Nat

namespace Drrip

def numPolicy : Nat := 2

def sdmSize : Nat := 32

def bipMax : Nat := 32

def pselMax : Nat := 2 ^ 10 - 1

def pselThrs : Nat := pselMax / 2

def init : Drrip := ⟨fun _ _ => maxRrpv, 0, fun _ => 0⟩

/-- The policy whose leader `set` is; `none` is -1. -/
def isItLeader (randSets : Nat → Nat) (cpu set : Nat) : Option Nat :=
  let start := cpu * numPolicy * sdmSize
  ((List.range (numPolicy * sdmSize)).find? fun i => randSets (start + i) == set).map (· / sdmSize)

/-- The value that BIP gives to the way, and the counter. -/
def bip (counter : Nat) : Nat × Nat :=
  let counter := if counter + 1 = bipMax then 0 else counter + 1
  (if counter = 0 then maxRrpv - 1 else maxRrpv, counter)

def llcUpdateReplacementState (randSets : Nat → Nat) (a : Access) (s : Drrip) : Option Drrip :=
  if a.type = .writeback then
    some { s with rrpv := setRrpv s.rrpv a.set a.way (maxRrpv - 1) }
  else if a.hit then some { s with rrpv := setRrpv s.rrpv a.set a.way 0 }
  else
    match isItLeader randSets a.cpu a.set with
    | none =>
      if s.psel a.cpu > pselThrs then
        some { s with
          rrpv := setRrpv s.rrpv a.set a.way (bip s.bipCounter).1
          bipCounter := (bip s.bipCounter).2 }
      else some { s with rrpv := setRrpv s.rrpv a.set a.way (maxRrpv - 1) }
    | some 0 =>
      some {
        rrpv := setRrpv s.rrpv a.set a.way (bip s.bipCounter).1
        bipCounter := (bip s.bipCounter).2
        psel := Function.update s.psel a.cpu
          (if s.psel a.cpu > 0 then s.psel a.cpu - 1 else s.psel a.cpu) }
    | some 1 =>
      some { s with
        rrpv := setRrpv s.rrpv a.set a.way (maxRrpv - 1)
        psel := Function.update s.psel a.cpu
          (if s.psel a.cpu < pselMax then s.psel a.cpu + 1 else s.psel a.cpu) }
    | some _ => none

theorem bip_le (counter : Nat) : (bip counter).1 ≤ maxRrpv := by
  show (if (if counter + 1 = bipMax then 0 else counter + 1) = 0 then maxRrpv - 1 else maxRrpv) ≤ _
  generalize (if counter + 1 = bipMax then 0 else counter + 1) = k
  split <;> decide

end Drrip

def drrip (randSets : Nat → Nat) : Rrip Drrip where
  init := .init
  rrpv := Drrip.rrpv
  withRrpv := fun s r => { s with rrpv := r }
  llcUpdateReplacementState := Drrip.llcUpdateReplacementState randSets
  rrpv_init := fun _ _ => rfl
  rrpv_withRrpv := fun _ _ => rfl
  withRrpv_rrpv := fun _ => rfl
  updates := by
    intro a s s' h
    unfold Drrip.llcUpdateReplacementState at h
    split at h
    · cases h
      exact .inr ⟨maxRrpv - 1, by decide, rfl⟩
    · split at h
      · cases h
        exact .inr ⟨0, by decide, rfl⟩
      · split at h
        · split at h
          · cases h
            exact .inr ⟨_, Drrip.bip_le _, rfl⟩
          · cases h
            exact .inr ⟨maxRrpv - 1, by decide, rfl⟩
        · cases h
          exact .inr ⟨_, Drrip.bip_le _, rfl⟩
        · cases h
          exact .inr ⟨maxRrpv - 1, by decide, rfl⟩
        · cases h

/-! ## SHiP -/

structure SamplerEntry where
  valid : Bool
  type : PacketType
  used : Bool
  tag : Nat
  ip : Nat
  lru : Nat

structure Ship where
  rrpv : Nat → Nat → Nat
  sampler : Nat → Nat → SamplerEntry
  /-- The counters of `SHCT`. -/
  shct : Nat → Nat → Nat

namespace Ship

def shctPrime : Nat := 16381

def shctMax : Nat := 7

def samplerWay : Nat := llcWay

def init : Ship where
  rrpv := fun _ _ => maxRrpv
  sampler := fun _ way => ⟨false, .load, false, 0, 0, way⟩
  shct := fun _ _ => 0

/-- The sampler set for `set`, one of `SAMPLER_SET`. -/
def isItSampled (numCpus : Nat) (randSets : Nat → Nat) (set : Nat) : Option Nat :=
  (List.range (256 * numCpus)).find? fun i => randSets i == set

/-- The entry is known: its `ip` counts as used again. -/
def samplerHit (cpu : Nat) (type : PacketType) (e : SamplerEntry) (shct : Nat → Nat → Nat) :
    SamplerEntry × (Nat → Nat → Nat) :=
  let i := e.ip % shctPrime
  ({ e with type := type, used := true },
    if shct cpu i > 0 then setRrpv shct cpu i (shct cpu i - 1) else shct)

def samplerFill (tag ip : Nat) (type : PacketType) (e : SamplerEntry) : SamplerEntry :=
  { e with valid := true, tag := tag, ip := ip, type := type, used := false }

/-- The entry leaves the sampler: its `ip` counts as dead if it was not used again. -/
def samplerMiss (cpu tag ip : Nat) (type : PacketType) (e : SamplerEntry)
    (shct : Nat → Nat → Nat) : SamplerEntry × (Nat → Nat → Nat) :=
  let i := e.ip % shctPrime
  ({ e with tag := tag, ip := ip, type := type, used := false },
    if e.used = false ∧ shct cpu i < shctMax then setRrpv shct cpu i (shct cpu i + 1) else shct)

/-- The three searches of `update_sampler`: the way, and the entry and the counters after it. The
search for the last `lru` value may fail. -/
def samplerMatch (cpu tag ip : Nat) (type : PacketType) (set : Nat → SamplerEntry)
    (shct : Nat → Nat → Nat) : Option (Nat × SamplerEntry × (Nat → Nat → Nat)) :=
  match (List.range samplerWay).find? fun i => (set i).valid && (set i).tag == tag with
  | some i => some (i, samplerHit cpu type (set i) shct)
  | none =>
    match (List.range samplerWay).find? fun i => !(set i).valid with
    | some i => some (i, samplerFill tag ip type (set i), shct)
    | none =>
      ((List.range samplerWay).find? fun i => (set i).lru == samplerWay - 1).map fun i =>
        (i, samplerMiss cpu tag ip type (set i) shct)

/-- The LRU part of `update_sampler`. -/
def touchSampler (i : Nat) (set : Nat → SamplerEntry) (j : Nat) : SamplerEntry :=
  { set j with lru := Recency.touch samplerWay i (fun k => (set k).lru) j }

def updateSampler (numCpus cpu sIdx address ip : Nat) (type : PacketType) (s : Ship) :
    Option Ship :=
  let tag := address / (64 * (numCpus * 2048))
  (samplerMatch cpu tag ip type (s.sampler sIdx) s.shct).map fun (i, e, shct) =>
    { s with
      sampler := Function.update s.sampler sIdx
        (touchSampler i (Function.update (s.sampler sIdx) i e))
      shct := shct }

def llcUpdateReplacementState (numCpus : Nat) (randSets : Nat → Nat) (a : Access) (s : Ship) :
    Option Ship :=
  if a.type = .writeback ∧ a.ip ≠ 0 then none
  else if a.type = .writeback then
    if a.hit then some s
    else some { s with rrpv := setRrpv s.rrpv a.set a.way (maxRrpv - 1) }
  else
    (match isItSampled numCpus randSets a.set with
      | some sIdx => updateSampler numCpus a.cpu sIdx a.fullAddr a.ip a.type s
      | none => some s).map fun (s : Ship) =>
      let dead := s.shct a.cpu (a.ip % shctPrime) == shctMax
      { s with
        rrpv := setRrpv s.rrpv a.set a.way
          (if a.hit then 0 else if dead then maxRrpv else maxRrpv - 1) }

theorem updateSampler_rrpv {numCpus cpu sIdx address ip : Nat} {type : PacketType} {s s' : Ship}
    (h : updateSampler numCpus cpu sIdx address ip type s = some s') : s'.rrpv = s.rrpv := by
  obtain ⟨x, -, rfl⟩ := Option.map_eq_some_iff.mp h
  rfl

end Ship

def ship (numCpus : Nat) (randSets : Nat → Nat) : Rrip Ship where
  init := .init
  rrpv := Ship.rrpv
  withRrpv := fun s r => { s with rrpv := r }
  llcUpdateReplacementState := Ship.llcUpdateReplacementState numCpus randSets
  rrpv_init := fun _ _ => rfl
  rrpv_withRrpv := fun _ _ => rfl
  withRrpv_rrpv := fun _ => rfl
  updates := by
    intro a s s' h
    unfold Ship.llcUpdateReplacementState at h
    split at h
    · cases h
    · split at h
      · split at h
        · cases h
          exact .inl rfl
        · cases h
          exact .inr ⟨maxRrpv - 1, by decide, rfl⟩
      · obtain ⟨s₁, hs, rfl⟩ := Option.map_eq_some_iff.mp h
        have hrrpv : s₁.rrpv = s.rrpv := by
          split at hs
          · exact Ship.updateSampler_rrpv hs
          · cases hs
            rfl
        refine .inr ⟨if a.hit then 0 else
          if s₁.shct a.cpu (a.ip % Ship.shctPrime) == Ship.shctMax then maxRrpv else maxRrpv - 1,
          ?_, congrArg (fun r => setRrpv r a.set a.way _) hrrpv⟩
        split
        · decide
        · split <;> decide

end Replacement
end ChampSim
