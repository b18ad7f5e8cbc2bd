import ChampSim.Cache.Handlers
import ChampSim.Cache.Levels
import ChampSim.Replacement.Rrip

/-!
# ChampSim.Replacement.Blocked

A fill, or an installed write-back, whose dirty victim finds the lower level's `WQ` full.

* `Rrip.policy`          — an RRIP policy in a cache.
* `Selection`            — what a search reads and changes of the policy's state; it finds the same
  way again.
* `Repository`           — the selections of the four policies.
* `Fills`, `Installs`    — a handler that is about to search for a victim.
* `FullBelow`, `Blocked` — the victim, and what the handler leaves behind.
* `blocked_fill`         — the handler changes nothing but the policy's values in the set.
-/

namespace ChampSim
namespace Replacement

open Lib Cache

variable {ρ σ : Type} {c : Config}

/-- The policy in a cache. That a write-back has no `ip`, which it asserts, is left to the levels
above; the `lru` values stay as they are. -/
def Rrip.policy (P : Rrip σ) (fuel : Nat) (hc : c.numWay = llcWay) : Policy c σ where
  init := P.init
  findVictim := fun s set _ _ => P.llcFindVictim fuel s set
  update := fun s set way blocks p fullAddr _ hit =>
    ((P.llcUpdateReplacementState ⟨p.cpu, set, way, fullAddr, p.ip, p.type, hit⟩ s).getD s,
      fun i => (blocks i).lru)
  findVictim_le := by
    intro s set _ _ way s' h
    obtain ⟨⟨w, r⟩, hsearch, heq⟩ := Option.map_eq_some_iff.mp h
    cases heq
    have hfind := (Aging.search_some hsearch).2
    exact .inl (hc ▸ List.mem_range.mp (List.mem_of_find?_eq_some hfind))

/-! ## Selections -/

/-- `Same` is the part of the policy's state that a search in `set` reads, `Ages` what it changes. -/
structure Selection (P : Policy c ρ) where
  Same : Nat → ρ → ρ → Prop
  Ages : Nat → ρ → ρ → Prop
  ages : ∀ {r set blocks p way r'}, P.findVictim r set blocks p = some (way, r') → Ages set r r'
  again : ∀ {r set blocks p way r'}, P.findVictim r set blocks p = some (way, r') →
    ∀ {t} q, Same set r' t → P.findVictim t set blocks q = some (way, t)
  lt : ∀ {r set blocks p way r'}, P.findVictim r set blocks p = some (way, r') → way < c.numWay

/-- LRU reads the blocks alone. -/
def lruSelection (c : Config) : Selection (lru c) where
  Same := fun _ _ _ => True
  Ages := fun _ r r' => r' = r
  ages := fun _ => rfl
  again := fun h _ _ _ => h
  lt := by
    intro r set blocks p way r' h
    obtain ⟨way, hway, heq⟩ := Option.map_eq_some_iff.mp h
    cases heq
    exact lruVictim_lt hway

/-- The values of all ways of the set grow by the same amount. -/
def Rrip.selection (P : Rrip σ) (fuel : Nat) (hc : c.numWay = llcWay) :
    Selection (P.policy fuel hc) where
  Same := fun set s t => P.rrpv t set = P.rrpv s set
  Ages := fun set s s' => ∃ k,
    s' = P.withRrpv s (Function.update (P.rrpv s) set (Aging.aged llcWay k (P.rrpv s set)))
  ages := by
    intro s set _ _ way s' h
    obtain ⟨⟨w, r⟩, hsearch, heq⟩ := Option.map_eq_some_iff.mp h
    obtain ⟨⟨k, rfl⟩, -⟩ := Aging.search_some hsearch
    cases heq
    exact ⟨k, rfl⟩
  again := by
    intro s set _ _ way s' h t _ hsame
    obtain ⟨⟨w, r⟩, hsearch, heq⟩ := Option.map_eq_some_iff.mp h
    cases heq
    rw [P.rrpv_withRrpv, Function.update_self] at hsame
    show (Aging.search llcWay maxRrpv fuel (P.rrpv t set)).map _ = _
    rw [hsame, Aging.search_again hsearch, ← hsame, Option.map_some]
    show some (way, P.withRrpv t (Function.update (P.rrpv t) set (P.rrpv t set))) = _
    rw [Function.update_eq_self, P.withRrpv_rrpv]
  lt := by
    intro s set _ _ way s' h
    obtain ⟨⟨w, r⟩, hsearch, heq⟩ := Option.map_eq_some_iff.mp h
    cases heq
    exact hc ▸ List.mem_range.mp (List.mem_of_find?_eq_some (Aging.search_some hsearch).2)

inductive Repository : {ρ : Type} → {c : Config} → {P : Policy c ρ} → Selection P → Prop
  | lru (c : Config) : Repository (lruSelection c)
  | srrip {c : Config} (fuel : Nat) (hc : c.numWay = llcWay) :
    Repository (srrip.selection fuel hc)
  | drrip {c : Config} (randSets : Nat → Nat) (fuel : Nat) (hc : c.numWay = llcWay) :
    Repository ((drrip randSets).selection fuel hc)
  | ship {c : Config} (numCpus : Nat) (randSets : Nat → Nat) (fuel : Nat)
    (hc : c.numWay = llcWay) : Repository ((ship numCpus randSets).selection fuel hc)

/-! ## Handlers -/

variable {P : Policy c ρ} {S : Selection P} {env : Env} {s s' : State ρ} {p : Packet}
  {way : Nat} {r : ρ}

structure Fills (c : Config) (env : Env) (s : State ρ) : Prop where
  index : s.mshr.nextFillIndex ≠ c.mshrSize
  size : s.mshr.nextFillIndex < s.mshr.size
  cpu : (s.mshr.entry s.mshr.nextFillIndex).cpu ≠ c.numCpus
  cycle : s.mshr.nextFillCycle ≤
    env.currentCoreCycle (s.mshr.entry s.mshr.nextFillIndex).cpu

structure Installs (c : Config) (env : Env) (s : State ρ) : Prop where
  ready : Ready c env s.wq
  miss : checkHit c s (s.wq.entry s.wq.head).address = none
  level : c.cacheType ≠ .l1d

/-- The victim for `p` is dirty, and its line has no room below. -/
structure FullBelow (P : Policy c ρ) (env : Env) (s : State ρ) (p : Packet) (way : Nat) (r : ρ) :
    Prop where
  found : P.findVictim s.policy (c.getSet p.address) (s.block (c.getSet p.address)) p = some (way, r)
  dirty : (s.block (c.getSet p.address) way).dirty = true
  lower : c.hasLower = true
  full : env.lowerWqFull (s.block (c.getSet p.address) way).address = true

/-- The policy has aged and the lower level has counted the refusal; the rest is as it was. As long
as nothing touches the set, the next search finds the same way. -/
structure Blocked (S : Selection P) (s : State ρ) (set way : Nat) (s' : State ρ) : Prop where
  unchanged : s' = { s with
    policy := s'.policy
    calls := s.calls ++ [.lowerWqFull (s.block set way).address] }
  ages : S.Ages set s.policy s'.policy
  again : ∀ (t : State ρ) (q : Packet), t.block set = s'.block set →
    S.Same set s'.policy t.policy → findVictim P t set q = some (way, t)

theorem evict_full {set : Nat} (hd : (s.block set way).dirty = true) (hl : c.hasLower = true)
    (hf : env.lowerWqFull (s.block set way).address = true) :
    evict c env s set way p =
      some (false, s.call (.lowerWqFull (s.block set way).address)) := by
  unfold evict
  dsimp only
  rw [if_pos hd, if_pos hl, if_pos hf]

theorem handleFill_blocked (S : Selection P) (hfill : Fills c env s)
    (h : FullBelow P env s (s.mshr.entry s.mshr.nextFillIndex) way r) :
    handleFill P env s = some { s with
      policy := r
      calls := s.calls ++ [.lowerWqFull (s.block (c.getSet
        (s.mshr.entry s.mshr.nextFillIndex).address) way).address] } := by
  have hway := S.lt h.found
  unfold handleFill
  dsimp only
  rw [if_neg (not_or.mpr ⟨hfill.index, hfill.cpu⟩), if_pos hfill.cycle,
    if_neg (Nat.not_le.mpr hfill.size)]
  unfold findVictim
  rw [h.found, Option.map_some, Option.bind_some]
  dsimp only
  rw [if_neg fun hbypass => Nat.ne_of_lt hway hbypass.2]
  generalize (s.mshr.entry s.mshr.nextFillIndex) = p at h
  rw [evict_full (s := { s with policy := r }) h.dirty h.lower h.full]
  rfl

theorem handleWriteback_blocked (S : Selection P) (hinstall : Installs c env s)
    (h : FullBelow P env s (s.wq.entry s.wq.head) way r) :
    handleWriteback P env s = some { s with
      policy := r
      calls := s.calls ++ [.lowerWqFull (s.block (c.getSet
        (s.wq.entry s.wq.head).address) way).address] } := by
  have hway := S.lt h.found
  unfold handleWriteback
  dsimp only
  rw [if_pos hinstall.ready, hinstall.miss]
  dsimp only
  rw [if_neg hinstall.level]
  generalize s.wq.entry s.wq.head = p at h
  unfold install findVictim
  dsimp only
  rw [h.found, Option.map_some, Option.bind_some]
  dsimp only
  rw [if_neg fun hbypass => Nat.ne_of_lt hway hbypass.2,
    evict_full (s := { s with policy := r }) h.dirty h.lower h.full]
  rfl

theorem FullBelow.blocked (S : Selection P) (h : FullBelow P env s p way r) :
    Blocked S s (c.getSet p.address) way { s with
      policy := r
      calls := s.calls ++ [.lowerWqFull (s.block (c.getSet p.address) way).address] } where
  unchanged := rfl
  ages := S.ages h.found
  again := by
    intro t q hblock hsame
    unfold findVictim
    rw [show t.block (c.getSet p.address) = s.block (c.getSet p.address) from hblock,
      S.again h.found q hsame]
    rfl

theorem blocked_fill (_ : Repository S) (env : Env) (s : State ρ) (way : Nat) (r : ρ) :
    (Fills c env s → FullBelow P env s (s.mshr.entry s.mshr.nextFillIndex) way r →
      ∃ s', handleFill P env s = some s' ∧
        Blocked S s (c.getSet (s.mshr.entry s.mshr.nextFillIndex).address) way s') ∧
      (Installs c env s → FullBelow P env s (s.wq.entry s.wq.head) way r →
        ∃ s', handleWriteback P env s = some s' ∧
          Blocked S s (c.getSet (s.wq.entry s.wq.head).address) way s') :=
  ⟨fun hfill h => ⟨_, handleFill_blocked S hfill h, h.blocked S⟩,
    fun hinstall h => ⟨_, handleWriteback_blocked S hinstall h, h.blocked S⟩⟩

/-- An LLC of dirty lines, whose MSHR and `WQ` hold one packet each. -/
def dirtyLlc : State Srrip :=
  let s := State.init (srrip.policy (c := llc 1) 4 rfl)
  let p : Packet := { Packet.empty 1 with cpu := 0, address := 1, eventCycle := 0 }
  { s with
    block := fun _ way => { Block.new way with valid := true, dirty := true, tag := 7, address := 7 }
    mshr := { s.mshr with
      entry := Function.update s.mshr.entry 0 p
      nextFillIndex := 0
      nextFillCycle := 0 }
    wq := { s.wq with entry := Function.update s.wq.entry 0 p, tail := 1, occupancy := 1 } }

def fullBelow : Env := { Env.quiet 5 with lowerWqFull := fun _ => true }

theorem blocked_fill_dirtyLlc :
    ∃ s' s'', handleFill (srrip.policy (c := llc 1) 4 rfl) fullBelow dirtyLlc = some s' ∧
      handleWriteback (srrip.policy (c := llc 1) 4 rfl) fullBelow dirtyLlc = some s'' ∧
      Blocked (srrip.selection (c := llc 1) 4 rfl) dirtyLlc 1 0 s' ∧
      Blocked (srrip.selection (c := llc 1) 4 rfl) dirtyLlc 1 0 s'' := by
  obtain ⟨r, hr⟩ : ∃ r, srrip.llcFindVictim 4 dirtyLlc.policy 1 = some (0, r) := ⟨_, rfl⟩
  have h := blocked_fill (.srrip (c := llc 1) 4 rfl) fullBelow dirtyLlc 0 r
  obtain ⟨s', hs', hb⟩ := h.1 ⟨by decide, by decide, by decide, by decide⟩ ⟨hr, rfl, rfl, rfl⟩
  obtain ⟨s'', hs'', hb'⟩ := h.2 ⟨by decide, by decide, by decide⟩ ⟨hr, rfl, rfl, rfl⟩
  exact ⟨s', s'', hs', hs'', hb, hb'⟩

end Replacement
end ChampSim
