import ChampSim.Cache.Handlers

/-!
# ChampSim.Cache.Merge

A request that misses is merged into the MSHR entry of its address.

* `Keeps`   — the merged entry waits for all that the entry and the request waited for.
* `Covers`  — the request asks for all that the entry asked for.
* `merge_keeps_iff` — the merge keeps the waiting levels when the entry is not a prefetch, when the
  request is one, or when the request covers the entry.
* `upgrade_drops` — a load upgrades a code prefetch in the L2C and the L1I is forgotten:
  `handle_read` joins the flags into the entry and then overwrites it with the request.
-/

namespace ChampSim
namespace Cache

open Lib

variable {ρ : Type} {c : Config} {P : Policy c ρ} {env : Env} {s s' : State ρ}

def Keeps (p e e' : Packet) : Prop :=
  e'.fillL1i = (e.fillL1i || p.fillL1i) ∧ e'.fillL1d = (e.fillL1d || p.fillL1d) ∧
    e'.fillLevel = min e.fillLevel p.fillLevel

instance (p e e' : Packet) : Decidable (Keeps p e e') := inferInstanceAs (Decidable (_ ∧ _ ∧ _))

def Covers (p e : Packet) : Prop :=
  (e.fillL1i = true → p.fillL1i = true) ∧ (e.fillL1d = true → p.fillL1d = true) ∧
    p.fillLevel ≤ e.fillLevel

instance (p e : Packet) : Decidable (Covers p e) := inferInstanceAs (Decidable (_ ∧ _ ∧ _))

/-! ## The merges -/

theorem keeps_mergeFill (p e : Packet) : Keeps p e (mergeFill p e) := by
  refine ⟨rfl, rfl, ?_⟩
  show (if p.fillLevel < e.fillLevel then p.fillLevel else e.fillLevel) = _
  split <;> omega

/-- Joining the consumers leaves alone what the entry is and who waits for its fill. -/
theorem mergeConsumers_frame (p e : Packet) :
    (mergeConsumers p e).address = e.address ∧ (mergeConsumers p e).type = e.type ∧
      (mergeConsumers p e).fillL1i = e.fillL1i ∧ (mergeConsumers p e).fillL1d = e.fillL1d ∧
      (mergeConsumers p e).fillLevel = e.fillLevel := by
  unfold mergeConsumers
  split
  · dsimp only
    split <;> split <;> exact ⟨rfl, rfl, rfl, rfl, rfl⟩
  · split
    · dsimp only
      split <;> exact ⟨rfl, rfl, rfl, rfl, rfl⟩
    · dsimp only
      split <;> exact ⟨rfl, rfl, rfl, rfl, rfl⟩

/-- An upgrade forgets the levels that only the prefetch waited for. -/
theorem keeps_upgrade {p e x : Packet} (hx : Keeps p e x) (ht : x.type = e.type) :
    Keeps p e (upgrade p x) ↔ e.type ≠ .prefetch ∨ Covers p e := by
  unfold upgrade
  rw [ht]
  split
  · rename_i hpf
    simp only [hpf, ne_eq, not_true_eq_false, false_or]
    constructor
    · rintro ⟨hi, hd, hl⟩
      dsimp only at hi hd hl
      refine ⟨fun he => ?_, fun he => ?_, by omega⟩
      · rw [hi, he]; rfl
      · rw [hd, he]; rfl
    · rintro ⟨hi, hd, hl⟩
      refine ⟨?_, ?_, ?_⟩
      · cases he : e.fillL1i with
        | false => rfl
        | true => exact hi he
      · cases he : e.fillL1d with
        | false => rfl
        | true => exact hd he
      · show p.fillLevel = _
        omega
  · rename_i hpf
    exact ⟨fun _ => .inl hpf, fun _ => hx⟩

theorem keeps_mergeWriteback (p e : Packet) :
    Keeps p e (mergeWriteback p e) ↔ e.type ≠ .prefetch ∨ Covers p e :=
  keeps_upgrade (keeps_mergeFill p e) rfl

theorem keeps_mergeRead (p e : Packet) :
    Keeps p e (mergeRead p e) ↔ e.type ≠ .prefetch ∨ Covers p e := by
  obtain ⟨-, ht, hi, hd, hl⟩ := mergeConsumers_frame p e
  refine keeps_upgrade ?_ ht
  obtain ⟨hi', hd', hl'⟩ := keeps_mergeFill p (mergeConsumers p e)
  exact ⟨by rw [hi', hi], by rw [hd', hd], by rw [hl', hl]⟩

/-! ## What leaves the MSHR alone -/

theorem returnUpper_mshr (s : State ρ) (cpu : Nat) (p : Packet) :
    (returnUpper c s cpu p).mshr = s.mshr := by
  unfold returnUpper
  split
  · dsimp only
    generalize (if c.fillLevel = fillL2 then p.fillL1i else p.instruction) = toIcache
    generalize (if c.fillLevel = fillL2 then p.fillL1d else p.isData) = toDcache
    cases toIcache <;> cases toDcache <;> rfl
  · rfl

theorem returnUpper_block (s : State ρ) (cpu : Nat) (p : Packet) :
    (returnUpper c s cpu p).block = s.block := by
  unfold returnUpper
  split
  · dsimp only
    generalize (if c.fillLevel = fillL2 then p.fillL1i else p.instruction) = toIcache
    generalize (if c.fillLevel = fillL2 then p.fillL1d else p.isData) = toDcache
    cases toIcache <;> cases toDcache <;> rfl
  · rfl

theorem forwardFromWq_mshr (s : State ρ) (i : Nat) (p : Packet) :
    (forwardFromWq c s i p).1.mshr = s.mshr := by
  unfold forwardFromWq
  split
  · exact returnUpper_mshr s p.cpu _
  · rfl

theorem addPq_mshr {p : Packet} {r : Added × State ρ} (h : addPq c env s p = some r) :
    r.2.mshr = s.mshr := by
  unfold addPq at h
  split at h
  · rename_i i hi
    cases h
    exact forwardFromWq_mshr s i p
  · split at h
    · cases h; rfl
    · split at h
      · cases h; rfl
      · obtain ⟨q, -, h⟩ := Option.bind_eq_some_iff.mp h
        split at h
        · cases h
        · cases h; rfl

theorem issuePrefetch_mshr {baseAddr pfAddr : Nat} {p : Packet}
    (h : issuePrefetch c env s baseAddr pfAddr p = some s') : s'.mshr = s.mshr := by
  unfold issuePrefetch at h
  split at h
  · obtain ⟨r, hr, rfl⟩ := Option.map_eq_some_iff.mp h
    exact addPq_mshr hr
  · cases h; rfl

theorem runCallback_mshr {cpu : Nat} {k : Callback} (h : runCallback c env cpu s k = some s') :
    s'.mshr = s.mshr := by
  cases k with
  | prefetchLine =>
    have := issuePrefetch_mshr h
    exact this
  | kpcPrefetchLine => exact issuePrefetch_mshr h
  | prefetchCodeLine pfVAddr pfPa =>
    change prefetchCodeLine c env cpu s pfVAddr pfPa = some s' at h
    unfold prefetchCodeLine at h
    split at h
    · cases h
    · dsimp only at h
      split at h
      · obtain ⟨r, hr, rfl⟩ := Option.map_eq_some_iff.mp h
        have := addPq_mshr hr
        exact this
      · cases h; rfl
  | invalidate address =>
    cases h
    unfold invalidateEntry
    split <;> rfl

theorem prefetcherLoad_mshr {p : Packet} (h : prefetcherLoad c env s p = some s') :
    s'.mshr = s.mshr := by
  unfold prefetcherLoad at h
  split at h
  · refine run_invariant (I := fun t => t.mshr = s.mshr) (P := fun _ _ => True) ?_ rfl
      (along_of_forall (A := fun _ => True) (by simp) _) h
    intro t k t' ht _ hk
    rw [runCallback_mshr hk, ht]
  · cases h; rfl

/-! ## The handlers -/

/-- The queue that a handler serves. -/
inductive Served where
  | read
  | writeback
  | prefetch
deriving DecidableEq

def Served.queue : Served → State ρ → PacketQueue
  | .read, s => s.rq
  | .writeback, s => s.wq
  | .prefetch, s => s.pq

def Served.head (k : Served) (s : State ρ) : Packet := (k.queue s).entry (k.queue s).head

def Served.handle (P : Policy c ρ) (env : Env) : Served → State ρ → Option (State ρ)
  | .read => readOne P env
  | .writeback => handleWriteback P env
  | .prefetch => prefetchOne P env

/-- The head of the queue is served, misses and meets the MSHR entry `i`. A write-back is merged in
an L1D only. -/
def MergesInto (c : Config) (k : Served) (env : Env) (s : State ρ) (i : Nat) : Prop :=
  Ready c env (k.queue s) ∧ (k = .writeback → c.cacheType = .l1d) ∧
    checkHit c s (k.head s).address = none ∧ checkMshr c s (k.head s).address = some i

instance (k : Served) (env : Env) (s : State ρ) (i : Nat) : Decidable (MergesInto c k env s i) :=
  inferInstanceAs (Decidable (_ ∧ _ ∧ _ ∧ _))

def Served.merge : Served → Packet → Packet → Packet
  | .read => mergeRead
  | .writeback => mergeWriteback
  | .prefetch => mergePrefetch

theorem handle_entry {k : Served} {i : Nat} (hm : MergesInto c k env s i)
    (hs' : k.handle P env s = some s') :
    s'.mshr.entry i = k.merge (k.head s) (s.mshr.entry i) := by
  obtain ⟨hready, hl1d, hhit, hmshr⟩ := hm
  cases k with
  | read =>
    change readOne P env s = some s' at hs'
    change checkHit c s (s.rq.entry s.rq.head).address = none at hhit
    change checkMshr c s (s.rq.entry s.rq.head).address = some i at hmshr
    unfold readOne readMiss at hs'
    simp only [hhit, hmshr, Option.bind_some, if_true] at hs'
    obtain ⟨s₁, hs₁, hs'⟩ := Option.bind_eq_some_iff.mp hs'
    obtain ⟨q, -, rfl⟩ := Option.map_eq_some_iff.mp hs'
    have hmshr₁ := prefetcherLoad_mshr hs₁
    show s₁.mshr.entry i = _
    rw [hmshr₁]
    exact Function.update_self i _ _
  | writeback =>
    change handleWriteback P env s = some s' at hs'
    change checkHit c s (s.wq.entry s.wq.head).address = none at hhit
    change checkMshr c s (s.wq.entry s.wq.head).address = some i at hmshr
    change Ready c env s.wq at hready
    unfold handleWriteback storeMiss at hs'
    simp only [if_pos hready, hhit, hmshr, if_pos (hl1d rfl)] at hs'
    obtain ⟨q, -, rfl⟩ := Option.map_eq_some_iff.mp hs'
    exact Function.update_self i _ _
  | prefetch =>
    change prefetchOne P env s = some s' at hs'
    change checkHit c s (s.pq.entry s.pq.head).address = none at hhit
    change checkMshr c s (s.pq.entry s.pq.head).address = some i at hmshr
    unfold prefetchOne prefetchMiss at hs'
    simp only [hhit, hmshr, Option.bind_some, if_true] at hs'
    obtain ⟨q, -, rfl⟩ := Option.map_eq_some_iff.mp hs'
    exact Function.update_self i _ _

/-- In every state, a merge keeps every waiting level exactly when the entry is not a prefetch, the
request is from `PQ`, or the request covers the entry. -/
theorem merge_keeps_iff {k : Served} {i : Nat} (hm : MergesInto c k env s i)
    (hs' : k.handle P env s = some s') :
    Keeps (k.head s) (s.mshr.entry i) (s'.mshr.entry i) ↔
      k = .prefetch ∨ (s.mshr.entry i).type ≠ .prefetch ∨ Covers (k.head s) (s.mshr.entry i) := by
  rw [handle_entry hm hs']
  cases k with
  | read =>
    have h := keeps_mergeRead (Served.read.head s) (s.mshr.entry i)
    exact ⟨fun hk => .inr (h.mp hk), fun hk => h.mpr (hk.resolve_left (by decide))⟩
  | writeback =>
    have h := keeps_mergeWriteback (Served.writeback.head s) (s.mshr.entry i)
    exact ⟨fun hk => .inr (h.mp hk), fun hk => h.mpr (hk.resolve_left (by decide))⟩
  | prefetch => exact ⟨fun _ => .inl rfl, fun _ => keeps_mergeFill _ _⟩

/-- A request for line 5 that the L1D (`data`) or the L1I sends to the L2C. -/
def forLine5 (data : Bool) (type : PacketType) : Packet :=
  { Packet.empty 1 with
    instruction := !data
    isData := data
    fillL1i := !data
    fillL1d := data
    fillLevel := fillL1
    pfOriginLevel := fillL1
    cpu := 0
    address := 5
    fullAddr := 5 * 64
    type := type
    eventCycle := 0 }

/-- Two reads of a line, by the L1I and by the L1D, meet in the L2C. -/
theorem merge_keeps_iff_reads :
    ∃ s s' : State Unit,
      run (step (lru (l2c 1 0))) (State.init (lru (l2c 1 0)))
        [.addRq (.quiet 0) (forLine5 false .load), .operate (.quiet 20),
          .addRq (.quiet 20) (forLine5 true .load)] = some s ∧
      readOne (lru (l2c 1 0)) (.quiet 40) s = some s' ∧
      Keeps (s.rq.entry s.rq.head) (s.mshr.entry 0) (s'.mshr.entry 0) := by
  have hcheck : (run (step (lru (l2c 1 0))) (State.init (lru (l2c 1 0)))
      [.addRq (.quiet 0) (forLine5 false .load), .operate (.quiet 20),
        .addRq (.quiet 20) (forLine5 true .load)]).map
      (fun s => decide (MergesInto (l2c 1 0) .read (.quiet 40) s 0 ∧
        (readOne (lru (l2c 1 0)) (.quiet 40) s).isSome = true ∧
        (s.mshr.entry 0).type ≠ .prefetch)) = some true := by decide +kernel
  obtain ⟨s, hs, hc⟩ := Option.map_eq_some_iff.mp hcheck
  obtain ⟨hm, hserved, htype⟩ := of_decide_eq_true hc
  obtain ⟨s', hs'⟩ := Option.isSome_iff_exists.mp hserved
  exact ⟨s, s', hs, hs', (merge_keeps_iff (k := .read) hm hs').mpr (.inr (.inl htype))⟩

/-- A load of the L1D meets a code prefetch of the L1I in the L2C: the entry no longer waits for
the L1I. -/
theorem upgrade_drops :
    ∃ s s' : State Unit,
      run (step (lru (l2c 1 0))) (State.init (lru (l2c 1 0)))
        [.addPq (.quiet 0) (forLine5 false .prefetch), .operate (.quiet 20),
          .addRq (.quiet 20) (forLine5 true .load)] = some s ∧
      MergesInto (l2c 1 0) .read (.quiet 40) s 0 ∧
      readOne (lru (l2c 1 0)) (.quiet 40) s = some s' ∧
      ¬ Keeps (s.rq.entry s.rq.head) (s.mshr.entry 0) (s'.mshr.entry 0) := by
  have hcheck : (run (step (lru (l2c 1 0))) (State.init (lru (l2c 1 0)))
      [.addPq (.quiet 0) (forLine5 false .prefetch), .operate (.quiet 20),
        .addRq (.quiet 20) (forLine5 true .load)]).bind (fun s =>
      (readOne (lru (l2c 1 0)) (.quiet 40) s).map fun s' =>
        decide (MergesInto (l2c 1 0) .read (.quiet 40) s 0 ∧
          ¬ Keeps (s.rq.entry s.rq.head) (s.mshr.entry 0) (s'.mshr.entry 0))) = some true := by
    decide +kernel
  obtain ⟨s, hs, hc⟩ := Option.bind_eq_some_iff.mp hcheck
  obtain ⟨s', hs', hc⟩ := Option.map_eq_some_iff.mp hc
  obtain ⟨hm, hdrop⟩ := of_decide_eq_true hc
  exact ⟨s, s', hs, hm, hs', hdrop⟩

end Cache
end ChampSim
