import ChampSim.Kpcp.Lookahead
import ChampSim.Prefetch.Page

/-!
# ChampSim.Kpcp.Operate

The signature path prefetcher at work (`prefetcher/kpcp.l2c_pref`).

* `operate`, `cacheFill` — `l2c_prefetcher_operate` and `l2c_prefetcher_cache_fill`.
* `Sound`          — the invariant of the tables, and of the depths that the entries record.
* `issues_kept`    — the loop that issues the candidates.
* `lookahead_bounded` — the search stays within its buffers, and so does every run.

`none` is a failed assertion, an access outside of an array, or no more fuel. Of `useful_depth` and
`useless_depth` only the index matters.
-/

namespace ChampSim
namespace Kpcp

open Lib

def fillThreshold : Int := 75

def gcMax : Nat := 1023

structure Prefetcher where
  spp : Spp
  issued : Nat → Nat
  useful : Nat → Nat

namespace Prefetcher

def init : Prefetcher := ⟨.init, fun _ => 0, fun _ => 0⟩

end Prefetcher

/-- `MAX_CONF`. -/
def maxConf (issued useful : Nat) : Int :=
  let conf : Nat := if issued ≠ 0 then 100 * useful / issued else 99
  if conf ≥ 99 then 99 else conf

/-- The access `useful_depth[cpu][depth]` or `useless_depth[cpu][depth]`. -/
def depthIndex (depth : Nat) : Option Nat := if depth < l2cMshrSize then some depth else none

/-- The variables of the loop over the candidates. -/
structure Issue where
  entry : SignatureTable
  pfInflight : Nat
  issued : Nat
  useful : Nat
  requests : List Cache.Callback

/-- `spp_pf_issued++`, with the halving of both counters. -/
def Issue.count (x : Issue) : Issue :=
  if x.issued + 1 > gcMax then
    { x with issued := (x.issued + 1) / 2, useful := x.useful / 2 }
  else { x with issued := x.issued + 1 }

/-- `room k` tells whether `PQ` has room for the request number `k` of this call. -/
def Issue.candidate (addr ip : Nat) (room : Nat → Bool) (c : PfBuffer) (x : Issue) : Issue :=
  let pfAddr := Prefetch.pfAddress (addr / 2 ^ 6) c.delta
  let pfBlock := blockOf pfAddr
  let taken := room x.requests.length && pfAddr / 2 ^ 12 == addr / 2 ^ 12
  if x.entry.l2Pf pfBlock || x.entry.used pfBlock then x
  else if c.conf ≥ fillThreshold then
    let y := { x with requests := x.requests ++ [.prefetchLine ip addr pfAddr Cache.fillL2 0] }
    if taken then
      Issue.count { y with
        pfInflight := x.pfInflight + 1
        entry := { x.entry with
          l2Pf := Function.update x.entry.l2Pf pfBlock true
          depth := Function.update x.entry.depth pfBlock (x.pfInflight + 1) } }
    else y
  else if c.conf ≥ pfThreshold then
    let y := { x with requests := x.requests ++ [.prefetchLine ip addr pfAddr Cache.fillLlc 0] }
    if taken then { y with pfInflight := x.pfInflight + 1 } else y
  else x

/-- The loops over the candidates; the first one asserts that no delta is 0. -/
def issueAll (addr ip : Nat) (room : Nat → Bool) (s : PfState) (x : Issue) : Option Issue :=
  if ∀ i < s.numPf, (s.pfBuffer i).delta ≠ 0 then
    some ((List.range s.numPf).foldl (fun x i => x.candidate addr ip room (s.pfBuffer i)) x)
  else none

/-- Clear the bitmap of an evicted line. -/
def SignatureTable.clear (block : Nat) (e : SignatureTable) : SignatureTable :=
  { e with
    l2Pf := Function.update e.l2Pf block false
    used := Function.update e.used block false }

def Spp.setWay (s : Spp) (cpu idx way : Nat) (e : SignatureTable) : Spp :=
  s.setSt cpu idx (Function.update (s.st cpu idx) way e)

/-- The part after the double check, for the way `way` of the page. -/
def request (fuel cpu addr ip way : Nat) (room : Nat → Bool) (s : Prefetcher) :
    Option (Prefetcher × List Cache.Callback) :=
  let block := blockOf addr
  let e := s.spp.st cpu (stIdx addr) way
  let wasUseful := e.l2Pf block && !e.used block
  let useful := if wasUseful then s.useful cpu + 1 else s.useful cpu
  (if wasUseful then (depthIndex (e.depth block)).map fun _ => () else some ()).bind fun _ =>
    (if e.signature ≠ 0 ∧ e.firstHit = false then
      pfCheck fuel (s.spp.pt cpu) (maxConf (s.issued cpu) useful) e.signature block .init
    else some .init).bind fun pf =>
      (issueAll addr ip room pf
        ⟨{ e with used := Function.update e.used block true }, 0, s.issued cpu, useful, []⟩).map
        fun x =>
          (⟨s.spp.setWay cpu (stIdx addr) way x.entry, Function.update s.issued cpu x.issued,
            Function.update s.useful cpu x.useful⟩, x.requests)

def operate (fuel cpu addr ip : Nat) (room : Nat → Bool) (s : Prefetcher) :
    Option (Prefetcher × List Cache.Callback) :=
  (l2StUpdate cpu addr s.spp).bind fun r =>
    (l2StCheck cpu addr r.1).bind fun way => request fuel cpu addr ip way room { s with spp := r.1 }

def cacheFill (cpu evictedAddr : Nat) (s : Prefetcher) : Option Prefetcher :=
  if evictedAddr / 2 ^ 6 = 0 then some s
  else
    match l2StCheck cpu evictedAddr s.spp with
    | none => some s
    | some way =>
      let block := blockOf evictedAddr
      let e := s.spp.st cpu (stIdx evictedAddr) way
      (if e.l2Pf block && !e.used block then (depthIndex (e.depth block)).map fun _ => ()
      else some ()).map fun _ =>
        { s with spp := s.spp.setWay cpu (stIdx evictedAddr) way (e.clear block) }

/-! ## The invariant -/

structure Prefetcher.Sound (s : Prefetcher) : Prop where
  spp : s.spp.Sound
  depth : ∀ cpu idx way block, (s.spp.st cpu idx way).depth block < l2cMshrSize

theorem Prefetcher.sound_init : Prefetcher.init.Sound :=
  ⟨Spp.sound_init, fun _ _ _ _ => by
    simp [Prefetcher.init, Spp.init, SignatureTable.init, l2cMshrSize]⟩

theorem depthIndex_some {depth : Nat} (h : depth < l2cMshrSize) :
    depthIndex depth = some depth := if_pos h

theorem maxConf_bounds (issued useful : Nat) :
    0 ≤ maxConf issued useful ∧ maxConf issued useful ≤ 99 := by
  unfold maxConf
  simp only
  generalize (if issued ≠ 0 then 100 * useful / issued else 99) = conf
  split <;> omega

/-- An entry that only differs in its bitmaps and depths. -/
structure SameKey (e e' : SignatureTable) : Prop where
  valid : e'.valid = e.valid
  tag : e'.tag = e.tag
  lru : e'.lru = e.lru
  signature : e'.signature = e.signature
  lastBlock : e'.lastBlock = e.lastBlock

theorem SameKey.refl (e : SignatureTable) : SameKey e e := ⟨rfl, rfl, rfl, rfl, rfl⟩

section SetWay

variable {set : Nat → SignatureTable} {way : Nat} {e : SignatureTable}

theorem SameKey.update (h : SameKey (set way) e) (i : Nat) :
    SameKey (set i) (Function.update set way e i) := by
  by_cases hi : i = way
  · subst hi
    simpa using h
  · simpa [hi] using SameKey.refl (set i)

theorem StSound.congr {set' : Nat → SignatureTable} (h : StSound set)
    (hsame : ∀ i, SameKey (set i) (set' i)) : StSound set' where
  ranks := by
    have hlru : (fun i => (set' i).lru) = fun i => (set i).lru := funext fun i => (hsame i).lru
    rw [hlru]
    exact h.ranks
  distinct := by
    intro v hv w hw
    rw [(hsame v).valid, (hsame w).valid, (hsame v).tag, (hsame w).tag]
    exact h.distinct v hv w hw
  signature_le := by
    intro i
    rw [(hsame i).signature]
    exact h.signature_le i
  lastBlock_le := by
    intro i
    rw [(hsame i).lastBlock]
    exact h.lastBlock_le i

end SetWay

theorem Prefetcher.Sound.setWay {s : Prefetcher} (h : s.Sound) {cpu idx way : Nat}
    {e : SignatureTable} (hsame : SameKey (s.spp.st cpu idx way) e)
    (hdepth : ∀ block, e.depth block < l2cMshrSize) (issued useful : Nat → Nat) :
    Prefetcher.Sound ⟨s.spp.setWay cpu idx way e, issued, useful⟩ where
  spp := Spp.setSt_sound h.spp ((h.spp.st cpu idx).congr fun i => hsame.update i)
  depth := by
    intro cpu' idx' way' block
    have hold := h.depth cpu' idx' way' block
    simp only [Spp.setWay, Spp.setSt]
    by_cases hcpu : cpu' = cpu
    · subst hcpu
      by_cases hidx : idx' = idx
      · subst hidx
        by_cases hway : way' = way
        · subst hway
          simpa using hdepth block
        · simpa [hway] using hold
      · simpa [hidx] using hold
    · simpa [hcpu] using hold

/-! ## The steps -/

theorem stHit_depth {cpu block way : Nat} {e : SignatureTable} {s : Spp} {m : StMatch}
    (h : stHit cpu block way e s = some m) : m.way = way ∧ m.entry.depth = e.depth := by
  unfold stHit at h
  simp only at h
  split at h
  · obtain ⟨dist, -, rfl⟩ := Option.map_eq_some_iff.mp h
    exact ⟨rfl, rfl⟩
  · split at h
    · cases h
      exact ⟨rfl, rfl⟩
    · obtain ⟨pt, -, h⟩ := Option.bind_eq_some_iff.mp h
      obtain ⟨dist, -, rfl⟩ := Option.map_eq_some_iff.mp h
      exact ⟨rfl, rfl⟩

theorem stMatch_depth {cpu addr : Nat} {s : Spp} {m : StMatch}
    (h : stMatch cpu addr s = some m) :
    m.entry.depth = (s.st cpu (stIdx addr) m.way).depth := by
  unfold stMatch at h
  simp only at h
  split at h
  · obtain ⟨hway, hdepth⟩ := stHit_depth h
    rw [hway, hdepth]
  · split at h
    · cases h
      rfl
    · obtain ⟨way, -, rfl⟩ := Option.map_eq_some_iff.mp h
      rfl

theorem l2StUpdate_kept {s : Prefetcher} (h : s.Sound) (cpu addr : Nat) :
    ∃ spp r way, l2StUpdate cpu addr s.spp = some (spp, r) ∧
      l2StCheck cpu addr spp = some way ∧ Prefetcher.Sound { s with spp := spp } := by
  obtain ⟨m, spp, hm, hupdate, hsound, -, hcheck, -⟩ := l2StUpdate_sound h.spp cpu addr
  refine ⟨spp, _, m.way, hupdate, hcheck, hsound, ?_⟩
  simp only [l2StUpdate, hm, Option.map_some, Option.some.injEq, Prod.mk.injEq] at hupdate
  obtain ⟨rfl, -⟩ := hupdate
  intro cpu' idx' way' block
  have hold := h.depth cpu' idx' way' block
  simp only [Spp.setSt]
  by_cases hcpu : cpu' = cpu
  · subst hcpu
    by_cases hidx : idx' = stIdx addr
    · subst hidx
      by_cases hway : way' = m.way
      · subst hway
        simpa [touchSt, stMatch_depth hm] using hold
      · simpa [touchSt, hway] using hold
    · simpa [hidx] using hold
  · simpa [hcpu] using hold

/-! ## The loop over the candidates -/

theorem blockOf_eq (addr : Nat) : blockOf addr = addr / 2 ^ 6 % 64 :=
  Nat.and_two_pow_sub_one_eq_mod (addr / 2 ^ 6) 6

/-- A candidate is a line of the page of the access. -/
theorem Candidate.page {addr : Nat} {c : PfBuffer} (h : Candidate (blockOf addr) c)
    (haddr : addr < 2 ^ 64) :
    Prefetch.pfAddress (addr / 2 ^ 6) c.delta / 2 ^ 12 = addr / 2 ^ 12 := by
  have hnonneg := h.block_nonneg
  have hle := h.block_le
  rw [blockOf_eq] at hnonneg hle
  refine (Prefetch.pfAddress_page rfl (by omega) (by omega) (by omega)).mpr ?_
  omega

/-- After `k` candidates. -/
structure IssueGood (addr : Nat) (e : SignatureTable) (k : Nat) (x : Issue) : Prop where
  same : SameKey e x.entry
  depth : ∀ block, x.entry.depth block < l2cMshrSize
  inflight : x.pfInflight ≤ k
  page : Prefetch.PageOf addr x.requests

section Issue

variable {addr ip k : Nat} {room : Nat → Bool} {e : SignatureTable} {c : PfBuffer} {x : Issue}

theorem IssueGood.count (h : IssueGood addr e k x) : IssueGood addr e k x.count := by
  unfold Issue.count
  split
  · exact ⟨h.same, h.depth, h.inflight, h.page⟩
  · exact ⟨h.same, h.depth, h.inflight, h.page⟩

/-- The depth of a candidate for the L2 is its place in the buffer at most. -/
theorem IssueGood.candidate (h : IssueGood addr e k x) (haddr : addr < 2 ^ 64)
    (hc : Candidate (blockOf addr) c) (hk : fillThreshold ≤ c.conf → k + 1 < l2cMshrSize) :
    IssueGood addr e (k + 1) (x.candidate addr ip room c) := by
  have hpage := hc.page haddr
  have hinflight := h.inflight
  have hrequest : ∀ level, Prefetch.PageOf addr (x.requests ++
      [.prefetchLine ip addr (Prefetch.pfAddress (addr / 2 ^ 6) c.delta) level 0]) :=
    fun level => h.page.concat hpage
  unfold Issue.candidate
  simp only
  split
  · exact ⟨h.same, h.depth, by omega, h.page⟩
  · split
    · rename_i hfill
      split
      · refine IssueGood.count ⟨?_, ?_, by simp only; omega, hrequest _⟩
        · exact ⟨h.same.valid, h.same.tag, h.same.lru, h.same.signature, h.same.lastBlock⟩
        · intro block
          have hroom := hk hfill
          by_cases hb : block = blockOf (Prefetch.pfAddress (addr / 2 ^ 6) c.delta)
          · subst hb
            simp only [Function.update_self]
            omega
          · simp only [Function.update_of_ne hb]
            exact h.depth block
      · exact ⟨h.same, h.depth, by simp only; omega, hrequest _⟩
    · split
      · split
        · exact ⟨h.same, h.depth, by simp only; omega, hrequest _⟩
        · exact ⟨h.same, h.depth, by simp only; omega, hrequest _⟩
      · exact ⟨h.same, h.depth, by omega, h.page⟩

theorem issues_kept {s : PfState} (hs : Good (blockOf addr) s) (haddr : addr < 2 ^ 64)
    (h : IssueGood addr e 0 x) {n : Nat} (hn : n ≤ s.numPf) :
    IssueGood addr e n
      ((List.range n).foldl (fun x i => x.candidate addr ip room (s.pfBuffer i)) x) := by
  induction n with
  | zero => exact h
  | succ n ih =>
    rw [List.range_succ, List.foldl_append]
    refine (ih (by omega)).candidate haddr (hs.candidate n hn) fun hfill => ?_
    have hfall := hs.falling n hn
    simp only [l2PtWay, fillThreshold] at hfall hfill
    simp only [l2cMshrSize]
    omega

theorem issueAll_good (ip : Nat) (room : Nat → Bool) {s : PfState} (hs : Good (blockOf addr) s)
    (haddr : addr < 2 ^ 64) (h : IssueGood addr e 0 x) :
    ∃ y, issueAll addr ip room s x = some y ∧ IssueGood addr e s.numPf y :=
  ⟨_, if_pos fun i hi => (hs.candidate i hi).delta_ne_zero, issues_kept hs haddr h le_rfl⟩

end Issue

theorem good_init (currBlock : Nat) : Good currBlock .init where
  numPf_le := Nat.zero_le _
  candidate := fun i hi => absurd hi (Nat.not_lt_zero i)
  falling := fun i hi => absurd hi (Nat.not_lt_zero i)

/-! ## Runs -/

section Run

variable {s : Prefetcher} {fuel cpu addr way : Nat}

/-- Without a signature nothing is issued. -/
theorem check_good (hpt : ∀ idx, Content (s.spp.pt cpu idx)) (hfuel : 100 < fuel)
    (block useful : Nat) (e : SignatureTable) :
    ∃ pf, (if e.signature ≠ 0 ∧ e.firstHit = false then
        pfCheck fuel (s.spp.pt cpu) (maxConf (s.issued cpu) useful) e.signature block .init
      else some .init) = some pf ∧ Good block pf := by
  obtain ⟨hlo, hhi⟩ := maxConf_bounds (s.issued cpu) useful
  split
  · obtain ⟨pf, hgood, hall⟩ := pfCheck_bounded hpt hlo hhi e.signature block
    exact ⟨pf, hall fuel hfuel, hgood⟩
  · exact ⟨_, rfl, good_init block⟩

theorem request_good (hpt : ∀ idx, Content (s.spp.pt cpu idx)) (hfuel : 100 < fuel)
    (haddr : addr < 2 ^ 64)
    (hdepth : ∀ block, (s.spp.st cpu (stIdx addr) way).depth block < l2cMshrSize) (ip : Nat)
    (room : Nat → Bool) :
    ∃ x k, IssueGood addr (s.spp.st cpu (stIdx addr) way) k x ∧
      request fuel cpu addr ip way room s =
        some (⟨s.spp.setWay cpu (stIdx addr) way x.entry, Function.update s.issued cpu x.issued,
          Function.update s.useful cpu x.useful⟩, x.requests) := by
  unfold request
  simp only [depthIndex_some (hdepth (blockOf addr)), Option.map_some, ite_self,
    Option.bind_some]
  generalize (if ((s.spp.st cpu (stIdx addr) way).l2Pf (blockOf addr) &&
    !(s.spp.st cpu (stIdx addr) way).used (blockOf addr)) = true then _ else _ : Nat) = useful
  obtain ⟨pf, hpf, hgood⟩ := check_good hpt hfuel (blockOf addr) useful
    (s.spp.st cpu (stIdx addr) way)
  rw [hpf, Option.bind_some]
  obtain ⟨x, hx, hissue⟩ := issueAll_good ip room hgood haddr
    (e := s.spp.st cpu (stIdx addr) way) (x := ⟨{ s.spp.st cpu (stIdx addr) way with
      used := Function.update (s.spp.st cpu (stIdx addr) way).used (blockOf addr) true },
      0, s.issued cpu, useful, []⟩) ⟨⟨rfl, rfl, rfl, rfl, rfl⟩, hdepth, le_rfl, by
        intro r hr
        cases hr⟩
  rw [hx, Option.map_some]
  exact ⟨x, pf.numPf, hissue, rfl⟩

theorem operate_sound (h : s.Sound) (hfuel : 100 < fuel) (haddr : addr < 2 ^ 64)
    (cpu ip : Nat) (room : Nat → Bool) :
    ∃ s' rs, operate fuel cpu addr ip room s = some (s', rs) ∧ s'.Sound ∧
      Prefetch.PageOf addr rs := by
  obtain ⟨spp, r, way, hupdate, hcheck, hsound⟩ := l2StUpdate_kept h cpu addr
  unfold operate
  rw [hupdate, Option.bind_some, hcheck, Option.bind_some]
  obtain ⟨x, k, hx, hrequest⟩ := request_good (fun idx => (hsound.spp.pt cpu idx).content) hfuel
    haddr (hsound.depth cpu (stIdx addr) way) ip room
  exact ⟨_, _, hrequest, hsound.setWay hx.same hx.depth _ _, hx.page⟩

theorem cacheFill_sound (h : s.Sound) (cpu evictedAddr : Nat) :
    ∃ s', cacheFill cpu evictedAddr s = some s' ∧ s'.Sound := by
  unfold cacheFill
  split
  · exact ⟨s, rfl, h⟩
  · split
    · exact ⟨s, rfl, h⟩
    · rename_i way _
      have hdepth := h.depth cpu (stIdx evictedAddr) way
      simp only [depthIndex_some (hdepth (blockOf evictedAddr)), Option.map_some, ite_self]
      have hsame : SameKey (s.spp.st cpu (stIdx evictedAddr) way)
          ((s.spp.st cpu (stIdx evictedAddr) way).clear (blockOf evictedAddr)) :=
        ⟨rfl, rfl, rfl, rfl, rfl⟩
      exact ⟨_, rfl, h.setWay hsame hdepth s.issued s.useful⟩

end Run

inductive Event where
  | operate (cpu addr ip : Nat) (room : Nat → Bool)
  | cacheFill (cpu evictedAddr : Nat)

/-- The address is a `uint64_t`. -/
def Event.Ok : Event → Prop
  | .operate _ addr _ _ => addr < 2 ^ 64
  | .cacheFill _ _ => True

def step (fuel : Nat) (s : Prefetcher) : Event → Option Prefetcher
  | .operate cpu addr ip room => (operate fuel cpu addr ip room s).map Prod.fst
  | .cacheFill cpu evictedAddr => cacheFill cpu evictedAddr s

theorem Prefetcher.Sound.step {s : Prefetcher} (h : s.Sound) {fuel : Nat} (hfuel : 100 < fuel)
    {e : Event} (he : e.Ok) : ∃ s', step fuel s e = some s' ∧ s'.Sound := by
  cases e with
  | operate cpu addr ip room =>
    obtain ⟨s', rs, hop, hsound, -⟩ := operate_sound h hfuel he cpu ip room
    exact ⟨s', by simp only [Kpcp.step, hop, Option.map_some], hsound⟩
  | cacheFill cpu evictedAddr => exact cacheFill_sound h cpu evictedAddr

end Kpcp
end ChampSim
