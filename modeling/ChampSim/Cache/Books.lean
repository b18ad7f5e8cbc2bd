import ChampSim.Cache.Serve
import ChampSim.Cache.Merge
import ChampSim.Lib.Tally

/-!
# ChampSim.Cache.Books

What a cache owes to the levels above, and what it waits for.

* `Fits`    — the fill level and the marks of a request that passes through this cache.
* `owed`    — how many levels above get the data of an entry.
* `Joins`   — what a merge leaves in the entry; it owes no more than entry and request did.
* `mshrOwes`, `flies` — for one address, what the MSHR owes and how many misses are in flight.
* `Tracked` — the MSHR holds an address once, and the next entry to be filled has been answered.
* `addMshr_books`, `mergeMshr_books`, `returnData_books`, `removeMshr_books` — its operations.
-/

namespace ChampSim
namespace Cache

open Lib

variable {ρ : Type} {c : Config}

/-! ## Requests -/

structure Fits (c : Config) (p : Packet) : Prop where
  level : p.fillLevel = fillL1 ∨ p.fillLevel = fillL2 ∨ p.fillLevel = fillLlc
  marked : p.fillL1i = true ∨ p.fillL1d = true ↔ p.fillLevel = fillL1
  icache : c.cacheType = .itlb ∨ c.cacheType = .l1i → p.fillL1d = false
  dcache : c.cacheType = .dtlb ∨ c.cacheType = .l1d → p.fillL1i = false

def owed (c : Config) (p : Packet) : Nat :=
  if p.fillLevel < c.fillLevel then
    if c.fillLevel = fillL2 then p.fillL1i.toNat + p.fillL1d.toNat else 1
  else 0

/-- What `p` owes at the address `a`. -/
def weigh (c : Config) (a : Nat) (p : Packet) : Nat := if p.address = a then owed c p else 0

def inFlight (a : Nat) (p : Packet) : Nat :=
  if p.address = a ∧ p.returned = .inflight then 1 else 0

theorem inFlight_le_one (a : Nat) (p : Packet) : inFlight a p ≤ 1 := by
  unfold inFlight
  split <;> omega

theorem Fits.same {p q : Packet} (h : Fits c p) (hq : SameRequest p q) : Fits c q := by
  obtain ⟨_, _, _, _, _, _, _, rfl⟩ := hq
  exact ⟨h.level, h.marked, h.icache, h.dcache⟩

theorem weigh_same {p q : Packet} (hq : SameRequest p q) (a : Nat) : weigh c a q = weigh c a p := by
  obtain ⟨_, _, _, _, _, _, _, rfl⟩ := hq
  rfl

theorem weigh_of_level {p : Packet} (h : c.fillLevel ≤ p.fillLevel) (a : Nat) :
    weigh c a p = 0 := by
  unfold weigh owed
  rw [if_neg (Int.not_lt.mpr h), ite_self]

/-- In the second level the marks tell, and only a request of the first level has any. -/
theorem owed_marks {p : Packet} (h : Fits c p) (hc : c.fillLevel = fillL2) :
    owed c p = p.fillL1i.toNat + p.fillL1d.toNat := by
  unfold owed
  rw [if_pos hc]
  split
  · rfl
  · rename_i hlevel
    have hne : p.fillLevel ≠ fillL1 := by
      rw [hc] at hlevel
      intro hp
      rw [hp] at hlevel
      exact hlevel (by decide)
    obtain ⟨hi, hd⟩ := not_or.mp (mt h.marked.mp hne)
    rw [Bool.not_eq_true] at hi hd
    rw [hi, hd]
    rfl

/-! ## Merged requests -/

/-- `r` takes the place of `e` when `p` is merged into it. -/
def Joins (p e r : Packet) : Prop :=
  r.address = e.address ∧ (Keeps p e r ∨
    r.fillL1i = p.fillL1i ∧ r.fillL1d = p.fillL1d ∧ r.fillLevel = p.fillLevel)

theorem Joins.fits {p e r : Packet} (h : Joins p e r) (hp : Fits c p) (he : Fits c e) :
    Fits c r := by
  obtain ⟨-, ⟨hi, hd, hl⟩ | ⟨hi, hd, hl⟩⟩ := h
  · have hlevel := hp.level
    have hlevel' := he.level
    simp only [fillL1, fillL2, fillLlc] at hlevel hlevel'
    refine ⟨?_, ?_, fun hc => ?_, fun hc => ?_⟩
    · simp only [fillL1, fillL2, fillLlc]
      omega
    · have hmarked := hp.marked
      have hmarked' := he.marked
      rw [hi, hd, hl]
      simp only [fillL1, Bool.or_eq_true] at hmarked hmarked' ⊢
      constructor
      · rintro ((h | h) | h | h)
        · have := hmarked'.mp (.inl h); omega
        · have := hmarked.mp (.inl h); omega
        · have := hmarked'.mp (.inr h); omega
        · have := hmarked.mp (.inr h); omega
      · intro hmin
        by_cases he1 : e.fillLevel = 1
        · rcases hmarked'.mpr he1 with h | h
          · exact .inl (.inl h)
          · exact .inr (.inl h)
        · rcases hmarked.mpr (by omega) with h | h
          · exact .inl (.inr h)
          · exact .inr (.inr h)
    · rw [hd, hp.icache hc, he.icache hc]
      rfl
    · rw [hi, hp.dcache hc, he.dcache hc]
      rfl
  · exact ⟨hl ▸ hp.level, by rw [hi, hd, hl]; exact hp.marked, fun hc => hd ▸ hp.icache hc,
      fun hc => hi ▸ hp.dcache hc⟩

theorem toNat_or_le (a b : Bool) : (a || b).toNat ≤ a.toNat + b.toNat := by
  cases a <;> cases b <;> decide

theorem Joins.owed_le {p e r : Packet} (h : Joins p e r) (hp : Fits c p) (he : Fits c e) :
    owed c r ≤ owed c e + owed c p := by
  by_cases hc : c.fillLevel = fillL2
  · rw [owed_marks hp hc, owed_marks he hc, owed_marks (h.fits hp he) hc]
    obtain ⟨-, ⟨hi, hd, -⟩ | ⟨hi, hd, -⟩⟩ := h
    · have := toNat_or_le e.fillL1i p.fillL1i
      have := toNat_or_le e.fillL1d p.fillL1d
      rw [hi, hd]
      omega
    · rw [hi, hd]
      omega
  · unfold owed
    simp only [if_neg hc]
    obtain ⟨-, ⟨-, -, hl⟩ | ⟨-, -, hl⟩⟩ := h
    · rw [hl]
      split
      · rename_i hlt
        rcases min_lt_iff.mp hlt with hlt | hlt
        · rw [if_pos hlt]
          omega
        · rw [if_pos hlt]
          omega
      · omega
    · rw [hl]
      omega

/-- The merged entry owes no more at any address than the entry and the request did. -/
theorem Joins.weigh_le {p e r : Packet} (h : Joins p e r) (hp : Fits c p) (he : Fits c e)
    (ha : e.address = p.address) (a : Nat) : weigh c a r ≤ weigh c a e + weigh c a p := by
  unfold weigh
  rw [h.1, ← ha]
  split
  · exact h.owed_le hp he
  · omega

theorem joins_mergePq (p e : Packet) : Joins p e (mergePq p e) :=
  ⟨rfl, .inl ⟨rfl, rfl, (keeps_mergeFill p e).2.2⟩⟩

theorem joins_mergePrefetch (p e : Packet) : Joins p e (mergePrefetch p e) :=
  ⟨rfl, .inl (keeps_mergeFill p e)⟩

/-- Requests of a level above are all of the first level. -/
theorem joins_mergeRq {p e : Packet} (h : p.fillLevel = e.fillLevel) : Joins p e (mergeRq p e) := by
  refine ⟨mergeRq_address p e, .inl ⟨?_, ?_, ?_⟩⟩
  · unfold mergeRq
    dsimp only
    split
    · rfl
    · split <;> rfl
  · unfold mergeRq
    dsimp only
    split
    · rfl
    · split <;> rfl
  · have hlevel : (mergeRq p e).fillLevel = e.fillLevel := by
      unfold mergeRq
      dsimp only
      split
      · rfl
      · split <;> rfl
    rw [hlevel, h, min_self]

theorem Joins.upgrade {p e x : Packet} (h : Joins p e x) (ha : e.address = p.address) :
    Joins p e (upgrade p x) := by
  unfold Cache.upgrade
  split
  · exact ⟨ha.symm, .inr ⟨rfl, rfl, rfl⟩⟩
  · exact h

theorem joins_mergeWriteback {p e : Packet} (ha : e.address = p.address) :
    Joins p e (mergeWriteback p e) :=
  Joins.upgrade ⟨rfl, .inl (keeps_mergeFill p e)⟩ ha

theorem joins_mergeRead {p e : Packet} (ha : e.address = p.address) :
    Joins p e (mergeRead p e) := by
  obtain ⟨haddress, -, hi, hd, hl⟩ := mergeConsumers_frame p e
  refine Joins.upgrade ⟨haddress, .inl ⟨?_, ?_, ?_⟩⟩ ha
  · rw [(keeps_mergeFill p _).1, hi]
  · rw [(keeps_mergeFill p _).2.1, hd]
  · rw [(keeps_mergeFill p _).2.2, hl]

theorem upgrade_returned (p x : Packet) : (upgrade p x).returned = x.returned := by
  unfold upgrade
  split <;> rfl

theorem mergeWriteback_returned (p e : Packet) : (mergeWriteback p e).returned = e.returned :=
  upgrade_returned p _

theorem mergeRead_returned (p e : Packet) : (mergeRead p e).returned = e.returned := by
  unfold mergeRead
  rw [upgrade_returned]
  show (mergeConsumers p e).returned = e.returned
  unfold mergeConsumers
  split
  · dsimp only
    split <;> split <;> rfl
  · split
    · dsimp only
      split <;> rfl
    · dsimp only
      split <;> rfl

/-! ## The MSHR -/

def slotsOf (c : Config) (q : PacketQueue) (i : Nat) : Option Packet :=
  if i < c.mshrSize ∧ (q.entry i).address ≠ 0 then some (q.entry i) else none

/-- What the entries of the MSHR owe at the address `a`. -/
def mshrOwes (c : Config) (a : Nat) (q : PacketQueue) : Nat :=
  slots (weigh c a) c.mshrSize (slotsOf c q)

/-- The misses of `a` in flight. -/
def flies (c : Config) (a : Nat) (q : PacketQueue) : Nat :=
  slots (inFlight a) c.mshrSize (slotsOf c q)

/-- `handle_fill` takes nothing, or an entry that has been answered. -/
def Pointer (c : Config) (q : PacketQueue) : Prop :=
  q.nextFillCycle = u64Max ∨ q.nextFillIndex = c.mshrSize ∨
    q.nextFillIndex < c.mshrSize ∧ (q.entry q.nextFillIndex).returned = .completed

structure Tracked (c : Config) (q : PacketQueue) : Prop where
  fits : ∀ i e, slotsOf c q i = some e → Fits c e
  distinct : ∀ i j e f, slotsOf c q i = some e → slotsOf c q j = some f → e.address = f.address →
    i = j
  completed : ∀ i < c.mshrSize, (q.entry i).returned = .completed → (q.entry i).address ≠ 0
  pointer : Pointer c q

section Mshr

variable {q q' : PacketQueue} {i : Nat} {p e : Packet}

theorem slotsOf_some :
    slotsOf c q i = some e ↔ i < c.mshrSize ∧ (q.entry i).address ≠ 0 ∧ q.entry i = e := by
  unfold slotsOf
  split
  · rename_i h
    simp [h]
  · rename_i h
    simp only [reduceCtorEq, false_iff]
    exact fun ⟨hi, h0, _⟩ => h ⟨hi, h0⟩

theorem slotsOf_write (hi : i < c.mshrSize) (hq : q'.entry = Function.update q.entry i p) :
    slotsOf c q' = Function.update (slotsOf c q) i (if p.address ≠ 0 then some p else none) := by
  funext j
  unfold slotsOf
  rw [hq]
  by_cases hj : j = i
  · subst hj
    simp [hi]
  · simp [hj]

theorem Tracked.write (h : Tracked c q) (hi : i < c.mshrSize)
    (hq : q'.entry = Function.update q.entry i p) (hfits : p.address ≠ 0 → Fits c p)
    (hother : p.address ≠ 0 → ∀ j f, j ≠ i → slotsOf c q j = some f → f.address ≠ p.address)
    (hcompleted : p.returned = .completed → p.address ≠ 0) (hpointer : Pointer c q') :
    Tracked c q' := by
  have hslot : ∀ {j f}, slotsOf c q' j = some f →
      j = i ∧ p.address ≠ 0 ∧ p = f ∨ j ≠ i ∧ slotsOf c q j = some f := by
    intro j f hf
    rw [slotsOf_write hi hq] at hf
    by_cases hj : j = i
    · subst hj
      rw [Function.update_self] at hf
      split at hf
      · rename_i h0
        exact .inl ⟨rfl, h0, Option.some.inj hf⟩
      · cases hf
    · rw [Function.update_of_ne hj] at hf
      exact .inr ⟨hj, hf⟩
  refine ⟨?_, ?_, ?_, hpointer⟩
  · intro j f hf
    rcases hslot hf with ⟨-, h0, rfl⟩ | ⟨-, hf⟩
    · exact hfits h0
    · exact h.fits j f hf
  · intro j k f g hf hg ha
    rcases hslot hf with ⟨rfl, h0, rfl⟩ | ⟨hj, hf⟩
    · rcases hslot hg with ⟨rfl, -, -⟩ | ⟨hk, hg⟩
      · rfl
      · exact absurd ha.symm (hother h0 k g hk hg)
    · rcases hslot hg with ⟨rfl, h0, rfl⟩ | ⟨-, hg⟩
      · exact absurd ha (hother h0 j f hj hf)
      · exact h.distinct j k f g hf hg ha
  · intro j hj
    rw [hq]
    by_cases hji : j = i
    · subst hji
      rw [Function.update_self]
      exact hcompleted
    · rw [Function.update_of_ne hji]
      exact h.completed j hj

/-- The entry at the pointer stays completed. -/
theorem Tracked.pointer_write (h : Tracked c q)
    (hq : q'.entry = Function.update q.entry i p)
    (hindex : q'.nextFillIndex = q.nextFillIndex) (hcycle : q'.nextFillCycle = q.nextFillCycle)
    (hp : i < c.mshrSize → (q.entry i).returned = .completed → p.returned = .completed) :
    Pointer c q' := by
  unfold Pointer
  rw [hindex, hcycle]
  rcases h.pointer with h | h | ⟨hlt, hdone⟩
  · exact .inl h
  · exact .inr (.inl h)
  · refine .inr (.inr ⟨hlt, ?_⟩)
    rw [hq]
    by_cases hi : q.nextFillIndex = i
    · rw [hi, Function.update_self]
      exact hp (hi ▸ hlt) (hi ▸ hdone)
    · rw [Function.update_of_ne hi]
      exact hdone

theorem updateFillCycle_pointer (c : Config) (q : PacketQueue) :
    Pointer c (updateFillCycle c q) := by
  unfold Pointer updateFillCycle
  dsimp only
  cases h : (scanMin (fun i => (q.entry i).returned == .completed)
      (fun i => (q.entry i).eventCycle) u64Max c.mshrSize).2 with
  | none => exact .inr (.inl rfl)
  | some i =>
    obtain ⟨hi, hp, -⟩ := scanMin_some h
    exact .inr (.inr ⟨hi, by simpa using hp⟩)

theorem slots_write (w : Packet → Nat) (hi : i < c.mshrSize)
    (hq : q'.entry = Function.update q.entry i p) (h0 : p.address ≠ 0) :
    slots w c.mshrSize (slotsOf c q') + (slotsOf c q i).elim 0 w =
      slots w c.mshrSize (slotsOf c q) + w p := by
  rw [slotsOf_write hi hq, if_pos h0]
  exact slots_update hi (some p)

/-- An entry is answered. -/
theorem Tracked.answered (h : Tracked c q) (hi : i < c.mshrSize) (h0 : (q.entry i).address ≠ 0)
    (he : SameRequest (q.entry i) e) (hdone : e.returned = .completed)
    (hq : q'.entry = Function.update q.entry i e) (hpointer : Pointer c q') :
    Tracked c q' ∧ (∀ a, mshrOwes c a q' = mshrOwes c a q) ∧
      ∀ a, flies c a q' + inFlight a (q.entry i) = flies c a q := by
  have hsome : slotsOf c q i = some (q.entry i) := slotsOf_some.mpr ⟨hi, h0, rfl⟩
  have he0 : e.address ≠ 0 := he.address ▸ h0
  refine ⟨h.write hi hq (fun _ => (h.fits i _ hsome).same he) ?_ (fun _ => he0) hpointer,
    fun a => ?_, fun a => ?_⟩
  · intro _ j f hj hf hfa
    exact hj (h.distinct j i f _ hf hsome (hfa.trans he.address))
  · have hsum := slots_write (weigh c a) hi hq he0
    rw [hsome, weigh_same he] at hsum
    simp only [Option.elim_some] at hsum
    unfold mshrOwes
    omega
  · have hsum := slots_write (inFlight a) hi hq he0
    have hzero : inFlight a e = 0 := by
      unfold inFlight
      rw [hdone, if_neg fun ⟨_, hr⟩ => nomatch hr]
    rw [hsome, hzero] at hsum
    exact hsum

theorem flies_le_one (h : Tracked c q) (a : Nat) : flies c a q ≤ 1 := by
  refine slots_le_one (inFlight_le_one a) fun i j e f he hf hwe hwf => ?_
  refine h.distinct i j e f he hf ?_
  unfold inFlight at hwe hwf
  split at hwe
  · rename_i hae
    split at hwf
    · rename_i haf
      exact hae.1.trans haf.1.symm
    · omega
  · omega

/-- One entry for each miss in flight. -/
theorem flies_pos {a : Nat} (h : 0 < flies c a q) :
    ∃ i < c.mshrSize, (q.entry i).address ≠ 0 ∧ (q.entry i).address = a ∧
      (q.entry i).returned = .inflight := by
  obtain ⟨i, hi, e, he, hw⟩ := slots_pos h
  obtain ⟨-, h0, rfl⟩ := slotsOf_some.mp he
  unfold inFlight at hw
  split at hw
  · rename_i ha
    exact ⟨i, hi, h0, ha.1, ha.2⟩
  · omega

end Mshr

section MshrOps

variable {s s' : State ρ} {env : Env} {p : Packet} {i : Nat}

theorem checkMshr_fresh (h : checkMshr c s p.address = none) {j : Nat} {f : Packet}
    (hf : slotsOf c s.mshr j = some f) : f.address ≠ p.address := by
  obtain ⟨hj, -, rfl⟩ := slotsOf_some.mp hf
  have := PacketQueue.findFrom_eq_none.mp h j (Nat.zero_le j) hj
  simpa using this

theorem flies_fresh (h : checkMshr c s p.address = none) : flies c p.address s.mshr = 0 := by
  refine slots_eq_zero fun j _ f hf => ?_
  unfold inFlight
  rw [if_neg fun ha => checkMshr_fresh h hf ha.1]

theorem addMshr_books (h : Tracked c s.mshr) (hshape : MshrShape c s.mshr)
    (hroom : s.mshr.occupancy < c.mshrSize) (hfresh : checkMshr c s p.address = none)
    (hp : Fits c p) (h0 : p.address ≠ 0) :
    ∃ q, addMshr c s p = { s with mshr := q } ∧ Tracked c q ∧
      (∀ a, mshrOwes c a q = mshrOwes c a s.mshr + weigh c a p) ∧
      ∀ a, flies c a q = flies c a s.mshr + if p.address = a then 1 else 0 := by
  unfold addMshr
  cases hc : checkMshr c s 0 with
  | none =>
    rw [hshape.occupancy] at hroom
    obtain ⟨i, hi, hfree⟩ := exists_of_count_lt hroom
    have := PacketQueue.findFrom_eq_none.mp hc i (Nat.zero_le i) hi
    simp only [beq_eq_false_iff_ne] at this
    exact absurd this hfree
  | some i =>
    obtain ⟨hi, hfree⟩ := checkMshr_some hc
    have hnone : slotsOf c s.mshr i = none := by simp [slotsOf, hfree]
    refine ⟨_, rfl, h.write (p := { p with returned := .inflight }) hi rfl (fun _ => ?_) ?_ ?_ ?_,
      fun a => ?_, fun a => ?_⟩
    · exact ⟨hp.level, hp.marked, hp.icache, hp.dcache⟩
    · exact fun _ j f _ hf => checkMshr_fresh hfresh hf
    · exact fun hr => nomatch hr
    · refine h.pointer_write rfl rfl rfl fun hi hdone => ?_
      exact absurd hfree (h.completed i hi hdone)
    · have := slots_write (weigh c a) hi
        (s.mshr.setEntry_entry i { p with returned := .inflight }) h0
      rw [hnone] at this
      exact this
    · have := slots_write (inFlight a) hi
        (s.mshr.setEntry_entry i { p with returned := .inflight }) h0
      rw [hnone] at this
      simp only [inFlight, and_true] at this
      exact this

/-- A request is merged into the entry of its address. -/
theorem mergeMshr_books {merge : Packet → Packet → Packet} (h : Tracked c s.mshr)
    (hm : ∀ e, e.address = p.address →
      Joins p e (merge p e) ∧ (merge p e).returned = e.returned)
    (hi : checkMshr c s p.address = some i) (hp : Fits c p) (h0 : p.address ≠ 0) :
    ∃ q, mergeMshr s i merge p = { s with mshr := q } ∧ Tracked c q ∧
      (∀ a, mshrOwes c a q ≤ mshrOwes c a s.mshr + weigh c a p) ∧
      ∀ a, flies c a q = flies c a s.mshr := by
  obtain ⟨hlt, ha⟩ := checkMshr_some hi
  obtain ⟨hjoins, hreturned⟩ := hm _ ha
  have hsome : slotsOf c s.mshr i = some (s.mshr.entry i) :=
    slotsOf_some.mpr ⟨hlt, ha ▸ h0, rfl⟩
  have hfits := h.fits i _ hsome
  have haddress : (merge p (s.mshr.entry i)).address ≠ 0 := by
    rw [hjoins.1, ha]
    exact h0
  refine ⟨_, rfl, h.write hlt rfl (fun _ => hjoins.fits hp hfits) ?_ ?_ ?_, fun a => ?_,
    fun a => ?_⟩
  · intro _ j f hj hf hfa
    exact hj (h.distinct j i f _ hf hsome (hfa.trans hjoins.1))
  · exact fun _ => haddress
  · refine h.pointer_write rfl rfl rfl fun _ hdone => ?_
    rw [hreturned]
    exact hdone
  · have := slots_write (weigh c a) hlt
      (s.mshr.setEntry_entry i (merge p (s.mshr.entry i))) haddress
    have := hjoins.weigh_le hp hfits ha a
    rw [hsome] at *
    simp only [Option.elim_some] at *
    unfold mshrOwes
    omega
  · have hsum := slots_write (inFlight a) hlt
      (s.mshr.setEntry_entry i (merge p (s.mshr.entry i))) haddress
    have hsame : inFlight a (merge p (s.mshr.entry i)) = inFlight a (s.mshr.entry i) := by
      unfold inFlight
      rw [hjoins.1, hreturned]
    rw [hsome, hsame] at hsum
    simp only [Option.elim_some] at hsum
    unfold flies
    omega

theorem returnData_books (h : Tracked c s.mshr) (h0 : p.address ≠ 0)
    (hs' : returnData c env s p = some s') :
    ∃ q, s' = { s with mshr := q } ∧ Tracked c q ∧
      (∀ a, mshrOwes c a q = mshrOwes c a s.mshr) ∧
      (∀ a, flies c a q ≤ flies c a s.mshr) ∧
      ∀ a, flies c a s.mshr ≤ flies c a q + if p.address = a then 1 else 0 := by
  obtain ⟨i, hi, rfl⟩ := Option.map_eq_some_iff.mp hs'
  obtain ⟨hlt, ha⟩ := checkMshr_some hi
  obtain ⟨htracked, howes, hflies⟩ := h.answered (i := i) (e := { s.mshr.entry i with
      returned := .completed
      data := p.data
      pfMetadata := p.pfMetadata
      eventCycle := env.delay c p.cpu (s.mshr.entry i).eventCycle }) hlt (ha ▸ h0)
    ⟨_, _, _, _, _, _, _, rfl⟩ rfl rfl (updateFillCycle_pointer c
      { s.mshr.setEntry i { s.mshr.entry i with
          returned := .completed
          data := p.data
          pfMetadata := p.pfMetadata
          eventCycle := env.delay c p.cpu (s.mshr.entry i).eventCycle } with
        numReturned := s.mshr.numReturned + 1 })
  refine ⟨_, rfl, htracked, howes, fun a => ?_, fun a => ?_⟩
  · exact Nat.le.intro (hflies a)
  · have hold : inFlight a (s.mshr.entry i) ≤ if p.address = a then 1 else 0 := by
      unfold inFlight
      rw [ha]
      split
      · rename_i h
        rw [if_pos h.1]
      · omega
    exact (hflies a).symm.le.trans (Nat.add_le_add_left hold _)

/-- The filled entry is no longer in flight. -/
theorem removeMshr_books (h : Tracked c s.mshr) (hlt : i < c.mshrSize)
    (h0 : (s.mshr.entry i).address ≠ 0) (hdone : (s.mshr.entry i).returned = .completed)
    (hs' : removeMshr c s i = some s') :
    ∃ q, s' = { s with mshr := q } ∧ Tracked c q ∧
      (∀ a, mshrOwes c a q + weigh c a (s.mshr.entry i) = mshrOwes c a s.mshr) ∧
      ∀ a, flies c a q = flies c a s.mshr := by
  obtain ⟨q, hq, rfl⟩ := Option.map_eq_some_iff.mp hs'
  have hsome : slotsOf c s.mshr i = some (s.mshr.entry i) := slotsOf_some.mpr ⟨hlt, h0, rfl⟩
  have hentry : (updateFillCycle c { q with numReturned := q.numReturned - 1 }).entry =
      Function.update s.mshr.entry i (Packet.empty c.numCpus) := by
    unfold PacketQueue.removeQueue at hq
    split at hq
    · cases hq
    · cases hq
      rfl
  have hslots := slotsOf_write hlt hentry
  rw [if_neg (not_not_intro (Packet.empty_address c.numCpus))] at hslots
  refine ⟨_, rfl, h.write hlt hentry (fun h => absurd rfl h) (fun h => absurd rfl h)
    (fun hr => nomatch hr) (updateFillCycle_pointer c _), fun a => ?_, fun a => ?_⟩
  · have := slots_update (w := weigh c a) (m := slotsOf c s.mshr) hlt none
    rw [← hslots, hsome] at this
    exact this
  · have := slots_update (w := inFlight a) (m := slotsOf c s.mshr) hlt none
    have hzero : inFlight a (s.mshr.entry i) = 0 := by
      unfold inFlight
      rw [if_neg]
      rw [hdone]
      exact fun ⟨_, hr⟩ => nomatch hr
    rw [← hslots, hsome] at this
    simp only [Option.elim_some, hzero, Option.elim_none] at this
    exact this

end MshrOps

end Cache
end ChampSim
