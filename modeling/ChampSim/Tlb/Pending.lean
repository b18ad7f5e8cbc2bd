import ChampSim.Tlb.Translate

/-!
# ChampSim.Tlb.Pending

The requests of a TLB, counted.

* `Side`     — the two TLBs of the first level. A request that passes through the STLB has the mark
  of each that waits for it.
* `pending`  — the requests for a page in the STLB that one side will be answered by.
* `Counted`  — `num_returned` counts the answered entries.
* `addMshr_slots`, `returnData_slots`, `removeMshr_slots`, `mergeMshr_slots` — what the operations of
  the MSHR add to a sum over its entries, and what they take from it.
* `Passes`   — a handler of a TLB keeps its requests, hands one up or asks for one.
-/

namespace ChampSim
namespace Cache

open Lib

variable {ρ : Type} {c : Config}

inductive Side where
  | icache
  | dcache
deriving DecidableEq

def Side.mark : Side → Packet → Bool
  | .icache, p => p.fillL1i
  | .dcache, p => p.fillL1d

def wants (side : Side) (a : Nat) (p : Packet) : Nat :=
  if p.address = a ∧ side.mark p = true then 1 else 0

def pending (c : Config) (side : Side) (a : Nat) (b : Books) : Nat :=
  tally (wants side a) b.rq + slots (wants side a) c.mshrSize (slotsOf c b.mshr)

def finished (p : Packet) : Nat := if p.returned = .completed then 1 else 0

def Counted (c : Config) (q : PacketQueue) : Prop :=
  q.numReturned = slots finished c.mshrSize (slotsOf c q)

theorem Side.mark_same {p q : Packet} (h : SameRequest p q) (side : Side) :
    side.mark q = side.mark p := by
  obtain ⟨_, _, _, _, _, _, _, rfl⟩ := h
  cases side <;> rfl

theorem wants_le_one (side : Side) (a : Nat) (p : Packet) : wants side a p ≤ 1 := by
  unfold wants
  split <;> omega

theorem wants_same {p q : Packet} (h : SameRequest p q) (side : Side) (a : Nat) :
    wants side a q = wants side a p := by
  unfold wants
  rw [h.address, side.mark_same h]

/-! ## The MSHR -/

section Mshr

variable {s s' : State ρ} {env : Env} {p : Packet} {i : Nat}

theorem addMshr_slots (hshape : MshrShape c s.mshr) (hroom : s.mshr.occupancy < c.mshrSize)
    (h0 : p.address ≠ 0) :
    ∃ q, addMshr c s p = { s with mshr := q } ∧ q.numReturned = s.mshr.numReturned ∧
      ∀ w, slots w c.mshrSize (slotsOf c q) =
        slots w c.mshrSize (slotsOf c s.mshr) + w { p with returned := .inflight } := by
  unfold addMshr
  cases hc : checkMshr c s 0 with
  | none =>
    rw [hshape.occupancy] at hroom
    obtain ⟨i, hi, hfree⟩ := exists_of_count_lt hroom
    have := PacketQueue.findFrom_eq_none.mp hc i (Nat.zero_le i) hi
    simp only [beq_eq_false_iff_ne] at this
    exact absurd this hfree
  | some i =>
    obtain ⟨hi, hfree⟩ := checkMshr_some hc
    have hnone : slotsOf c s.mshr i = none := by simp [slotsOf, hfree]
    refine ⟨_, rfl, rfl, fun w => ?_⟩
    have hsum := slots_write w hi (s.mshr.setEntry_entry i { p with returned := .inflight }) h0
    rw [hnone] at hsum
    exact hsum

/-- The entry of the address is answered. -/
theorem returnData_slots (h0 : p.address ≠ 0) (hs' : returnData c env s p = some s') :
    ∃ q i e, s' = { s with mshr := q } ∧ q.numReturned = s.mshr.numReturned + 1 ∧
      i < c.mshrSize ∧ (s.mshr.entry i).address = p.address ∧ SameRequest (s.mshr.entry i) e ∧
      e.returned = .completed ∧
      ∀ w, slots w c.mshrSize (slotsOf c q) + w (s.mshr.entry i) =
        slots w c.mshrSize (slotsOf c s.mshr) + w e := by
  obtain ⟨i, hi, rfl⟩ := Option.map_eq_some_iff.mp hs'
  obtain ⟨hlt, ha⟩ := checkMshr_some hi
  have hsome : slotsOf c s.mshr i = some (s.mshr.entry i) := slotsOf_some.mpr ⟨hlt, ha ▸ h0, rfl⟩
  refine ⟨_, i, { s.mshr.entry i with
    returned := .completed
    data := p.data
    pfMetadata := p.pfMetadata
    eventCycle := env.delay c p.cpu (s.mshr.entry i).eventCycle }, rfl, rfl, hlt, ha,
    ⟨_, _, _, _, _, _, _, rfl⟩, rfl, fun w => ?_⟩
  have hsum := slots_write w hlt (s.mshr.setEntry_entry i { s.mshr.entry i with
    returned := .completed
    data := p.data
    pfMetadata := p.pfMetadata
    eventCycle := env.delay c p.cpu (s.mshr.entry i).eventCycle }) (show _ from ha ▸ h0)
  rw [hsome] at hsum
  exact hsum

theorem removeMshr_slots (hlt : i < c.mshrSize) (h0 : (s.mshr.entry i).address ≠ 0)
    (hs' : removeMshr c s i = some s') :
    ∃ q, s' = { s with mshr := q } ∧ q.numReturned = s.mshr.numReturned - 1 ∧
      ∀ w, slots w c.mshrSize (slotsOf c q) + w (s.mshr.entry i) =
        slots w c.mshrSize (slotsOf c s.mshr) := by
  obtain ⟨q, hq, rfl⟩ := Option.map_eq_some_iff.mp hs'
  have hsome : slotsOf c s.mshr i = some (s.mshr.entry i) := slotsOf_some.mpr ⟨hlt, h0, rfl⟩
  unfold PacketQueue.removeQueue at hq
  split at hq
  · cases hq
  · cases hq
    refine ⟨_, rfl, rfl, fun w => ?_⟩
    have hslots : slotsOf c (updateFillCycle c { s.mshr with
        entry := Function.update s.mshr.entry i (Packet.empty c.numCpus)
        occupancy := s.mshr.occupancy - 1
        head := Lib.Ring.next s.mshr.size s.mshr.head
        numReturned := s.mshr.numReturned - 1 }) = _ := slotsOf_write hlt rfl
    rw [if_neg (not_not_intro (Packet.empty_address c.numCpus))] at hslots
    have hsum := slots_update (w := w) (m := slotsOf c s.mshr) hlt none
    rw [← hslots, hsome] at hsum
    exact hsum

theorem mergeMshr_slots {merge : Packet → Packet → Packet} (hlt : i < c.mshrSize)
    (h0 : (s.mshr.entry i).address ≠ 0) (hm0 : (merge p (s.mshr.entry i)).address ≠ 0)
    (w : Packet → Nat) :
    slots w c.mshrSize (slotsOf c (mergeMshr s i merge p).mshr) + w (s.mshr.entry i) =
      slots w c.mshrSize (slotsOf c s.mshr) + w (merge p (s.mshr.entry i)) := by
  have hsome : slotsOf c s.mshr i = some (s.mshr.entry i) := slotsOf_some.mpr ⟨hlt, h0, rfl⟩
  have hsum := slots_write w hlt (s.mshr.setEntry_entry i (merge p (s.mshr.entry i))) hm0
  rw [hsome] at hsum
  exact hsum

/-- An answer to a miss in flight. -/
theorem returnData_inFlight (h : Tracked c s.mshr) (h0 : p.address ≠ 0)
    (hfly : 0 < flies c p.address s.mshr) (hcount : Counted c s.mshr)
    (hs' : returnData c env s p = some s') :
    ∃ q, s' = { s with mshr := q } ∧ Counted c q ∧
      (∀ side a, slots (wants side a) c.mshrSize (slotsOf c q) =
        slots (wants side a) c.mshrSize (slotsOf c s.mshr)) ∧
      ∀ a, flies c a q + (if p.address = a then 1 else 0) = flies c a s.mshr := by
  obtain ⟨q, i, e, rfl, hreturned, hlt, ha, hsame, hdone, hsum⟩ := returnData_slots h0 hs'
  obtain ⟨j, hj, hj0, hja, hinflight⟩ := flies_pos hfly
  -- the MSHR has an address once
  have hij : i = j := h.distinct i j _ _ (slotsOf_some.mpr ⟨hlt, ha ▸ h0, rfl⟩)
    (slotsOf_some.mpr ⟨hj, hj0, rfl⟩) (ha.trans hja.symm)
  subst hij
  refine ⟨q, rfl, ?_, fun side a => ?_, fun a => ?_⟩
  · have hfinished := hsum finished
    have hnew : finished e = 1 := if_pos hdone
    have hold : finished (s.mshr.entry i) = 0 := by
      unfold finished
      rw [hinflight, if_neg (fun h => nomatch h)]
    unfold Counted at hcount ⊢
    omega
  · have hwants := hsum (wants side a)
    rw [wants_same hsame] at hwants
    omega
  · have hflies := hsum (inFlight a)
    have hnew : inFlight a e = 0 := by
      unfold inFlight
      rw [hdone, if_neg fun h => nomatch h.2]
    have hold : inFlight a (s.mshr.entry i) = if p.address = a then 1 else 0 := by
      unfold inFlight
      rw [hinflight, ha]
      simp
    rw [hnew, hold] at hflies
    exact hflies

end Mshr

/-! ## A request joins another -/

/-- The merged entry has the marks of both. -/
theorem Keeps.mark {p e r : Packet} (h : Keeps p e r) (side : Side) :
    side.mark r = (side.mark e || side.mark p) := by
  cases side with
  | icache => exact h.1
  | dcache => exact h.2.1

theorem wants_joined {p e r : Packet} {side : Side} {a : Nat} (h : Keeps p e r)
    (hr : r.address = e.address) (ha : e.address = p.address)
    (hone : wants side a e + wants side a p ≤ 1) :
    wants side a r = wants side a e + wants side a p := by
  unfold wants at *
  rw [hr, h.mark side, ← ha] at *
  by_cases haa : e.address = a
  · simp only [haa, true_and] at *
    cases hse : side.mark e <;> cases hsp : side.mark p <;> simp_all
  · simp [haa]

/-! ## Handlers -/

/-- What the STLB owes, or a TLB of the first level waits for, changes by one request at most. -/
inductive Passes (c : Config) (b b' : Books) : Prop
  | kept (hcalls : b'.calls = [])
    (hpending : c.cacheType = .stlb → ∀ side a, pending c side a b' = pending c side a b)
    (hflies : c.cacheType ≠ .stlb → ∀ a, flies c a b'.mshr = flies c a b.mshr)
  | gave (p : Packet) (hcalls : b'.calls = returnCalls c p.cpu p) (hp : Fits c p)
    (h0 : p.address ≠ 0)
    (hpending : ∀ side a, pending c side a b' + wants side a p = pending c side a b)
    (hflies : ∀ a, flies c a b'.mshr = flies c a b.mshr)
  | asked (p : Packet) (hlower : c.hasLower = true) (hcalls : b'.calls = [.lowerAddRq p])
    (hp : Fits c p) (hlevel : p.fillLevel = fillL1) (h0 : p.address ≠ 0)
    (hfresh : flies c p.address b.mshr = 0)
    (hroom : ∃ i < c.mshrSize, (b.mshr.entry i).address = 0)
    (hflies : ∀ a, flies c a b'.mshr = flies c a b.mshr + if p.address = a then 1 else 0)

section Handlers

variable {P : Policy c ρ} {env : Env} {s s' : State ρ} {p : Packet} {T : Nat → Nat → Prop}

theorem fillBlock_tlb {set way : Nat} {r : State ρ × Packet} (hc : c.cacheType.isTlb = true)
    (hr : fillBlock P env s set way p = some r) : r.1.books = s.books ∧ r.2 = p := by
  obtain ⟨⟨s₁, q⟩, hs₁, hr⟩ := Option.bind_eq_some_iff.mp hr
  unfold prefetcherFill at hs₁
  rw [if_pos hc] at hs₁
  cases hs₁
  obtain ⟨s₂, hs₂, rfl⟩ := Option.map_eq_some_iff.mp hr
  exact ⟨(fillCache_books hs₂).trans (updateReplacement_books _ _ _ _ _ _ _), rfl⟩

theorem handleFill_passes (hc : c.cacheType.isTlb = true) (hg : Good c s.books)
    (ht : Translates c T s) (hcount : Counted c s.mshr) (hcalls : s.calls = [])
    (henv : env.Proper c) (hs' : handleFill P env s = some s') :
    Counted c s'.mshr ∧ Passes c s.books s'.books := by
  have hidle : Counted c s.mshr ∧ Passes c s.books s.books :=
    ⟨hcount, .kept hcalls (fun _ _ _ => rfl) fun _ _ => rfl⟩
  unfold handleFill at hs'
  dsimp only at hs'
  split at hs'
  · cases hs'
    exact hidle
  · rename_i hready
    split at hs'
    · rename_i hcycle
      split at hs'
      · cases hs'
      · rename_i hsize
        have hdone := fill_entry_completed hg.mshr henv (fun h => hready (.inl h)) hcycle
        have hi : s.mshr.nextFillIndex < c.mshrSize := by
          rcases hg.mshr.pointer with h | h | h
          · have := henv.clock (s.mshr.entry s.mshr.nextFillIndex).cpu
            change s.mshr.nextFillCycle = u64Max at h
            omega
          · exact absurd (.inl h) hready
          · exact h.1
        generalize s.mshr.nextFillIndex = i at hdone hi hs'
        have h0 := hg.mshr.completed i hi hdone
        obtain ⟨⟨way, s₀⟩, hvictim, hs'⟩ := Option.bind_eq_some_iff.mp hs'
        obtain ⟨-, policy, rfl⟩ := findVictim_some hvictim
        rw [if_neg fun hand => by rw [hand.1] at hc; cases hc] at hs'
        obtain ⟨⟨doFill, s₁⟩, hs₁, hs'⟩ := Option.bind_eq_some_iff.mp hs'
        rw [evict_translates (s := { s with policy := policy }) { ht with }] at hs₁
        cases hs₁
        obtain ⟨⟨s₂, q⟩, hs₂, hs'⟩ := Option.bind_eq_some_iff.mp hs'
        obtain ⟨hbooks, heq⟩ := fillBlock_tlb hc hs₂
        cases heq
        dsimp only at hbooks hs'
        rw [if_neg fun hand => by rw [hand.1] at hc; cases hc] at hs'
        obtain ⟨s₃, hs₃, hs'⟩ := Option.bind_eq_some_iff.mp hs'
        have hb₃ : s₃.books = { s.books with
            calls := returnCalls c (s.mshr.entry i).cpu (s.mshr.entry i) } := by
          rw [deliver_books hs₃, returnUpper_books, hbooks]
          simp only [State.books, hcalls, List.nil_append]
        have hmshr : s₃.mshr = s.mshr := congrArg Books.mshr hb₃
        obtain ⟨q, rfl, hreturned, hsum⟩ := removeMshr_slots hi (by rwa [hmshr]) hs'
        rw [hmshr] at hreturned hsum
        refine ⟨?_, .gave (s.mshr.entry i) (congrArg Books.calls hb₃)
          (hg.mshr.fits i _ (slotsOf_some.mpr ⟨hi, h0, rfl⟩)) h0 (fun side a => ?_) fun a => ?_⟩
        · have hfinished := hsum finished
          have hone : finished (s.mshr.entry i) = 1 := if_pos hdone
          unfold Counted at hcount ⊢
          dsimp only
          omega
        · have hrq : s₃.rq.contents = s.rq.contents := congrArg Books.rq hb₃
          have hwants := hsum (wants side a)
          show tally _ s₃.rq.contents + slots _ _ (slotsOf c q) + _ = tally _ s.rq.contents + _
          rw [hrq]
          change _ = slots (wants side a) c.mshrSize (slotsOf c s.books.mshr) at hwants
          omega
        · have hflies := hsum (inFlight a)
          have hzero : inFlight a (s.mshr.entry i) = 0 := by
            unfold inFlight
            simp [hdone]
          rw [hzero] at hflies
          exact hflies
    · cases hs'
      exact hidle

/-- A hit hands the request at the head of `RQ` up. -/
theorem readHit_passes {way : Nat} {rest : List Packet} (hc : c.cacheType.isTlb = true)
    (h : Shape c s) (hg : Good c s.books) (hcount : Counted c s.mshr) (hcalls : s.calls = [])
    (hp : s.books.rq = p :: rest) (h0 : p.address ≠ 0) (hs' : readHit P env s way p = some s') :
    Counted c s'.mshr ∧ Passes c s.books s'.books := by
  have hfits : Fits c p := (hg.rq p (hp ▸ List.mem_cons_self)).1
  unfold readHit at hs'
  dsimp only at hs'
  have hsame := withData_same (c := c) p (s.block (c.getSet p.address) way).data
  generalize withData c p (s.block (c.getSet p.address) way).data = q at hsame hs'
  obtain ⟨s₁, hs₁, hs'⟩ := Option.bind_eq_some_iff.mp hs'
  obtain ⟨s₂, hs₂, hs'⟩ := Option.bind_eq_some_iff.mp hs'
  rw [prefetcherLoad_tlb hc hs₂] at hs'
  have h₁ := (deliver_does h).of_eq hs₁
  have h₃ := updateReplacement_shape P h₁.1 (c.getSet p.address) way q
    (s₁.block (c.getSet p.address) way).fullAddr 0 true
  have hb₃ := updateReplacement_books (P := P) s₁ (c.getSet p.address) way q
    (s₁.block (c.getSet p.address) way).fullAddr 0 true
  generalize updateReplacement P s₁ (c.getSet p.address) way q
    (s₁.block (c.getSet p.address) way).fullAddr 0 true = s₃ at h₃ hb₃ hs'
  have h₄ := (returnUpper_does h₃ q.cpu q).1
  have hb₄ := returnUpper_books (c := c) s₃ q.cpu q
  rw [hb₃, deliver_books hs₁] at hb₄
  generalize returnUpper c s₃ q.cpu q = s₄ at h₄ hb₄ hs'
  have hb := popRq_books hs' (h₄.of_rings rfl rfl rfl rfl rfl) hb₄ hp
  have hnil : s.books.calls = [] := hcalls
  have hmshr : s'.mshr = s.mshr := congrArg Books.mshr hb
  refine ⟨hmshr ▸ hcount, .gave q ?_ (hfits.same hsame) (hsame.address ▸ h0) (fun side a => ?_)
    fun a => ?_⟩
  · rw [hb]
    show s.books.calls ++ _ = _
    rw [hnil, List.nil_append]
  · rw [hb, wants_same hsame]
    unfold pending
    rw [hp, tally_cons]
    dsimp only
    omega
  · rw [hb]

/-- A new miss asks the level below, or walks the page table. -/
theorem requestLower_passes (h : Shape c s) (hg : Good c s.books) (hcount : Counted c s.mshr)
    (hcalls : s.calls = []) (hroom : s.mshr.occupancy < c.mshrSize)
    (hfresh : checkMshr c s p.address = none) (hp : Fits c p) (h0 : p.address ≠ 0)
    (hans : c.hasLower = true → ∀ q, s'.calls = [.lowerAddRq q] → env.answers = [])
    (hs' : requestLower c env s p = some s') :
    ∃ q p', SameRequest p p' ∧
      s'.books = { s.books with mshr := q, calls := if c.hasLower then [.lowerAddRq p'] else [] } ∧
      Counted c q ∧
      (∀ side a, slots (wants side a) c.mshrSize (slotsOf c q) =
        slots (wants side a) c.mshrSize (slotsOf c s.mshr) + wants side a p) ∧
      (c.hasLower = true →
        ∀ a, flies c a q = flies c a s.mshr + if p.address = a then 1 else 0) := by
  have hsame : SameRequest p { p with cycleEnqueued := env.currentCoreCycle p.cpu } :=
    ⟨_, _, _, _, _, _, _, rfl⟩
  obtain ⟨q, hadd, hq, -, hflies⟩ := addMshr_books
    (p := { p with cycleEnqueued := env.currentCoreCycle p.cpu }) hg.mshr h.mshr hroom hfresh
    (hp.same hsame) h0
  obtain ⟨q', hadd', hreturned, hsum⟩ := addMshr_slots
    (p := { p with cycleEnqueued := env.currentCoreCycle p.cpu }) h.mshr hroom h0
  obtain rfl : q = q' := congrArg State.mshr (hadd.symm.trans hadd')
  have hwants : ∀ side a, slots (wants side a) c.mshrSize (slotsOf c q) =
      slots (wants side a) c.mshrSize (slotsOf c s.mshr) + wants side a p :=
    fun side a => (hsum (wants side a)).trans
      (by rw [wants_same (p := p) ⟨_, _, _, _, _, _, _, rfl⟩])
  have hcounted : Counted c q := by
    have hfinished := hsum finished
    unfold Counted at hcount ⊢
    rw [hreturned, hcount, hfinished]
    rfl
  unfold requestLower at hs'
  dsimp only at hs'
  rw [hadd] at hs'
  split at hs'
  · rename_i hlower
    have hnil := hans hlower _ ((answer_calls hs').trans (by
      show s.calls ++ _ = _
      rw [hcalls, List.nil_append]))
    unfold answer at hs'
    rw [hnil, run_nil] at hs'
    cases hs'
    refine ⟨q, _, hsame, ?_, hcounted, hwants, fun _ => hflies⟩
    rw [if_pos hlower]
    simp only [State.call, State.books, hcalls, List.nil_append]
  · rename_i hlower
    have hbooks : ∀ m : PacketQueue, { s.books with mshr := m } =
        { s.books with
          mshr := m
          calls := if c.hasLower then [Call.lowerAddRq p] else [] } := by
      intro m
      rw [if_neg hlower]
      show { s.books with mshr := m, calls := s.calls } = _
      rw [hcalls]
    split at hs'
    · -- the page walk answers at once
      have hinvalidated := invalidateAll_books (c := c) env.walkInvalidates { s with mshr := q }
      generalize env.walkInvalidates.foldl (invalidateEntry c) { s with mshr := q } = t
        at hinvalidated hs'
      have hmshr : t.mshr = q := congrArg Books.mshr hinvalidated
      have hfly : 0 < flies c p.address t.mshr := by
        rw [hmshr, hflies, if_pos rfl]
        omega
      obtain ⟨q', rfl, hcounted', hwants', -⟩ := returnData_inFlight (p := { p with
        cycleEnqueued := env.currentCoreCycle p.cpu
        data := env.walk / 2 ^ logPageSize
        eventCycle := env.currentCoreCycle p.cpu }) (hmshr.symm ▸ hq) h0 hfly
        (hmshr.symm ▸ hcounted) hs'
      refine ⟨q', p, SameRequest.refl p, ?_, hcounted', fun side a => ?_,
        fun h => absurd h hlower⟩
      · rw [← hbooks]
        show { t.books with mshr := q' } = _
        rw [hinvalidated]
        rfl
      · rw [hwants', hmshr, hwants]
    · cases hs'
      exact ⟨q, p, SameRequest.refl p, hbooks q, hcounted, hwants, fun h => absurd h hlower⟩

/-- A miss of a page that is not in flight. -/
theorem newMiss_passes {s₁ s₂ : State ρ} {rest : List Packet} (hc : c.cacheType.isTlb = true)
    (h : Shape c s) (hg : Good c s.books) (hcount : Counted c s.mshr) (hcalls : s.calls = [])
    (hkind : c.hasLower = true ↔ c.cacheType ≠ .stlb)
    (hans : c.hasLower = true → ∀ q, s'.calls = [.lowerAddRq q] → env.answers = [])
    (hhead : s.books.rq = p :: rest) (h0 : p.address ≠ 0) (hfits : Fits c p)
    (hlevel : p.fillLevel = fillL1) (hroom : s.mshr.occupancy < c.mshrSize)
    (hm : checkMshr c s p.address = none) (hs₁ : requestLower c env s p = some s₁)
    (hs₂ : prefetcherLoad c env s₁ p = some s₂) (hs' : popRq c s₂ = some s') :
    Counted c s'.mshr ∧ Passes c s.books s'.books := by
  rw [prefetcherLoad_tlb hc hs₂] at hs'
  have hcalls' : s'.calls = s₁.calls := by
    obtain ⟨q, -, rfl⟩ := Option.map_eq_some_iff.mp hs'
    rfl
  rw [hcalls'] at hans
  obtain ⟨q, p', hsame, hb₂, hcounted, hwants, hflies⟩ :=
    requestLower_passes h hg hcount hcalls hroom hm hfits h0 hans hs₁
  have h₂ := ((requestLower_does (I := True) h (fun _ => trivial) hroom h0).of_eq hs₁).1
  have hb := popRq_books hs' h₂ hb₂ hhead
  have hmshr : s'.mshr = q := congrArg Books.mshr hb
  refine ⟨hmshr ▸ hcounted, ?_⟩
  by_cases hlower : c.hasLower = true
  · rw [if_pos hlower] at hb
    have hfree : ∃ i < c.mshrSize, (s.mshr.entry i).address = 0 := by
      rw [h.mshr.occupancy] at hroom
      obtain ⟨i, hi, hfree⟩ := exists_of_count_lt hroom
      exact ⟨i, hi, not_not.mp hfree⟩
    refine .asked p' hlower (congrArg Books.calls hb) (hfits.same hsame) ?_ (hsame.address ▸ h0) ?_
      hfree fun a => ?_
    · obtain ⟨_, _, _, _, _, _, _, rfl⟩ := hsame
      exact hlevel
    · rw [hsame.address]
      exact flies_fresh hm
    · rw [hb, hsame.address]
      exact hflies hlower a
  · rw [if_neg hlower] at hb
    refine .kept (congrArg Books.calls hb) (fun _ side a => ?_)
      fun hne => absurd (hkind.mpr hne) hlower
    rw [hb]
    unfold pending
    rw [hhead, tally_cons]
    have := hwants side a
    change tally _ rest + slots _ _ (slotsOf c q) =
      _ + _ + slots (wants side a) c.mshrSize (slotsOf c s.mshr)
    omega

/-- A miss joins the one in flight for its page; nobody above waits for it twice. -/
theorem mergedMiss_passes {s₂ : State ρ} {rest : List Packet} {i : Nat}
    (hc : c.cacheType.isTlb = true) (h : Shape c s) (ht : Translates c T s)
    (hcount : Counted c s.mshr) (hcalls : s.calls = [])
    (hone : c.cacheType = .stlb → ∀ side a, pending c side a s.books ≤ 1)
    (hhead : s.books.rq = p :: rest) (h0 : p.address ≠ 0)
    (hm : checkMshr c s p.address = some i)
    (hs₂ : prefetcherLoad c env (mergeMshr s i mergeRead p) p = some s₂)
    (hs' : popRq c s₂ = some s') : Counted c s'.mshr ∧ Passes c s.books s'.books := by
  rw [prefetcherLoad_tlb hc hs₂] at hs'
  obtain ⟨hlt, ha⟩ := checkMshr_some hm
  have hi0 : (s.mshr.entry i).address ≠ 0 := ha ▸ h0
  have hjoined : (mergeRead p (s.mshr.entry i)).address ≠ 0 := by
    rw [(joins_mergeRead ha).1]
    exact hi0
  have hsum := mergeMshr_slots hlt hi0 hjoined
  have h₁ := (mergeMshr_does mergeRead h (fun e he => (joins_mergeRead he).1.trans he) hm h0).1
  have hb := popRq_books hs' h₁ rfl hhead
  have hmshr : s'.mshr = (mergeMshr s i mergeRead p).mshr := congrArg Books.mshr hb
  -- the entry is no prefetch, so the request does not take its place
  have hkeeps : Keeps p (s.mshr.entry i) (mergeRead p (s.mshr.entry i)) := by
    obtain ⟨-, htype, hi, hd, hl⟩ := mergeConsumers_frame p (s.mshr.entry i)
    have hmerge : mergeRead p (s.mshr.entry i) =
        mergeFill p (mergeConsumers p (s.mshr.entry i)) :=
      upgrade_demand (show (mergeConsumers p (s.mshr.entry i)).type ≠ .prefetch by
        rw [htype]
        exact (ht.mshr i).1.1)
    rw [hmerge]
    obtain ⟨hi', hd', hl'⟩ := keeps_mergeFill p (mergeConsumers p (s.mshr.entry i))
    exact ⟨hi'.trans (by rw [hi]), hd'.trans (by rw [hd]), hl'.trans (by rw [hl])⟩
  refine ⟨?_, .kept ((congrArg Books.calls hb).trans hcalls) (fun hstlb side a => ?_)
    fun _ a => ?_⟩
  · rw [hmshr]
    have hfinished := hsum finished
    have hsame : finished (mergeRead p (s.mshr.entry i)) = finished (s.mshr.entry i) := by
      unfold finished
      rw [mergeRead_returned]
    unfold Counted at hcount ⊢
    show s.mshr.numReturned = _
    omega
  · have hold := hone hstlb side a
    unfold pending at hold ⊢
    rw [hhead, tally_cons] at hold ⊢
    change _ + slots _ _ (slotsOf c s.mshr) ≤ 1 at hold
    rw [hb]
    change tally _ rest + slots _ _ (slotsOf c (mergeMshr s i mergeRead p).mshr) =
      _ + _ + slots _ _ (slotsOf c s.mshr)
    have hle : wants side a (s.mshr.entry i) ≤
        slots (wants side a) c.mshrSize (slotsOf c s.mshr) :=
      le_slots hlt (slotsOf_some.mpr ⟨hlt, hi0, rfl⟩)
    have hwants := wants_joined hkeeps (joins_mergeRead ha).1 ha
      (show wants side a (s.mshr.entry i) + wants side a p ≤ 1 by omega)
    have := hsum (wants side a)
    omega
  · have hflies := hsum (inFlight a)
    have hsame : inFlight a (mergeRead p (s.mshr.entry i)) = inFlight a (s.mshr.entry i) := by
      unfold inFlight
      rw [(joins_mergeRead ha).1, mergeRead_returned]
    rw [hsame] at hflies
    rw [hb]
    exact Nat.add_right_cancel hflies

/-- `hone`: nobody above waits for a page twice. -/
theorem readOne_passes (hc : c.cacheType.isTlb = true) (h : Shape c s) (hg : Good c s.books)
    (ht : Translates c T s) (hcount : Counted c s.mshr) (hcalls : s.calls = [])
    (hone : c.cacheType = .stlb → ∀ side a, pending c side a s.books ≤ 1)
    (hkind : c.hasLower = true ↔ c.cacheType ≠ .stlb)
    (hans : c.hasLower = true → ∀ q, s'.calls = [.lowerAddRq q] → env.answers = [])
    (hready : Ready c env s.rq) (hs' : readOne P env s = some s') :
    Counted c s'.mshr ∧ Passes c s.books s'.books := by
  obtain ⟨rest, hp⟩ := head_contents h.rq hready.2.2
  have h0 : (s.rq.entry s.rq.head).address ≠ 0 := h.rqLive _ (hp ▸ List.mem_cons_self)
  have hhead : s.books.rq = s.rq.entry s.rq.head :: rest := hp
  obtain ⟨hfits, hlevel⟩ := hg.rq _ (hhead ▸ List.mem_cons_self)
  unfold readOne at hs'
  dsimp only at hs'
  generalize s.rq.entry s.rq.head = p at hhead h0 hfits hlevel hs'
  cases hhit : checkHit c s p.address with
  | some way =>
    rw [hhit] at hs'
    exact readHit_passes hc h hg hcount hcalls hhead h0 hs'
  | none =>
    rw [hhit] at hs'
    obtain ⟨⟨handled, s₁⟩, hs₁, hs'⟩ := Option.bind_eq_some_iff.mp hs'
    unfold readMiss at hs₁
    cases hm : checkMshr c s p.address with
    | none =>
      rw [hm] at hs₁
      dsimp only at hs₁
      split at hs₁
      · rename_i hroom
        rw [if_neg fun hand => by rw [hand.1] at hc; cases hc] at hs₁
        obtain ⟨s₂, hs₂, heq⟩ := Option.map_eq_some_iff.mp hs₁
        cases heq
        dsimp only [if_true] at hs'
        obtain ⟨s₃, hs₃, hs'⟩ := Option.bind_eq_some_iff.mp hs'
        exact newMiss_passes hc h hg hcount hcalls hkind hans hhead h0 hfits hlevel hroom hm hs₂ hs₃
          hs'
      · split at hs₁
        · cases hs₁
          cases hs'
          exact ⟨hcount, .kept hcalls (fun _ _ _ => rfl) fun _ _ => rfl⟩
        · cases hs₁
    | some i =>
      rw [hm] at hs₁
      cases hs₁
      dsimp only [if_true] at hs'
      obtain ⟨s₂, hs₂, hs'⟩ := Option.bind_eq_some_iff.mp hs'
      exact mergedMiss_passes hc h ht hcount hcalls hone hhead h0 hm hs₂ hs'

end Handlers

/-! ## A request of the level above -/

section Arrivals

variable {env : Env} {s : State ρ} {p : Packet} {T : Nat → Nat → Prop}

theorem keeps_mergeRq {p e : Packet} (h : p.fillLevel = e.fillLevel) : Keeps p e (mergeRq p e) := by
  unfold Keeps
  rw [h, min_self]
  unfold mergeRq
  dsimp only
  split
  · exact ⟨rfl, rfl, rfl⟩
  · split <;> exact ⟨rfl, rfl, rfl⟩

/-- With nothing in `WQ`, a request touches `RQ` alone. -/
theorem addRq_mshr {r : Added × State ρ} (ht : Translates c T s) (hr : addRq c env s p = some r) :
    r.2.mshr = s.mshr := by
  have hwq : s.wq.checkQueue p = none := if_pos ht.wq
  unfold addRq at hr
  rw [hwq] at hr
  dsimp only at hr
  split at hr
  · cases hr
    rfl
  · split at hr
    · cases hr
      rfl
    · obtain ⟨q, -, hr⟩ := Option.bind_eq_some_iff.mp hr
      split at hr
      · cases hr
      · cases hr
        rfl

/-- A request waits in `RQ`, with the mark of the side it comes from. -/
theorem addRq_pending {r : Added × State ρ} (h : Shape c s) (hg : Good c s.books)
    (ht : Translates c T s) (hl : p.fillLevel = fillL1) (hroom : s.rq.occupancy ≠ c.rqSize)
    (hfresh : ∀ side, side.mark p = true → pending c side p.address s.books = 0)
    (hr : addRq c env s p = some r) (side : Side) (a : Nat) :
    pending c side a r.2.books = pending c side a s.books + wants side a p := by
  have hwq : s.wq.checkQueue p = none := if_pos ht.wq
  obtain ⟨hkey, -⟩ := hg.byAddress
  unfold addRq at hr
  rw [hwq] at hr
  dsimp only at hr
  cases hi : s.rq.checkQueue p with
  | some i =>
    rw [hi] at hr
    cases hr
    obtain ⟨k, hget, ha, hset⟩ := checkQueue_address h.rq hkey hi
    have hmem := List.mem_of_getElem? hget
    obtain ⟨-, hel⟩ := hg.rq _ hmem
    have hkeeps := keeps_mergeRq (p := p) (e := s.rq.entry i) (hl.trans hel.symm)
    have hone : wants side a (s.rq.entry i) + wants side a p ≤ 1 := by
      by_cases hmark : side.mark p = true ∧ p.address = a
      · obtain ⟨hmark, rfl⟩ := hmark
        have hle : wants side p.address (s.rq.entry i) ≤
            tally (wants side p.address) s.books.rq := le_tally hmem
        have hzero := hfresh side hmark
        unfold pending at hzero
        have := wants_le_one side p.address p
        omega
      · have hzero : wants side a p = 0 := if_neg fun h => hmark ⟨h.2, h.1⟩
        have := wants_le_one side a (s.rq.entry i)
        omega
    have hjoined := wants_joined hkeeps (mergeRq_address p _) ha hone
    have hsum := tally_set (w := wants side a) hget (mergeRq p (s.rq.entry i))
    show tally _ (s.rq.setEntry i (mergeRq p (s.rq.entry i))).contents +
        slots (wants side a) c.mshrSize (slotsOf c s.mshr) =
      tally _ s.rq.contents + slots (wants side a) c.mshrSize (slotsOf c s.mshr) + _
    rw [hset]
    omega
  | none =>
    rw [hi] at hr
    dsimp only at hr
    rw [if_neg hroom] at hr
    obtain ⟨q, hq, hr⟩ := Option.bind_eq_some_iff.mp hr
    split at hr
    · cases hr
    · cases hr
      have hcontents := (h.rq.enqueued (h.rq.room hroom) hq).2
      show tally _ q.contents + slots (wants side a) c.mshrSize (slotsOf c s.mshr) =
        tally _ s.rq.contents + slots (wants side a) c.mshrSize (slotsOf c s.mshr) + _
      rw [hcontents, tally_append, tally_cons, tally_nil,
        wants_same (p := p) ⟨_, _, _, _, _, _, _, rfl⟩]
      omega

end Arrivals

end Cache
end ChampSim
