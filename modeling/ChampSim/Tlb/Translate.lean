import ChampSim.Cache.Trade
import ChampSim.Cache.Plain

/-!
# ChampSim.Tlb.Translate

The translations that a TLB holds and hands on.

* `Translates`  — every translation in a TLB is one of `T`: in its blocks, in the answered entries
  of its MSHR, in `PROCESSED` and in the calls that hand data to the level above.
* `Walks`       — `handle_read` of the STLB is about to walk the page table.
* `handleFill_translates`, `readOne_translates`, `addRq_translates`, `returnData_translates` — what
  a TLB does keeps it so, when what it is told is in `T`.

Nothing reaches the `WQ` and the `PQ` of a TLB, and none of its blocks is dirty.
-/

namespace ChampSim
namespace Cache

open Lib

variable {ρ : Type} {c : Config} {T : Nat → Nat → Prop}

/-- Where a first-level TLB leaves the page it has found. -/
def translation (c : Config) (p : Packet) : Nat :=
  match c.cacheType with
  | .itlb => p.instructionPa
  | _ => p.dataPa

/-- A request of this core, or nothing. -/
def Demand (c : Config) (p : Packet) : Prop :=
  p.type ≠ .prefetch ∧ (p.address ≠ 0 → p.cpu = c.cpu)

def Answered (T : Nat → Nat → Prop) (p : Packet) : Prop :=
  p.returned = .completed → T p.address p.data

/-- The STLB hands translations up; the others ask for them. -/
def Call.Right (c : Config) (T : Nat → Nat → Prop) : Call → Prop
  | .returnIcache _ p | .returnDcache _ p => c.cacheType = .stlb → T p.address p.data
  | .lowerAddRq p => Demand c p
  | .lowerAddWq _ | .lowerAddPq _ | .lowerWqFull _ => False

structure Translates (c : Config) (T : Nat → Nat → Prop) (s : State ρ) : Prop where
  wq : s.wq.head = s.wq.tail ∧ s.wq.occupancy = 0
  pq : s.pq.occupancy = 0 ∧ s.pq.size = 0
  rq : ∀ i, Demand c (s.rq.entry i)
  mshr : ∀ i, Demand c (s.mshr.entry i) ∧ Answered T (s.mshr.entry i)
  processed : ∀ i, (s.processed.entry i).address ≠ 0 →
    T (s.processed.entry i).address (translation c (s.processed.entry i))
  block : ∀ set way, (s.block set way).dirty = false ∧
    ((s.block set way).valid = true → T (s.block set way).tag (s.block set way).data)
  calls : ∀ k ∈ s.calls, k.Right c T

/-- The request at the head of `RQ` finds neither a block nor an MSHR entry, and there is room for
one. -/
def Walks (c : Config) (s : State ρ) : Prop :=
  checkHit c s (s.rq.entry s.rq.head).address = none ∧
    checkMshr c s (s.rq.entry s.rq.head).address = none ∧ s.mshr.occupancy < c.mshrSize

instance (s : State ρ) : Decidable (Walks c s) := inferInstanceAs (Decidable (_ ∧ _ ∧ _))

theorem demand_empty (c : Config) (n : Nat) : Demand c (Packet.empty n) :=
  ⟨by simp [Packet.empty], fun h => absurd rfl h⟩

theorem answered_empty (T : Nat → Nat → Prop) (n : Nat) : Answered T (Packet.empty n) :=
  fun h => nomatch h

/-- More translations become right. -/
theorem Translates.mono {T' : Nat → Nat → Prop} {s : State ρ} (h : Translates c T s)
    (hT : ∀ a d, T a d → T' a d) : Translates c T' s := by
  refine ⟨h.wq, h.pq, h.rq, fun i => ⟨(h.mshr i).1, fun hr => hT _ _ ((h.mshr i).2 hr)⟩,
    fun i h0 => hT _ _ (h.processed i h0),
    fun set way => ⟨(h.block set way).1, fun hv => hT _ _ ((h.block set way).2 hv)⟩,
    fun k hk => ?_⟩
  have hright := h.calls k hk
  cases k with
  | returnIcache cpu p | returnDcache cpu p => exact fun hc => hT _ _ (hright hc)
  | lowerAddRq p => exact hright
  | lowerAddWq p | lowerAddPq p | lowerWqFull a => exact hright

theorem translates_init (P : Policy c ρ) (hpq : c.pqSize = 0) : Translates c T (State.init P) where
  wq := ⟨rfl, rfl⟩
  pq := ⟨rfl, hpq⟩
  rq := fun _ => demand_empty c _
  mshr := fun _ => ⟨demand_empty c _, answered_empty T _⟩
  processed := fun _ h0 => absurd rfl h0
  block := fun _ _ => ⟨rfl, fun hv => nomatch hv⟩
  calls := fun _ hk => nomatch hk

section Parts

variable {P : Policy c ρ} {env : Env} {s s' : State ρ} {p : Packet}

theorem forall_update {α : Type} {Q : α → Prop} {f : Nat → α} {x : α} (hf : ∀ i, Q (f i))
    (hx : Q x) (j i : Nat) : Q (Function.update f j x i) := by
  by_cases hi : i = j
  · rw [hi, Function.update_self]
    exact hx
  · rw [Function.update_of_ne hi]
    exact hf i

theorem Translates.withCalls (h : Translates c T s) {calls : List Call}
    (hcalls : ∀ k ∈ calls, k.Right c T) : Translates c T { s with calls := calls } :=
  { h with calls := hcalls }

theorem Translates.setBlock (h : Translates c T s) {set way : Nat} {b : Block}
    (hdirty : b.dirty = false) (hb : b.valid = true → T b.tag b.data) :
    Translates c T (s.setBlock set way b) := by
  refine { h with block := fun set' way' => ?_ }
  unfold State.setBlock
  dsimp only
  by_cases hset : set' = set
  · subst hset
    rw [Function.update_self]
    exact forall_update (Q := fun b : Block => b.dirty = false ∧ (b.valid = true → T b.tag b.data))
      (h.block set') ⟨hdirty, hb⟩ way way'
  · rw [Function.update_of_ne hset]
    exact h.block set' way'

theorem Translates.setMshr (h : Translates c T s) {q : PacketQueue} {i : Nat} (hp : Demand c p)
    (ht : Answered T p) (hq : q.entry = Function.update s.mshr.entry i p) :
    Translates c T { s with mshr := q } := by
  refine { h with mshr := fun j => ?_ }
  rw [hq]
  exact forall_update (Q := fun e => Demand c e ∧ Answered T e) h.mshr ⟨hp, ht⟩ i j

theorem invalidateEntry_translates (h : Translates c T s) (address : Nat) :
    Translates c T (invalidateEntry c s address) := by
  unfold invalidateEntry
  split
  · refine h.setBlock (h.block _ _).1 fun hv => ?_
    cases hv
  · exact h

theorem invalidateAll_translates (h : Translates c T s) (as : List Nat) :
    Translates c T (as.foldl (invalidateEntry c) s) := by
  induction as generalizing s with
  | nil => exact h
  | cons a as ih => exact ih (invalidateEntry_translates h a)

theorem updateReplacement_translates (h : Translates c T s) (set way : Nat) (p : Packet)
    (fullAddr victimAddr : Nat) (hit : Bool) :
    Translates c T (updateReplacement P s set way p fullAddr victimAddr hit) := by
  refine { h with block := fun set' way' => ?_ }
  unfold updateReplacement
  dsimp only
  by_cases hset : set' = set
  · subst hset
    rw [Function.update_self]
    exact h.block set' way'
  · rw [Function.update_of_ne hset]
    exact h.block set' way'

theorem returnUpper_translates (h : Translates c T s) (cpu : Nat)
    (hp : c.cacheType = .stlb → T p.address p.data) : Translates c T (returnUpper c s cpu p) := by
  have hadd : ∀ {t : State ρ} {k : Call}, Translates c T t → k.Right c T →
      Translates c T (t.call k) := fun ht hk => ht.withCalls fun k' hk' => by
    rcases List.mem_append.mp hk' with hk' | hk'
    · exact ht.calls k' hk'
    · exact List.mem_singleton.mp hk' ▸ hk
  unfold returnUpper
  split
  · dsimp only
    generalize (if c.fillLevel = fillL2 then p.fillL1i else p.instruction) = toIcache
    generalize (if c.fillLevel = fillL2 then p.fillL1d else p.isData) = toDcache
    cases toIcache with
    | false =>
      cases toDcache with
      | false => exact h
      | true => exact hadd h hp
    | true =>
      cases toDcache with
      | false => exact hadd h hp
      | true => exact hadd (hadd h hp) hp
  · exact h

theorem process_translates (h : Translates c T s) (hp : T p.address (translation c p))
    (hs' : process s p = some s') : Translates c T s' := by
  unfold process at hs'
  split at hs'
  · obtain ⟨q, hq, rfl⟩ := Option.map_eq_some_iff.mp hs'
    unfold PacketQueue.addQueue at hq
    split at hq
    · cases hq
    · cases hq
      refine { h with processed := ?_ }
      exact forall_update (Q := fun e : Packet => e.address ≠ 0 → T e.address (translation c e))
        h.processed (fun _ => hp) _
  · cases hs'
    exact { h with }

/-- The STLB delivers nothing to the core. -/
theorem deliver_translates (hc : c.cacheType.isTlb = true) (h : Translates c T s)
    (hp : c.cacheType ≠ .stlb → T p.address (translation c p)) (hs' : deliver c s p = some s') :
    Translates c T s' := by
  unfold deliver at hs'
  cases htype : c.cacheType with
  | itlb | dtlb =>
    rw [htype] at hs'
    exact process_translates h (hp (by simp [htype])) hs'
  | stlb =>
    rw [htype] at hs'
    cases hs'
    exact h
  | l1i | l1d | l2c | llc =>
    rw [htype] at hc
    cases hc

theorem removeQueue_entry {n i : Nat} {q q' : PacketQueue} (h : q.removeQueue n i = some q') :
    q'.entry = Function.update q.entry i (Packet.empty n) := by
  unfold PacketQueue.removeQueue at h
  split at h
  · cases h
  · cases h
    rfl

theorem popRq_translates (h : Translates c T s) (hs' : popRq c s = some s') :
    Translates c T s' := by
  obtain ⟨q, hq, rfl⟩ := Option.map_eq_some_iff.mp hs'
  refine { h with rq := fun i => ?_ }
  rw [removeQueue_entry hq]
  exact forall_update h.rq (demand_empty c _) _ i

theorem removeMshr_translates {i : Nat} (h : Translates c T s) (hs' : removeMshr c s i = some s') :
    Translates c T s' := by
  obtain ⟨q, rfl, hq, -⟩ := removeMshr_eq hs'
  exact h.setMshr (demand_empty c _) (answered_empty T _) hq.entry

/-- The core takes a request from `PROCESSED`. -/
theorem complete_translates {q : PacketQueue} (h : Translates c T s)
    (hq : s.processed.removeQueue c.numCpus s.processed.head = some q) :
    Translates c T { s with processed := q } := by
  refine { h with processed := fun i => ?_ }
  rw [removeQueue_entry hq]
  exact forall_update (Q := fun e : Packet => e.address ≠ 0 → T e.address (translation c e))
    h.processed (fun h0 => absurd rfl h0) _ i

theorem addMshr_translates (h : Translates c T s) (hp : Demand c p) :
    Translates c T (addMshr c s p) := by
  unfold addMshr
  split
  · refine h.setMshr (p := { p with returned := .inflight }) hp (fun hr => ?_) rfl
    cases hr
  · exact h

/-- The level below answers with the right page. -/
theorem returnData_translates (h : Translates c T s) (hp : T p.address p.data)
    (hs' : returnData c env s p = some s') : Translates c T s' := by
  obtain ⟨i, hi, rfl⟩ := Option.map_eq_some_iff.mp hs'
  obtain ⟨-, ha⟩ := checkMshr_some hi
  refine h.setMshr (i := i) (p := { s.mshr.entry i with
    returned := .completed
    data := p.data
    pfMetadata := p.pfMetadata
    eventCycle := env.delay c p.cpu (s.mshr.entry i).eventCycle }) (h.mshr i).1 (fun _ => ?_) rfl
  show T (s.mshr.entry i).address p.data
  rw [ha]
  exact hp

theorem evict_translates {set way : Nat} {p : Packet} (h : Translates c T s) :
    evict c env s set way p = some (true, s) := by
  unfold evict
  dsimp only
  rw [if_neg (by simp [(h.block set way).1])]

theorem fillBlock_translates {set way : Nat} {r : State ρ × Packet} (hc : c.cacheType.isTlb = true)
    (h : Translates c T s) (hp : T p.address p.data) (hr : fillBlock P env s set way p = some r) :
    Translates c T r.1 ∧ r.2 = p ∧ (r.1.block set way).data = p.data ∧ r.1.calls = s.calls := by
  obtain ⟨⟨s₁, q⟩, hs₁, hr⟩ := Option.bind_eq_some_iff.mp hr
  unfold prefetcherFill at hs₁
  rw [if_pos hc] at hs₁
  cases hs₁
  obtain ⟨s₂, hs₂, rfl⟩ := Option.map_eq_some_iff.mp hr
  have hupdate := updateReplacement_translates (P := P) h set way p p.fullAddr
    (s.block set way).fullAddr false
  have hcalls : (updateReplacement P s set way p p.fullAddr (s.block set way).fullAddr
    false).calls = s.calls := rfl
  generalize updateReplacement P s set way p p.fullAddr (s.block set way).fullAddr false = t
    at hs₂ hupdate hcalls
  unfold fillCache at hs₂
  split at hs₂
  · cases hs₂
  · cases hs₂
    refine ⟨?_, rfl, by simp [State.setBlock], hcalls⟩
    refine Translates.setBlock ?_ rfl fun _ => hp
    exact { hupdate with }

end Parts

/-! ## Handlers -/

section Handlers

variable {P : Policy c ρ} {env : Env} {s s' : State ρ} {p : Packet}

theorem translation_withPa (hc : c.cacheType.isTlb = true) (hs : c.cacheType ≠ .stlb) (p : Packet)
    (data : Nat) : translation c (withPa c p data) = data := by
  unfold translation withPa
  cases htype : c.cacheType with
  | itlb | dtlb => rfl
  | stlb => exact absurd htype hs
  | l1i | l1d | l2c | llc =>
    rw [htype] at hc
    cases hc

theorem withPa_address (p : Packet) (data : Nat) : (withPa c p data).address = p.address :=
  (withPa_same p data).address

/-- A hit leaves the page in the packet. -/
theorem withData_right (hc : c.cacheType.isTlb = true) (p : Packet) (data : Nat) :
    (c.cacheType = .stlb → (withData c p data).data = data) ∧
      (c.cacheType ≠ .stlb → translation c (withData c p data) = data) := by
  unfold withData
  cases htype : c.cacheType with
  | itlb | dtlb =>
    refine ⟨fun h => (nomatch h), fun _ => ?_⟩
    exact translation_withPa hc (by simp [htype]) p data
  | stlb => exact ⟨fun _ => rfl, fun h => absurd rfl h⟩
  | l1i | l1d | l2c | llc =>
    rw [htype] at hc
    cases hc

/-- The entry that is filled has been answered. -/
theorem fill_entry_completed (hg : Tracked c s.mshr) (henv : env.Proper c)
    (hi : s.mshr.nextFillIndex ≠ c.mshrSize) {cpu : Nat}
    (hcycle : s.mshr.nextFillCycle ≤ env.currentCoreCycle cpu) :
    (s.mshr.entry s.mshr.nextFillIndex).returned = .completed := by
  rcases hg.pointer with h | h | h
  · have := henv.clock cpu
    omega
  · exact absurd h hi
  · exact h.2

theorem handleFill_translates (hc : c.cacheType.isTlb = true) (h : Translates c T s)
    (hg : Tracked c s.mshr) (henv : env.Proper c) (hs' : handleFill P env s = some s') :
    Translates c T s' := by
  unfold handleFill at hs'
  dsimp only at hs'
  split at hs'
  · cases hs'
    exact h
  · rename_i hidle
    split at hs'
    · rename_i hcycle
      split at hs'
      · cases hs'
      · have hright := (h.mshr _).2
          (fill_entry_completed hg henv (fun h => hidle (.inl h)) hcycle)
        generalize s.mshr.entry s.mshr.nextFillIndex = p at hright hs'
        obtain ⟨⟨way, s₀⟩, hvictim, hs'⟩ := Option.bind_eq_some_iff.mp hs'
        obtain ⟨-, policy, rfl⟩ := findVictim_some hvictim
        replace h : Translates c T { s with policy := policy } := { h with }
        rw [if_neg fun hand => by rw [hand.1] at hc; cases hc] at hs'
        obtain ⟨⟨doFill, s₁⟩, hs₁, hs'⟩ := Option.bind_eq_some_iff.mp hs'
        rw [evict_translates h] at hs₁
        cases hs₁
        obtain ⟨⟨s₂, q⟩, hs₂, hs'⟩ := Option.bind_eq_some_iff.mp hs'
        obtain ⟨h₂, heq, hdata, -⟩ := fillBlock_translates hc h hright hs₂
        cases heq
        dsimp only at h₂ hdata hs'
        rw [if_neg fun hand => by rw [hand.1] at hc; cases hc] at hs'
        obtain ⟨s₃, hs₃, hs'⟩ := Option.bind_eq_some_iff.mp hs'
        refine removeMshr_translates (deliver_translates hc
          (returnUpper_translates h₂ _ fun _ => hright) (fun hs => ?_) hs₃) hs'
        rw [translation_withPa hc hs, withPa_address]
        -- the block that the page is read from again has just been written
        rw [returnUpper_block, hdata]
        exact hright
    · cases hs'
      exact h

theorem handleWriteback_translates (h : Translates c T s)
    (hs' : handleWriteback P env s = some s') : s' = s := by
  have hidle : ¬ Ready c env s.wq := fun hready => absurd hready.2.2 (by simp [h.wq.2])
  unfold handleWriteback at hs'
  rw [if_neg hidle] at hs'
  exact (Option.some.inj hs').symm

theorem prefetcherLoad_tlb (hc : c.cacheType.isTlb = true)
    (hs' : prefetcherLoad c env s p = some s') : s' = s := by
  unfold prefetcherLoad at hs'
  rw [if_neg fun hand => hand.2 hc] at hs'
  exact (Option.some.inj hs').symm

theorem readHit_translates {way : Nat} (hc : c.cacheType.isTlb = true) (h : Translates c T s)
    (hway : checkHit c s p.address = some way) (hs' : readHit P env s way p = some s') :
    Translates c T s' := by
  have hp : T p.address (s.block (c.getSet p.address) way).data := by
    have hfound := List.find?_some hway
    simp only [Bool.and_eq_true, beq_iff_eq] at hfound
    have hblock := (h.block _ _).2 hfound.1
    rwa [hfound.2] at hblock
  unfold readHit at hs'
  dsimp only at hs'
  have hdata := withData_right hc p (s.block (c.getSet p.address) way).data
  have haddress := (withData_same (c := c) p (s.block (c.getSet p.address) way).data).address
  generalize withData c p (s.block (c.getSet p.address) way).data = q at hdata haddress hs'
  obtain ⟨s₁, hs₁, hs'⟩ := Option.bind_eq_some_iff.mp hs'
  obtain ⟨s₂, hs₂, hs'⟩ := Option.bind_eq_some_iff.mp hs'
  have h₁ := deliver_translates hc h (fun hs => by rw [haddress, hdata.2 hs]; exact hp) hs₁
  rw [prefetcherLoad_tlb hc hs₂] at hs'
  have h₃ := returnUpper_translates (updateReplacement_translates (P := P) h₁ (c.getSet p.address)
    way q (s₁.block (c.getSet p.address) way).fullAddr 0 true) q.cpu (p := q)
    fun hs => by rw [haddress, hdata.1 hs]; exact hp
  generalize returnUpper c (updateReplacement P s₁ (c.getSet p.address) way q
    (s₁.block (c.getSet p.address) way).fullAddr 0 true) q.cpu q = s₃ at h₃ hs'
  refine popRq_translates (Translates.setBlock ?_ ?_ ?_) hs'
  · exact { h₃ with }
  · exact (h₃.block (c.getSet p.address) way).1
  · exact (h₃.block (c.getSet p.address) way).2

/-- Answers change the MSHR alone. -/
theorem answer_calls (hs' : answer c env s p = some s') : s'.calls = s.calls := by
  refine run_invariant (I := fun t => t.calls = s.calls) (P := fun _ _ => True) ?_ rfl
    (along_of_forall (A := fun _ => True) (by simp) _) hs'
  rintro t data t' ht - ht'
  obtain ⟨i, -, rfl⟩ := Option.map_eq_some_iff.mp ht'
  exact ht

/-- The TLBs of the first level ask the STLB, which walks the page table. -/
theorem requestLower_translates (h : Translates c T s) (hp : Demand c p) (hcalls : s.calls = [])
    (hans : c.hasLower = true → ∀ q, s'.calls = [.lowerAddRq q] → env.answers = [])
    (hwalk : c.hasLower = false → T p.address (env.walk / 2 ^ logPageSize))
    (hs' : requestLower c env s p = some s') : Translates c T s' := by
  unfold requestLower at hs'
  dsimp only at hs'
  have hadd := addMshr_translates (p := { p with cycleEnqueued := env.currentCoreCycle p.cpu }) h hp
  have hsame : (addMshr c s { p with cycleEnqueued := env.currentCoreCycle p.cpu }).calls = [] := by
    unfold addMshr
    split
    · exact hcalls
    · exact hcalls
  generalize addMshr c s { p with cycleEnqueued := env.currentCoreCycle p.cpu } = t at hadd hsame hs'
  split at hs'
  · rename_i hlower
    have hask : Translates c T (t.call (.lowerAddRq
        { p with cycleEnqueued := env.currentCoreCycle p.cpu })) := hadd.withCalls fun k hk => by
      rw [hsame, List.nil_append] at hk
      exact List.mem_singleton.mp hk ▸ hp
    have hnil := hans hlower _ ((answer_calls hs').trans (by
      unfold State.call
      rw [hsame]
      rfl))
    unfold answer at hs'
    rw [hnil, run_nil] at hs'
    cases hs'
    exact hask
  · rename_i hlower
    split at hs'
    · exact returnData_translates (invalidateAll_translates hadd env.walkInvalidates)
        (hwalk (by simpa using hlower)) hs'
    · cases hs'
      exact hadd

theorem upgrade_demand {p e : Packet} (he : e.type ≠ .prefetch) : upgrade p e = e := if_neg he

/-- A merge leaves the marks of the answer and the request alone. -/
theorem mergeRead_demand {p e : Packet} (he : Demand c e) (ht : Answered T e) :
    Demand c (mergeRead p e) ∧ Answered T (mergeRead p e) := by
  have hconsumers : (mergeConsumers p e).type = e.type ∧ (mergeConsumers p e).cpu = e.cpu ∧
      (mergeConsumers p e).address = e.address ∧ (mergeConsumers p e).data = e.data ∧
      (mergeConsumers p e).returned = e.returned := by
    unfold mergeConsumers
    split
    · dsimp only
      split <;> split <;> exact ⟨rfl, rfl, rfl, rfl, rfl⟩
    · split
      · dsimp only
        split <;> exact ⟨rfl, rfl, rfl, rfl, rfl⟩
      · dsimp only
        split <;> exact ⟨rfl, rfl, rfl, rfl, rfl⟩
  obtain ⟨htype, hcpu, haddress, hdata, hreturned⟩ := hconsumers
  have heq : mergeRead p e = mergeFill p (mergeConsumers p e) :=
    upgrade_demand (show (mergeConsumers p e).type ≠ .prefetch by rw [htype]; exact he.1)
  rw [heq]
  refine ⟨⟨?_, ?_⟩, ?_⟩
  · show (mergeConsumers p e).type ≠ .prefetch
    rw [htype]
    exact he.1
  · show (mergeConsumers p e).address ≠ 0 → (mergeConsumers p e).cpu = c.cpu
    rw [haddress, hcpu]
    exact he.2
  · show (mergeConsumers p e).returned = .completed →
      T (mergeConsumers p e).address (mergeConsumers p e).data
    rw [haddress, hdata, hreturned]
    exact ht

theorem readOne_translates (hc : c.cacheType.isTlb = true) (h : Translates c T s)
    (hcalls : s.calls = [])
    (hans : c.hasLower = true → ∀ q, s'.calls = [.lowerAddRq q] → env.answers = [])
    (hwalk : c.hasLower = false → Walks c s →
      T (s.rq.entry s.rq.head).address (env.walk / 2 ^ logPageSize))
    (hs' : readOne P env s = some s') : Translates c T s' := by
  have hp := h.rq s.rq.head
  unfold Walks at hwalk
  unfold readOne at hs'
  dsimp only at hs'
  generalize s.rq.entry s.rq.head = p at hp hwalk hs'
  cases hhit : checkHit c s p.address with
  | some way =>
    rw [hhit] at hs'
    exact readHit_translates hc h hhit hs'
  | none =>
    rw [hhit] at hs'
    obtain ⟨⟨handled, s₁⟩, hs₁, hs'⟩ := Option.bind_eq_some_iff.mp hs'
    have h₁ : Translates c T s₁ := by
      unfold readMiss at hs₁
      cases hm : checkMshr c s p.address with
      | some i =>
        rw [hm] at hs₁
        cases hs₁
        obtain ⟨hdemand, hanswered⟩ := mergeRead_demand (p := p) (h.mshr i).1 (h.mshr i).2
        exact h.setMshr hdemand hanswered rfl
      | none =>
        rw [hm] at hs₁
        dsimp only at hs₁
        split at hs₁
        · rename_i hroom
          rw [if_neg fun hand => by rw [hand.1] at hc; cases hc] at hs₁
          obtain ⟨s₂, hs₂, heq⟩ := Option.map_eq_some_iff.mp hs₁
          cases heq
          dsimp only [if_true] at hs'
          obtain ⟨s₃, hs₃, hs'⟩ := Option.bind_eq_some_iff.mp hs'
          rw [prefetcherLoad_tlb hc hs₃] at hs'
          obtain ⟨q, -, rfl⟩ := Option.map_eq_some_iff.mp hs'
          exact requestLower_translates h hp hcalls hans
            (fun hlower => hwalk hlower ⟨hhit, hm, hroom⟩) hs₂
        · split at hs₁
          · cases hs₁
            exact h
          · cases hs₁
    cases handled with
    | false =>
      cases hs'
      exact h₁
    | true =>
      dsimp only [if_true] at hs'
      obtain ⟨s₂, hs₂, hs'⟩ := Option.bind_eq_some_iff.mp hs'
      rw [prefetcherLoad_tlb hc hs₂] at hs'
      exact popRq_translates h₁ hs'

/-- With nothing in `WQ`, no data is forwarded. -/
theorem addRq_calls {r : Added × State ρ} (h : Translates c T s) (hr : addRq c env s p = some r) :
    r.2.calls = s.calls := by
  have hwq : s.wq.checkQueue p = none := if_pos h.wq
  unfold addRq at hr
  rw [hwq] at hr
  dsimp only at hr
  split at hr
  · cases hr
    rfl
  · split at hr
    · cases hr
      rfl
    · obtain ⟨q, -, hr⟩ := Option.bind_eq_some_iff.mp hr
      split at hr
      · cases hr
      · cases hr
        rfl

/-- A request waits in `RQ`, or is merged into the one that does. -/
theorem addRq_translates {r : Added × State ρ} (h : Translates c T s) (hp : Demand c p)
    (hr : addRq c env s p = some r) : Translates c T r.2 := by
  have hwq : s.wq.checkQueue p = none := if_pos h.wq
  unfold addRq at hr
  rw [hwq] at hr
  dsimp only at hr
  split at hr
  · cases hr
    refine { h with rq := forall_update h.rq ?_ _ }
    unfold mergeRq
    dsimp only
    split
    · exact h.rq _
    · split <;> exact h.rq _
  · split at hr
    · cases hr
      exact { h with }
    · obtain ⟨q, hq, hr⟩ := Option.bind_eq_some_iff.mp hr
      split at hr
      · cases hr
      · cases hr
        have hentry : q.entry = Function.update s.rq.entry s.rq.tail
            { p with eventCycle := env.delay c p.cpu p.eventCycle } :=
          congrArg Ring.entry (enqueue_eq hq)
        refine { h with rq := fun i => ?_ }
        show Demand c (q.entry i)
        rw [hentry]
        exact forall_update h.rq (x := { p with eventCycle := env.delay c p.cpu p.eventCycle }) hp
          _ i

/-- A TLB has no room for prefetches. -/
theorem runCallback_translates {cpu : Nat} {k : Callback} (h : Translates c T s)
    (hs' : runCallback c env cpu s k = some s') : Translates c T s' ∧ s'.calls = s.calls := by
  have hpq : ¬ s.pq.occupancy < s.pq.size := by
    rw [h.pq.2]
    omega
  cases k with
  | prefetchLine ip baseAddr pfAddr level metadata =>
    simp only [runCallback, prefetchLine, issuePrefetch] at hs'
    rw [if_neg fun hand => hpq hand.1] at hs'
    cases hs'
    exact ⟨{ h with }, rfl⟩
  | kpcPrefetchLine baseAddr pfAddr level delta depth signature confidence metadata =>
    simp only [runCallback, kpcPrefetchLine, issuePrefetch] at hs'
    rw [if_neg fun hand => hpq hand.1] at hs'
    cases hs'
    exact ⟨h, rfl⟩
  | prefetchCodeLine pfVAddr pfPa =>
    simp only [runCallback, prefetchCodeLine] at hs'
    split at hs'
    · cases hs'
    · cases hs'
      exact ⟨{ h with }, rfl⟩
  | invalidate address =>
    cases hs'
    refine ⟨invalidateEntry_translates h address, ?_⟩
    unfold invalidateEntry
    split <;> rfl

end Handlers

end Cache
end ChampSim
