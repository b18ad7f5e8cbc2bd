import ChampSim.O3.Counts
import ChampSim.O3.Stations
import ChampSim.Lib.Slots

/-!
# ChampSim.O3.Operands

`num_mem_ops` while the operands of an instruction pass through the queues.

* `missing c x`, `s.queued i` — the operands that have not entered a queue, and those that are in
  one and not done.
* `Accounts c twice s` — `num_mem_ops` is their sum for every instruction of the ROB.
* `Closed l s s'`, `Filling i l s s'` — a load is done and leaves; a load enters.
* `Accounts.closed_ops` — an instruction without open operands has none in the queues.
-/

namespace ChampSim
namespace O3

open Lib ChampSim.Core

variable {μ : Type}

/-! ## Open operands -/

/-- How many of `n` operands have not entered their queue. -/
def outside (n : Nat) (memory : Nat → Nat) (added : Nat → Bool) : Nat :=
  Nat.count (fun j => memory j ≠ 0 ∧ added j = false) n

theorem outside_added {n j : Nat} {memory : Nat → Nat} {added : Nat → Bool} (hj : j < n)
    (hm : memory j ≠ 0) (ha : added j = false) :
    outside n memory added = outside n memory (Function.update added j true) + 1 := by
  refine count_lower hj ⟨hm, ha⟩ ?_ fun k _ hk => ?_
  · rw [Function.update_self]
    exact fun h => absurd h.2 (by decide)
  · rw [Function.update_of_ne hk]

/-- The operands of `x` that have not entered a queue. -/
def missing (c : Config) (x : OooModelInstr) : Nat :=
  outside c.maxInstrDestinations x.destinationMemory x.destinationAdded +
    outside numInstrSources x.sourceMemory x.sourceAdded

def OpenLoad (i : Nat) (e : LsqEntry) : Prop := e.virtualAddress ≠ 0 ∧ e.robIndex = i

def OpenStore (i : Nat) (e : LsqEntry) : Prop :=
  e.virtualAddress ≠ 0 ∧ e.robIndex = i ∧ e.fetched ≠ .completed

instance (i : Nat) : DecidablePred (OpenLoad i) := fun _ => inferInstanceAs (Decidable (_ ∧ _))

instance (i : Nat) : DecidablePred (OpenStore i) := fun _ => inferInstanceAs (Decidable (_ ∧ _))

/-- The operands of the instruction at `i` that are in a queue and not done. -/
def Cpu.queued (s : Cpu μ) (i : Nat) : Nat :=
  Nat.count (fun l => OpenLoad i (s.lq.entry l)) lqSize +
    Nat.count (fun k => OpenStore i (s.sq.entry k)) sqSize

/-- `num_mem_ops` counts the operands that have not entered a queue and those that are not done.
`twice` tells which are both while a load enters. -/
structure Accounts (c : Config) (twice : Nat → Nat) (s : Cpu μ) : Prop where
  loads : ∀ l, (s.lq.entry l).virtualAddress ≠ 0 →
    l < lqSize ∧ s.rob.Live (s.lq.entry l).robIndex
  ops : ∀ i, s.rob.Live i →
    (s.rob.entry i).numMemOps + twice i = missing c (s.rob.entry i) + s.queued i

/-- The part of an instruction that the account is about. -/
def account (c : Config) (x : OooModelInstr) : Int × Nat := (x.numMemOps, missing c x)

/-- The part of an entry. -/
def owner (e : LsqEntry) : Nat × Nat := (e.virtualAddress, e.robIndex)

section Accounts

variable {c : Config} {twice : Nat → Nat} {s s' : Cpu μ} {i j l k : Nat} {e e' : LsqEntry}
  {x : OooModelInstr}

theorem owner_eq (h : owner e' = owner e) :
    e'.virtualAddress = e.virtualAddress ∧ e'.robIndex = e.robIndex := Prod.mk.inj h

theorem openLoad_congr (h : owner e' = owner e) : OpenLoad i e' ↔ OpenLoad i e := by
  obtain ⟨haddress, hrob⟩ := owner_eq h
  unfold OpenLoad
  rw [haddress, hrob]

theorem openStore_congr (h : owner e' = owner e)
    (hf : e'.fetched = .completed ↔ e.fetched = .completed) :
    OpenStore i e' ↔ OpenStore i e := by
  obtain ⟨haddress, hrob⟩ := owner_eq h
  unfold OpenStore
  rw [haddress, hrob, ne_eq, ne_eq, ne_eq, hf]

theorem accounts_init (mem : μ) : Accounts c twice (.init mem) := by
  refine ⟨fun l h => absurd rfl h, ?_⟩
  rintro i ⟨k, hk, -⟩
  exact absurd hk (Nat.not_lt_zero k)

theorem Accounts.alike (h : Accounts c twice s) (hrob : Ring.Alike (account c) s.rob s'.rob)
    (hlq : ∀ l, owner (s'.lq.entry l) = owner (s.lq.entry l))
    (hsq : ∀ k, owner (s'.sq.entry k) = owner (s.sq.entry k) ∧
      ((s'.sq.entry k).fetched = .completed ↔ (s.sq.entry k).fetched = .completed)) :
    Accounts c twice s' where
  loads := by
    intro l hl
    obtain ⟨haddress, hindex⟩ := owner_eq (hlq l)
    rw [haddress] at hl
    rw [hindex, hrob.live]
    exact h.loads l hl
  ops := by
    intro i hi
    obtain ⟨hops, hmissing⟩ := Prod.mk.inj (hrob.entry i)
    have hqueued : s'.queued i = s.queued i := congrArg₂ (· + ·)
      (count_congr fun l _ => openLoad_congr (hlq l))
      (count_congr fun k _ => openStore_congr (hsq k).1 (hsq k).2)
    rw [hops, hmissing, hqueued]
    exact h.ops i (hrob.live.mp hi)

/-- The queues are as they were, and the account of every instruction. -/
theorem Accounts.same (h : Accounts c twice s) (hrob : Ring.Alike (account c) s.rob s'.rob)
    (hlq : s'.lq = s.lq) (hsq : s'.sq = s.sq) : Accounts c twice s' :=
  h.alike hrob (fun _ => by rw [hlq]) fun _ => by rw [hsq]; exact ⟨rfl, .rfl⟩

/-- The load in slot `l` is done and leaves the queue. -/
structure Closed (l : Nat) (s s' : Cpu μ) : Prop where
  quiet : Quiet held s s'
  lq : s'.lq.entry = Function.update s.lq.entry l .empty
  sq : s'.sq = s.sq
  rtl : s'.rtl = s.rtl
  rts : s'.rts = s.rts
  ops : ∀ i, (s'.rob.entry i).numMemOps =
    (s.rob.entry i).numMemOps - if (s.lq.entry l).robIndex = i then 1 else 0

theorem missing_held (x : OooModelInstr) : missing c (held x) = missing c x := rfl

theorem Quiet.missing (h : Quiet held s s') (i : Nat) :
    missing c (s'.rob.entry i) = O3.missing c (s.rob.entry i) := by
  rw [← missing_held (s'.rob.entry i), h.rob.entry i, missing_held]

theorem Accounts.closed (h : Accounts c twice s) (hl : (s.lq.entry l).virtualAddress ≠ 0)
    (hs : Closed l s s') : Accounts c twice s' where
  loads := by
    intro k hk
    rw [hs.lq] at hk ⊢
    by_cases hkl : k = l
    · subst hkl
      rw [Function.update_self] at hk
      exact absurd rfl hk
    · rw [Function.update_of_ne hkl] at hk ⊢
      rw [hs.quiet.rob.live]
      exact h.loads k hk
  ops := by
    intro i hi
    have hold := h.ops i (hs.quiet.rob.live.mp hi)
    have hcount := count_update (OpenLoad i) s.lq.entry (h.loads l hl).1 .empty
    rw [if_neg (show ¬ OpenLoad i .empty from fun hopen => hopen.1 rfl)] at hcount
    have hload : OpenLoad i (s.lq.entry l) ↔ (s.lq.entry l).robIndex = i :=
      ⟨fun hopen => hopen.2, fun hindex => ⟨hl, hindex⟩⟩
    have hqueued : s'.queued i + (if (s.lq.entry l).robIndex = i then 1 else 0) = s.queued i := by
      unfold Cpu.queued
      rw [hs.lq, hs.sq]
      simp only [hload] at hcount
      omega
    rw [hs.ops i, hs.quiet.missing]
    split at hqueued <;> omega

/-! ## Loads that are done -/

theorem finishMemOp_feeds {n : Nat} (h : finishMemOp i n s = some s') :
    s'.rtl = s.rtl ∧ s'.rts = s.rts := by
  rw [finishMemOp_eq] at h
  split at h
  · cases h
  · cases h
    exact ⟨rfl, rfl⟩

/-- A load is dated, its operand is closed, and it leaves the queue. -/
theorem closed_of_finish {f : LsqEntry → LsqEntry} {n : Nat}
    (hf : ∀ e, loadKey (f e) = loadKey e)
    (h : finishMemOp (s.lq.entry l).robIndex n (s.modifyLq l f) = some s') :
    Closed l s (releaseLoadQueue l s') where
  quiet := quiet_loadSide.served hf h
  lq := by
    obtain ⟨-, -, hlq, -⟩ := finishMemOp_some h
    show Function.update s'.lq.entry l _ = _
    rw [hlq]
    exact Function.update_idem ..
  sq := (finishMemOp_some h).2.2.2.1
  rtl := (finishMemOp_feeds h).1
  rts := (finishMemOp_feeds h).2
  ops := by
    intro i
    obtain ⟨-, hrob, -⟩ := finishMemOp_some h
    show (s'.rob.entry i).numMemOps = _
    rw [hrob]
    exact numMemOps_finished ..

theorem Closed.depend (h : Closed l s s') (p d : Nat) : Closed l s (s'.modifyRob p fun x =>
    { x with memoryInstrsDependOnMe := insert d x.memoryInstrsDependOnMe }) where
  quiet := h.quiet.trans (quiet_modifyRob s' p fun _ => rfl)
  lq := h.lq
  sq := h.sq
  rtl := h.rtl
  rts := h.rts
  ops := by
    intro i
    rw [← h.ops i]
    have halike : Ring.Alike OooModelInstr.numMemOps s'.rob (s'.modifyRob p fun x =>
      { x with memoryInstrsDependOnMe := insert d x.memoryInstrsDependOnMe }).rob := .of_update rfl
    exact halike.entry i

theorem resolveLoad_closed {p d j : Nat} (h : resolveLoad p k d j l s = some s') :
    Closed l s s' := by
  simp only [resolveLoad] at h
  split at h
  · cases h
  · split at h
    · cases h
    · obtain ⟨t, ht, rfl⟩ := Option.map_eq_some_iff.mp h
      simp only [modifyLq_self] at ht
      have hclosed := closed_of_finish (fun _ => by rfl) ht
      split
      · exact hclosed.depend p d
      · exact hclosed

theorem loadReturned_closed {n : Nat} (hi : i = (s.lq.entry l).robIndex)
    (h : loadReturned l i n s = some s') : Closed l s s' := by
  obtain ⟨t, ht, rfl⟩ := Option.map_eq_some_iff.mp h
  subst hi
  exact closed_of_finish (fun _ => by rfl) ht

theorem forwardFrom_closed (h : forwardFrom l k s = some s') : s' = s ∨ Closed l s s' := by
  simp only [forwardFrom] at h
  split at h
  · obtain ⟨t, ht, rfl⟩ := Option.map_eq_some_iff.mp h
    simp only [modifyLq_self] at ht
    exact .inr (closed_of_finish (fun _ => by rfl) ht)
  · cases h
    exact .inl rfl

/-! ## A load enters -/

/-- The load of the instruction at `i` stands in slot `l`, without a mark in any list. -/
structure Filling (i l : Nat) (s s' : Cpu μ) : Prop where
  quiet : Quiet held s s'
  ops : Ring.Alike OooModelInstr.numMemOps s.rob s'.rob
  others : ∀ k ≠ l, s'.lq.entry k = s.lq.entry k
  sq : s'.sq = s.sq
  rtl : s'.rtl = s.rtl
  rts : s'.rts = s.rts
  this : s'.load l = .ready ∨ s'.load l = .tied
  index : (s'.lq.entry l).robIndex = i

theorem enterLoad_filling {j : Nat} (hfree : s.load l = .free)
    (hm : (s.rob.entry i).sourceMemory j ≠ 0) : Filling i l s (enterLoad c i j l s) where
  quiet := enterLoad_quiet i j l s
  ops := .of_update rfl
  others := fun k hk => by rw [enterLoad_lq, Function.update_of_ne hk]
  sq := rfl
  rtl := rfl
  rts := rfl
  this := by
    obtain ⟨-, halone, htranslated, hfetched⟩ := station_eq hfree
    have hload := load_update (enterLoad_lq c i j l s)
    rw [hload, Function.update_self]
    refine .inl ?_
    show (⟨(s.rob.entry i).sourceMemory j == 0, (s.lq.entry l).producerId == u64Max,
      (s.lq.entry l).translated, (s.lq.entry l).fetched⟩ : Station) = _
    rw [halone, htranslated, hfetched, beq_eq_false_iff_ne.mpr hm]
    rfl
  index := by
    rw [enterLoad_lq, Function.update_self]
    rfl

theorem Filling.memRawDependency {p j : Nat} (h : Filling i l s s')
    (hid : (s.rob.entry p).instrId ≠ u64Max) :
    Filling i l s (memRawDependency c p i j l s') := by
  have hid' : (s'.rob.entry p).instrId ≠ u64Max := by
    have hheld := congrArg OooModelInstr.instrId (h.quiet.rob.entry p)
    exact fun heq => hid (hheld.symm.trans heq)
  unfold O3.memRawDependency
  split
  · refine ⟨h.quiet.trans ?_, h.ops.trans (.of_update rfl), fun k hk => ?_, h.sq, h.rtl, h.rts,
      .inr ?_, ?_⟩
    · refine Quiet.trans ?_ (quiet_modifyLq _ l _)
      exact quiet_modifyRob s' p fun _ => rfl
    · exact (Function.update_of_ne hk ..).trans (h.others k hk)
    · have hthis : (s'.load l).vacant = false ∧ (s'.load l).fetched = .idle := by
        rcases h.this with hready | htied
        · rw [hready]
          exact ⟨rfl, rfl⟩
        · rw [htied]
          exact ⟨rfl, rfl⟩
      show station (Function.update s'.lq.entry l _ l) = _
      rw [Function.update_self]
      show (⟨(s'.load l).vacant, (s'.rob.entry p).instrId == u64Max, .inflight,
        (s'.load l).fetched⟩ : Station) = _
      rw [hthis.1, hthis.2, beq_eq_false_iff_ne.mpr hid']
      rfl
    · show (Function.update s'.lq.entry l _ l).robIndex = i
      rw [Function.update_self]
      exact h.index
  · exact h

theorem Filling.findProducer {j : Nat} (h : Filling i l s s')
    (hids : ∀ p ∈ priors s.rob i, (s.rob.entry p).instrId ≠ u64Max) :
    Filling i l s (findProducer c i j l s') := by
  have hpriors : priors s'.rob i = priors s.rob i := by
    unfold priors
    rw [h.quiet.rob.head, h.quiet.rob.size]
  unfold O3.findProducer
  rw [hpriors]
  refine List.foldlRecOn _ _ h fun t ht p hp => ?_
  split
  · exact ht
  · exact ht.memRawDependency (hids p hp)

/-- A later store makes a load that waits for none start anew. -/
theorem Filling.reset (h : Filling i l s s')
    (hid : (s'.lq.entry l).producerId = u64Max) : Filling i l s (s'.modifyLq l fun e =>
      { e with physicalAddress := 0, translated := .idle, fetched := .idle }) where
  quiet := h.quiet.trans (quiet_modifyLq s' l _)
  ops := h.ops
  others := fun k hk => (Function.update_of_ne hk ..).trans (h.others k hk)
  sq := h.sq
  rtl := h.rtl
  rts := h.rts
  this := by
    have hvacant : (s'.load l).vacant = false := by
      rcases h.this with hready | htied
      · rw [hready]
        rfl
      · rw [htied]
        rfl
    refine .inl ?_
    show station (Function.update s'.lq.entry l _ l) = _
    rw [Function.update_self]
    show (⟨(s'.load l).vacant, (s'.lq.entry l).producerId == u64Max, .idle, .idle⟩ : Station) = _
    rw [hvacant, hid]
    rfl
  index := by
    rw [modifyLq_self]
    exact h.index

theorem Filling.forwardLoop (is : List Nat) :
    ∀ {s' : Cpu μ}, Filling i l s s' → Filling i l s (forwardLoop i l is s').2 := by
  induction is with
  | nil => exact fun h => h
  | cons a is ih =>
    intro s' h
    simp only [O3.forwardLoop]
    split
    · split
      · exact h
      · split
        · rename_i hreset
          exact ih (h.reset hreset.1)
        · exact ih h
    · exact ih h

/-- The load before its last part: it has been filled in, and it may have got its data. -/
theorem addLoadQueue_filling {j : Nat} (h : addLoadQueue c i j s = some s')
    (hloads : ∀ l, s.load l ∈ Station.loads) (hm : (s.rob.entry i).sourceMemory j ≠ 0)
    (hids : ∀ p ∈ priors s.rob i, (s.rob.entry p).instrId ≠ u64Max) :
    ∃ l t, l < s.lq.size ∧ s.load l = .free ∧ s' = loadAdded i j l t ∧
      (Filling i l s t ∨ ∃ u, Filling i l s u ∧ Closed l u t) := by
  obtain ⟨l, hl, h⟩ := Option.bind_eq_some_iff.mp h
  obtain ⟨t, ht, rfl⟩ := Option.map_eq_some_iff.mp h
  obtain ⟨hzero, -, hinside, -⟩ := PacketQueue.findFrom_eq_some.mp hl
  have hfree : s.load l = .free := load_free (hloads l) (beq_iff_eq.mp hzero)
  have hfound := (enterLoad_filling (c := c) hfree hm).findProducer (c := c) (j := j) hids
  generalize findProducer c i j l (enterLoad c i j l s) = s₁ at hfound ht
  have hloop := hfound.forwardLoop (List.range s₁.sq.size)
  refine ⟨l, t, hinside, hfree, rfl, ?_⟩
  split at ht
  · rcases forwardFrom_closed ht with rfl | hclosed
    · exact .inl hloop
    · exact .inr ⟨_, hloop, hclosed⟩
  · cases ht
    exact .inl hloop

/-! ## The account of a load that enters -/

theorem countNonzero_eq (n : Nat) (memory : Nat → Nat) :
    countNonzero n (fun j => memory j != 0) = outside n memory fun _ => false := by
  unfold countNonzero outside Nat.count
  rw [List.countP_eq_length_filter]
  refine congrArg (fun l : List Nat => (l.length : Int)) (List.filter_congr fun j _ => ?_)
  rw [Bool.eq_iff_iff, bne_iff_ne, decide_eq_true_iff]
  exact ⟨fun h => ⟨h, rfl⟩, And.left⟩

theorem openStore_empty : ¬ OpenStore i .empty := fun h => h.1 rfl

theorem not_openLoad (h : s.load l = .free) : ¬ OpenLoad i (s.lq.entry l) := fun hopen => by
  have hvacant := (station_eq h).1
  exact hopen.1 (beq_iff_eq.mp hvacant)

/-- The load is counted in the queue before its operand is marked. -/
theorem Accounts.filling (h : Accounts c twice s) (hi : s.rob.Live i) (hl : l < lqSize)
    (hfree : s.load l = .free) (hf : Filling i l s s') :
    Accounts c (fun k => twice k + if k = i then 1 else 0) s' where
  loads := by
    intro k hk
    by_cases hkl : k = l
    · subst hkl
      rw [hf.index, hf.quiet.rob.live]
      exact ⟨hl, hi⟩
    · rw [hf.others k hkl] at hk ⊢
      rw [hf.quiet.rob.live]
      exact h.loads k hk
  ops := by
    intro n hn
    have hold := h.ops n (hf.quiet.rob.live.mp hn)
    have haddress : (s'.lq.entry l).virtualAddress ≠ 0 := by
      rcases hf.this with hready | htied
      · exact address_of_station hready rfl
      · exact address_of_station htied rfl
    have hopen : OpenLoad n (s'.lq.entry l) ↔ n = i :=
      ⟨fun hopen => hopen.2.symm.trans hf.index, fun heq => ⟨haddress, heq ▸ hf.index⟩⟩
    have hcount := count_update (OpenLoad n) s.lq.entry hl (s'.lq.entry l)
    have hentry : Function.update s.lq.entry l (s'.lq.entry l) = s'.lq.entry := by
      funext k
      by_cases hkl : k = l
      · subst hkl
        exact Function.update_self ..
      · rw [Function.update_of_ne hkl, hf.others k hkl]
    rw [hentry, if_neg (not_openLoad hfree)] at hcount
    simp only [hopen] at hcount
    have hqueued : s'.queued n = s.queued n + if n = i then 1 else 0 := by
      unfold Cpu.queued
      rw [hf.sq]
      omega
    rw [hf.ops.entry n, hf.quiet.missing, hqueued]
    split <;> omega

/-- One operand of the instruction at `i` is marked as added. -/
theorem Accounts.mark {f : OooModelInstr → OooModelInstr}
    (h : Accounts c (fun k => twice k + if k = i then 1 else 0) s)
    (hops : (f (s.rob.entry i)).numMemOps = (s.rob.entry i).numMemOps)
    (hf : missing c (s.rob.entry i) = missing c (f (s.rob.entry i)) + 1)
    (hrob : s'.rob = modify s.rob i f) (hlq : s'.lq = s.lq) (hsq : s'.sq = s.sq) :
    Accounts c twice s' where
  loads := by
    have hlive : ∀ k, s'.rob.Live k ↔ s.rob.Live k := fun k => by
      rw [hrob]
      exact (alike_modify (π := fun _ => ()) rfl).live
    intro k hk
    rw [hlq] at hk ⊢
    rw [hlive]
    exact h.loads k hk
  ops := by
    have hlive : ∀ k, s'.rob.Live k ↔ s.rob.Live k := fun k => by
      rw [hrob]
      exact (alike_modify (π := fun _ => ()) rfl).live
    intro n hn
    have hold := h.ops n ((hlive n).mp hn)
    have hqueued : s'.queued n = s.queued n := by
      unfold Cpu.queued
      rw [hlq, hsq]
    rw [hqueued, hrob]
    by_cases hni : n = i
    · subst hni
      rw [if_pos rfl] at hold
      rw [modify_self, hops]
      omega
    · rw [if_neg hni] at hold
      rw [modify_ne hni]
      omega

theorem loadAdded_sq (i j l : Nat) (s : Cpu μ) : (loadAdded i j l s).sq = s.sq := by
  unfold loadAdded
  dsimp only
  split
  · rfl
  · rfl

theorem Accounts.addLoad (h : Accounts c twice s) (hi : s.rob.Live i) (hsize : s.lq.size = lqSize)
    (hloads : ∀ l, s.load l ∈ Station.loads) (hj : j < numInstrSources)
    (hm : (s.rob.entry i).sourceMemory j ≠ 0) (ha : (s.rob.entry i).sourceAdded j = false)
    (hids : ∀ p ∈ priors s.rob i, (s.rob.entry p).instrId ≠ u64Max)
    (hs : addLoadQueue c i j s = some s') : Accounts c twice s' := by
  obtain ⟨l, t, hl, hfree, rfl, hcases⟩ := addLoadQueue_filling hs hloads hm hids
  have hfilled : Accounts c (fun k => twice k + if k = i then 1 else 0) t ∧ Quiet held s t := by
    rcases hcases with hf | ⟨u, hf, hclosed⟩
    · exact ⟨h.filling hi (hsize ▸ hl) hfree hf, hf.quiet⟩
    · have haddress : (u.lq.entry l).virtualAddress ≠ 0 := by
        rcases hf.this with hready | htied
        · exact address_of_station hready rfl
        · exact address_of_station htied rfl
      exact ⟨(h.filling hi (hsize ▸ hl) hfree hf).closed haddress hclosed,
        hf.quiet.trans hclosed.quiet⟩
  obtain ⟨ht, hquiet⟩ := hfilled
  have hmemory : (t.rob.entry i).sourceMemory = (s.rob.entry i).sourceMemory := by
    have hheld := congrArg OooModelInstr.sourceMemory (hquiet.rob.entry i)
    exact hheld
  have hadded : (t.rob.entry i).sourceAdded = (s.rob.entry i).sourceAdded := by
    have hheld := congrArg OooModelInstr.sourceAdded (hquiet.rob.entry i)
    exact hheld
  have hrob := loadAdded_rob i j l t
  refine ht.mark (f := operandAdded j) rfl ?_ hrob.1 hrob.2 (loadAdded_sq i j l t)
  have hcount := outside_added hj (hmemory ▸ hm) (hadded ▸ ha)
  show _ + outside _ _ _ = _ + outside _ _ _ + 1
  rw [hcount]
  rfl

/-! ## The account of a store -/

theorem Accounts.addStore (h : Accounts c twice s) (htail : s.sq.tail < sqSize)
    (hj : j < c.maxInstrDestinations) (hm : (s.rob.entry i).destinationMemory j ≠ 0)
    (ha : (s.rob.entry i).destinationAdded j = false) (hfree : s.store s.sq.tail = .free)
    (hs : addStoreQueue c i j s = some s') : Accounts c twice s' := by
  obtain ⟨-, rfl⟩ := addStoreQueue_eq hs
  obtain ⟨hvacant, -, -, hfetched⟩ := station_eq hfree
  let e := storeEntry c i j s.cycle (s.rob.entry i) (s.sq.entry s.sq.tail)
  have hin : Accounts c (fun k => twice k + if k = i then 1 else 0)
      { s with sq := s.sq.push e } := by
    refine ⟨h.loads, fun n hn => ?_⟩
    have hold := h.ops n hn
    have hopen : OpenStore n e ↔ n = i := by
      refine ⟨fun hopen => hopen.2.1.symm, fun heq => ⟨hm, heq.symm, ?_⟩⟩
      show (s.sq.entry s.sq.tail).fetched ≠ .completed
      rw [hfetched]
      decide
    have hcount := count_update (OpenStore n) s.sq.entry htail e
    rw [if_neg (fun hopen : OpenStore n _ => hopen.1 (beq_iff_eq.mp hvacant))] at hcount
    simp only [hopen] at hcount
    have hqueued : Cpu.queued { s with sq := s.sq.push e } n =
        s.queued n + if n = i then 1 else 0 := by
      unfold Cpu.queued
      show Nat.count (fun l => OpenLoad n (s.lq.entry l)) lqSize +
        Nat.count (fun k => OpenStore n (Function.update s.sq.entry s.sq.tail e k)) sqSize = _
      omega
    rw [hqueued]
    push_cast
    omega
  refine hin.mark (f := storeAdded j s.sq.tail) rfl ?_ rfl rfl rfl
  have hcount := outside_added hj hm ha
  show outside _ _ _ + _ = outside _ _ _ + _ + 1
  rw [hcount]
  exact Nat.add_right_comm ..

/-- The store itself is done. -/
theorem Accounts.execute {t : Cpu μ} (h : Accounts c twice s) (hk : k < sqSize)
    (hknown : s.store k = .known)
    (ht : finishMemOp (s.sq.entry k).robIndex s.cycle (storeDone k s) = some t) :
    Accounts c twice t := by
  obtain ⟨-, hrob, hlq, hsq, -⟩ := finishMemOp_some ht
  have hrob : t.rob = modify s.rob (s.sq.entry k).robIndex (opFinished s.cycle) := hrob
  have hlq : t.lq = s.lq := hlq
  have hlive : ∀ i, t.rob.Live i ↔ s.rob.Live i := fun i => by
    rw [hrob]
    exact (alike_modify (π := fun _ => ()) rfl).live
  have hmissing : ∀ i, missing c (t.rob.entry i) = missing c (s.rob.entry i) := fun i => by
    rw [hrob]
    exact (alike_modify (π := missing c) rfl).entry i
  have haddress := address_of_station hknown rfl
  obtain ⟨-, -, -, hfetched⟩ := station_eq hknown
  refine ⟨fun l hl => ?_, fun i hi => ?_⟩
  · rw [hlq] at hl ⊢
    rw [hlive]
    exact h.loads l hl
  · have hold := h.ops i ((hlive i).mp hi)
    have hopen : OpenStore i (s.sq.entry k) ↔ (s.sq.entry k).robIndex = i := by
      refine ⟨fun hopen => hopen.2.1, fun hindex => ⟨haddress, hindex, ?_⟩⟩
      rw [hfetched]
      decide
    let e : LsqEntry := { s.sq.entry k with fetched := .completed, eventCycle := s.cycle }
    have hcount := count_update (OpenStore i) s.sq.entry hk e
    rw [if_neg (fun hopen : OpenStore i e => hopen.2.2 rfl)] at hcount
    simp only [hopen] at hcount
    have hqueued : t.queued i + (if (s.sq.entry k).robIndex = i then 1 else 0) = s.queued i := by
      unfold Cpu.queued
      rw [hlq, hsq]
      show Nat.count (fun l => OpenLoad i (s.lq.entry l)) lqSize +
        Nat.count (fun n => OpenStore i (Function.update s.sq.entry k e n)) sqSize + _ = _
      omega
    rw [hmissing, hrob, numMemOps_finished]
    split at hqueued <;> omega

/-! ## The ROB -/

theorem Fresh.missing (hx : Fresh c x) : x.numMemOps = missing c x := by
  rw [hx.numMemOps, countNonzero_eq, countNonzero_eq]
  unfold O3.missing
  rw [hx.destinationAdded, hx.sourceAdded]
  rfl

theorem Accounts.push (h : Accounts c (fun _ => 0) s) (hp : Pipe c s) (hb : StoreBooks s)
    (hroom : s.rob.occupancy < s.rob.size) (hx : Fresh c x) {d : Lib.Ring OooModelInstr} :
    Accounts c (fun _ => 0) { s with rob := s.rob.push x, decodeBuffer := d } := by
  have hlive : ∀ i, (s.rob.push x).Live i ↔ s.rob.Live i ∨ i = s.rob.tail := fun i =>
    Ring.live_push x hp.window.wf.tail_eq
  have htail := hp.window.wf.not_live_tail hroom
  refine ⟨fun l hl => ⟨(h.loads l hl).1, (hlive _).mpr (.inl (h.loads l hl).2)⟩, fun i hi => ?_⟩
  have hqueued : Cpu.queued { s with rob := s.rob.push x, decodeBuffer := d } i = s.queued i := rfl
  rw [hqueued]
  show ((s.rob.push x).entry i).numMemOps + _ = missing c ((s.rob.push x).entry i) + _
  by_cases hit : i = s.rob.tail
  · subst hit
    have hnone : s.queued s.rob.tail = 0 := by
      have hloads : Nat.count (fun l => OpenLoad s.rob.tail (s.lq.entry l)) lqSize = 0 := by
        by_contra hne
        obtain ⟨l, -, hopen⟩ := Nat.count_ne_iff_exists.mp hne
        exact htail (hopen.2 ▸ (h.loads l hopen.1).2)
      have hstores : Nat.count (fun k => OpenStore s.rob.tail (s.sq.entry k)) sqSize = 0 := by
        by_contra hne
        obtain ⟨k, -, hopen⟩ := Nat.count_ne_iff_exists.mp hne
        exact htail (hopen.2.1 ▸ (hb k hopen.1).live)
      exact congrArg₂ (· + ·) hloads hstores
    rw [Ring.push_entry_tail, hnone, hx.missing]
  · rw [Ring.push_entry_ne s.rob x hit]
    exact h.ops i (((hlive i).mp hi).resolve_right hit)

/-- An instruction whose operands are closed has none in the queues. -/
theorem Accounts.closed_ops (h : Accounts c (fun _ => 0) s) (hi : s.rob.Live i)
    (hzero : (s.rob.entry i).numMemOps = 0) :
    (∀ l, (s.lq.entry l).virtualAddress ≠ 0 → (s.lq.entry l).robIndex ≠ i) ∧
      ∀ k < sqSize, (s.sq.entry k).virtualAddress ≠ 0 → (s.sq.entry k).robIndex = i →
        (s.sq.entry k).fetched = .completed := by
  have hops := h.ops i hi
  rw [hzero] at hops
  have hqueued : s.queued i = 0 := by omega
  obtain ⟨hloads, hstores⟩ := Nat.add_eq_zero_iff.mp hqueued
  refine ⟨fun l hl hindex => ?_, fun k hk haddress hindex => ?_⟩
  · have hpos := count_pos_of (p := fun l => OpenLoad i (s.lq.entry l)) (h.loads l hl).1
      ⟨hl, hindex⟩
    omega
  · by_contra hopen
    have hpos := count_pos_of (p := fun k => OpenStore i (s.sq.entry k)) hk
      ⟨haddress, hindex, hopen⟩
    omega

/-- The slots that retirement clears hold stores of the head. -/
theorem cleared_slot (hp : Pipe c s) (ho : Occupied c s) (hb : StoreBooks s) (hf : FreshIds s)
    (hip : (s.rob.entry s.rob.head).ip ≠ 0)
    (hdone : (s.rob.entry s.rob.head).executed = .completed)
    (hk : k ∈ (notedBelow (s.rob.entry s.rob.head) c.maxInstrDestinations).map
      (s.rob.entry s.rob.head).sqIndex) :
    k < sqSize ∧ (s.sq.entry k).virtualAddress ≠ 0 ∧ (s.sq.entry k).robIndex = s.rob.head := by
  have hsplit := ho.retire_stored hp hip hdone s.mem
  have hmem : ∀ a ∈ stores c (s.rob.entry s.rob.head), a ∈ stored c s := fun a ha =>
    hsplit ▸ List.mem_append_left _ ha
  have hnoted := (ho.settled s.rob.head).notedBelow fun a ha => (ho.entries a (hmem a ha)).1
  rw [hnoted, ← slots_stores] at hk
  obtain ⟨a, ha, rfl⟩ := List.mem_map.mp hk
  obtain ⟨hlt, hkey⟩ := ho.entries a (hmem a ha)
  obtain ⟨j, -, rfl⟩ := List.mem_map.mp ha
  simp only [entryKey, Store.key, storeOf, Prod.mk.injEq] at hkey
  obtain ⟨hid, -, haddress⟩ := hkey
  have hne : (s.sq.entry (storeOf (s.rob.entry s.rob.head) j).slot).virtualAddress ≠ 0 := by
    show (s.sq.entry ((s.rob.entry s.rob.head).sqIndex j)).virtualAddress ≠ 0
    rw [haddress]
    exact address_ne_zero (List.mem_filter.mp (hmem _ ha)).1
  have hplaced := hb _ hne
  exact ⟨hlt, hne, hp.id_inj hf hplaced.live (hp.window.live_head hip) (hplaced.id.trans hid)⟩

theorem Accounts.retire (h : Accounts c (fun _ => 0) s) (hp : Pipe c s) (ho : Occupied c s)
    (hb : StoreBooks s) (hf : FreshIds s) (hip : (s.rob.entry s.rob.head).ip ≠ 0)
    (hdone : (s.rob.entry s.rob.head).executed = .completed)
    (hzero : (s.rob.entry s.rob.head).numMemOps = 0) (mem : μ) :
    Accounts c (fun _ => 0) (releaseHead c { s with mem := mem }) := by
  have hpos := hp.window.occupancy_pos (hp.window.live_head hip)
  have hlive : ∀ i, (s.rob.pop .empty).Live i ↔ s.rob.Live i ∧ i ≠ s.rob.head := fun i =>
    Ring.live_pop _ hp.window.head_lt hp.window.wf.occ_le hpos
  obtain ⟨hloads, hstores⟩ := h.closed_ops (hp.window.live_head hip) hzero
  refine ⟨fun l hl => ⟨(h.loads l hl).1, (hlive _).mpr ⟨(h.loads l hl).2, hloads l hl⟩⟩,
    fun i hi => ?_⟩
  obtain ⟨hi, hhead⟩ := (hlive i).mp hi
  have hqueued : (releaseHead c { s with mem := mem }).queued i = s.queued i := by
    refine congrArg (_ + ·) (count_congr fun k hk => ?_)
    have hentry : (releaseHead c { s with mem := mem }).sq.entry k =
        if k ∈ (notedBelow (s.rob.entry s.rob.head) c.maxInstrDestinations).map
          (s.rob.entry s.rob.head).sqIndex then .empty else s.sq.entry k := releaseUpTo_entry ..
    rw [hentry]
    split
    · rename_i hnoted
      obtain ⟨hlt, haddress, hindex⟩ := cleared_slot hp ho hb hf hip hdone hnoted
      exact ⟨fun hopen => absurd hopen openStore_empty, fun hopen =>
        absurd (hstores k hlt haddress hindex) hopen.2.2⟩
    · exact .rfl
  rw [hqueued]
  show ((s.rob.pop .empty).entry i).numMemOps + _ = missing c ((s.rob.pop .empty).entry i) + _
  rw [Ring.pop_entry_ne s.rob _ hhead]
  exact h.ops i hi

end Accounts

end O3
end ChampSim
