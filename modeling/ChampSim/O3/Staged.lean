import ChampSim.O3.Operands
import ChampSim.Cache.Waiters

/-!
# ChampSim.O3.Staged

The loads and stores that wait for the DTLB or the L1D, as the core sees them.

* `Awaits s server w` — `w` has asked the structure and has no answer.
* `Staged c s`       — the operands stand where the ready lists say, and `num_mem_ops` counts them.
* `Staged.alike`, `.addLoad`, `.addStore`, `.executeStore`, `.retire` — the steps for which nobody
  begins or ends to wait.
-/

namespace ChampSim
namespace O3

open Lib ChampSim.Core
open Cache (Waiter)

variable {μ : Type}

/-! ## Who waits -/

/-- The structure from which an answer is to come. -/
def Station.asks (x : Station) : Option Server :=
  if x = .translating then some .dtlb else if x = .fetching then some .l1d else none

theorem Station.asks_some {x : Station} {server : Server} (h : x.asks = some server) :
    server = .dtlb ∧ x = .translating ∨ server = .l1d ∧ x = .fetching := by
  unfold Station.asks at h
  split at h
  · rename_i heq
    cases h
    exact .inl ⟨rfl, heq⟩
  · split at h
    · rename_i heq
      cases h
      exact .inr ⟨rfl, heq⟩
    · cases h

def Cpu.stage (s : Cpu μ) : Waiter → Station
  | .lq l => s.load l
  | .sq k => s.store k

/-- The load or store has asked the structure and has no answer. -/
def Awaits (s : Cpu μ) (server : Server) (w : Waiter) : Prop := (s.stage w).asks = some server

/-- It begins to wait. -/
structure Joins (server : Server) (w : Waiter) (s s' : Cpu μ) : Prop where
  new : ¬ Awaits s server w
  waits : ∀ server' w', Awaits s' server' w' ↔ Awaits s server' w' ∨ server' = server ∧ w' = w

/-- These have their answer. -/
def Leaves (server : Server) (ws : Multiset Waiter) (s s' : Cpu μ) : Prop :=
  ∀ server' w, Awaits s' server' w ↔ Awaits s server' w ∧ ¬(server' = server ∧ w ∈ ws)

/-- The stations of the loads, their ready lists, and `num_mem_ops`. -/
structure Loading (c : Config) (s : Cpu μ) : Prop where
  loads : Lanes Station.loads lqSize s.load s.rtl
  accounts : Accounts c (fun _ => 0) s

structure Staged (c : Config) (s : Cpu μ) : Prop extends Loading c s where
  stores : Lanes Station.stores sqSize s.store s.rts

section Awaits

variable {c : Config} {s s' s'' : Cpu μ} {i j l k : Nat} {x : Station} {server : Server}
  {w : Waiter}

theorem waits_congr (h : ∀ w, (s'.stage w).asks = (s.stage w).asks) : Awaits s' = Awaits s := by
  funext server w
  unfold Awaits
  rw [h w]

theorem stage_load (hload : s'.load = Function.update s.load l x) (hstore : s'.store = s.store) :
    s'.stage = Function.update s.stage (.lq l) x := by
  funext w
  cases w with
  | lq n =>
    show s'.load n = _
    rw [hload]
    by_cases hn : n = l
    · subst hn
      rw [Function.update_self, Function.update_self]
    · rw [Function.update_of_ne hn, Function.update_of_ne fun h => hn (Waiter.lq.inj h)]
      rfl
  | sq n =>
    have hne : Waiter.sq n ≠ .lq l := nofun
    rw [Function.update_of_ne hne]
    exact congrFun hstore n

theorem stage_store (hload : s'.load = s.load) (hstore : s'.store = Function.update s.store k x) :
    s'.stage = Function.update s.stage (.sq k) x := by
  funext w
  cases w with
  | lq n =>
    have hne : Waiter.lq n ≠ .sq k := nofun
    rw [Function.update_of_ne hne]
    exact congrFun hload n
  | sq n =>
    show s'.store n = _
    rw [hstore]
    by_cases hn : n = k
    · subst hn
      rw [Function.update_self, Function.update_self]
    · rw [Function.update_of_ne hn, Function.update_of_ne fun h => hn (Waiter.sq.inj h)]
      rfl

theorem stage_congr (hload : s'.load = s.load) (hstore : s'.store = s.store) :
    s'.stage = s.stage := by
  funext w
  cases w with
  | lq l => exact congrFun hload l
  | sq k => exact congrFun hstore k

theorem waits_update (h : s'.stage = Function.update s.stage w x)
    (hold : (s.stage w).asks = x.asks) : Awaits s' = Awaits s := by
  refine waits_congr fun w' => ?_
  rw [h]
  by_cases hw : w' = w
  · subst hw
    rw [Function.update_self, hold]
  · rw [Function.update_of_ne hw]

theorem joins_update (h : s'.stage = Function.update s.stage w x)
    (hold : (s.stage w).asks = none) (hnew : x.asks = some server) : Joins server w s s' where
  new := by
    unfold Awaits
    rw [hold]
    nofun
  waits := by
    intro server' w'
    unfold Awaits
    rw [h]
    by_cases hw : w' = w
    · subst hw
      rw [Function.update_self, hold, hnew, Option.some.injEq]
      exact ⟨fun heq => .inr ⟨heq.symm, rfl⟩, fun h => (h.resolve_left nofun).1.symm⟩
    · rw [Function.update_of_ne hw]
      exact ⟨.inl, fun h => h.resolve_right fun h => hw h.2⟩

theorem leaves_update (h : s'.stage = Function.update s.stage w x)
    (hold : (s.stage w).asks = some server) (hnew : x.asks = none) : Leaves server {w} s s' := by
  intro server' w'
  unfold Awaits
  rw [h, Multiset.mem_singleton]
  by_cases hw : w' = w
  · subst hw
    rw [Function.update_self, hold, hnew, Option.some.injEq]
    exact ⟨nofun, fun h => absurd ⟨h.1.symm, rfl⟩ h.2⟩
  · rw [Function.update_of_ne hw]
    exact ⟨fun h => ⟨h, fun h => hw h.2⟩, And.left⟩

theorem Leaves.trans {ws ws' : Multiset Waiter} (h : Leaves server ws s s')
    (h' : Leaves server ws' s' s'') : Leaves server (ws + ws') s s'' := by
  intro server' w'
  rw [h' server' w', h server' w', Multiset.mem_add]
  tauto

theorem Leaves.congr {ws ws' : Multiset Waiter} (h : Leaves server ws s s')
    (hws : ∀ w, w ∈ ws ↔ w ∈ ws') : Leaves server ws' s s' := by
  intro server' w'
  rw [h server' w', hws w']

theorem load_eq (hlq : s'.lq = s.lq) : s'.load = s.load := by
  unfold Cpu.load
  rw [hlq]

theorem store_eq (hsq : s'.sq = s.sq) : s'.store = s.store := by
  unfold Cpu.store
  rw [hsq]

/-! ## The other steps -/

theorem staged_init (mem : μ) : Staged c (.init mem) where
  loads := .new (by decide) (by decide)
  accounts := accounts_init mem
  stores := .new (by decide) (by decide)

/-- The queues and their ready lists. -/
def Cpu.lsq (s : Cpu μ) :
    Lib.Ring LsqEntry × Lib.Ring LsqEntry × (Half → Feed) × (Half → Feed) :=
  (s.lq, s.sq, s.rtl, s.rts)

theorem lsq_eq (h : s'.lsq = s.lsq) :
    s'.lq = s.lq ∧ s'.sq = s.sq ∧ s'.rtl = s.rtl ∧ s'.rts = s.rts := by
  simpa only [Cpu.lsq, Prod.mk.injEq] using h

theorem Staged.same (h : Staged c s) (ha : Accounts c (fun _ => 0) s') (hs : s'.lsq = s.lsq) :
    Staged c s' ∧ Awaits s' = Awaits s := by
  obtain ⟨hlq, hsq, hrtl, hrts⟩ := lsq_eq hs
  have hload := load_eq hlq
  have hstore := store_eq hsq
  refine ⟨⟨⟨?_, ha⟩, ?_⟩, waits_congr fun w => ?_⟩
  · rw [hload, hrtl]
    exact h.loads
  · rw [hstore, hrts]
    exact h.stores
  · rw [stage_congr hload hstore]

/-- The steps that leave the queues and the accounts alone. -/
theorem Staged.alike (h : Staged c s) (hrob : Ring.Alike (account c) s.rob s'.rob)
    (hs : s'.lsq = s.lsq) : Staged c s' ∧ Awaits s' = Awaits s :=
  h.same (h.accounts.same hrob (lsq_eq hs).1 (lsq_eq hs).2.1) hs

/-! ## Loads -/

/-- A load is done that no list holds. -/
theorem Loading.closed (h : Loading c s) (hl : s.load l = .tied ∨ s.load l = .fetching)
    (hs : Closed l s s') : Loading c s' ∧ s'.load = Function.update s.load l .free := by
  have hload := load_update hs.lq
  have hold : s.load l ≠ .free ∧ s.load l ≠ .ready ∧ s.load l ≠ .known := by
    rcases hl with hl | hl
    · rw [hl]
      decide
    · rw [hl]
      decide
  have haddress : (s.lq.entry l).virtualAddress ≠ 0 := by
    rcases hl with hl | hl
    · exact address_of_station hl rfl
    · exact address_of_station hl rfl
  refine ⟨⟨?_, h.accounts.closed haddress hs⟩, hload⟩
  rw [hload, hs.rtl]
  exact h.loads.other (by decide) (h.loads.inside l hold.1) hold.2 (by decide)

theorem loadAdded_lists (i j l : Nat) (s : Cpu μ) :
    (loadAdded i j l s).rts = s.rts ∧ (s.load l = .ready → (loadAdded i j l s).rtl =
      Function.update s.rtl .zero ((s.rtl .zero).push l)) ∧
      (s.load l = .tied ∨ s.load l = .free → (loadAdded i j l s).rtl = s.rtl) := by
  unfold loadAdded
  dsimp only
  split
  · rename_i hready
    have hready : (s.lq.entry l).virtualAddress ≠ 0 ∧ (s.lq.entry l).producerId = u64Max := hready
    refine ⟨rfl, fun _ => rfl, fun h => ?_⟩
    rcases h with h | h
    · have halone := (station_eq h).2.1
      exact absurd hready.2 (beq_eq_false_iff_ne.mp halone)
    · have hvacant := (station_eq h).1
      exact absurd (beq_iff_eq.mp hvacant) hready.1
  · rename_i hready
    have hready : ¬((s.lq.entry l).virtualAddress ≠ 0 ∧ (s.lq.entry l).producerId = u64Max) :=
      hready
    refine ⟨rfl, fun h => ?_, fun _ => rfl⟩
    obtain ⟨hvacant, halone, -⟩ := station_eq h
    exact absurd ⟨beq_eq_false_iff_ne.mp hvacant, beq_iff_eq.mp halone⟩ hready

theorem Filling.load (h : Filling i l s s') : s'.load = Function.update s.load l (s'.load l) := by
  funext k
  by_cases hk : k = l
  · subst hk
    rw [Function.update_self]
  · rw [Function.update_of_ne hk]
    exact congrArg station (h.others k hk)

theorem Staged.addLoad (h : Staged c s) (hi : s.rob.Live i) (hsize : s.lq.size = lqSize)
    (hj : j < numInstrSources) (hm : (s.rob.entry i).sourceMemory j ≠ 0)
    (ha : (s.rob.entry i).sourceAdded j = false)
    (hids : ∀ p ∈ priors s.rob i, (s.rob.entry p).instrId ≠ u64Max)
    (hs : addLoadQueue c i j s = some s') : Staged c s' ∧ Awaits s' = Awaits s := by
  have haccounts := h.accounts.addLoad hi hsize h.loads.valid hj hm ha hids hs
  obtain ⟨l, t, hl, hfree, rfl, hcases⟩ := addLoadQueue_filling hs h.loads.valid hm hids
  obtain ⟨hrts, hpushed, hkept⟩ := loadAdded_lists i j l t
  have hload : (loadAdded i j l t).load = t.load := load_eq (loadAdded_rob i j l t).2
  have hstore : (loadAdded i j l t).store = t.store := store_eq (loadAdded_sq i j l t)
  have hin : l < lqSize := hsize ▸ hl
  rcases hcases with hf | ⟨u, hf, hclosed⟩
  · have hentered := hf.load
    have hsq := store_eq hf.sq
    rw [hsq] at hstore
    rcases hf.this with hready | htied
    · rw [hready] at hentered
      refine ⟨⟨⟨?_, haccounts⟩, ?_⟩, waits_update
        (stage_load (hload.trans hentered) hstore) (by show (s.load l).asks = _; rw [hfree]; rfl)⟩
      · rw [hload, hentered, hpushed hready, hf.rtl]
        exact h.loads.enter (by decide) hin hfree
      · rw [hstore, hrts, hf.rts]
        exact h.stores
    · rw [htied] at hentered
      refine ⟨⟨⟨?_, haccounts⟩, ?_⟩, waits_update
        (stage_load (hload.trans hentered) hstore) (by show (s.load l).asks = _; rw [hfree]; rfl)⟩
      · rw [hload, hentered, hkept (.inl htied), hf.rtl]
        exact h.loads.other (by decide) hin (by rw [hfree]; decide) (by decide)
      · rw [hstore, hrts, hf.rts]
        exact h.stores
  · -- the load is gone again
    have hback : t.load = s.load := by
      rw [load_update hclosed.lq, hf.load, Function.update_idem, station_empty, ← hfree]
      exact Function.update_eq_self ..
    have hsq : t.store = s.store := (store_eq hclosed.sq).trans (store_eq hf.sq)
    have hgone : t.load l = .free := (congrFun hback l).trans hfree
    refine ⟨⟨⟨?_, haccounts⟩, ?_⟩, waits_congr fun w => by
      rw [stage_congr (hload.trans hback) (hstore.trans hsq)]⟩
    · rw [hload, hback, hkept (.inr hgone), hclosed.rtl, hf.rtl]
      exact h.loads
    · rw [hstore, hsq, hrts, hclosed.rts, hf.rts]
      exact h.stores

/-! ## Stores -/

theorem Staged.addStore (h : Staged c s) (htail : s.sq.tail < sqSize)
    (hj : j < c.maxInstrDestinations) (hm : (s.rob.entry i).destinationMemory j ≠ 0)
    (ha : (s.rob.entry i).destinationAdded j = false) (hs : addStoreQueue c i j s = some s') :
    Staged c s' ∧ Awaits s' = Awaits s := by
  obtain ⟨hzero, heq⟩ := addStoreQueue_eq hs
  have hfree : s.store s.sq.tail = .free := store_free (h.stores.valid _) hzero
  have haccounts := h.accounts.addStore htail hj hm ha hfree hs
  obtain ⟨-, halone, htranslated, hfetched⟩ := station_eq hfree
  let e := storeEntry c i j s.cycle (s.rob.entry i) (s.sq.entry s.sq.tail)
  have hready : station e = .ready := by
    show (⟨(s.rob.entry i).destinationMemory j == 0, (s.sq.entry s.sq.tail).producerId == u64Max,
      (s.sq.entry s.sq.tail).translated, (s.sq.entry s.sq.tail).fetched⟩ : Station) = _
    rw [halone, htranslated, hfetched, beq_eq_false_iff_ne.mpr hm]
    rfl
  have hentry : s'.sq.entry = Function.update s.sq.entry s.sq.tail e := by
    rw [heq]
    rfl
  have hstore := store_update hentry
  rw [hready] at hstore
  subst heq
  refine ⟨⟨⟨h.loads, haccounts⟩, ?_⟩, waits_update (stage_store rfl hstore) ?_⟩
  · rw [hstore]
    exact h.stores.enter (by decide) htail hfree
  · show (s.store s.sq.tail).asks = _
    rw [hfree]
    rfl

/-- A visit of an executing store closes a load that has no place in a list. -/
theorem Loading.resolve {p d : Nat} (h : Loading c s) (hid : (s.sq.entry k).instrId ≠ u64Max)
    (hs : resolveLoad p k d j l s = some s') :
    Loading c s' ∧ Awaits s' = Awaits s ∧ s'.sq = s.sq ∧ s'.rts = s.rts := by
  obtain ⟨-, hproducer, -⟩ := resolveLoad_some hs
  have hclosed := resolveLoad_closed hs
  have htied : s.load l = .tied := load_tied (h.loads.valid l) (by rw [hproducer]; exact hid)
  obtain ⟨hloading, hload⟩ := h.closed (.inl htied) hclosed
  refine ⟨hloading, waits_update (stage_load hload (store_eq hclosed.sq)) ?_, hclosed.sq,
    hclosed.rts⟩
  show (s.load l).asks = _
  rw [htied]
  rfl

theorem Loading.visits {p : Nat} {vs : List Visit} (h : Loading c s)
    (hid : (s.sq.entry k).instrId ≠ u64Max) (hs : run (O3.resolve p k) s vs = some s') :
    Loading c s' ∧ Awaits s' = Awaits s ∧ s'.sq = s.sq ∧ s'.rts = s.rts := by
  induction vs generalizing s with
  | nil =>
    cases hs
    exact ⟨h, rfl, rfl, rfl⟩
  | cons v vs ih =>
    obtain ⟨t, ht, hs⟩ := run_cons_inv hs
    obtain ⟨hloading, hwaits, hsq, hrts⟩ := h.resolve hid ht
    obtain ⟨hloading', hwaits', hsq', hrts'⟩ := ih hloading (by rw [hsq]; exact hid) hs
    exact ⟨hloading', hwaits'.trans hwaits, hsq'.trans hsq, hrts'.trans hrts⟩

/-- The store at the front of `RTS1` executes. -/
theorem Staged.executeStore (h : Staged c s) (hi : (s.rts .one).front < sqSize)
    (hid : (s.sq.entry (s.rts .one).front).instrId ≠ u64Max)
    (hs : executeStore (s.sq.entry (s.rts .one).front).robIndex (s.rts .one).front s = some s') :
    Staged c (s'.popRts .one) ∧ Awaits (s'.popRts .one) = Awaits s := by
  have hknown : s.store (s.rts .one).front = .known := h.stores.one.front hi
  rw [executeStore_eq] at hs
  obtain ⟨t, ht, hs⟩ := Option.bind_eq_some_iff.mp hs
  obtain ⟨-, -, hlq, hsq, -⟩ := finishMemOp_some ht
  obtain ⟨hrtl, hrts⟩ := finishMemOp_feeds ht
  have hload : t.load = s.load := load_eq hlq
  have hstore : t.store = Function.update s.store (s.rts .one).front .done := by
    have hentry : t.sq.entry = Function.update s.sq.entry (s.rts .one).front
        { s.sq.entry (s.rts .one).front with fetched := .completed, eventCycle := s.cycle } := by
      rw [hsq]
      rfl
    have hdone := store_update hentry
    rwa [station_execute hknown] at hdone
  have hwaits : Awaits t = Awaits s := by
    refine waits_update (stage_store hload hstore) ?_
    show (s.store (s.rts .one).front).asks = _
    rw [hknown]
    rfl
  have hloading : Loading c t := by
    refine ⟨?_, h.accounts.execute hi hknown ht⟩
    rw [hload, hrtl]
    exact h.loads
  have hid' : (t.sq.entry (s.rts .one).front).instrId ≠ u64Max := by
    rw [(started ht).id]
    exact hid
  obtain ⟨hloading', hwaits', hsq', hrts'⟩ := hloading.visits hid' hs
  refine ⟨⟨⟨hloading'.loads, hloading'.accounts.same (.refl ..) rfl rfl⟩, ?_⟩,
    hwaits'.trans hwaits⟩
  have hstore' : (s'.popRts .one).store = _ := (store_eq hsq').trans hstore
  have hrts'' : (s'.popRts .one).rts = Function.update s.rts .one (s.rts .one).pop := by
    show Function.update s'.rts .one (s'.rts .one).pop = _
    rw [hrts', hrts]
    rfl
  rw [hstore', hrts'']
  exact h.stores.use (by decide) hi ⟨by decide, by decide⟩

/-- The stores of a retiring instruction are done, and leave the queue. -/
theorem Staged.retire (h : Staged c s) (hp : Pipe c s) (ho : Occupied c s) (hb : StoreBooks s)
    (hf : FreshIds s) (hip : (s.rob.entry s.rob.head).ip ≠ 0)
    (hdone : (s.rob.entry s.rob.head).executed = .completed)
    (hzero : (s.rob.entry s.rob.head).numMemOps = 0) (mem : μ) :
    Staged c (releaseHead c { s with mem := mem }) ∧
      Awaits (releaseHead c { s with mem := mem }) = Awaits s := by
  obtain ⟨-, hclosed⟩ := h.accounts.closed_ops (hp.window.live_head hip) hzero
  have hstore : ∀ k, (releaseHead c { s with mem := mem }).store k = s.store k ∨
      s.store k = .done ∧ (releaseHead c { s with mem := mem }).store k = .free := by
    intro k
    have hentry : (releaseHead c { s with mem := mem }).sq.entry k =
        if k ∈ (notedBelow (s.rob.entry s.rob.head) c.maxInstrDestinations).map
          (s.rob.entry s.rob.head).sqIndex then .empty else s.sq.entry k := releaseUpTo_entry ..
    unfold Cpu.store
    rw [hentry]
    split
    · rename_i hnoted
      obtain ⟨hlt, haddress, hindex⟩ := cleared_slot hp ho hb hf hip hdone hnoted
      exact .inr ⟨store_done (h.stores.valid k) (hclosed k hlt haddress hindex), rfl⟩
    · exact .inl rfl
  refine ⟨⟨⟨h.loads, h.accounts.retire hp ho hb hf hip hdone hzero mem⟩,
    h.stores.clear (by decide) hstore⟩, waits_congr fun w => ?_⟩
  cases w with
  | lq l => rfl
  | sq k =>
    show ((releaseHead c { s with mem := mem }).store k).asks = (s.store k).asks
    rcases hstore k with heq | ⟨hold, hnew⟩
    · rw [heq]
    · rw [hold, hnew]
      rfl

end Awaits

end O3
end ChampSim
