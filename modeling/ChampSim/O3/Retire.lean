import ChampSim.O3.Occupied
import ChampSim.O3.StoreFifo
import ChampSim.Cache.Unique

/-!
# ChampSim.O3.Retire

The retirement of a store, with the L1D of `ChampSim.Cache` behind the core.

* `L1d`, `withL1d`   — a memory whose write queue is the one of a cache in shape.
* `Handed`           — `add_wq` takes or merges each packet in turn.
* `writeStores_fits` — there is room for all the stores of an instruction, or none is handed over.
* `StoreRetired`     — what one round of `retire_rob` does to a head with stores.
* `retire_store`     — all of it, or nothing.
-/

namespace ChampSim
namespace O3

open Lib ChampSim.Core
open Cache (Shape addWq_does)

variable {ρ ν : Type} {d : Cache.Config}

/-! ## The write queue -/

structure L1d (d : Cache.Config) (ρ : Type) where
  cache : Cache.State ρ
  shape : Shape d cache

def L1d.addWq (env : Cache.Env) (p : Packet) (l : L1d d ρ) : Option (L1d d ρ) :=
  match h : Cache.addWq d env l.cache p with
  | none => none
  | some r => some ⟨r.2, ((addWq_does l.shape).of_eq h).1⟩

/-- `env` is what the L1D meets in the cycle. -/
def withL1d (M : Memory (L1d d ρ × ν)) (env : Nat → L1d d ρ × ν → Cache.Env) :
    Memory (L1d d ρ × ν) :=
  { M with
    addWq := fun cycle p m => (m.1.addWq (env cycle m) p).map fun l => (l, m.2)
    wqOccupancy := fun m => m.1.cache.wq.occupancy
    wqSize := d.wqSize }

inductive Handed (d : Cache.Config) : List Packet → Cache.State ρ → Cache.State ρ → Prop
  | nil (s : Cache.State ρ) : Handed d [] s s
  | cons {env : Cache.Env} {p : Packet} {ps : List Packet} {s s₁ s' : Cache.State ρ}
    {added : Cache.Added} (h : Cache.addWq d env s p = some (added, s₁)) (hadded : added ≠ .full)
    (hrest : Handed d ps s₁ s') : Handed d (p :: ps) s s'

/-- With room in the queue the packet is taken, or merged. -/
theorem addWq_room {s : Cache.State ρ} (h : Shape d s) (hroom : s.wq.occupancy < d.wqSize)
    (env : Cache.Env) (p : Packet) :
    ∃ added s', Cache.addWq d env s p = some (added, s') ∧ added ≠ .full ∧
      s'.wq.occupancy ≤ s.wq.occupancy + 1 := by
  unfold Cache.addWq
  cases hq : s.wq.checkQueue p with
  | some i => exact ⟨_, _, rfl, by simp, Nat.le_succ _⟩
  | none =>
    have hfree : (s.wq.entry s.wq.tail).address = 0 :=
      h.wq.wf.tail_empty (h.wq.size_eq.symm ▸ hroom)
    have hnot : ¬ s.wq.occupancy ≥ s.wq.size := by
      rw [h.wq.size_eq]
      omega
    dsimp only
    unfold Cache.enqueue
    rw [if_neg hnot, if_neg (not_not_intro hfree)]
    exact ⟨_, _, rfl, by simp, le_rfl⟩

theorem L1d.addWq_room (l : L1d d ρ) (hroom : l.cache.wq.occupancy < d.wqSize)
    (env : Cache.Env) (p : Packet) :
    ∃ added l', Cache.addWq d env l.cache p = some (added, L1d.cache l') ∧
      l.addWq env p = some l' ∧ added ≠ .full ∧
      l'.cache.wq.occupancy ≤ l.cache.wq.occupancy + 1 := by
  obtain ⟨added, s', hs', hadded, hle⟩ := O3.addWq_room l.shape hroom env p
  refine ⟨added, ⟨s', ((addWq_does l.shape).of_eq hs').1⟩, hs', ?_, hadded, hle⟩
  unfold L1d.addWq
  split
  · rename_i hnone
    rw [hs'] at hnone
    cases hnone
  · rename_i r hr
    rw [hs'] at hr
    cases hr
    rfl

/-! ## The stores of an instruction -/

variable {M : Memory (L1d d ρ × ν)} {env : Nat → L1d d ρ × ν → Cache.Env} {c : Config} {t : Trace}
  {O : L1d d ρ × ν → L1d d ρ × ν → Prop} {s : Cpu (L1d d ρ × ν)}

/-- The packets that `retire_rob` makes for the destinations `is` of `x`. -/
def storePackets (c : Config) (x : OooModelInstr) (is : List Nat) (s : Cpu (L1d d ρ × ν)) :
    List Packet :=
  is.map fun i => storeData c.numCpus c.cpu s.cycle (x.sqIndex i) (s.sq.entry (x.sqIndex i))

theorem writeStores_fits (M : Memory (L1d d ρ × ν)) (env : Nat → L1d d ρ × ν → Cache.Env) (c : Config)
    (x : OooModelInstr) (is : List Nat) :
    ∀ {s : Cpu (L1d d ρ × ν)}, s.mem.1.cache.wq.occupancy + is.length ≤ d.wqSize →
      ∃ l, writeStores (withL1d M env) c x is s = some { s with mem := (l, s.mem.2) } ∧
        Handed d (storePackets c x is s) s.mem.1.cache l.cache := by
  induction is with
  | nil => exact fun _ => ⟨_, rfl, .nil _⟩
  | cons i is ih =>
    intro s hroom
    rw [List.length_cons] at hroom
    obtain ⟨added, l, hadd, hl, hadded, hle⟩ := s.mem.1.addWq_room (by omega)
      (env s.cycle s.mem)
      (storeData c.numCpus c.cpu s.cycle (x.sqIndex i) (s.sq.entry (x.sqIndex i)))
    obtain ⟨l', hrest, hhanded⟩ := ih (s := { s with mem := (l, s.mem.2) })
      (by show l.cache.wq.occupancy + _ ≤ _; omega)
    refine ⟨l', ?_, .cons hadd hadded hhanded⟩
    unfold writeStores
    show Option.bind (Option.map _ (L1d.addWq _ _ _)) _ = _
    rw [hl]
    exact hrest

/-! ## One round of the loop -/

structure StoreRetired (c : Config) (x : OooModelInstr) (s s' : Cpu (L1d d ρ × ν)) : Prop where
  handed : Handed d (storePackets c x (storeIndices c x) s) s.mem.1.cache s'.mem.1.cache
  /-- The slots are different ones, and hold the entries of the stores. -/
  slots : ((storeIndices c x).map x.sqIndex).Nodup
  entries : ∀ j ∈ storeIndices c x, x.sqIndex j < sqSize ∧
    entryKey (s.sq.entry (x.sqIndex j)) = (x.instrId, j, x.destinationMemory j)
  freed : ∀ k, s'.sq.entry k =
    if k ∈ (storeIndices c x).map x.sqIndex then .empty else s.sq.entry k
  occupancy : s'.sq.occupancy + (storeIndices c x).length = s.sq.occupancy
  /-- The retirement is noted once, and the rest is as it was. -/
  rest : s' = { s with
    mem := (s'.mem.1, s.mem.2)
    sq := s'.sq
    rob := s.rob.pop .empty
    retired := s.retired ++ [x.instrId]
    completedExecutions := sub64 s.completedExecutions 1 }

theorem storeRetired {l : L1d d ρ} (hp : Pipe c s) (ho : Occupied c s)
    (hip : (s.rob.entry s.rob.head).ip ≠ 0)
    (hdone : (s.rob.entry s.rob.head).executed = .completed)
    (hhanded : Handed d (storePackets c (s.rob.entry s.rob.head)
      (storeIndices c (s.rob.entry s.rob.head)) s) s.mem.1.cache l.cache) :
    StoreRetired c (s.rob.entry s.rob.head) s
      (releaseHead c { s with mem := (l, s.mem.2) }) := by
  have hsplit := ho.retire_stored hp hip hdone (l, s.mem.2)
  have hall : ∀ a ∈ stores c (s.rob.entry s.rob.head),
      a.slot < sqSize ∧ entryKey (s.sq.entry a.slot) = a.key := fun a ha =>
    ho.entries a (hsplit ▸ List.mem_append_left _ ha)
  have hnoted := (ho.settled s.rob.head).notedBelow fun a ha => (hall a ha).1
  have hslots := ho.slots
  rw [hsplit, List.map_append] at hslots
  refine ⟨hhanded, ?_, fun j hj => ?_, fun k => ?_, ?_, rfl⟩
  · rw [← slots_stores]
    exact (List.nodup_append.mp hslots).1
  · exact hall (storeOf _ j) (List.mem_map_of_mem hj)
  · show (releaseUpTo _ _ s.sq).entry k = _
    rw [releaseUpTo_entry, hnoted]
  · show (releaseUpTo _ _ s.sq).occupancy + _ = _
    have hocc := ho.occupancy
    rw [hsplit, List.length_append] at hocc
    have hlen : (stores c (s.rob.entry s.rob.head)).length =
        (storeIndices c (s.rob.entry s.rob.head)).length := List.length_map _
    rw [releaseUpTo_occupancy, hnoted]
    omega

theorem retire_store (h : Reaches (withL1d M env) c t O s)
    (hdone : (s.rob.entry s.rob.head).executed = .completed)
    (hstore : storeIndices c (s.rob.entry s.rob.head) ≠ []) :
    (s.mem.1.cache.wq.occupancy + (storeIndices c (s.rob.entry s.rob.head)).length ≤
        s.mem.1.cache.wq.size →
      ∃ s', (∀ n, retireLoop (withL1d M env) c (n + 1) s = retireLoop (withL1d M env) c n s') ∧
        StoreRetired c (s.rob.entry s.rob.head) s s') ∧
      (s.mem.1.cache.wq.size <
          s.mem.1.cache.wq.occupancy + (storeIndices c (s.rob.entry s.rob.head)).length →
        ∀ n, retireLoop (withL1d M env) c (n + 1) s = some s) := by
  obtain ⟨hp, ho⟩ := reaches_occupied h
  have hlive : s.rob.Live s.rob.head :=
    hp.window.live_of (·.executed) (fun _ => rfl) (by rw [hdone]; decide)
  have hip := reaches_ip h s.rob.head hlive
  have hlength : (storeIndices c (s.rob.entry s.rob.head)).length ≠ 0 :=
    fun h0 => hstore (List.length_eq_zero_iff.mp h0)
  rw [s.mem.1.shape.wq.size_eq]
  constructor
  · intro hroom
    obtain ⟨l, hwrite, hhanded⟩ := writeStores_fits M env c (s.rob.entry s.rob.head) _ hroom
    refine ⟨_, fun n => ?_, storeRetired hp ho hip hdone hhanded⟩
    rw [retireLoop, if_neg hip, if_neg (not_not_intro hdone), if_neg fun hfull => hfull.2 hroom,
      hwrite]
    rfl
  · intro hfull n
    rw [retireLoop, if_neg hip, if_neg (not_not_intro hdone),
      if_pos ⟨hlength, Nat.not_le.mpr hfull⟩]

/-! ## A run -/

/-- The memory `M`, beside an L1D that it does not use. -/
def beside (M : Memory ν) : Memory (L1d d ρ × ν) where
  addRq := fun server cycle p m => (M.addRq server cycle p m.2).map fun (taken, n) =>
    (taken, (m.1, n))
  addWq := fun cycle p m => (M.addWq cycle p m.2).map fun n => (m.1, n)
  wqOccupancy := fun m => M.wqOccupancy m.2
  wqSize := M.wqSize
  processed := fun server cycle m => M.processed server cycle m.2
  removeProcessed := fun server m => (M.removeProcessed server m.2).map fun n => (m.1, n)
  operate := fun cycle m => (M.operate cycle m.2).map fun n => (m.1, n)

def echoL1d : Memory (L1d (Cache.l1d 1 0) Unit × (Server → List Packet)) :=
  withL1d (beside echo) fun cycle _ => .quiet cycle

/-- A taken branch with two stores, which `echoTurn` predicts not taken. -/
def storingRun (n : Nat) : Option (Cpu (L1d (Cache.l1d 1 0) Unit × (Server → List Packet))) :=
  run (cycle echoL1d echoConfig ⟨[storingBranch], by simp⟩)
    (.init (⟨.init (Cache.lru _), Cache.shape_init _⟩, fun _ => []))
    (List.replicate n { echoTurn with outside := some })

theorem retire_store_storingBranch : ∃ s s', storingRun 9 = some s ∧
    (∀ n, retireLoop echoL1d echoConfig (n + 1) s = retireLoop echoL1d echoConfig n s') ∧
    StoreRetired echoConfig (s.rob.entry s.rob.head) s s' := by
  have hrun : (storingRun 9).map (fun s => ((s.rob.entry s.rob.head).executed,
      storeIndices echoConfig (s.rob.entry s.rob.head), s.mem.1.cache.wq.occupancy,
      s.mem.1.cache.wq.size)) = some (.completed, [0, 1], 0, 64) := by decide +kernel
  obtain ⟨s, hs, heq⟩ := Option.map_eq_some_iff.mp hrun
  obtain ⟨hdone, hstores, hocc, hsize⟩ : _ ∧ _ ∧ _ ∧ _ := by simpa using heq
  have hreaches : Reaches (withL1d (beside echo) fun cycle _ => .quiet cycle) echoConfig
      ⟨[storingBranch], by simp⟩ Eq s := by
    refine run_reaches (fun turn hturn => ?_) hs
    obtain rfl := List.eq_of_mem_replicate hturn
    exact fun mem mem' hmem => Option.some.inj hmem
  obtain ⟨s', hnext, hretired⟩ := (retire_store hreaches hdone (by simp [hstores])).1
    (by rw [hocc, hstores, hsize]; decide)
  exact ⟨s, s', hs, hnext, hretired⟩

end O3
end ChampSim
