import ChampSim.O3.Counts
import ChampSim.O3.Retire

/-!
# ChampSim.O3.Commit

What the L1D is told of the stores of a run.

* `logged M`         — a memory that keeps the packets with which `L1D.add_wq` is called.
* `Supplied M c t O xs s` — a run to `s` in which the instructions `xs` have been read.
* `Call.log`         — only the retirement of an instruction calls `add_wq`.
* `Committed c xs s` — the instructions read are those that have retired and those in flight, and the
  packets are the stores of the former.
* `stores_commit_in_order` — it holds of every run.
-/

namespace ChampSim
namespace O3

open Lib ChampSim.Core

variable {μ : Type}

def logged (M : Memory μ) : Memory (List Packet × μ) where
  addRq := fun server cycle p m => (M.addRq server cycle p m.2).map fun (taken, n) =>
    (taken, (m.1, n))
  addWq := fun cycle p m => (M.addWq cycle p m.2).map fun n => (m.1 ++ [p], n)
  wqOccupancy := fun m => M.wqOccupancy m.2
  wqSize := M.wqSize
  processed := fun server cycle m => M.processed server cycle m.2
  removeProcessed := fun server m => (M.removeProcessed server m.2).map fun n => (m.1, n)
  operate := fun cycle m => (M.operate cycle m.2).map fun n => (m.1, n)

/-- Outside the core, `add_wq` is not called for it. -/
def beneath (O : μ → μ → Prop) (m m' : List Packet × μ) : Prop := m'.1 = m.1 ∧ O m.2 m'.2

/-- Each instruction is kept as `read_from_trace` made it. -/
inductive Supplied (M : Memory μ) (c : Config) (t : Trace) (O : μ → μ → Prop) :
    List OooModelInstr → Cpu (List Packet × μ) → Prop
  | init (mem : μ) : Supplied M c t O [] (.init ([], mem))
  | read {xs : List OooModelInstr} {s s' : Cpu (List Packet × μ)} {x : OooModelInstr} {front : State}
    (h : Supplied M c t O xs s) (hop : Op (logged M) c t (beneath O) s s')
    (hrecord : readRecord c.toConfig t s.toState = some (x, front))
    (hread : s'.instrUniqueId ≠ s.instrUniqueId) : Supplied M c t O (xs ++ [x]) s'
  | other {xs : List OooModelInstr} {s s' : Cpu (List Packet × μ)} (h : Supplied M c t O xs s)
    (hop : Op (logged M) c t (beneath O) s s') (hsame : s'.instrUniqueId = s.instrUniqueId) :
    Supplied M c t O xs s'

variable {M : Memory μ} {c : Config} {t : Trace} {O : μ → μ → Prop}

/-! ## Calls of `add_wq` -/

section Log

variable {s s' : Cpu (List Packet × μ)}

theorem works_memory (m : μ) : Works fun s : Cpu μ => s.mem = m where
  idle := fun _ _ h hs => h.memory.trans hs
  finish := by
    intro s s' i n h hs
    rw [finishMemOp_eq] at h
    split at h
    · cases h
    · cases h
      exact hs

theorem logged_addRq {server : Server} {cycle : Nat} {p : Packet} {m : List Packet × μ}
    {r : Bool × List Packet × μ} (h : (logged M).addRq server cycle p m = some r) : r.2.1 = m.1 := by
  obtain ⟨⟨taken, n⟩, -, rfl⟩ := Option.map_eq_some_iff.mp h
  rfl

theorem logged_removeProcessed {server : Server} {m m' : List Packet × μ}
    (h : (logged M).removeProcessed server m = some m') : m'.1 = m.1 := by
  obtain ⟨n, -, rfl⟩ := Option.map_eq_some_iff.mp h
  rfl

theorem logged_operate {cycle : Nat} {m m' : List Packet × μ}
    (h : (logged M).operate cycle m = some m') : m'.1 = m.1 := by
  obtain ⟨n, -, rfl⟩ := Option.map_eq_some_iff.mp h
  rfl

theorem requestTranslation_log {i index : Nat}
    (h : requestTranslation (logged M) c i index s = some s') : s'.mem.1 = s.mem.1 := by
  simp only [requestTranslation] at h
  split at h
  · obtain ⟨⟨accepted, mem⟩, hmem, rfl⟩ := Option.map_eq_some_iff.mp h
    have hlog := logged_addRq hmem
    split
    · exact hlog
    · exact hlog
  · cases h
    rfl

theorem requestLine_log {index : Nat} (h : requestLine (logged M) c index s = some s') :
    s'.mem.1 = s.mem.1 := by
  simp only [requestLine] at h
  split at h
  · obtain ⟨⟨accepted, mem⟩, hmem, rfl⟩ := Option.map_eq_some_iff.mp h
    have hlog := logged_addRq hmem
    split
    · exact hlog
    · exact hlog
  · cases h
    rfl

/-- The packets that `retire_rob` makes for the destinations `is` of `x`. -/
def commitPackets (c : Config) (x : OooModelInstr) (is : List Nat) (cycle : Nat)
    (sq : Lib.Ring LsqEntry) : List Packet :=
  is.map fun i => storeData c.numCpus c.cpu cycle (x.sqIndex i) (sq.entry (x.sqIndex i))

theorem writeStores_log {x : OooModelInstr} (is : List Nat) :
    ∀ {s : Cpu (List Packet × μ)}, writeStores (logged M) c x is s = some s' →
      s'.mem.1 = s.mem.1 ++ commitPackets c x is s.cycle s.sq := by
  induction is with
  | nil =>
    intro s h
    cases h
    exact (List.append_nil _).symm
  | cons i is ih =>
    intro s h
    obtain ⟨mem, hmem, h⟩ := Option.bind_eq_some_iff.mp h
    obtain ⟨n, -, rfl⟩ := Option.map_eq_some_iff.mp hmem
    rw [ih h]
    exact List.append_assoc ..

theorem predict_retired (env : CycleEnv) (i n : Nat) (front : State) :
    (predict env i n front).2.retired = front.retired := by
  simp only [predict]
  split
  · rfl
  · split
    · split <;> rfl
    · split <;> rfl

/-- Each call is a retirement, or leaves the log and the instructions retired alone. -/
theorem Call.log (h : Call (logged M) c t (beneath O) s s') (hf : Flow c s) :
    s'.mem.1 = s.mem.1 ∧ s'.retired = s.retired ∨
    ((s.rob.entry s.rob.head).ip ≠ 0 ∧ (s.rob.entry s.rob.head).executed = .completed ∧
      ∃ mem, s' = releaseHead c { s with mem := mem } ∧
        mem.1 = s.mem.1 ++ commitPackets c (s.rob.entry s.rob.head)
          (storeIndices c (s.rob.entry s.rob.head)) s.cycle s.sq) := by
  cases h with
  | outside hO => exact .inl ⟨hO.1, rfl⟩
  | operate hM => exact .inl ⟨logged_operate hM, rfl⟩
  | read hroom hstall hrecord hsta hr =>
    have hfront := congrArg State.retired (readRecord_front hrecord)
    exact .inl ⟨rfl, (predict_retired ..).trans hfront⟩
  | resume env =>
    refine .inl ⟨rfl, ?_⟩
    show (resumeFetch _ _).retired = _
    unfold resumeFetch
    split <;> rfl
  | askItlb hd =>
    have hrest := (requestTranslation_quiet (π := steady) hd).rest
    exact .inl ⟨requestTranslation_log hd, congrArg Rest.retired hrest⟩
  | askL1i hd =>
    have hrest := (requestLine_quiet (π := steady) hd).rest
    exact .inl ⟨requestLine_log hd, congrArg Rest.retired hrest⟩
  | answerInstr hp hd =>
    have hrest := (completeInstrFetch_quiet (π := steady) hd).rest
    obtain ⟨mem, hmem, rfl⟩ := Option.map_eq_some_iff.mp hd
    exact .inl ⟨logged_removeProcessed hmem, congrArg Rest.retired hrest⟩
  | answerData hp hs hd =>
    have hrest := (quiet_loadSide.completeDataFetch hd).rest
    obtain ⟨t, mem, ht, hmem, rfl⟩ := (works_memory s.mem).completeDataFetch hd rfl
    exact .inl ⟨(logged_removeProcessed hmem).trans (congrArg Prod.fst ht),
      congrArg Rest.retired hrest⟩
  | addLoad hi hj hm ha hroom hd =>
    exact .inl ⟨congrArg Prod.fst ((works_memory s.mem).addLoadQueue hd rfl),
      congrArg Rest.retired (addLoadQueue_quiet hd).rest⟩
  | executeStore hi hd =>
    have hmem := (works_memory s.mem).executeStore hd rfl
    have hrest := (quiet_loadSide.executeStore hd).rest
    exact .inl ⟨congrArg Prod.fst hmem, congrArg Rest.retired hrest⟩
  | refused hd => exact .inl ⟨logged_addRq hd, rfl⟩
  | translateStore hi hd => exact .inl ⟨logged_addRq hd, rfl⟩
  | translateLoad hi hd => exact .inl ⟨logged_addRq hd, rfl⟩
  | executeLoad hi hd => exact .inl ⟨logged_addRq hd, rfl⟩
  | complete hd =>
    rcases hf.completes hd with rfl | hdone
    · exact .inl ⟨rfl, rfl⟩
    · rw [hdone.rest]
      exact .inl ⟨rfl, rfl⟩
  | schedule hfetched hidle hd =>
    rw [(hf.schedules hfetched hidle hd).rest]
    exact .inl ⟨rfl, rfl⟩
  | addStore hi hj hm ha hbefore hroom hsta hd =>
    obtain ⟨-, rfl⟩ := addStoreQueue_eq hd
    exact .inl ⟨rfl, rfl⟩
  | retire hip hdone hd =>
    refine .inr ⟨hip, hdone, _, ?_, writeStores_log _ hd⟩
    rw [← writeStores_mem _ hd]
  | _ => exact .inl ⟨rfl, rfl⟩

/-- So is each step. -/
theorem Op.log (h : Op (logged M) c t (beneath O) s s') (hf : Flow c s) :
    s'.mem.1 = s.mem.1 ∧ s'.retired = s.retired ∨
    ((s.rob.entry s.rob.head).ip ≠ 0 ∧ (s.rob.entry s.rob.head).executed = .completed ∧
      ∃ mem, s' = releaseHead c { s with mem := mem } ∧
        mem.1 = s.mem.1 ++ commitPackets c (s.rob.entry s.rob.head)
          (storeIndices c (s.rob.entry s.rob.head)) s.cycle s.sq) := by
  cases h with
  | tick => exact .inl ⟨rfl, rfl⟩
  | call h => exact h.log hf

end Log

/-! ## What is read, in flight, and retired -/

/-- The stores of an instruction, as an `add_wq` for each shows them. -/
def storeKeys (c : Config) (x : OooModelInstr) : List (Nat × Nat) :=
  (storeIndices c x).map fun j => (x.instrId, j)

theorem storeKeys_original (x : OooModelInstr) : storeKeys c (original x) = storeKeys c x := rfl

def packetKey (p : Packet) : Nat × Nat := (p.instrId, p.dataIndex)

structure Committed (c : Config) (xs : List OooModelInstr) (s : Cpu (List Packet × μ)) : Prop where
  pipe : Pipe c s
  occupied : Occupied c s
  le : s.retired.length ≤ xs.length
  retired : s.retired = (xs.take s.retired.length).map OooModelInstr.instrId
  flight : (inFlight s).map original = (xs.drop s.retired.length).map original
  log : s.mem.1.map packetKey = (xs.take s.retired.length).flatMap (storeKeys c)
  type : ∀ p ∈ s.mem.1, p.type = .rfo

variable {xs : List OooModelInstr} {s s' : Cpu (List Packet × μ)}

/-- The packets of the stores that retire name them. -/
theorem commitPackets_keys (h : Committed c xs s) (hip : (s.rob.entry s.rob.head).ip ≠ 0)
    (hdone : (s.rob.entry s.rob.head).executed = .completed) :
    (commitPackets c (s.rob.entry s.rob.head) (storeIndices c (s.rob.entry s.rob.head)) s.cycle
      s.sq).map packetKey = storeKeys c (s.rob.entry s.rob.head) := by
  have hsplit := h.occupied.retire_stored h.pipe hip hdone s.mem
  unfold commitPackets storeKeys
  rw [List.map_map]
  refine List.map_congr_left fun j hj => ?_
  have hin : storeOf (s.rob.entry s.rob.head) j ∈ stores c (s.rob.entry s.rob.head) :=
    List.mem_map_of_mem hj
  have hkey := (h.occupied.entries _ (hsplit ▸ List.mem_append_left _ hin)).2
  have hpair : ((s.sq.entry ((s.rob.entry s.rob.head).sqIndex j)).instrId,
      (s.sq.entry ((s.rob.entry s.rob.head).sqIndex j)).dataIndex) =
        ((s.rob.entry s.rob.head).instrId, j) :=
    congrArg (fun key : Nat × Nat × Nat => (key.1, key.2.1)) hkey
  exact hpair

/-- The oldest instruction leaves the list, and its stores go to the memory. -/
theorem Committed.retire (h : Committed c xs s) (t : Trace) (hip : (s.rob.entry s.rob.head).ip ≠ 0)
    (hdone : (s.rob.entry s.rob.head).executed = .completed) {mem : List Packet × μ}
    (hmem : mem.1 = s.mem.1 ++ commitPackets c (s.rob.entry s.rob.head)
      (storeIndices c (s.rob.entry s.rob.head)) s.cycle s.sq) :
    Committed c xs (releaseHead c { s with mem := mem }) := by
  have hlist := h.pipe.retire_inFlight hip mem
  have hretired : (releaseHead c { s with mem := mem }).retired.length = s.retired.length + 1 := by
    show (s.retired ++ [_]).length = _
    simp
  have hflight := h.flight
  rw [hlist, List.map_cons] at hflight
  have hlt : s.retired.length < xs.length := by
    by_contra hle
    rw [List.drop_of_length_le (not_lt.mp hle)] at hflight
    cases hflight
  rw [List.drop_eq_getElem_cons hlt, List.map_cons] at hflight
  obtain ⟨hhead, hrest⟩ := List.cons.inj hflight
  refine ⟨h.pipe.move (t := t) (.retire hip hdone),
    h.occupied.retire h.pipe hip hdone mem, ?_, ?_, ?_, ?_, ?_⟩
  · rw [hretired]
    exact hlt
  · have hid := congrArg OooModelInstr.instrId hhead
    change (s.rob.entry s.rob.head).instrId = xs[s.retired.length].instrId at hid
    rw [hretired, List.take_succ_eq_append_getElem hlt, List.map_append, ← h.retired,
      List.map_singleton, ← hid]
    rfl
  · rw [hretired]
    exact hrest
  · have hkeys := congrArg (storeKeys c) hhead
    rw [storeKeys_original, storeKeys_original] at hkeys
    rw [hretired, List.take_succ_eq_append_getElem hlt, List.flatMap_append, ← h.log]
    show mem.1.map packetKey = _
    rw [hmem, List.map_append, commitPackets_keys h hip hdone, hkeys]
    simp
  · intro p hp
    have hp : p ∈ mem.1 := hp
    rw [hmem] at hp
    rcases List.mem_append.mp hp with hp | hp
    · exact h.type p hp
    · obtain ⟨j, -, rfl⟩ := List.mem_map.mp hp
      rfl

/-- The steps that keep the list. -/
theorem Committed.same (h : Committed c xs s) (hp : Pipe c s') (ho : Occupied c s')
    (hflight : (inFlight s').map original = (inFlight s).map original)
    (hretired : s'.retired = s.retired) (hlog : s'.mem.1 = s.mem.1) : Committed c xs s' where
  pipe := hp
  occupied := ho
  le := hretired ▸ h.le
  retired := by rw [hretired, ← h.retired]
  flight := by rw [hflight, hretired, h.flight]
  log := by rw [hlog, hretired, h.log]
  type := hlog ▸ h.type

/-- An instruction joins the list. -/
theorem Committed.read (h : Committed c xs s) (hp : Pipe c s') (ho : Occupied c s')
    {x : OooModelInstr}
    (hflight : (inFlight s').map original = (inFlight s).map original ++ [original x])
    (hretired : s'.retired = s.retired) (hlog : s'.mem.1 = s.mem.1) :
    Committed c (xs ++ [x]) s' where
  pipe := hp
  occupied := ho
  le := by
    rw [hretired, List.length_append]
    exact h.le.trans (Nat.le_add_right _ _)
  retired := by rw [hretired, List.take_append_of_le_length h.le, ← h.retired]
  flight := by
    rw [hflight, hretired, h.flight, List.drop_append_of_le_length h.le, List.map_append]
    rfl
  log := by rw [hlog, hretired, h.log, List.take_append_of_le_length h.le]
  type := hlog ▸ h.type

/-- One step, with the instruction that it reads, if it reads one. -/
theorem Committed.op (h : Committed c xs s) (hop : Op (logged M) c t (beneath O) s s') :
    (s'.instrUniqueId = s.instrUniqueId → Committed c xs s') ∧
      ∀ x front, readRecord c.toConfig t s.toState = some (x, front) →
        s'.instrUniqueId ≠ s.instrUniqueId → Committed c (xs ++ [x]) s' := by
  have hf := h.pipe.flow
  have hp' : Pipe c s' := hop.move.elim h.pipe.quiet h.pipe.move
  have ho' : Occupied c s' := hop.move.elim h.occupied.quiet (h.occupied.move h.pipe)
  rcases hop.log hf with ⟨hlog, hretired⟩ | ⟨hip, hdone, mem, rfl, hmem⟩
  · rcases hop.move with hq | hm
    · have hid := congrArg Rest.instrUniqueId hq.rest
      have hflight := hq.inFlight stable_original
      exact ⟨fun _ => h.same hp' ho' hflight hretired hlog, fun x front _ hne => absurd hid hne⟩
    · rcases h.pipe.move_original hm with hflight | ⟨x, front, hrecord, hflight⟩ | ⟨x, -, hlength⟩
      · have hid : s'.instrUniqueId = s.instrUniqueId := by
          rw [hp'.unique, h.pipe.unique, hretired, length_of_map hflight]
        exact ⟨fun _ => h.same hp' ho' hflight hretired hlog, fun x front _ hne => absurd hid hne⟩
      · have hid : s'.instrUniqueId ≠ s.instrUniqueId := by
          have hlen := congrArg List.length hflight
          simp only [List.length_map, List.length_append, List.length_singleton] at hlen
          rw [hp'.unique, h.pipe.unique, hretired, hlen]
          omega
        refine ⟨fun hsame => absurd hsame hid, fun y front' hrecord' _ => ?_⟩
        rw [hrecord] at hrecord'
        cases hrecord'
        exact h.read hp' ho' hflight hretired hlog
      · rw [hretired] at hlength
        omega
  · exact ⟨fun _ => h.retire t hip hdone hmem, fun x front _ hne => absurd rfl hne⟩

theorem Supplied.committed (h : Supplied M c t O xs s) : Committed c xs s := by
  induction h with
  | init mem =>
    exact ⟨pipe_init _, .init _, le_rfl, rfl, rfl, rfl, fun p hp => absurd hp List.not_mem_nil⟩
  | read h hop hrecord hread ih => exact (ih.op hop).2 _ _ hrecord hread
  | other h hop hsame ih => exact (ih.op hop).1 hsame

/-- Only a read hands out an id. -/
theorem Op.reads (hop : Op (logged M) c t (beneath O) s s') (hf : Flow c s)
    (hread : s'.instrUniqueId ≠ s.instrUniqueId) :
    ∃ x front, readRecord c.toConfig t s.toState = some (x, front) := by
  rcases hop.move with hq | hm
  · exact absurd (congrArg Rest.instrUniqueId hq.rest) hread
  cases hm with
  | read env b hroom hstall hrecord hsta => exact ⟨_, _, hrecord⟩
  | resume env =>
    refine absurd ?_ hread
    unfold resumeFetch
    split <;> rfl
  | complete hc =>
    rcases hf.completes hc with rfl | hdone
    · exact absurd rfl hread
    · exact absurd (congrArg (·.instrUniqueId) hdone.rest) hread
  | schedule hfetched hidle hs =>
    exact absurd (congrArg (·.instrUniqueId) (hf.schedules hfetched hidle hs).rest) hread
  | addStore hi hj hm ha hbefore hroom hsta hs =>
    obtain ⟨-, rfl⟩ := addStoreQueue_eq hs
    exact absurd rfl hread
  | _ => exact absurd rfl hread

/-- So every run of the core is one. -/
theorem Supplied.ops (h : Supplied M c t O xs s) (hops : Ops (logged M) c t (beneath O) s s') :
    ∃ xs', Supplied M c t O xs' s' := by
  induction hops with
  | refl => exact ⟨xs, h⟩
  | @tail s₁ s₂ hops hop ih =>
    obtain ⟨xs', h'⟩ := ih
    by_cases hsame : s₂.instrUniqueId = s₁.instrUniqueId
    · exact ⟨xs', h'.other hop hsame⟩
    · obtain ⟨x, front, hrecord⟩ := hop.reads h'.committed.pipe.flow hsame
      exact ⟨xs' ++ [x], h'.read hop hrecord hsame⟩

theorem run_supplied {turns : List (Turn (List Packet × μ))} {mem : μ}
    (hO : ∀ turn ∈ turns, turn.Within (beneath O))
    (h : run (cycle (logged M) c t) (.init ([], mem)) turns = some s) :
    ∃ xs, Supplied M c t O xs s := by
  refine run_invariant (I := fun s => ∃ xs, Supplied M c t O xs s)
    (P := fun _ turn => turn.Within (beneath O)) ?_ ⟨[], .init mem⟩ (along_of_forall hO _) h
  rintro s turn s' ⟨xs, h⟩ hturn hcycle
  exact h.ops (cycle_ops hturn hcycle)

/-- The instructions read are those that have retired and, as they were read, those in flight. The
ids kept of the retired ones are theirs. The L1D has been handed the stores of the former, once
each and in the order of the trace, and within an instruction in the order of its operands; of the
latter none. -/
theorem stores_commit_in_order (h : Supplied M c t O xs s) :
    xs.length = s.retired.length + (inFlight s).length ∧
      s.retired = (xs.take s.retired.length).map OooModelInstr.instrId ∧
      (inFlight s).map original = (xs.drop s.retired.length).map original ∧
      s.mem.1.map packetKey = (xs.take s.retired.length).flatMap (storeKeys c) ∧
      ∀ p ∈ s.mem.1, p.type = .rfo := by
  have hc := h.committed
  refine ⟨?_, hc.retired, hc.flight, hc.log, hc.type⟩
  have hlen := length_of_map hc.flight
  have hle := hc.le
  rw [List.length_drop] at hlen
  omega

/-! ## A run -/

/-- A trace of `storingBranch` alone, with the memory `echo`. -/
def loggedRun (n : Nat) : Option (Cpu (List Packet × (Server → List Packet))) :=
  run (cycle (logged echo) echoConfig ⟨[storingBranch], List.cons_ne_nil _ _⟩)
    (.init ([], fun _ => [])) (List.replicate n { echoTurn with outside := some })

theorem loggedRun_supplied {n : Nat} {s : Cpu (List Packet × (Server → List Packet))}
    (h : loggedRun n = some s) :
    ∃ xs, Supplied echo echoConfig ⟨[storingBranch], List.cons_ne_nil _ _⟩ Eq xs s := by
  refine run_supplied (fun turn hturn => ?_) h
  obtain rfl := List.eq_of_mem_replicate hturn
  intro m m' hm
  cases hm
  exact ⟨rfl, rfl⟩

theorem stores_commit_storingBranch : ∃ xs s, loggedRun 20 = some s ∧
    Supplied echo echoConfig ⟨[storingBranch], List.cons_ne_nil _ _⟩ Eq xs s ∧ xs.length = 3 ∧
    s.retired = (xs.take 2).map OooModelInstr.instrId ∧
    (xs.take 2).flatMap (storeKeys echoConfig) = [(0, 0), (0, 1), (1, 0), (1, 1)] := by
  have hrun : (loggedRun 20).map (fun s =>
      (s.retired.length, (inFlight s).length, s.mem.1.map packetKey)) =
      some (2, 1, [(0, 0), (0, 1), (1, 0), (1, 1)]) := by decide +kernel
  obtain ⟨s, hs, heq⟩ := Option.map_eq_some_iff.mp hrun
  obtain ⟨hretired, hflight, hlog⟩ : _ ∧ _ ∧ _ := by simpa only [Prod.mk.injEq] using heq
  obtain ⟨xs, hxs⟩ := loggedRun_supplied hs
  obtain ⟨hlength, hids, -, hkeys, -⟩ := stores_commit_in_order hxs
  rw [hretired] at hids hkeys
  rw [hlog] at hkeys
  exact ⟨xs, s, hs, hxs, by rw [hlength, hretired, hflight], hids, hkeys.symm⟩

end O3
end ChampSim
