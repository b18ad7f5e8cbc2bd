import ChampSim.O3.Schedule
import ChampSim.O3.StoreArray
import ChampSim.O3.Writers

/-!
# ChampSim.O3.Behind

A run in which instructions with four stores wait behind a load that the L1D does not answer.

* `lateRun n`        — `n` cycles of that run.
* `Leads`, `Follows` — the load, which writes a register, and the instructions that read it.
* `Held s`           — the load at the head of the ROB, the others waiting for it.
* `Held.doScheduling`, `Held.scheduleLoop` — scheduling an instruction leaves it waiting.
* `Held.outOfOrder`  — so do all stages between retirement and decoding.
-/

namespace ChampSim
namespace O3

open Lib ChampSim.Core

/-! ## The run -/

/-- As `echo`, but the L1D has not answered yet. -/
def late : Memory (Server → List Packet) :=
  { echo with processed := fun server _ mem => if server = .l1d then none else (mem server).head? }

def lateConfig : Config := { echoConfig with knobCloudsuite := true }

/-- The warm-up, with every branch predicted taken. -/
def lateTurn : Turn (Server → List Packet) :=
  { echoTurn with warmupComplete := false, decodeLatency := 0, predictBranch := fun _ => 1 }

def lateLoad : InputInstr :=
  { InputInstr.empty with
    ip := 64
    destinationRegisters := fun i => if i = 0 then 1 else 0
    sourceMemory := fun i => if i = 0 then 4096 else 0 }

/-- A taken branch: one of them is read in a cycle. -/
def fourStores : InputInstr :=
  { InputInstr.empty with
    ip := 64
    isBranch := 1
    branchTaken := 1
    sourceRegisters := fun i => if i = 0 then 1 else 0
    destinationMemory := fun i => if i < 4 then 4096 * (i + 2) else 0 }

def lateTrace : Trace := ⟨lateLoad :: List.replicate 400 fourStores, List.cons_ne_nil _ _⟩

def lateRun (n : Nat) : Option (Cpu (Server → List Packet)) :=
  run (cycle late lateConfig lateTrace) (.init fun _ => []) (List.replicate n lateTurn)

/-- The stages in that run. -/
abbrev latePhase : Cpu (Server → List Packet) → Phase → Option (Cpu (Server → List Packet)) :=
  Phase.perform late lateConfig lateTrace lateTurn.toEnv

theorem lateTurn_within : lateTurn.Within Eq := fun _ _ hmem => Option.some.inj hmem

/-! ## The instructions -/

/-- The load: it writes the register and is not done. -/
def Leads (x : OooModelInstr) : Prop :=
  x.isMemory = true ∧ x.numMemOps ≠ 0 ∧ x.executed ≠ .completed ∧ x.scheduled = .completed ∧
    x.destinationRegisters 0 = 1

/-- An instruction behind it reads that register only, and writes none. -/
def Follows (x : OooModelInstr) : Prop :=
  x.ip = 64 ∧ x.isMemory = true ∧ x.numMemOps ≠ 0 ∧ (∀ j < 4, x.destinationRegisters j = 0) ∧
    ∀ j < 4, x.sourceRegisters j = if j = 0 then 1 else 0

/-- It has not been scheduled, or waits for the register. -/
def Waits (x : OooModelInstr) : Prop :=
  x.scheduled = .idle ∧ x.regRawChecked 0 = false ∨ x.scheduled = .inflight ∧ x.regReady = false

instance Leads.decidable (x : OooModelInstr) : Decidable (Leads x) :=
  inferInstanceAs (Decidable (_ ∧ _))

instance Follows.decidable (x : OooModelInstr) : Decidable (Follows x) :=
  inferInstanceAs (Decidable (_ ∧ _))

instance Waits.decidable (x : OooModelInstr) : Decidable (Waits x) :=
  inferInstanceAs (Decidable (_ ∨ _))

section Registers

variable {x y : OooModelInstr} {r : Lib.Ring OooModelInstr} {i p : Nat}

theorem Leads.writes (h : Leads x) (hy : Follows y) : writesSource lateConfig x y 0 = true := by
  obtain ⟨-, -, -, -, hwrites⟩ := h
  obtain ⟨-, -, -, -, hreads⟩ := hy
  refine List.any_eq_true.mpr ⟨0, List.mem_range.mpr (by decide), ?_⟩
  rw [hwrites, hreads 0 (by decide)]
  rfl

/-- The other sources are not used. -/
theorem Follows.unused (hy : Follows y) {j : Nat} (hj : j < 4) (h0 : j ≠ 0) :
    writesSource lateConfig x y j = false := by
  rw [Bool.eq_false_iff]
  intro hw
  refine writesSource_source hw ?_
  rw [hy.2.2.2.2 j hj, if_neg h0]

theorem Follows.writes_nothing (hx : Follows x) (j : Nat) :
    writesSource lateConfig x y j = false := by
  refine List.any_eq_false.mpr fun k hk => ?_
  rw [hx.2.2.2.1 k (List.mem_range.mp hk)]
  exact Bool.false_ne_true

theorem foldl_unchanged {α β : Type} {f : β → α → β} {b : β} {as : List α}
    (h : ∀ a ∈ as, f b a = b) : as.foldl f b = b := by
  induction as with
  | nil => rfl
  | cons a as ih =>
    rw [List.foldl_cons, h a List.mem_cons_self]
    exact ih fun a' ha' => h a' (List.mem_cons_of_mem a ha')

/-- A visit of an instruction that writes nothing. -/
theorem regDependencyOn_skip (hp : Follows (r.entry p)) : regDependencyOn lateConfig i r p = r := by
  unfold regDependencyOn
  split
  · refine foldl_unchanged fun j _ => ?_
    rw [visit_source, hp.writes_nothing]
    exact if_neg fun h => Bool.false_ne_true h.1
  · rfl

/-- A visit of the load. -/
theorem regDependencyOn_leads (h0 : Leads (r.entry 0)) (hi : Follows (r.entry i)) (hne : 0 ≠ i)
    (hchecked : (r.entry i).regRawChecked 0 = false) :
    regDependencyOn lateConfig i r 0 = record 0 i 0 r := by
  unfold regDependencyOn
  rw [if_pos h0.2.2.1, show List.range numInstrSources = 0 :: [1, 2, 3] from rfl, List.foldl_cons,
    visit_source, if_pos ⟨h0.writes hi, hchecked⟩]
  refine foldl_unchanged fun j hj => ?_
  have hcur : Follows ((record 0 i 0 r).entry i) := by
    rw [record_cur hne]
    exact hi
  have hj : j < 4 ∧ j ≠ 0 := by
    simp only [List.mem_cons, List.not_mem_nil, or_false] at hj
    omega
  rw [visit_source, hcur.unused hj.1 hj.2]
  exact if_neg fun h => Bool.false_ne_true h.1

theorem priors_of_head (h : r.head = 0) (hi : 0 < i) : priors r i = (List.range i).reverse := by
  obtain ⟨n, rfl⟩ : ∃ n, i = n + 1 := ⟨i - 1, by omega⟩
  unfold priors
  dsimp only
  rw [h, if_neg (Nat.succ_ne_zero n), if_neg (Nat.succ_ne_zero n), if_pos (Nat.zero_le _)]
  unfold downFrom
  rw [List.range_eq_range']
  rfl

/-- The walk back to the load records it as the producer. -/
theorem regDependency_follows (hhead : r.head = 0) (h0 : Leads (r.entry 0)) (hi : 0 < i)
    (hfollows : ∀ k, 0 < k → k ≤ i → Follows (r.entry k))
    (hchecked : (r.entry i).regRawChecked 0 = false) :
    regDependency lateConfig i r = record 0 i 0 r := by
  obtain ⟨n, rfl⟩ : ∃ n, i = n + 1 := ⟨i - 1, by omega⟩
  have hskip : ((List.range n).map Nat.succ).reverse.foldl (regDependencyOn lateConfig (n + 1)) r =
      r := by
    refine foldl_unchanged fun p hp => ?_
    obtain ⟨k, hk, rfl⟩ := List.mem_map.mp (List.mem_reverse.mp hp)
    have hk := List.mem_range.mp hk
    exact regDependencyOn_skip (hfollows _ (Nat.succ_pos k) (by omega))
  unfold regDependency
  rw [priors_of_head hhead hi, List.range_succ_eq_map, List.reverse_cons, List.foldl_append, hskip]
  exact regDependencyOn_leads h0 (hfollows _ hi le_rfl) hi.ne hchecked

end Registers

/-! ## Behind the load -/

structure Held (s : Cpu (Server → List Packet)) : Prop where
  reached : Reaches late lateConfig lateTrace Eq s
  head : s.rob.head = 0
  pos : 0 < s.rob.occupancy
  leads : Leads (s.rob.entry 0)
  waits : ∀ i, 0 < i → i < s.rob.occupancy → Follows (s.rob.entry i) ∧ Waits (s.rob.entry i)
  next : s.nextSchedule < robSize
  rte : ∀ b, (s.rte b).front = robSize
  rtl : ∀ b, (s.rtl b).front = lqSize
  rts : ∀ b, (s.rts b).front = sqSize
  itlb : s.mem .itlb = []
  dtlb : s.mem .dtlb = []

/-- Only scheduling has happened. -/
structure Rescheduled (s s' : Cpu (Server → List Packet)) : Prop where
  rest : s' = { s with rob := s'.rob, nextSchedule := s'.nextSchedule }
  occupancy : s'.rob.occupancy = s.rob.occupancy

theorem Rescheduled.refl (s : Cpu (Server → List Packet)) : Rescheduled s s := ⟨rfl, rfl⟩

theorem Rescheduled.trans {s s' s'' : Cpu (Server → List Packet)} (h : Rescheduled s s')
    (h' : Rescheduled s' s'') : Rescheduled s s'' where
  rest := by
    rw [h'.rest]
    exact h.rest ▸ rfl
  occupancy := h'.occupancy.trans h.occupancy

section Stages

variable {s s' : Cpu (Server → List Packet)} {i : Nat}

theorem Held.window (h : Held s) : Window s.rob := (reaches_pipe h.reached).window

/-- With the head in slot 0, the slot of an instruction is its age. -/
theorem Held.live_iff (h : Held s) : s.rob.Live i ↔ i < s.rob.occupancy := by
  have hocc := h.window.wf.occ_le
  have hidx : ∀ k < s.rob.occupancy, Ring.idx s.rob.size s.rob.head k = k := by
    intro k hk
    unfold Ring.idx
    rw [h.head, if_pos (by omega), Nat.zero_add]
  constructor
  · rintro ⟨k, hk, rfl⟩
    rwa [hidx k hk]
  · exact fun hi => ⟨i, hi, (hidx i hi).symm⟩

theorem Held.blank (h : Held s) (hi : s.rob.occupancy ≤ i) : Blank (s.rob.entry i) :=
  h.window.blank fun hlive => absurd (h.live_iff.mp hlive) (by omega)

theorem Held.doScheduling (h : Held s) (hfetched : (s.rob.entry i).fetched = .completed)
    (hidle : (s.rob.entry i).scheduled = .idle) :
    ∃ s', doScheduling lateConfig i s = some s' ∧ Held s' ∧ Rescheduled s s' := by
  have hlive : s.rob.Live i :=
    h.window.live_of (·.fetched) (fun _ => rfl) (by rw [hfetched]; decide)
  have hi := h.live_iff.mp hlive
  have hpos : 0 < i := by
    refine Nat.pos_of_ne_zero fun h0 => ?_
    subst h0
    rw [h.leads.2.2.2.1] at hidle
    cases hidle
  obtain ⟨hfollows, hwaits⟩ := h.waits i hpos hi
  have hchecked : (s.rob.entry i).regRawChecked 0 = false := by
    rcases hwaits with hw | hw
    · exact hw.2
    · rw [hw.1] at hidle
      cases hidle
  have hmark : ∀ k, k ≠ i → (modify s.rob i markReady).entry k = s.rob.entry k := fun k hk =>
    modify_ne hk markReady
  have hdep : regDependency lateConfig i (modify s.rob i markReady) =
      record 0 i 0 (modify s.rob i markReady) := by
    refine regDependency_follows h.head ?_ hpos (fun k hk hki => ?_) ?_
    · rw [hmark 0 hpos.ne]
      exact h.leads
    · by_cases hk' : k = i
      · subst hk'
        rw [modify_self]
        exact hfollows
      · rw [hmark k hk']
        exact (h.waits k hk (by omega)).1
    · rw [modify_self]
      exact hchecked
  have hcur : (record 0 i 0 (modify s.rob i markReady)).entry i =
      awaitProducer ((modify s.rob i markReady).entry 0).instrId 0 (markReady (s.rob.entry i)) := by
    rw [record_cur hpos.ne, modify_self]
  have hrun : O3.doScheduling lateConfig i s = some { s with
      rob := modify (record 0 i 0 (modify s.rob i markReady)) i markInflight
      nextSchedule := nextSlot s i } := by
    rw [doScheduling_eq, hdep]
    exact scheduleIn_memory (by rw [hcur]; exact hfollows.2.1)
  refine ⟨_, hrun, ⟨h.reached.call (.schedule hfetched hidle hrun), h.head, h.pos, ?_, ?_, ?_, h.rte,
    h.rtl, h.rts, h.itlb, h.dtlb⟩, ⟨rfl, rfl⟩⟩
  · show Leads ((modify _ i markInflight).entry 0)
    rw [modify_ne hpos.ne, record_prior hpos.ne, hmark 0 hpos.ne]
    exact h.leads
  · intro k hk hklt
    show Follows ((modify _ i markInflight).entry k) ∧ Waits ((modify _ i markInflight).entry k)
    by_cases hk' : k = i
    · subst hk'
      rw [modify_self, hcur]
      exact ⟨hfollows, .inr ⟨rfl, rfl⟩⟩
    · rw [modify_ne hk', record_other hk' hk.ne', hmark k hk']
      exact h.waits k hk hklt
  · have hsize := h.window.size
    have hlt := h.window.lt_size hlive
    show nextSlot s i < robSize
    unfold nextSlot
    split
    · decide
    · omega

/-- The scheduling loop, by induction on the slots it visits. -/
theorem Held.scheduleLoop (is : List Nat) : ∀ (n : Nat) {s : Cpu (Server → List Packet)}, Held s →
    ∃ s', scheduleLoop lateConfig is n s = some s' ∧ Held s' ∧ Rescheduled s s' := by
  induction is with
  | nil => exact fun n s h => ⟨s, rfl, h, .refl s⟩
  | cons i is ih =>
    intro n s h
    rw [scheduleLoop_cons]
    split
    · rename_i hgo
      split
      · rename_i hidle
        obtain ⟨s₁, hs₁, h₁, hsame⟩ := h.doScheduling hgo.1.1 hidle
        obtain ⟨s₂, hs₂, h₂, hsame'⟩ := ih (n + 1) h₁
        exact ⟨s₂, by rw [hs₁, Option.bind_some, hs₂], h₂, hsame.trans hsame'⟩
      · exact ih (n + 1) h
    · exact ⟨s, rfl, h, .refl s⟩

/-- A stage that leaves alone what `Held` is about. -/
theorem Held.congr (h : Held s) (hreached : Reaches late lateConfig lateTrace Eq s')
    (hrob : s'.rob = s.rob) (hnext : s'.nextSchedule = s.nextSchedule) (hrte : s'.rte = s.rte)
    (hrtl : s'.rtl = s.rtl) (hrts : s'.rts = s.rts) (hitlb : s'.mem .itlb = [])
    (hdtlb : s'.mem .dtlb = []) : Held s' where
  reached := hreached
  head := hrob ▸ h.head
  pos := hrob ▸ h.pos
  leads := hrob ▸ h.leads
  waits := hrob ▸ h.waits
  next := hnext ▸ h.next
  rte := hrte ▸ h.rte
  rtl := hrtl ▸ h.rtl
  rts := hrts ▸ h.rts
  itlb := hitlb
  dtlb := hdtlb

theorem Held.not_empty (h : Held s) : ¬ robEmpty s.rob := fun hempty => by
  have hpos := h.pos
  have hzero : s.rob.occupancy = 0 := hempty.2
  omega

theorem Held.retire (h : Held s) :
    latePhase s .retire = some s := by
  refine if_neg fun hdone => h.leads.2.2.1 ?_
  rw [← h.head]
  exact hdone.1

/-- Nothing completes. -/
theorem Held.completeExecution (h : Held s) (hrob : s'.rob = s.rob) (i : Nat) :
    completeExecution i s' = some s' := by
  unfold O3.completeExecution
  dsimp only
  rw [hrob]
  by_cases hi : i < s.rob.occupancy
  · have hmemory : (s.rob.entry i).isMemory = true ∧ (s.rob.entry i).numMemOps ≠ 0 := by
      rcases Nat.eq_zero_or_pos i with rfl | hpos
      · exact ⟨h.leads.1, h.leads.2.1⟩
      · exact ⟨(h.waits i hpos hi).1.2.1, (h.waits i hpos hi).1.2.2.1⟩
    rw [if_neg (by rw [hmemory.1]; decide), if_neg hmemory.2]
  · have hblank := h.blank (Nat.le_of_not_lt hi)
    have hmemory : (s.rob.entry i).isMemory = false :=
      (congrArg OooModelInstr.isMemory hblank :)
    have hexecuted : (s.rob.entry i).executed = .idle :=
      (congrArg OooModelInstr.executed hblank :)
    rw [if_pos hmemory, hexecuted]
    exact if_neg fun hx => by cases hx.1

theorem Held.completeAll (h : Held s) (hrob : s'.rob = s.rob) (is : List Nat) :
    completeAll is s' = some s' := by
  induction is with
  | nil => rfl
  | cons i is ih =>
    show (O3.completeExecution i s').bind _ = _
    rw [h.completeExecution hrob, Option.bind_some]
    exact ih

theorem answer_none {server : Server} (h : server = .l1d ∨ s.mem server = []) :
    answer late s server = some s := by
  have hnone : late.processed server s.cycle s.mem = none := by
    rcases h with rfl | h
    · rfl
    · show (if server = .l1d then none else (s.mem server).head?) = none
      rw [h]
      exact ite_self _
  unfold answer
  rw [hnone]

theorem Held.update (h : Held s) (hl1i : s.mem .l1i = []) :
    latePhase s .update = some s := by
  have hrun : run (answer late) s servers = some s := by
    unfold servers
    rw [run_cons_some (answer_none (.inr h.itlb)), run_cons_some (answer_none (.inr hl1i)),
      run_cons_some (answer_none (.inr h.dtlb)), run_cons_some (answer_none (.inl rfl)), run_nil]
  show (run (answer late) s servers).bind _ = _
  rw [hrun, Option.bind_some, h.completeAll rfl]
  exact ite_self _

/-- The L1I has answered. -/
def lineFetched (p : Packet) (s : Cpu (Server → List Packet)) : Cpu (Server → List Packet) :=
  { s with
    mem := Function.update s.mem .l1i []
    ifetchBuffer := completeInstrLine p s.ifetchBuffer }

theorem answer_line {p : Packet} (hl1i : s.mem .l1i = [p]) :
    answer late s .l1i = some (lineFetched p s) := by
  have hsome : late.processed .l1i s.cycle s.mem = some p := by
    show (s.mem .l1i).head? = some p
    rw [hl1i]
    rfl
  have hremove : late.removeProcessed .l1i s.mem = some (Function.update s.mem .l1i []) := by
    show some (Function.update s.mem .l1i (s.mem .l1i).tail) = _
    rw [hl1i]
    rfl
  unfold answer
  rw [hsome]
  show (late.removeProcessed .l1i s.mem).map _ = _
  rw [hremove]
  rfl

theorem Held.update_line (h : Held s) {p : Packet} (hl1i : s.mem .l1i = [p]) :
    latePhase s .update = some (lineFetched p s) := by
  have hdtlb : (lineFetched p s).mem .dtlb = [] := h.dtlb
  have hrun : run (answer late) s servers = some (lineFetched p s) := by
    unfold servers
    rw [run_cons_some (answer_none (.inr h.itlb)), run_cons_some (answer_line hl1i),
      run_cons_some (answer_none (.inr hdtlb)), run_cons_some (answer_none (.inl rfl)), run_nil]
  have hrob : (lineFetched p s).rob = s.rob := rfl
  show (run (answer late) s servers).bind _ = _
  rw [hrun, Option.bind_some, h.completeAll hrob]
  exact ite_self _

theorem Held.schedule (h : Held s) :
    ∃ s', latePhase s .schedule = some s' ∧ Held s' ∧ Rescheduled s s' := by
  have hrun := h.scheduleLoop (upTo s.rob nextFetch ++ wrapped s.rob nextFetch) 0
  simp only [Phase.perform, scheduleInstruction, if_neg h.not_empty]
  split
  · exact hrun
  · exact ⟨s, rfl, h, .refl s⟩

theorem executeLoop_none {b : Half} (hfront : (s.rte b).front = robSize) (n issued : Nat) :
    executeLoop lateConfig b n issued s = (issued, s) := by
  cases n with
  | zero => rfl
  | succ n =>
    simp only [executeLoop, hfront, if_neg (lt_irrefl robSize), ite_self]

theorem Held.execute (h : Held s) :
    latePhase s .execute = some s := by
  simp only [Phase.perform, executeInstruction, if_neg h.not_empty, executeLoop_none (h.rte _)]

theorem Held.memoryLoop (h : Held s) (is : List Nat) (n : Nat) :
    ∃ n', memoryLoop lateConfig is n s = some (n', s) := by
  induction is with
  | nil => exact ⟨n, rfl⟩
  | cons i is ih =>
    have hnot : ¬ ((s.rob.entry i).regReady ∧ (s.rob.entry i).scheduled = .inflight) := by
      rintro ⟨hready, hinflight⟩
      by_cases hi : i < s.rob.occupancy
      · rcases Nat.eq_zero_or_pos i with rfl | hpos
        · rw [h.leads.2.2.2.1] at hinflight
          cases hinflight
        · rcases (h.waits i hpos hi).2 with hw | hw
          · rw [hw.1] at hinflight
            cases hinflight
          · rw [hw.2] at hready
            cases hready
      · have hblank : (s.rob.entry i).scheduled = .idle :=
          (congrArg OooModelInstr.scheduled (h.blank (Nat.le_of_not_lt hi)) :)
        rw [hblank] at hinflight
        cases hinflight
    simp only [O3.memoryLoop, if_neg hnot]
    split
    · exact ih
    · split
      · exact ⟨n, rfl⟩
      · exact ih

theorem Held.scheduleMemory (h : Held s) :
    latePhase s .scheduleMemory = some s := by
  obtain ⟨n, hn⟩ := h.memoryLoop (upTo s.rob s.nextSchedule) 0
  obtain ⟨n', hn'⟩ := h.memoryLoop (wrapped s.rob s.nextSchedule) n
  simp only [Phase.perform, scheduleMemoryInstruction, if_neg h.not_empty, hn, hn',
    Option.bind_some]
  rfl

theorem Held.executeMemory (h : Held s) :
    latePhase s .executeMemory = some s := by
  have hstores : ∀ n, translateStores late lateConfig n 0 s = some (0, s) := by
    intro n
    cases n with
    | zero => rfl
    | succ n => simp only [translateStores, h.rts, if_neg (lt_irrefl sqSize), ite_self]
  have hexecute : ∀ n, executeStores n 0 s = some (0, s) := by
    intro n
    cases n with
    | zero => rfl
    | succ n => simp only [executeStores, h.rts, if_neg (lt_irrefl sqSize), ite_self]
  have hloads : ∀ n, translateLoads late lateConfig n 0 s = some (0, s) := by
    intro n
    cases n with
    | zero => rfl
    | succ n => simp only [translateLoads, h.rtl, if_neg (lt_irrefl lqSize), ite_self]
  have hdata : ∀ n, executeLoads late lateConfig n 0 s = some (0, s) := by
    intro n
    cases n with
    | zero => rfl
    | succ n => simp only [executeLoads, h.rtl, if_neg (lt_irrefl lqSize), ite_self]
  simp only [Phase.perform, executeMemoryInstruction, operateLsq, hstores, hexecute, hloads, hdata,
    Option.bind_some, Option.map_some]
  rfl

/-- The stages between the first answers and decoding. -/
def backPhases : List Phase :=
  [.schedule, .execute, .update, .scheduleMemory, .executeMemory, .update]

/-- They leave all but the schedule alone. -/
theorem Held.outOfOrder (h : Held s) (hl1i : s.mem .l1i = []) :
    ∃ s', run latePhase s backPhases = some s' ∧ Held s' ∧ Rescheduled s s' := by
  obtain ⟨s', hs', h', hsame⟩ := h.schedule
  have hl1i' : s'.mem .l1i = [] := by
    rw [hsame.rest]
    exact hl1i
  refine ⟨s', ?_, h', hsame⟩
  unfold backPhases
  rw [run_cons_some hs', run_cons_some h'.execute, run_cons_some (h'.update hl1i'),
    run_cons_some h'.scheduleMemory, run_cons_some h'.executeMemory,
    run_cons_some (h'.update hl1i'), run_nil]

end Stages

end O3
end ChampSim
