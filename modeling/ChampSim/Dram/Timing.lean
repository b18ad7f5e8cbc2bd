import ChampSim.Dram.Agreement

/-!
# ChampSim.Dram.Timing

When requests cross the data bus.

* `Part`       — `operate` cut at the points where something is scheduled or processed.
* `Timing`     — for every slot the cycle and the row-buffer outcome of its last scheduling, and what
  `process` has completed; `note` keeps it.
* `InRange`    — no cycle count plus latency reaches `UINT64_MAX`.
* `Timely`     — the invariant: completions are spaced, the bus is free after the last one, and a
  bank is not ready before its latency has passed.
* `run_timely` — every run in range.
* `wrapped_bus` — out of range, two requests cross the bus in consecutive cycles.
-/

namespace ChampSim
namespace Dram

open Controller Lib

variable {c : Config}

/-! ## operate in parts -/

inductive Part where
  | switch (ch : Nat)
  | schedule (w : QueueId) (ch : Nat)
  | process (w : QueueId) (ch : Nat)

namespace Controller

variable (c : Config) (m : Controller) (cycle : Nat → Nat)

/-- `operate` comes to `schedule`. -/
def Schedules (w : QueueId) (ch : Nat) : Prop :=
  m.active ch = w ∧ (m.queue w ch).nextScheduleIndex < (m.queue w ch).size ∧
    (m.queue w ch).nextScheduleCycle ≤
      cycle ((m.queue w ch).entry (m.queue w ch).nextScheduleIndex).cpu

instance (w : QueueId) (ch : Nat) : Decidable (Schedules m cycle w ch) :=
  inferInstanceAs (Decidable (_ ∧ _ ∧ _))

/-- `operate` comes to `process`. -/
def Processes (w : QueueId) (ch : Nat) : Prop :=
  m.active ch = w ∧ (m.queue w ch).nextProcessIndex < (m.queue w ch).size ∧
    (m.queue w ch).nextProcessCycle ≤
      cycle ((m.queue w ch).entry (m.queue w ch).nextProcessIndex).cpu

instance (w : QueueId) (ch : Nat) : Decidable (Processes m cycle w ch) :=
  inferInstanceAs (Decidable (_ ∧ _ ∧ _))

def part : Part → Option Controller
  | .switch ch => m.switchMode c cycle ch
  | .schedule w ch => some (if m.Schedules cycle w ch then m.schedule c cycle w ch else m)
  | .process w ch => if m.Processes cycle w ch then m.process c cycle w ch else some m

end Controller

def channelParts (ch : Nat) : List Part :=
  [.switch ch, .schedule .wq ch, .process .wq ch, .schedule .rq ch, .process .rq ch]

def parts (channels : Nat) : List Part := (List.range channels).flatMap channelParts

section Parts

variable {m : Controller} {cycle : Nat → Nat}

theorem schedule_active (m : Controller) (w : QueueId) (ch ch' : Nat) :
    (m.schedule c cycle w ch).active ch' = m.active ch' := by
  unfold schedule
  split <;> rfl

theorem serve_parts (w : QueueId) (ch : Nat) :
    m.serve c cycle w ch = run (fun m => m.part c cycle) m [.schedule w ch, .process w ch] := by
  by_cases ha : m.active ch = w
  · obtain ⟨m₁, hm₁⟩ : ∃ m₁, m₁ =
        if m.Schedules cycle w ch then m.schedule c cycle w ch else m := ⟨_, rfl⟩
    have ha₁ : m₁.active ch = w := by
      rw [hm₁]
      split
      · rw [schedule_active]
        exact ha
      · exact ha
    have hschedule : m.part c cycle (.schedule w ch) = some m₁ := by rw [hm₁]; rfl
    rw [run_cons_some hschedule, run_singleton]
    simp only [Schedules, ha, true_and] at hm₁
    simp only [serve, if_pos ha, ← hm₁, part, Processes, ha₁, true_and]
  · have hschedule : m.part c cycle (.schedule w ch) = some m := by
      simp only [part, Schedules, ha, false_and, if_false]
    rw [run_cons_some hschedule, run_singleton]
    simp only [serve, part, Processes, ha, false_and, if_false]

theorem operateChannel_parts (ch : Nat) :
    m.operateChannel c cycle ch = run (fun m => m.part c cycle) m (channelParts ch) := by
  unfold operateChannel channelParts
  cases hm : m.switchMode c cycle ch with
  | none => rw [run_cons_none (show m.part c cycle (.switch ch) = none from hm)]; rfl
  | some m₁ =>
    rw [run_cons_some (show m.part c cycle (.switch ch) = some m₁ from hm), Option.bind_some,
      serve_parts]
    simp only [serve_parts]
    exact (run_append m₁ [Part.schedule .wq ch, Part.process .wq ch]
      [Part.schedule .rq ch, Part.process .rq ch]).symm

theorem operate_parts : m.operate c cycle = run (fun m => m.part c cycle) m (parts c.channels) := by
  have hloop : ∀ k, m.operateChannels c cycle k = run (fun m => m.part c cycle) m (parts k) := by
    intro k
    induction k with
    | zero => rfl
    | succ k ih =>
      have hparts : parts (k + 1) = parts k ++ channelParts k := by
        simp [parts, List.range_succ]
      rw [hparts, run_append, operateChannels, ih]
      simp only [operateChannel_parts]
  exact hloop c.channels

end Parts

/-! ## The clock of the requests -/

/-- What `process` has completed. -/
structure Completion where
  queue : QueueId
  channel : Nat
  cycle : Nat
  scheduledAt : Nat
  rowBufferHit : Bool
deriving DecidableEq

structure Timing where
  last : QueueId → Nat → Nat → Nat × Bool
  done : List Completion

namespace Timing

def new : Timing := ⟨fun _ _ _ => (0, false), []⟩

def schedule (T : Timing) (w : QueueId) (ch i : Nat) (t : Nat × Bool) : Timing :=
  { T with last := fun w' ch' j => if w' = w ∧ ch' = ch ∧ j = i then t else T.last w' ch' j }

/-- A part takes `m` to `m'`. -/
def note (c : Config) (cycle : Nat → Nat) (m m' : Controller) (T : Timing) : Part → Timing
  | .switch _ => T
  | .schedule w ch =>
    if m.Schedules cycle w ch then
      match m.oldest c (m.queue w ch) with
      | some (i, hit) => T.schedule w ch i (cycle ((m.queue w ch).entry i).cpu, hit)
      | none => T
    else T
  | .process w ch =>
    let i := (m.queue w ch).nextProcessIndex
    if m.log.length < m'.log.length then
      { T with
        done :=
          { queue := w
            channel := ch
            cycle := cycle ((m.queue w ch).entry i).cpu
            scheduledAt := (T.last w ch i).1
            rowBufferHit := (T.last w ch i).2 } :: T.done }
    else T

end Timing

def timed (c : Config) (cycle : Nat → Nat) (s : Controller × Timing) (a : Part) :
    Option (Controller × Timing) :=
  (s.1.part c cycle a).map fun m' => (m', s.2.note c cycle s.1 m' a)

def stepTimed (c : Config) (s : Controller × Timing) (op : Op) : Option (Controller × Timing) :=
  match op with
  | .operate cycle => run (timed c cycle) s (parts c.channels)
  | .addRq .. | .addWq .. => (step c s.1 op).map fun m => (m, s.2)

/-- The record changes nothing. -/
theorem run_timed_fst {cycle : Nat → Nat} (s : Controller × Timing) (as : List Part) :
    (run (timed c cycle) s as).map Prod.fst = run (fun m => m.part c cycle) s.1 as := by
  induction as generalizing s with
  | nil => rfl
  | cons a as ih =>
    cases hm : s.1.part c cycle a with
    | none =>
      have hs : timed c cycle s a = none := by simp [timed, hm]
      rw [run_cons_none hs, run_cons_none hm]
      rfl
    | some m₁ =>
      have hs : timed c cycle s a = some (m₁, s.2.note c cycle s.1 m₁ a) := by simp [timed, hm]
      rw [run_cons_some hs, run_cons_some hm]
      exact ih _

theorem stepTimed_fst (s : Controller × Timing) (op : Op) :
    (stepTimed c s op).map Prod.fst = step c s.1 op := by
  cases op with
  | addRq | addWq => simp [stepTimed, step]
  | operate cycle => exact (run_timed_fst s _).trans operate_parts.symm

/-! ## The invariant -/

/-- From a transfer of queue `w` to the next one of queue `w'`. -/
def gap (c : Config) (w w' : QueueId) : Nat :=
  c.dbusReturnTime + if w = w' then 0 else c.dbusTurnAroundTime

/-- `d` was completed after `e`. -/
def Spaced (c : Config) (d e : Completion) : Prop :=
  e.channel = d.channel → e.cycle + gap c e.queue d.queue ≤ d.cycle

/-- The latency of the last scheduling has passed. -/
def Completion.Paid (c : Config) (d : Completion) : Prop :=
  d.scheduledAt + latency c d.rowBufferHit ≤ d.cycle

structure Timely (c : Config) (m : Controller) (T : Timing) : Prop where
  spaced : T.done.Pairwise (Spaced c)
  bus : ∀ d ∈ T.done, d.cycle + gap c d.queue (m.active d.channel) ≤ m.dbusCycleAvailable d.channel
  paid : ∀ d ∈ T.done, d.Paid c
  ready : ∀ w ch, ∀ i < c.size w, Scheduled m w ch i →
    (T.last w ch i).1 + latency c (T.last w ch i).2 ≤
      (m.bank (c.loc (addr m w ch i))).cycleAvailable

section Timely

variable {m m' : Controller} {T : Timing} {cycle : Nat → Nat} {w : QueueId} {ch i : Nat}

theorem timely_new (c : Config) : Timely c (Controller.new c) .new where
  spaced := .nil
  bus := fun _ hd => nomatch hd
  paid := fun _ hd => nomatch hd
  ready := fun _ _ _ _ hs => nomatch hs

/-- The bus and the modes stay, no bank gets ready earlier, nothing is scheduled. -/
theorem Timely.still (h : Timely c m T) (hmode : m'.writeMode = m.writeMode)
    (hbus : m'.dbusCycleAvailable = m.dbusCycleAvailable)
    (hbank : ∀ l, (m.bank l).cycleAvailable ≤ (m'.bank l).cycleAvailable)
    (hsched : ∀ w ch i, Scheduled m' w ch i →
      Scheduled m w ch i ∧ addr m' w ch i = addr m w ch i) : Timely c m' T := by
  refine ⟨h.spaced, fun d hd => ?_, h.paid, fun w ch i hi hs => ?_⟩
  · rw [active_of_writeMode hmode, hbus]
    exact h.bus d hd
  · obtain ⟨hs, ha⟩ := hsched w ch i hs
    rw [ha]
    exact (h.ready w ch i hi hs).trans (hbank _)

/-! ## Arrivals -/

theorem enqueue_still (h : Timely c m T) {packet : Packet} (hp : packet.scheduled = false) :
    Timely c (m.enqueue w ch packet) T := by
  refine h.still rfl rfl (fun _ => le_rfl) fun w' ch' j hs => ?_
  -- a slot that reads as scheduled is not the one just written
  have hentry : ((m.enqueue w ch packet).queue w' ch').entry j = (m.queue w' ch').entry j := by
    unfold Scheduled at hs
    simp only [enqueue, setQueue_queue] at hs ⊢
    split
    · rename_i hw
      obtain ⟨rfl, rfl⟩ := hw
      rw [if_pos ⟨rfl, rfl⟩] at hs
      cases hidx : emptyIndex (m.queue w' ch') with
      | none => rfl
      | some k =>
        simp only [hidx, updateScheduleCycle_entry] at hs ⊢
        by_cases hjk : j = k
        · subst hjk
          simp [hp] at hs
        · simp [hjk]
    · rfl
  exact ⟨by rw [Scheduled, ← hentry]; exact hs, by rw [addr, hentry]; rfl⟩

theorem respond_still (h : Timely c m T) (event : Level → Packet → Event) (packet : Packet) :
    Timely c (m.respond event packet) T := by
  rw [respond_eq]
  exact h.still rfl rfl (fun _ => le_rfl) fun _ _ _ hs => ⟨hs, rfl⟩

theorem addRq_still (h : Timely c m T) {packet : Packet} (hp : packet.scheduled = false)
    (warm : Nat) : Timely c (m.addRq c warm packet).1 T := by
  unfold addRq
  split
  · exact respond_still h _ _
  · dsimp only
    split
    · simp only [respond_eq]
      refine h.still rfl rfl (fun _ => le_rfl) fun w' ch' j hs => ?_
      -- two queues have a counter changed
      unfold Scheduled addr at *
      simp only [setQueue_queue] at hs ⊢
      split at hs
      · rename_i hw
        obtain ⟨rfl, rfl⟩ := hw
        exact ⟨hs, by simp⟩
      · rename_i hrq
        split at hs
        · rename_i hw
          obtain ⟨rfl, rfl⟩ := hw
          exact ⟨hs, by simp⟩
        · rename_i hwq
          exact ⟨hs, by rw [if_neg hrq, if_neg hwq]⟩
    · split
      · exact h
      · exact enqueue_still h hp

theorem addWq_still (h : Timely c m T) {packet : Packet} (hp : packet.scheduled = false)
    (warm : Nat) : Timely c (m.addWq c warm packet).1 T := by
  unfold addWq
  split
  · exact h
  · dsimp only
    split
    · exact h
    · exact enqueue_still h hp

/-! ## The parts of operate -/

theorem add64_of_lt {a b : Nat} (h : a + b < u64Max) : add64 a b = a + b :=
  Nat.mod_eq_of_lt (by unfold u64Max at h; omega)

/-- A scheduled entry is in the active queue, and its bank works. -/
theorem Inv.working (h : Inv c m) (hi : i < c.size w) (hs : Scheduled m w ch i) :
    w = m.active ch ∧ (m.bank (c.loc (addr m w ch i))).working = true := by
  have hsched := (h ch).sched
  rcases QueueId.eq_or_other (m.active ch) w with rfl | rfl
  · exact ⟨rfl, (hsched.serves i hi hs).working⟩
  · exact absurd hs (hsched.idle i hi)

theorem schedule_timely (h : Inv c m) (hT : Timely c m T)
    (hrange : ∀ cpu hit, cycle cpu + latency c hit < u64Max) (hs : m.Schedules cycle w ch) :
    Timely c (m.schedule c cycle w ch)
      (T.note c cycle m (m.schedule c cycle w ch) (.schedule w ch)) := by
  simp only [schedule, Timing.note, if_pos hs]
  cases hold : m.oldest c (m.queue w ch) with
  | none => exact hT
  | some r =>
    obtain ⟨i, hit⟩ := r
    obtain ⟨hi, haw, hfree⟩ := oldest_spec hold
    rw [(h ch).sched.size] at hi
    simp only [awaiting, Bool.and_eq_true, bne_iff_ne, Bool.not_eq_true'] at haw
    have hloc := (h ch).sched.loc_channel hi haw.1
    obtain ⟨p, b, he, -, hp, -⟩ := scheduleEntry_edit cycle hloc hit
    have hidle : (m.bank (c.loc (addr m w ch i))).working = false := by
      unfold addr
      simpa [bankFree] using hfree
    refine ⟨hT.spaced, hT.bus, hT.paid, fun w' ch' j hj hsj => ?_⟩
    rw [addr_eq_of_request (he.request_eq hp)]
    by_cases hn : w' = w ∧ ch' = ch ∧ j = i
    · obtain ⟨rfl, rfl, rfl⟩ := hn
      simp only [Timing.schedule, and_self, if_true]
      have hbank : ((m.scheduleEntry c cycle w' ch' j hit).bank
          (c.loc (addr m w' ch' j))).cycleAvailable =
          add64 (cycle ((m.queue w' ch').entry j).cpu) (latency c hit) := by
        simp [scheduleEntry, updateCursors, incrScheduled, addr]
      rw [hbank, add64_of_lt (hrange _ _)]
    · simp only [Timing.schedule, if_neg hn]
      have hsj' : Scheduled m w' ch' j := by
        unfold Scheduled at hsj ⊢
        by_cases hw : w' = w ∧ ch' = ch
        · obtain ⟨rfl, rfl⟩ := hw
          rwa [he.entry, Function.update_of_ne (by simpa using hn)] at hsj
        · rwa [he.queue w' ch' hw] at hsj
      -- the bank picked is idle, that of another scheduled entry is not
      have hne : c.loc (addr m w' ch' j) ≠ c.loc (addr m w ch i) := by
        intro heq
        have hworks := (h.working hj hsj').2
        rw [heq, hidle] at hworks
        cases hworks
      rw [he.bank, Function.update_of_ne hne]
      exact hT.ready w' ch' j hj hsj'

theorem resetEntries_bus {k : Nat} (h : m.resetEntries c cycle w ch k = some m') :
    m'.dbusCycleAvailable = m.dbusCycleAvailable := by
  have hdecr : ∀ {m m' : Controller} {w ch}, m.decrScheduled w ch = some m' →
      m'.dbusCycleAvailable = m.dbusCycleAvailable := by
    intro m m' w ch h
    unfold decrScheduled at h
    split at h
    · cases h
    · cases h
      rfl
  induction k generalizing m' with
  | zero =>
    cases h
    rfl
  | succ k ih =>
    obtain ⟨m₁, h₁, h⟩ := Option.bind_eq_some_iff.mp h
    have hbus := ih h₁
    split at h
    · unfold resetEntry at h
      dsimp only at h
      split at h
      · exact (hdecr h).trans hbus
      · split at h
        · exact (hdecr h).trans hbus
        · cases h
          exact hbus
    · cases h
      exact hbus

/-- The modes flip, nothing is scheduled any more, and the bus turns around. -/
theorem turnAround_result (h : Inv c m) (ha : m.active ch = w)
    (heq : m.turnAround c cycle w ch = some m') :
    m'.writeMode = Function.update m.writeMode ch (w == QueueId.rq) ∧
      m'.dbusCycleAvailable = Function.update m.dbusCycleAvailable ch
        (add64 (m.dbusCycleAvailable ch) c.dbusTurnAroundTime) ∧
      (∀ w', ∀ i < c.size w', ¬ Scheduled m' w' ch i) ∧
      ∀ ch', ch' ≠ ch → Same ch' m m' := by
  have hs := (h ch).sched
  rw [ha] at hs
  obtain ⟨m₀, hm₀⟩ : ∃ m₀ : Controller, m₀ =
      { m with writeMode := Function.update m.writeMode ch (w == QueueId.rq) } := ⟨_, rfl⟩
  have hs₀ : Sched c w ch m₀ := by
    subst hm₀
    exact hs.congr (fun _ => rfl) (fun _ => rfl) (fun _ _ => rfl) fun _ => rfl
  obtain ⟨m₁, h₁, hr⟩ := resetEntries_spec cycle hs₀ (c.size w) (Nat.le_refl _)
  have hsize : (m.queue w ch).size = c.size w := hs.size w
  simp only [turnAround, ← hm₀, resetRemainRequests, hsize, h₁, Option.bind_some] at heq
  obtain ⟨m₂, h₂, rfl⟩ := Option.map_eq_some_iff.mp heq
  split at h₂
  · cases h₂
  cases h₂
  have hbus : m₁.dbusCycleAvailable = m.dbusCycleAvailable := by
    rw [resetEntries_bus h₁, hm₀]
  have hqueue : ∀ w' ch', ((m₁.updateCursors .rq ch).updateCursors .wq ch).queue w' ch' =
      if ch' = ch then updateProcessCycle (updateScheduleCycle (m₁.queue w' ch'))
      else m₁.queue w' ch' := by
    intro w' ch'
    rw [updateCursors_queue, updateCursors_queue, updateCursors_queue]
    cases w' <;> by_cases hc : ch' = ch <;> simp [hc]
  refine ⟨?_, ?_, fun w' i hi hsch => ?_, fun ch' hc => ?_⟩
  · exact hr.writeMode.trans (by rw [hm₀])
  · change Function.update m₁.dbusCycleAvailable ch (add64 (m₁.dbusCycleAvailable ch) _) = _
    rw [hbus]
  · have hsch₁ : Scheduled m₁ w' ch i := by
      change ((((m₁.updateCursors .rq ch).updateCursors .wq ch).queue w' ch).entry i).scheduled =
        true at hsch
      rw [hqueue, if_pos rfl] at hsch
      exact hsch
    rcases QueueId.eq_or_other w w' with rfl | rfl
    · exact hr.done i hi hsch₁
    · exact hr.sched.idle i hi hsch₁
  · have hsame := hr.same ch' hc
    refine ⟨fun w' => ?_, fun l hl => ?_, fun w' => ?_, ?_⟩
    · exact ((hqueue w' ch').trans (if_neg hc)).trans ((hsame.queue w').trans (by rw [hm₀]))
    · exact (hsame.bank l hl).trans (by rw [hm₀])
    · exact (hsame.scheduled w').trans (by rw [hm₀])
    · exact hsame.writeMode.trans (by simp [hm₀, hc])

theorem turnAround_timely (h : Inv c m) (hT : Timely c m T) (ha : m.active ch = w)
    (hrange : m.dbusCycleAvailable ch + c.dbusTurnAroundTime < u64Max)
    (heq : m.turnAround c cycle w ch = some m') : Timely c m' T := by
  obtain ⟨hmode, hbus, hnone, hsame⟩ := turnAround_result h ha heq
  refine ⟨hT.spaced, fun d hd => ?_, hT.paid, fun w' ch' i hi hs => ?_⟩
  · have hd := hT.bus d hd
    by_cases hc : d.channel = ch
    · have hactive : m'.active d.channel = w.other := by
        unfold active
        rw [hmode, hc, Function.update_self]
        cases w <;> rfl
      rw [hactive, hbus, hc, Function.update_self, add64_of_lt hrange]
      rw [hc, ha] at hd
      unfold gap at hd ⊢
      -- a transfer of the queue served so far now lies one turn before the next
      split <;> split at hd <;> omega
    · have hactive : m'.active d.channel = m.active d.channel := by
        unfold active
        rw [hmode, Function.update_of_ne hc]
      rw [hactive, hbus, Function.update_of_ne hc]
      exact hd
  · by_cases hc : ch' = ch
    · exact absurd (hc ▸ hs) (hnone w' i hi)
    · have hsame := hsame ch' hc
      have hs' : Scheduled m w' ch' i := by
        unfold Scheduled at hs ⊢
        rwa [hsame.queue] at hs
      have haddr : addr m' w' ch' i = addr m w' ch' i := by
        unfold addr
        rw [hsame.queue]
      have hne := (h ch').sched.live w' i hi hs'
      rw [haddr, hsame.bank _ ((h ch').sched.loc_channel hi hne)]
      exact hT.ready w' ch' i hi hs'

theorem switchMode_timely (h : Inv c m) (hT : Timely c m T)
    (hrange : m.dbusCycleAvailable ch + c.dbusTurnAroundTime < u64Max)
    (heq : m.switchMode c cycle ch = some m') : Timely c m' T := by
  unfold switchMode at heq
  dsimp only at heq
  split at heq
  · rename_i hcond
    exact turnAround_timely h hT (by simp [active, hcond.1]) hrange heq
  · split at heq
    · rename_i hcond
      exact turnAround_timely h hT (by simp [active, hcond.1]) hrange heq
    · cases heq
      exact hT

theorem complete_result (heq : m.complete c cycle w ch i = some m') :
    m'.dbusCycleAvailable =
        Function.update m.dbusCycleAvailable (c.loc (addr m w ch i)).channel
          (add64 (cycle ((m.queue w ch).entry i).cpu) c.dbusReturnTime) ∧
      ∀ l, (m'.bank l).cycleAvailable = (m.bank l).cycleAvailable := by
  obtain ⟨m₁, h₁, heq⟩ := Option.bind_eq_some_iff.mp heq
  obtain ⟨q, -, rfl⟩ := Option.map_eq_some_iff.mp heq
  unfold decrScheduled at h₁
  split at h₁
  · cases h₁
  · cases h₁
    refine ⟨rfl, fun l => ?_⟩
    change (Function.update m.bank _ _ l).cycleAvailable = _
    by_cases hl : l = c.loc ((m.queue w ch).entry i).address
    · rw [hl, Function.update_self]
    · rw [Function.update_of_ne hl]

/-- A transfer on the bus: the entry was ready and the bus free. -/
theorem complete_timely (h : Inv c m) (hT : Timely c m T) (hw : m.active ch = w)
    (hi : i < c.size w) (hsi : Scheduled m w ch i)
    (hrange : ∀ cpu, cycle cpu + c.dbusReturnTime < u64Max)
    (hready : (m.bank (c.loc (addr m w ch i))).cycleAvailable ≤
      cycle ((m.queue w ch).entry i).cpu)
    (hfree : m.dbusCycleAvailable ch ≤ cycle ((m.queue w ch).entry i).cpu)
    (heq : m.complete c cycle w ch i = some m') :
    m'.log.length = m.log.length + 1 ∧ Timely c m' { T with
      done :=
        { queue := w
          channel := ch
          cycle := cycle ((m.queue w ch).entry i).cpu
          scheduledAt := (T.last w ch i).1
          rowBufferHit := (T.last w ch i).2 } :: T.done } := by
  have hs := (h ch).sched
  rw [hw] at hs
  have hne := hs.live w i hi hsi
  have hloc := hs.loc_channel hi hne
  have hocc : 0 < (m.queue w ch).occupancy := by
    rw [(h ch).occupancy]
    exact count_pos_of hi hne
  obtain ⟨m₁, p, b, h₁, he, -, -, -, -, hlog, -⟩ := complete_edit cycle hs hi hsi hocc
  obtain rfl : m₁ = m' := Option.some.inj (h₁.symm.trans heq)
  obtain ⟨hbus, hbank⟩ := complete_result heq
  rw [hloc, add64_of_lt (hrange _)] at hbus
  have hactive : ∀ ch', m₁.active ch' = m.active ch' := fun _ => active_of_writeMode he.writeMode
  refine ⟨by rw [hlog]; rfl, ⟨?_, ?_, ?_, ?_⟩⟩
  · refine List.pairwise_cons.mpr ⟨fun e he' hc => ?_, hT.spaced⟩
    have hd := hT.bus e he'
    rw [hc, hw] at hd
    exact hd.trans hfree
  · rintro d hd
    rcases List.mem_cons.mp hd with rfl | hd
    · rw [hactive, hw, hbus, Function.update_self]
      simp [gap]
    · have hold := hT.bus d hd
      rw [hactive, hbus]
      by_cases hc : d.channel = ch
      · rw [hc, Function.update_self]
        rw [hc] at hold
        exact hold.trans (hfree.trans (Nat.le_add_right _ _))
      · rw [Function.update_of_ne hc]
        exact hold
  · rintro d hd
    rcases List.mem_cons.mp hd with rfl | hd
    · exact (hT.ready w ch i hi hsi).trans hready
    · exact hT.paid d hd
  · intro w' ch' j hj hsj
    have hn : ¬ (w' = w ∧ ch' = ch ∧ j = i) := by
      rintro ⟨rfl, rfl, rfl⟩
      unfold Scheduled at hsj
      rw [he.entry, Function.update_self] at hsj
      cases hsj
    have hentry : (m₁.queue w' ch').entry j = (m.queue w' ch').entry j := by
      by_cases hq : w' = w ∧ ch' = ch
      · obtain ⟨rfl, rfl⟩ := hq
        rw [he.entry, Function.update_of_ne (by simpa using hn)]
      · rw [he.queue w' ch' hq]
    unfold Scheduled at hsj
    rw [hentry] at hsj
    unfold addr
    rw [hentry, hbank]
    exact hT.ready w' ch' j hj hsj

/-- The bus is taken for longer than the bank has been ready. -/
theorem congest_timely (hT : Timely c m T)
    (hready : (m.bank (c.loc (addr m w ch i))).cycleAvailable ≤
      cycle ((m.queue w ch).entry i).cpu)
    (hbusy : cycle ((m.queue w ch).entry i).cpu <
      m.dbusCycleAvailable (c.loc (addr m w ch i)).channel) :
    Timely c (m.congest c cycle w ch i) T := by
  refine hT.still rfl rfl (fun l => ?_) fun _ _ _ hs => ⟨hs, rfl⟩
  change _ ≤ (Function.update m.bank _ _ l).cycleAvailable
  by_cases hl : l = c.loc ((m.queue w ch).entry i).address
  · subst hl
    rw [Function.update_self]
    exact (hready.trans_lt hbusy).le
  · rw [Function.update_of_ne hl]

theorem process_timely (h : Inv c m) (hT : Timely c m T) (hs : m.Processes cycle w ch)
    (hrange : ∀ cpu, cycle cpu + c.dbusReturnTime < u64Max)
    (heq : m.process c cycle w ch = some m') :
    Timely c m' (T.note c cycle m m' (.process w ch)) := by
  obtain ⟨hw, hi, hcycle⟩ := hs
  have hsize := (h ch).sched.size w
  have hsi := (h ch).cursor_scheduled (hsize ▸ hi)
    (hcycle.trans_lt ((Nat.le_add_right _ _).trans_lt (hrange _)))
  have hloc := (h ch).sched.loc_channel (hsize ▸ hi) ((h ch).sched.live w _ (hsize ▸ hi) hsi)
  unfold addr at hloc
  simp only [process] at heq
  rw [if_neg (by omega)] at heq
  split at heq
  · cases heq
  split at heq
  · rename_i hready
    split at heq
    · rename_i hfree
      rw [hloc] at hfree
      obtain ⟨hlog, hT'⟩ := complete_timely h hT hw (hsize ▸ hi) hsi hrange hready hfree heq
      simp only [Timing.note]
      rw [if_pos (by omega)]
      exact hT'
    · rename_i hbusy
      cases heq
      simp only [Timing.note]
      rw [if_neg (by simp [congest, setBank])]
      exact congest_timely hT hready (Nat.not_le.mp hbusy)
  · cases heq
    simp only [Timing.note]
    rw [if_neg (by omega)]
    exact hT

def Part.channel : Part → Nat
  | .switch ch | .schedule _ ch | .process _ ch => ch

/-- No cycle count plus latency reaches the sentinel. -/
def InRange (c : Config) (cycle : Nat → Nat) : Prop :=
  ∀ cpu, (∀ hit, cycle cpu + latency c hit < u64Max) ∧ cycle cpu + c.dbusReturnTime < u64Max

theorem part_timely {a : Part} (h : Inv c m) (hT : Timely c m T) (hrange : InRange c cycle)
    (hturn : ∀ ch, a = .switch ch → m.dbusCycleAvailable ch + c.dbusTurnAroundTime < u64Max)
    (heq : m.part c cycle a = some m') :
    Inv c m' ∧ Timely c m' (T.note c cycle m m' a) ∧
      ∀ ch, ch ≠ a.channel → m'.dbusCycleAvailable ch = m.dbusCycleAvailable ch := by
  cases a with
  | switch ch =>
    obtain ⟨m₁, h₁, hinv, -⟩ := switchMode_spec cycle h ch
    obtain rfl := Option.some.inj (h₁.symm.trans heq)
    refine ⟨hinv, switchMode_timely h hT (hturn ch rfl) heq, fun ch' hc => ?_⟩
    change ch' ≠ ch at hc
    change m.switchMode c cycle ch = some m₁ at heq
    unfold switchMode at heq
    dsimp only at heq
    split at heq
    · rename_i hcond
      rw [(turnAround_result h (by simp [active, hcond.1]) heq).2.1, Function.update_of_ne hc]
    · split at heq
      · rename_i hcond
        rw [(turnAround_result h (by simp [active, hcond.1]) heq).2.1, Function.update_of_ne hc]
      · cases heq
        rfl
  | schedule w ch =>
    cases heq
    by_cases hs : m.Schedules cycle w ch
    · rw [if_pos hs]
      refine ⟨(schedule_spec cycle h hs.1).1,
        schedule_timely h hT (fun cpu => (hrange cpu).1) hs, fun ch' _ => ?_⟩
      unfold schedule
      split <;> rfl
    · rw [if_neg hs]
      simp only [Timing.note, if_neg hs]
      exact ⟨h, hT, fun _ _ => trivial⟩
  | process w ch =>
    change (if m.Processes cycle w ch then m.process c cycle w ch else some m) = some m' at heq
    split at heq
    · rename_i hs
      have hbelow : ∀ cpu, cycle cpu < u64Max := fun cpu =>
        (Nat.le_add_right _ _).trans_lt (hrange cpu).2
      refine ⟨((process_spec cycle h hs.1 (.inr hbelow) hs.2.1 hs.2.2).of_eq heq).1,
        process_timely h hT hs (fun cpu => (hrange cpu).2) heq, fun ch' hc => ?_⟩
      change ch' ≠ ch at hc
      have hsize := (h ch).sched.size w
      have hsi := (h ch).cursor_scheduled (hsize ▸ hs.2.1) (hs.2.2.trans_lt (hbelow _))
      have hloc := (h ch).sched.loc_channel (hsize ▸ hs.2.1)
        ((h ch).sched.live w _ (hsize ▸ hs.2.1) hsi)
      simp only [process] at heq
      rw [if_neg (by have := hs.2.1; omega)] at heq
      split at heq
      · cases heq
      split at heq
      · split at heq
        · rw [(complete_result heq).1, hloc, Function.update_of_ne hc]
        · cases heq
          rfl
      · cases heq
        rfl
    · cases heq
      simp only [Timing.note]
      rw [if_neg (by omega)]
      exact ⟨h, hT, fun _ _ => trivial⟩

/-! ## Runs -/

theorem channel_timely {s : Controller × Timing} (h : Inv c m) (hT : Timely c m T)
    (hrange : InRange c cycle)
    (hturn : m.dbusCycleAvailable ch + c.dbusTurnAroundTime < u64Max)
    (heq : run (timed c cycle) (m, T) (channelParts ch) = some s) :
    Inv c s.1 ∧ Timely c s.1 s.2 ∧
      ∀ ch', ch' ≠ ch → s.1.dbusCycleAvailable ch' = m.dbusCycleAvailable ch' := by
  obtain ⟨s₁, h₁, heq⟩ := run_cons_inv heq
  obtain ⟨m₁, hm₁, rfl⟩ := Option.map_eq_some_iff.mp h₁
  obtain ⟨hi₁, hT₁, hbus₁⟩ := part_timely h hT hrange (by rintro _ ⟨⟩; exact hturn) hm₁
  change ∀ ch', ch' ≠ ch → m₁.dbusCycleAvailable ch' = m.dbusCycleAvailable ch' at hbus₁
  -- the mode is settled: what is left only schedules and processes
  refine run_invariant (I := fun s : Controller × Timing => Inv c s.1 ∧ Timely c s.1 s.2 ∧
      ∀ ch', ch' ≠ ch → s.1.dbusCycleAvailable ch' = m.dbusCycleAvailable ch')
    (P := fun _ a => a.channel = ch ∧ ∀ ch', a ≠ .switch ch')
    (fun t a t' ht ha hs => ?_) ⟨hi₁, hT₁, hbus₁⟩ (along_of_forall ?_ _) heq
  · obtain ⟨hi, hT, hbus⟩ := ht
    obtain ⟨m₂, hm₂, rfl⟩ := Option.map_eq_some_iff.mp hs
    obtain ⟨hi₂, hT₂, hbus₂⟩ :=
      part_timely hi hT hrange (fun ch' hc => absurd hc (ha.2 ch')) hm₂
    exact ⟨hi₂, hT₂, fun ch' hc => (hbus₂ ch' (by rw [ha.1]; exact hc)).trans (hbus ch' hc)⟩
  · simp [Part.channel]

theorem parts_timely {s : Controller × Timing} (h : Inv c m) (hT : Timely c m T)
    (hrange : InRange c cycle) {k : Nat}
    (hturn : ∀ ch < k, m.dbusCycleAvailable ch + c.dbusTurnAroundTime < u64Max)
    (heq : run (timed c cycle) (m, T) (parts k) = some s) :
    Inv c s.1 ∧ Timely c s.1 s.2 ∧
      ∀ ch, k ≤ ch → s.1.dbusCycleAvailable ch = m.dbusCycleAvailable ch := by
  induction k generalizing s with
  | zero =>
    cases heq
    exact ⟨h, hT, fun _ _ => rfl⟩
  | succ k ih =>
    have hparts : parts (k + 1) = parts k ++ channelParts k := by
      simp [parts, List.range_succ]
    rw [hparts, run_append] at heq
    obtain ⟨s₁, h₁, heq⟩ := Option.bind_eq_some_iff.mp heq
    obtain ⟨hi₁, hT₁, hbus₁⟩ := ih (fun ch hc => hturn ch (by omega)) h₁
    have hturn₁ : s₁.1.dbusCycleAvailable k + c.dbusTurnAroundTime < u64Max := by
      rw [hbus₁ k le_rfl]
      exact hturn k (Nat.lt_succ_self k)
    obtain ⟨hi₂, hT₂, hbus₂⟩ := channel_timely hi₁ hT₁ hrange hturn₁ heq
    exact ⟨hi₂, hT₂, fun ch hc => (hbus₂ ch (by omega)).trans (hbus₁ ch (by omega))⟩

end Timely

/-- The cycles that a call reads are in range. -/
def Op.InRange (c : Config) : Op → Prop
  | .operate cycle => Dram.InRange c cycle
  | .addRq .. | .addWq .. => True

/-- No turn of a bus takes it to the sentinel. -/
def TurnsInRange (c : Config) (m : Controller) : Prop :=
  ∀ ch < c.channels, m.dbusCycleAvailable ch + c.dbusTurnAroundTime < u64Max

instance (c : Config) (m : Controller) : Decidable (TurnsInRange c m) :=
  inferInstanceAs (Decidable (∀ ch < _, _))

theorem stepTimed_timely {s s' : Controller × Timing} {op : Op} (h : Inv c s.1)
    (hT : Timely c s.1 s.2) (hl : op.Legal) (hr : op.InRange c) (hturn : TurnsInRange c s.1)
    (hs : stepTimed c s op = some s') : Inv c s'.1 ∧ Timely c s'.1 s'.2 := by
  cases op with
  | addRq warm packet =>
    cases hs
    exact ⟨inv_addRq h warm hl.2 hl.1, addRq_still hT hl.2 warm⟩
  | addWq warm packet =>
    cases hs
    exact ⟨inv_addWq h warm hl.2 hl.1, addWq_still hT hl.2 warm⟩
  | operate cycle =>
    obtain ⟨hi, hT', -⟩ := parts_timely h hT hr hturn hs
    exact ⟨hi, hT'⟩

theorem run_stepTimed_fst (s : Controller × Timing) (ops : List Op) :
    (run (stepTimed c) s ops).map Prod.fst = run (step c) s.1 ops := by
  induction ops generalizing s with
  | nil => rfl
  | cons op ops ih =>
    have hfst := stepTimed_fst (c := c) s op
    cases hs : stepTimed c s op with
    | none =>
      rw [hs] at hfst
      rw [run_cons_none hs, run_cons_none hfst.symm]
      rfl
    | some s₁ =>
      rw [hs] at hfst
      rw [run_cons_some hs, run_cons_some hfst.symm]
      exact ih s₁

/-- In every run in range, of any clocks, the transfers on a channel are spaced by the return time
and, between a read and a write, by the turn-around time, and no request is completed before the
latency of its last scheduling has passed. -/
theorem run_timely (c : Config) {ops : List Op} {s : Controller × Timing}
    (hl : ∀ op ∈ ops, op.Legal ∧ op.InRange c)
    (hturn : Along (stepTimed c) (fun s _ => TurnsInRange c s.1)
      (Controller.new c, Timing.new) ops)
    (h : run (stepTimed c) (Controller.new c, Timing.new) ops = some s) :
    run (step c) (Controller.new c) ops = some s.1 ∧ s.2.done.Pairwise (Spaced c) ∧
      ∀ d ∈ s.2.done, d.Paid c := by
  obtain ⟨-, hT⟩ := run_invariant (I := fun s => Inv c s.1 ∧ Timely c s.1 s.2)
    (P := fun s op => (op.Legal ∧ op.InRange c) ∧ TurnsInRange c s.1)
    (fun _ _ _ hI hop hs => stepTimed_timely hI.1 hI.2 hop.1.1 hop.1.2 hop.2 hs)
    ⟨inv_new c, timely_new c⟩ (hturn.and_forall hl) h
  have hfst := run_stepTimed_fst (c := c) (Controller.new c, Timing.new) ops
  rw [h] at hfst
  exact ⟨hfst.symm, hT.spaced, hT.paid⟩

/-- Two reads of different banks are scheduled, and the first is completed at `t`, the second at
`t'`. -/
def twoReads (t t' : Nat) : List Op :=
  [.addRq 1 (readAt 5), .addRq 1 { readAt 5 with address := 2 }, .operate fun _ => 6,
    .operate fun _ => 7, .operate fun _ => t, .operate fun _ => t']

theorem twoReads_run (t t' : Nat) :
    (t, t') ∈ [(200, 208), (2 ^ 64 - 5, 2 ^ 64 - 4)] →
      ((run (stepTimed Config.default) (Controller.new Config.default, Timing.new)
        (twoReads t t')).map fun s => s.2.done) =
        some [⟨.rq, 0, t', 7, false⟩, ⟨.rq, 0, t, 6, false⟩] := by
  intro h
  simp only [List.mem_cons, Prod.mk.injEq, List.not_mem_nil, or_false] at h
  rcases h with ⟨rfl, rfl⟩ | ⟨rfl, rfl⟩ <;> decide +kernel

theorem run_timely_twoReads :
    ∃ s, run (stepTimed Config.default) (Controller.new Config.default, Timing.new)
        (twoReads 200 208) = some s ∧
      s.2.done = [⟨.rq, 0, 208, 7, false⟩, ⟨.rq, 0, 200, 6, false⟩] ∧
      s.2.done.Pairwise (Spaced Config.default) ∧ ∀ d ∈ s.2.done, d.Paid Config.default := by
  obtain ⟨s, hs, hdone⟩ := Option.map_eq_some_iff.mp
    (twoReads_run 200 208 (by decide))
  have hturn : Along (stepTimed Config.default) (fun s _ => TurnsInRange Config.default s.1)
      (Controller.new Config.default, Timing.new) (twoReads 200 208) := by decide +kernel
  have hlegal : ∀ op ∈ twoReads 200 208, op.Legal ∧ op.InRange Config.default := by
    simp [twoReads, Op.Legal, Op.InRange, InRange, readAt, Packet.empty, u64Max, latency,
      Config.default]
  obtain ⟨-, hspaced, hpaid⟩ := run_timely Config.default hlegal hturn hs
  exact ⟨s, hs, hdone, hspaced, hpaid⟩

/-- The end of the first transfer wraps around, and the second follows in the next cycle. -/
theorem wrapped_bus :
    ∃ s, run (stepTimed Config.default) (Controller.new Config.default, Timing.new)
        (twoReads (2 ^ 64 - 5) (2 ^ 64 - 4)) = some s ∧
      (∀ op ∈ twoReads (2 ^ 64 - 5) (2 ^ 64 - 4), op.Legal ∧ op.BelowSentinel) ∧
      s.2.done = [⟨.rq, 0, 2 ^ 64 - 4, 7, false⟩, ⟨.rq, 0, 2 ^ 64 - 5, 6, false⟩] ∧
      ¬ s.2.done.Pairwise (Spaced Config.default) := by
  obtain ⟨s, hs, hdone⟩ := Option.map_eq_some_iff.mp
    (twoReads_run (2 ^ 64 - 5) (2 ^ 64 - 4) (by decide))
  refine ⟨s, hs, ?_, hdone, ?_⟩
  · simp [twoReads, Op.Legal, Op.BelowSentinel, readAt, Packet.empty, u64Max]
  · rw [hdone]
    simp [Spaced, gap, Config.default]

end Dram
end ChampSim
