import ChampSim.Dram.Arrivals

/-!
# ChampSim.Dram.Agreement

The three copies of what is in flight (bank state, queue entries, counters) agree in every
reachable state of the controller, across any number of read/write mode switches.

* `Agrees c ch m` — the agreement for one channel, as the source's data has it.
* `run_agrees`    — every run ends, in a state where all channels agree, as long as no cycle is the
  sentinel `UINT64_MAX`.
* `sentinel_asserts` — a core cycle of `UINT64_MAX` trips the assertion in `process`.
-/

namespace ChampSim
namespace Dram

open Controller

/-- Entry `i` is the first scheduled entry of the smallest event cycle, and `t` is that cycle. -/
structure FirstScheduled (q : PacketQueue) (i t : Nat) : Prop where
  lt : i < q.size
  scheduled : (q.entry i).scheduled = true
  cycle : (q.entry i).eventCycle = t
  least : ∀ j < q.size, (q.entry j).scheduled = true → t ≤ (q.entry j).eventCycle
  first : ∀ j < i, (q.entry j).scheduled = true → t < (q.entry j).eventCycle

structure Agrees (c : Config) (ch : Nat) (m : Controller) : Prop where
  working : ∀ l, l.channel = ch → ((m.bank l).working = true ↔
    ∃! i, i < c.size (m.active ch) ∧ Scheduled m (m.active ch) ch i ∧
      c.loc (addr m (m.active ch) ch i) = l)
  bank : ∀ i < c.size (m.active ch), Scheduled m (m.active ch) ch i →
    (m.bank (c.loc (addr m (m.active ch) ch i))).requestIndex = some i ∧
    (m.bank (c.loc (addr m (m.active ch) ch i))).isWrite = (m.active ch == .wq) ∧
    (m.bank (c.loc (addr m (m.active ch) ch i))).isRead = (m.active ch == .rq)
  inactive : ∀ i < c.size (m.active ch).other, ¬ Scheduled m (m.active ch).other ch i
  scheduledReads : m.scheduled .rq ch = Nat.count (Scheduled m .rq ch) c.rqSize
  scheduledWrites : m.scheduled .wq ch = Nat.count (Scheduled m .wq ch) c.wqSize
  next : ∀ w, (m.queue w ch).nextProcessCycle < u64Max →
    FirstScheduled (m.queue w ch) (m.queue w ch).nextProcessIndex (m.queue w ch).nextProcessCycle

theorem CursorOk.firstScheduled {q : PacketQueue} (h : CursorOk q)
    (hlt : q.nextProcessCycle < u64Max) :
    FirstScheduled q q.nextProcessIndex q.nextProcessCycle := by
  have hidx := h.index hlt
  cases hs : (scanProcess q).2 with
  | none =>
    have htop := (Lib.scanMin_none hs).1
    have hcyc := h.cycle
    rw [show (scanProcess q).1 = u64Max from htop] at hcyc
    omega
  | some i =>
    rw [hs, Option.getD_some] at hidx
    obtain ⟨hi, hp, hkey, _, hmin, hfirst⟩ := Lib.scanMin_some hs
    have hcyc : q.nextProcessCycle = (q.entry i).eventCycle := by rw [h.cycle]; exact hkey
    rw [hidx, hcyc]
    exact ⟨hi, hp, rfl, fun j hj hsj => hmin j hj hsj, fun j hj hsj => hfirst j hj hsj⟩

theorem ChanInv.agrees {c : Config} {ch : Nat} {m : Controller} (h : ChanInv c ch m) :
    Agrees c ch m where
  working := by
    intro l hl
    constructor
    · intro hw
      rcases h.sched.banks l hl with hr | ⟨i, hi, hsi, hli⟩
      · rw [hr.working] at hw; cases hw
      · refine ⟨i, ⟨hi, hsi, hli⟩, fun j hj => ?_⟩
        exact h.sched.loc_inj hj.1 hi hj.2.1 hsi (by rw [hj.2.2, hli])
    · rintro ⟨i, ⟨hi, hsi, hli⟩, _⟩
      rw [← hli]
      exact (h.sched.serves i hi hsi).working
  bank := fun i hi hsi =>
    have hv := h.sched.serves i hi hsi
    ⟨hv.index, hv.isWrite, hv.isRead⟩
  inactive := h.sched.idle
  scheduledReads := h.sched.counts .rq
  scheduledWrites := h.sched.counts .wq
  next := fun w => (h.cursor w).firstScheduled

/-- No run of legal calls trips an assertion or takes a counter below zero, and it ends in a state
where every channel agrees. -/
theorem run_agrees (c : Config) (ops : List Op) (hl : ∀ op ∈ ops, op.Legal)
    (hb : ∀ op ∈ ops, op.BelowSentinel) :
    ∃ m, Lib.run (step c) (Controller.new c) ops = some m ∧ ∀ ch, Agrees c ch m := by
  have hstep : ∀ m op, Inv c m → (op.Legal ∧ op.BelowSentinel) →
      ∃ m', step c m op = some m' ∧ Inv c m' := fun m op hm hop =>
    (step_spec hm hop.1 (.inr hop.2)).exists hop.2
  obtain ⟨m, hrun, hm⟩ := Lib.run_total hstep (inv_new c)
    (Lib.along_of_forall (fun op hop => ⟨hl op hop, hb op hop⟩) _)
  exact ⟨m, hrun, fun ch => (hm ch).agrees⟩

/-- A read of line 1 by core 0, sent at cycle `t`. -/
def readAt (t : Nat) : Packet :=
  { Packet.empty 1 with address := 1, cpu := 0, eventCycle := t }

theorem run_agrees_read :
    (∀ op ∈ [Op.addRq 1 (readAt 5), .operate fun _ => 6], op.Legal ∧ op.BelowSentinel) ∧
      ∃ m, Lib.run (step Config.default) (Controller.new Config.default)
        [Op.addRq 1 (readAt 5), .operate fun _ => 6] = some m ∧
        ∀ ch, Agrees Config.default ch m := by
  have hops : ∀ op ∈ [Op.addRq 1 (readAt 5), .operate fun _ => 6],
      op.Legal ∧ op.BelowSentinel := by
    simp [Op.Legal, Op.BelowSentinel, readAt, Packet.empty, u64Max]
  exact ⟨hops, run_agrees _ _ (fun op h => (hops op h).1) fun op h => (hops op h).2⟩

/-- At cycle `UINT64_MAX` the cursor of a queue that has never been scanned passes for due. -/
theorem sentinel_asserts :
    (∀ op ∈ [Op.addRq 1 (readAt u64Max), .operate fun _ => u64Max], op.Legal) ∧
      Lib.run (step Config.default) (Controller.new Config.default)
        [Op.addRq 1 (readAt u64Max), .operate fun _ => u64Max] = none := by
  refine ⟨by simp [Op.Legal, readAt, Packet.empty], ?_⟩
  have h : (Lib.run (step Config.default) (Controller.new Config.default)
      [Op.addRq 1 (readAt u64Max), .operate fun _ => u64Max]).isNone = true := by decide +kernel
  exact Option.isNone_iff_eq_none.mp h

end Dram
end ChampSim
