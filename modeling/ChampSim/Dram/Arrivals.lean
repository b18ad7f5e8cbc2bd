import ChampSim.Dram.Moves

/-!
# ChampSim.Dram.Arrivals

What `add_rq` and `add_wq` do to the queues.

* `enqueue_spec` — a new request takes an empty slot, or is dropped when there is none.
* `addRq_dummy`, `addRq_forward`, `addRq_merge`, `addRq_enter` — the four ways `add_rq` can end, and
  `addWq_merge`, `addWq_enter` those of `add_wq`.
* `step_spec` — every call of a non-zero address keeps the invariant.
-/

namespace ChampSim
namespace Dram

open Controller

/-- An entry of queue `w` of the packet's channel has the packet's address. -/
def Queued (c : Config) (m : Controller) (w : QueueId) (packet : Packet) : Prop :=
  ∃ i < c.size w, addr m w (c.dramGetChannel packet.address) i = packet.address

instance (c : Config) (m : Controller) (w : QueueId) (packet : Packet) :
    Decidable (Queued c m w packet) :=
  inferInstanceAs (Decidable (∃ i < _, _ = _))

section Arrivals

variable {c : Config} {m m' : Controller} {w : QueueId} {ch : Nat} {packet : Packet}

theorem checkDramQueue_none (h : Inv c m)
    (hc : checkDramQueue (m.queue w (c.dramGetChannel packet.address)) packet = none) :
    ¬ Queued c m w packet := by
  rintro ⟨i, hi, ha⟩
  have hsize := (h (c.dramGetChannel packet.address)).sched.size w
  have := PacketQueue.findFrom_eq_none.mp hc i (Nat.zero_le i) (by omega)
  simp only [beq_eq_false_iff_ne] at this
  exact this ha

theorem checkDramQueue_some (h : Inv c m) {i : Nat}
    (hc : checkDramQueue (m.queue w (c.dramGetChannel packet.address)) packet = some i) :
    Queued c m w packet := by
  have hsize := (h (c.dramGetChannel packet.address)).sched.size w
  obtain ⟨hp, _, hlt, _⟩ := PacketQueue.findFrom_eq_some.mp hc
  exact ⟨i, by omega, by unfold addr; simpa using hp⟩

/-- Slot `i` of queue `w` of channel `ch` was empty and holds `packet` now; nothing else moved. -/
structure Entered (c : Config) (m : Controller) (w : QueueId) (ch i : Nat) (packet : Packet)
    (m' : Controller) : Prop where
  lt : i < c.size w
  empty : addr m w ch i = 0
  entry : (m'.queue w ch).entry i = packet
  other : ∀ w' ch' j, ¬ (w' = w ∧ ch' = ch ∧ j = i) →
    (m'.queue w' ch').entry j = (m.queue w' ch').entry j
  log : m'.log = m.log

/-- Writing an unscheduled packet over an empty entry does not move the process cursor. -/
theorem cursorOk_enter {q : PacketQueue} (h : CursorOk q) {i : Nat}
    (hi : (q.entry i).scheduled = false) (hp : packet.scheduled = false) :
    CursorOk (updateScheduleCycle { q.setEntry i packet with occupancy := q.occupancy + 1 }) := by
  have hscan : scanProcess (updateScheduleCycle
      { q.setEntry i packet with occupancy := q.occupancy + 1 }) = scanProcess q := by
    refine Lib.scanMin_congr (fun j _ => ?_) (fun j _ hj => ?_)
    · show (Function.update q.entry i packet j).scheduled = (q.entry j).scheduled
      by_cases hji : j = i
      · subst hji; rw [Function.update_self, hp, hi]
      · rw [Function.update_of_ne hji]
    · change (Function.update q.entry i packet j).scheduled = true at hj
      show (Function.update q.entry i packet j).eventCycle = (q.entry j).eventCycle
      by_cases hji : j = i
      · subst hji; rw [Function.update_self, hp] at hj; cases hj
      · rw [Function.update_of_ne hji]
  exact ⟨by rw [hscan]; exact h.cycle, fun hlt => by rw [hscan]; exact h.index hlt⟩

/-- With no slot free, the packet is dropped. -/
theorem enqueue_full (packet : Packet) (h : Inv c m) (hidx : emptyIndex (m.queue w ch) = none) :
    Inv c (m.enqueue w ch packet) ∧ c.size w ≤ (m.queue w ch).occupancy ∧
      (m.enqueue w ch packet).log = m.log ∧
      ∀ w' ch' j, ((m.enqueue w ch packet).queue w' ch').entry j =
        (m.queue w' ch').entry j := by
  have hm := h ch
  have hsize := hm.sched.size w
  have hfull := PacketQueue.findFrom_eq_none.mp hidx
  have hq : ∀ w' ch', (m.enqueue w ch packet).queue w' ch' =
      if w' = w ∧ ch' = ch then updateScheduleCycle (m.queue w ch) else m.queue w' ch' := by
    intro w' ch'; simp [enqueue, hidx]
  have hent : ∀ w' ch', ((m.enqueue w ch packet).queue w' ch').entry = (m.queue w' ch').entry := by
    intro w' ch'
    rw [hq]
    split
    · rename_i hw; obtain ⟨rfl, rfl⟩ := hw; rfl
    · rfl
  refine ⟨fun ch' => ?_, ?_, rfl, fun w' ch' j => by rw [hent]⟩
  · have hm' := h ch'
    refine hm'.of_requests ?_ (fun w' ch' i => by rw [hent]) ?_ ?_
    · refine hm'.sched.congr ?_ (fun w' => hent w' ch') (fun _ _ => rfl) fun _ => rfl
      intro w'
      rw [hq]
      split
      · rename_i hw; obtain ⟨rfl, rfl⟩ := hw; rfl
      · rfl
    · intro w'
      rw [hq]
      split
      · rename_i hw; obtain ⟨rfl, rfl⟩ := hw; rfl
      · rfl
    · intro w'
      rw [hq]
      split
      · rename_i hw
        obtain ⟨rfl, rfl⟩ := hw
        exact ⟨(hm'.cursor w').cycle, (hm'.cursor w').index⟩
      · exact hm'.cursor w'
  · rw [hm.occupancy]
    refine Nat.le_of_eq (Nat.count_iff_forall.mpr fun i hi => ?_).symm
    unfold addr
    simpa using hfull i (Nat.zero_le i) (by omega)

/-- Where the packet goes. -/
theorem enqueue_queue (packet : Packet) {i : Nat} (hidx : emptyIndex (m.queue w ch) = some i)
    (w' : QueueId) (ch' : Nat) : (m.enqueue w ch packet).queue w' ch' = if w' = w ∧ ch' = ch then
      updateScheduleCycle { (m.queue w ch).setEntry i packet with
        occupancy := (m.queue w ch).occupancy + 1 } else m.queue w' ch' := by
  simp [enqueue, hidx]

theorem enqueue_other (packet : Packet) {i : Nat} (hidx : emptyIndex (m.queue w ch) = some i)
    {w' : QueueId} {ch' : Nat} (hn : ¬ (w' = w ∧ ch' = ch)) :
    (m.enqueue w ch packet).queue w' ch' = m.queue w' ch' := by
  rw [enqueue_queue packet hidx, if_neg hn]

theorem enqueue_self (packet : Packet) {i : Nat} (hidx : emptyIndex (m.queue w ch) = some i) :
    (m.enqueue w ch packet).queue w ch = updateScheduleCycle
      { (m.queue w ch).setEntry i packet with
        occupancy := (m.queue w ch).occupancy + 1 } := by
  rw [enqueue_queue packet hidx, if_pos ⟨rfl, rfl⟩]

theorem enqueue_sets (packet : Packet) {i : Nat} (hidx : emptyIndex (m.queue w ch) = some i) :
    EntrySet m w ch i packet (m.enqueue w ch packet) := by
  have hself := enqueue_self packet hidx
  have hother : (m.enqueue w ch packet).queue w.other ch = m.queue w.other ch :=
    enqueue_other packet hidx (by simp)
  refine ⟨fun w' => ?_, by rw [hother], by rw [hself]; rfl⟩
  by_cases hw : w' = w
  · subst hw
    rw [hself]
    rfl
  · rw [enqueue_other packet hidx (fun hand => hw hand.1)]

/-- The channel of the packet, which no slot of the queue holds yet. -/
theorem enqueue_channel {i : Nat} (h : Inv c m) (hp : packet.scheduled = false)
    (h0 : packet.address ≠ 0) (hch : c.dramGetChannel packet.address = ch)
    (hnew : ¬ Queued c m w packet) (hidx : emptyIndex (m.queue w ch) = some i)
    (hi : i < c.size w) (hempty : addr m w ch i = 0) :
    ChanInv c ch (m.enqueue w ch packet) := by
  have hm := h ch
  have hns : ¬ Scheduled m w ch i := fun hs => hm.sched.live w i hi hs hempty
  have he := enqueue_sets packet hidx
  have hqw := enqueue_self packet hidx
  refine ⟨?_, fun w' => ?_, fun w' j hj k hk hj0 hjk => ?_, fun w' => ?_⟩
  · exact hm.sched.enter hns he hp (fun _ => hch) rfl fun _ => rfl
  · by_cases hw : w' = w
    · subst hw
      have hraise := Lib.count_raise (q := fun j => addr (m.enqueue w' ch packet) w' ch j ≠ 0)
        hi (p := fun j => addr m w' ch j ≠ 0) (by simpa using hempty)
        (by rw [he.addr_self]; exact h0) fun j _ hji => by rw [he.addr_of_ne hji]
      rw [hraise, ← hm.occupancy, hqw]
      rfl
    · rw [enqueue_other packet hidx (fun hand => hw hand.1), hm.occupancy]
      have hw' : w' = w.other := (QueueId.eq_or_other w w').resolve_left hw
      subst hw'
      exact Lib.count_congr fun j _ => by rw [he.other_addr]
  · -- the new address is in no other slot
    have hfresh : ∀ j < c.size w, addr m w ch j ≠ packet.address := by
      intro j hj ha
      exact hnew ⟨j, hj, by rw [hch]; exact ha⟩
    rcases QueueId.eq_or_other w w' with rfl | rfl
    · by_cases hji : j = i
      · by_cases hki : k = i
        · rw [hji, hki]
        · rw [hji, he.addr_self, he.addr_of_ne hki] at hjk
          exact absurd hjk.symm (hfresh k hk)
      · by_cases hki : k = i
        · rw [hki, he.addr_self, he.addr_of_ne hji] at hjk
          exact absurd hjk (hfresh j hj)
        · rw [he.addr_of_ne hji] at hj0 hjk
          rw [he.addr_of_ne hki] at hjk
          exact hm.distinct w' j hj k hk hj0 hjk
    · rw [he.other_addr] at hj0 hjk
      rw [he.other_addr] at hjk
      exact hm.distinct _ j hj k hk hj0 hjk
  · by_cases hw : w' = w
    · subst hw
      rw [hqw]
      exact cursorOk_enter (hm.cursor w') (by simpa [Scheduled] using hns) hp
    · rw [enqueue_other packet hidx (fun hand => hw hand.1)]
      exact hm.cursor w'

theorem enqueue_spec (h : Inv c m) (hp : packet.scheduled = false) (h0 : packet.address ≠ 0)
    (hch : c.dramGetChannel packet.address = ch) (hnew : ¬ Queued c m w packet) :
    Inv c (m.enqueue w ch packet) ∧
      ((∃ i, Entered c m w ch i packet (m.enqueue w ch packet)) ∨
        (c.size w ≤ (m.queue w ch).occupancy ∧ (m.enqueue w ch packet).log = m.log ∧
          ∀ w' ch' j, ((m.enqueue w ch packet).queue w' ch').entry j =
            (m.queue w' ch').entry j)) := by
  have hsize := (h ch).sched.size w
  cases hidx : emptyIndex (m.queue w ch) with
  | none =>
    obtain ⟨hinv, hdropped⟩ := enqueue_full packet h hidx
    exact ⟨hinv, .inr hdropped⟩
  | some i =>
    obtain ⟨hpi, _, hlt, _⟩ := PacketQueue.findFrom_eq_some.mp hidx
    have hi : i < c.size w := by omega
    have hempty : addr m w ch i = 0 := by
      unfold addr
      simpa using hpi
    have he := enqueue_sets packet hidx
    refine ⟨fun ch' => ?_, .inl ⟨i, hi, hempty, ?_, fun w' ch' j hn => ?_, rfl⟩⟩
    · by_cases hc : ch' = ch
      · subst hc
        exact enqueue_channel h hp h0 hch hnew hidx hi hempty
      · exact (h ch').congr ⟨fun w' => enqueue_other packet hidx (by simp [hc]), fun _ _ => rfl,
          fun _ => rfl, rfl⟩
    · rw [he.entry, Function.update_self]
    · by_cases hw : w' = w ∧ ch' = ch
      · obtain ⟨rfl, rfl⟩ := hw
        rw [he.entry, Function.update_of_ne (by simpa using hn)]
      · rw [enqueue_other packet hidx hw]

/-! ## The ways a call can end -/

theorem respond_eq (m : Controller) (event : Level → Packet → Event) (packet : Packet) :
    m.respond event packet = { m with log :=
      (if packet.isData then [event .dcache packet] else []) ++
        ((if packet.instruction then [event .icache packet] else []) ++ m.log) } := by
  unfold respond
  cases packet.isData <;> cases packet.instruction <;> rfl

theorem addRq_dummy {warm : Nat} (hw : warm < c.numCpus) :
    (m.addRq c warm packet).1 = m.respond .dummy packet := by
  unfold addRq; rw [if_pos hw]

theorem addRq_forward (h : Inv c m) {warm : Nat} (hw : ¬ warm < c.numCpus)
    (hq : Queued c m .wq packet) :
    ∃ data, (m.addRq c warm packet).1.log = (m.respond .forward { packet with data := data }).log ∧
      (∀ w ch, ∃ f a, ((m.addRq c warm packet).1).queue w ch =
        { m.queue w ch with forward := f, access := a }) ∧
      (m.addRq c warm packet).1.bank = m.bank ∧
      (m.addRq c warm packet).1.scheduled = m.scheduled ∧
      (m.addRq c warm packet).1.writeMode = m.writeMode := by
  cases hc : checkDramQueue (m.queue .wq (c.dramGetChannel packet.address)) packet with
  | none => exact absurd hq (checkDramQueue_none h hc)
  | some i =>
    refine ⟨((m.queue .wq (c.dramGetChannel packet.address)).entry i).data, ?_⟩
    unfold addRq
    rw [if_neg hw]
    simp only [hc, respond_eq]
    refine ⟨rfl, fun w ch => ?_, rfl, rfl, rfl⟩
    simp only [setQueue_queue]
    split
    · rename_i hn; obtain ⟨rfl, rfl⟩ := hn; exact ⟨_, _, rfl⟩
    · split
      · rename_i hn; obtain ⟨rfl, rfl⟩ := hn; exact ⟨_, _, rfl⟩
      · exact ⟨_, _, rfl⟩

theorem addRq_merge (h : Inv c m) {warm : Nat} (hw : ¬ warm < c.numCpus)
    (hwq : ¬ Queued c m .wq packet) (hrq : Queued c m .rq packet) :
    (m.addRq c warm packet).1 = m := by
  cases hc : checkDramQueue (m.queue .wq (c.dramGetChannel packet.address)) packet with
  | some i => exact absurd (checkDramQueue_some h hc) hwq
  | none =>
    cases hr : checkDramQueue (m.queue .rq (c.dramGetChannel packet.address)) packet with
    | none => exact absurd hrq (checkDramQueue_none h hr)
    | some i =>
      unfold addRq
      rw [if_neg hw]
      simp only [hc, hr]

theorem addRq_enter (h : Inv c m) {warm : Nat} (hw : ¬ warm < c.numCpus)
    (hwq : ¬ Queued c m .wq packet) (hrq : ¬ Queued c m .rq packet) :
    (m.addRq c warm packet).1 = m.enqueue .rq (c.dramGetChannel packet.address) packet := by
  cases hc : checkDramQueue (m.queue .wq (c.dramGetChannel packet.address)) packet with
  | some i => exact absurd (checkDramQueue_some h hc) hwq
  | none =>
    cases hr : checkDramQueue (m.queue .rq (c.dramGetChannel packet.address)) packet with
    | some i => exact absurd (checkDramQueue_some h hr) hrq
    | none =>
      unfold addRq
      rw [if_neg hw]
      simp only [hc, hr]

theorem addWq_merge (h : Inv c m) {warm : Nat} (hwq : Queued c m .wq packet) :
    (m.addWq c warm packet).1 = m := by
  cases hc : checkDramQueue (m.queue .wq (c.dramGetChannel packet.address)) packet with
  | none => exact absurd hwq (checkDramQueue_none h hc)
  | some i =>
    unfold addWq
    simp only [hc]
    split <;> rfl

theorem addWq_enter (h : Inv c m) {warm : Nat} (hw : ¬ warm < c.numCpus)
    (hwq : ¬ Queued c m .wq packet) :
    (m.addWq c warm packet).1 = m.enqueue .wq (c.dramGetChannel packet.address) packet := by
  cases hc : checkDramQueue (m.queue .wq (c.dramGetChannel packet.address)) packet with
  | some i => exact absurd (checkDramQueue_some h hc) hwq
  | none =>
    unfold addWq
    rw [if_neg hw]
    simp only [hc]

/-! ## Every call keeps the invariant -/

theorem inv_respond (h : Inv c m) (event : Level → Packet → Event) (packet : Packet) :
    Inv c (m.respond event packet) := by
  rw [respond_eq]
  exact fun ch => (h ch).congr ⟨fun _ => rfl, fun _ _ => rfl, fun _ => rfl, rfl⟩

theorem inv_addRq (h : Inv c m) (warm : Nat) (hp : packet.scheduled = false)
    (h0 : packet.address ≠ 0) : Inv c (m.addRq c warm packet).1 := by
  by_cases hw : warm < c.numCpus
  · rw [addRq_dummy hw]
    exact inv_respond h _ packet
  by_cases hwq : Queued c m .wq packet
  · obtain ⟨data, _, hq, hbank, hsch, hmode⟩ := addRq_forward h hw hwq
    intro ch
    have hm := h ch
    have hent : ∀ w ch, ((m.addRq c warm packet).1.queue w ch).entry = (m.queue w ch).entry := by
      intro w ch; obtain ⟨f, a, he⟩ := hq w ch; rw [he]
    refine hm.of_requests ?_ (fun w ch i => by rw [hent]) ?_ ?_
    · rw [active_of_writeMode hmode]
      refine hm.sched.congr ?_ (fun w => hent w ch) (fun l _ => by rw [hbank]) fun w => by rw [hsch]
      intro w; obtain ⟨f, a, he⟩ := hq w ch; rw [he]
    · intro w; obtain ⟨f, a, he⟩ := hq w ch; rw [he]
    · intro w
      obtain ⟨f, a, he⟩ := hq w ch
      rw [he]
      exact ⟨(hm.cursor w).cycle, (hm.cursor w).index⟩
  by_cases hrq : Queued c m .rq packet
  · rw [addRq_merge h hw hwq hrq]
    exact h
  · rw [addRq_enter h hw hwq hrq]
    exact (enqueue_spec h hp h0 rfl hrq).1

theorem inv_addWq (h : Inv c m) (warm : Nat) (hp : packet.scheduled = false)
    (h0 : packet.address ≠ 0) : Inv c (m.addWq c warm packet).1 := by
  by_cases hwq : Queued c m .wq packet
  · rw [addWq_merge h hwq]
    exact h
  by_cases hw : warm < c.numCpus
  · unfold addWq
    rw [if_pos hw]
    exact h
  · rw [addWq_enter h hw hwq]
    exact (enqueue_spec h hp h0 rfl hwq).1

end Arrivals

/-- What callers keep to: addresses are not 0, and a packet is not marked `scheduled`, a flag that
nothing but the controller sets. -/
def Op.Legal : Op → Prop
  | .addRq _ packet => packet.address ≠ 0 ∧ packet.scheduled = false
  | .addWq _ packet => packet.address ≠ 0 ∧ packet.scheduled = false
  | .operate _ => True

/-- No core's cycle, and not the word behind the array either, is the sentinel `UINT64_MAX`. -/
def Op.BelowSentinel : Op → Prop
  | .operate cycle => ∀ cpu, cycle cpu < u64Max
  | _ => True

theorem step_spec {c : Config} {m : Controller} {op : Op} (h : Inv c m) (hl : op.Legal)
    (hT : c.OneChannel ∨ op.BelowSentinel) :
    Lib.Ends op.BelowSentinel (Inv c) (step c m op) := by
  cases op with
  | addRq warm packet => exact inv_addRq h warm hl.2 hl.1
  | addWq warm packet => exact inv_addWq h warm hl.2 hl.1
  | operate cycle => exact (operate_spec h hT).mono fun _ hm => hm.1

end Dram
end ChampSim
