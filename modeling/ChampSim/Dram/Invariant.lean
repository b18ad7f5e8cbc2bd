import ChampSim.Dram.Model
import ChampSim.Lib.Slots

/-!
# ChampSim.Dram.Invariant

Banks, queue entries and counters of a channel say the same thing.

* `Sched c w ch m` — only queue `w` of channel `ch` has scheduled entries, a bank works for exactly
  one of them, and the counters count them.
* `Sched.schedule`, `Sched.unschedule`, `Sched.enter` — the three changes of an entry.
* `ChanInv`, `Inv` — `Sched` for the active queue, exact occupancy, distinct addresses and a
  `next_process` cursor that agrees with the scan.
-/

namespace ChampSim
namespace Dram

open Controller

@[simp] theorem QueueId.other_ne (w : QueueId) : w.other ≠ w := by cases w <;> decide

theorem QueueId.eq_or_other (w w' : QueueId) : w' = w ∨ w' = w.other := by
  cases w <;> cases w' <;> decide

/-- What a packet asks for, without the fields the controller writes. -/
def request (p : Packet) : Packet := { p with scheduled := false, eventCycle := 0, data := 0 }

@[simp] theorem request_address (p : Packet) : (request p).address = p.address := rfl

@[simp] theorem request_request (p : Packet) : request (request p) = request p := rfl

theorem address_of_request {p p' : Packet} (h : request p = request p') :
    p.address = p'.address := by
  have := congrArg Packet.address h
  simpa using this

namespace Controller

variable (m : Controller) (w w' : QueueId) (ch ch' : Nat) (q : PacketQueue) (l : Loc)
  (b : BankRequest)

@[simp] theorem setQueue_queue :
    (m.setQueue w ch q).queue w' ch' = if w' = w ∧ ch' = ch then q else m.queue w' ch' := by
  by_cases hw : w' = w
  · subst hw
    by_cases hc : ch' = ch
    · subst hc; simp [setQueue]
    · simp [setQueue, hc]
  · simp [setQueue, hw]

@[simp] theorem setQueue_bank : (m.setQueue w ch q).bank = m.bank := rfl
@[simp] theorem setQueue_scheduled : (m.setQueue w ch q).scheduled = m.scheduled := rfl
@[simp] theorem setQueue_writeMode : (m.setQueue w ch q).writeMode = m.writeMode := rfl
@[simp] theorem setQueue_log : (m.setQueue w ch q).log = m.log := rfl
@[simp] theorem setBank_bank : (m.setBank l b).bank = Function.update m.bank l b := rfl
@[simp] theorem setBank_queue : (m.setBank l b).queue = m.queue := rfl
@[simp] theorem setBank_scheduled : (m.setBank l b).scheduled = m.scheduled := rfl
@[simp] theorem setBank_writeMode : (m.setBank l b).writeMode = m.writeMode := rfl
@[simp] theorem setBank_log : (m.setBank l b).log = m.log := rfl
@[simp] theorem record_bank (e : Event) : (m.record e).bank = m.bank := rfl
@[simp] theorem record_queue (e : Event) : (m.record e).queue = m.queue := rfl
@[simp] theorem record_scheduled (e : Event) : (m.record e).scheduled = m.scheduled := rfl
@[simp] theorem record_writeMode (e : Event) : (m.record e).writeMode = m.writeMode := rfl
@[simp] theorem record_log (e : Event) : (m.record e).log = e :: m.log := rfl

theorem decrScheduled_eq (h : 0 < m.scheduled w ch) : m.decrScheduled w ch = some { m with
    scheduled := Function.update m.scheduled w
      (Function.update (m.scheduled w) ch (m.scheduled w ch - 1)) } := by
  unfold decrScheduled
  rw [if_neg (by omega)]

@[simp] theorem updateScheduleCycle_size : (updateScheduleCycle q).size = q.size := rfl
@[simp] theorem updateScheduleCycle_entry : (updateScheduleCycle q).entry = q.entry := rfl
@[simp] theorem updateScheduleCycle_occupancy :
    (updateScheduleCycle q).occupancy = q.occupancy := rfl
@[simp] theorem updateProcessCycle_size : (updateProcessCycle q).size = q.size := rfl
@[simp] theorem updateProcessCycle_entry : (updateProcessCycle q).entry = q.entry := rfl
@[simp] theorem updateProcessCycle_occupancy :
    (updateProcessCycle q).occupancy = q.occupancy := rfl

end Controller

theorem update_pair {α : Type*} (f : QueueId → Nat → α) (w w' : QueueId) (ch ch' : Nat) (x : α) :
    Function.update f w (Function.update (f w) ch x) w' ch' =
      if w' = w ∧ ch' = ch then x else f w' ch' := by
  by_cases hw : w' = w
  · subst hw
    by_cases hc : ch' = ch
    · subst hc; simp
    · simp [hc]
  · simp [hw]

/-! ## Scheduled entries, banks and counters -/

/-- `bank` works for entry `i` of queue `w`. -/
structure Serves (b : BankRequest) (w : QueueId) (i : Nat) : Prop where
  working : b.working = true
  index : b.requestIndex = some i
  isWrite : b.isWrite = (w == QueueId.wq)
  isRead : b.isRead = (w == QueueId.rq)

structure Released (b : BankRequest) : Prop where
  working : b.working = false
  index : b.requestIndex = none
  isWrite : b.isWrite = false
  isRead : b.isRead = false

def Scheduled (m : Controller) (w : QueueId) (ch i : Nat) : Prop :=
  ((m.queue w ch).entry i).scheduled = true

instance (m : Controller) (w : QueueId) (ch i : Nat) : Decidable (Scheduled m w ch i) :=
  inferInstanceAs (Decidable (_ = true))

def addr (m : Controller) (w : QueueId) (ch i : Nat) : Nat := ((m.queue w ch).entry i).address

structure Sched (c : Config) (w : QueueId) (ch : Nat) (m : Controller) : Prop where
  size : ∀ w', (m.queue w' ch).size = c.size w'
  channel : ∀ w', ∀ i < c.size w', addr m w' ch i ≠ 0 → c.dramGetChannel (addr m w' ch i) = ch
  live : ∀ w', ∀ i < c.size w', Scheduled m w' ch i → addr m w' ch i ≠ 0
  idle : ∀ i < c.size w.other, ¬ Scheduled m w.other ch i
  counts : ∀ w', m.scheduled w' ch = Nat.count (Scheduled m w' ch) (c.size w')
  serves : ∀ i < c.size w, Scheduled m w ch i → Serves (m.bank (c.loc (addr m w ch i))) w i
  banks : ∀ l, l.channel = ch →
    Released (m.bank l) ∨ ∃ i < c.size w, Scheduled m w ch i ∧ c.loc (addr m w ch i) = l

section Sched

variable {c : Config} {w : QueueId} {ch i : Nat} {m m' : Controller}

/-- No two scheduled entries share a bank. -/
theorem Sched.loc_inj (h : Sched c w ch m) {j : Nat} (hi : i < c.size w) (hj : j < c.size w)
    (hsi : Scheduled m w ch i) (hsj : Scheduled m w ch j)
    (hl : c.loc (addr m w ch i) = c.loc (addr m w ch j)) : i = j := by
  have h1 := (h.serves i hi hsi).index
  have h2 := (h.serves j hj hsj).index
  rw [hl, h2] at h1
  exact (Option.some.inj h1).symm

theorem Sched.loc_channel (h : Sched c w ch m) {w' : QueueId} (hi : i < c.size w')
    (ha : addr m w' ch i ≠ 0) : (c.loc (addr m w' ch i)).channel = ch :=
  h.channel w' i hi ha

/-- The queues of channel `ch` differ in entry `i` of queue `w` only, which is now `p`. -/
structure EntrySet (m : Controller) (w : QueueId) (ch i : Nat) (p : Packet) (m' : Controller) :
    Prop where
  size : ∀ w', (m'.queue w' ch).size = (m.queue w' ch).size
  other : (m'.queue w.other ch).entry = (m.queue w.other ch).entry
  entry : (m'.queue w ch).entry = Function.update (m.queue w ch).entry i p

variable {p : Packet}

theorem EntrySet.other_addr (he : EntrySet m w ch i p m') (j : Nat) :
    addr m' w.other ch j = addr m w.other ch j := by
  unfold addr; rw [he.other]

theorem EntrySet.other_scheduled (he : EntrySet m w ch i p m') (j : Nat) :
    Scheduled m' w.other ch j ↔ Scheduled m w.other ch j := by
  unfold Scheduled; rw [he.other]

theorem EntrySet.addr_self (he : EntrySet m w ch i p m') : addr m' w ch i = p.address := by
  unfold addr; rw [he.entry, Function.update_self]

theorem EntrySet.scheduled_self (he : EntrySet m w ch i p m') :
    Scheduled m' w ch i ↔ p.scheduled = true := by
  unfold Scheduled; rw [he.entry, Function.update_self]

theorem EntrySet.addr_of_ne (he : EntrySet m w ch i p m') {j : Nat} (hj : j ≠ i) :
    addr m' w ch j = addr m w ch j := by
  unfold addr; rw [he.entry, Function.update_of_ne hj]

theorem EntrySet.scheduled_of_ne (he : EntrySet m w ch i p m') {j : Nat} (hj : j ≠ i) :
    Scheduled m' w ch j ↔ Scheduled m w ch j := by
  unfold Scheduled; rw [he.entry, Function.update_of_ne hj]

/-- Entries keep their channel and scheduled entries are live, when this holds of the new one. -/
theorem EntrySet.channel (he : EntrySet m w ch i p m') (h : Sched c w ch m)
    (hp : p.address ≠ 0 → c.dramGetChannel p.address = ch) :
    ∀ w', ∀ j < c.size w', addr m' w' ch j ≠ 0 → c.dramGetChannel (addr m' w' ch j) = ch := by
  intro w' j hj
  rcases QueueId.eq_or_other w w' with rfl | rfl
  · by_cases hji : j = i
    · subst hji; rw [he.addr_self]; exact hp
    · rw [he.addr_of_ne hji]; exact h.channel w' j hj
  · rw [he.other_addr]; exact h.channel _ j hj

theorem EntrySet.live (he : EntrySet m w ch i p m') (h : Sched c w ch m)
    (hp : p.scheduled = true → p.address ≠ 0) :
    ∀ w', ∀ j < c.size w', Scheduled m' w' ch j → addr m' w' ch j ≠ 0 := by
  intro w' j hj
  rcases QueueId.eq_or_other w w' with rfl | rfl
  · by_cases hji : j = i
    · subst hji; rw [he.scheduled_self, he.addr_self]; exact hp
    · rw [he.scheduled_of_ne hji, he.addr_of_ne hji]; exact h.live w' j hj
  · rw [he.other_scheduled, he.other_addr]; exact h.live _ j hj

/-- `Sched` reads entries, banks and counters only. -/
theorem Sched.congr (h : Sched c w ch m)
    (hsize : ∀ w', (m'.queue w' ch).size = (m.queue w' ch).size)
    (hentry : ∀ w', (m'.queue w' ch).entry = (m.queue w' ch).entry)
    (hbank : ∀ l, l.channel = ch → m'.bank l = m.bank l)
    (hcnt : ∀ w', m'.scheduled w' ch = m.scheduled w' ch) : Sched c w ch m' := by
  have haddr : ∀ w, addr m' w ch = addr m w ch := by
    intro w; funext i; unfold addr; rw [hentry]
  have hsch : ∀ w, Scheduled m' w ch = Scheduled m w ch := by
    intro w; funext i; unfold Scheduled; rw [hentry]
  refine ⟨?_, ?_, ?_, ?_, ?_, ?_, ?_⟩
  · intro w; rw [hsize]; exact h.size w
  · intro w; rw [haddr]; exact h.channel w
  · intro w; rw [haddr, hsch]; exact h.live w
  · rw [hsch]; exact h.idle
  · intro w
    rw [hcnt, h.counts]
    exact Lib.count_congr fun j _ => by rw [hsch]
  · intro i hi
    rw [hsch, haddr]
    intro hsi
    rw [hbank _ (h.loc_channel hi (h.live _ i hi hsi))]
    exact h.serves i hi hsi
  · intro l hl
    rw [hbank l hl, hsch, haddr]
    exact h.banks l hl

/-- A scheduled entry gives up its bank. -/
theorem Sched.unschedule (h : Sched c w ch m) (hi : i < c.size w) (hs : Scheduled m w ch i)
    (he : EntrySet m w ch i p m') (hp : p.scheduled = false)
    (ha : p.address = 0 ∨ p.address = addr m w ch i) {b : BankRequest} (hb : Released b)
    (hbank : m'.bank = Function.update m.bank (c.loc (addr m w ch i)) b)
    (hcw : m'.scheduled w ch = m.scheduled w ch - 1)
    (hco : m'.scheduled w.other ch = m.scheduled w.other ch) : Sched c w ch m' where
  size := fun w' => by rw [he.size, h.size]
  channel := by
    refine he.channel h fun hne => ?_
    have hpa := ha.resolve_left hne
    rw [hpa] at hne ⊢
    exact h.channel w i hi hne
  live := he.live h fun hps => by rw [hp] at hps; cases hps
  idle := fun j hj => by rw [he.other_scheduled]; exact h.idle j hj
  counts := by
    intro w'
    rcases QueueId.eq_or_other w w' with rfl | rfl
    · have hlow := Lib.count_lower (q := Scheduled m' w' ch) hi hs
        (by rw [he.scheduled_self, hp]; simp) fun j _ hji => (he.scheduled_of_ne hji).symm
      rw [hcw, h.counts]
      omega
    · rw [hco, h.counts]
      exact Lib.count_congr fun j _ => (he.other_scheduled j).symm
  serves := by
    intro j hj hsj
    have hji : j ≠ i := by
      rintro rfl
      rw [he.scheduled_self, hp] at hsj
      cases hsj
    rw [he.scheduled_of_ne hji] at hsj
    have hloc : c.loc (addr m w ch j) ≠ c.loc (addr m w ch i) := fun hl =>
      hji (h.loc_inj hj hi hsj hs hl)
    rw [he.addr_of_ne hji, hbank, Function.update_of_ne hloc]
    exact h.serves j hj hsj
  banks := by
    intro l hl
    rw [hbank]
    by_cases hli : l = c.loc (addr m w ch i)
    · subst hli
      rw [Function.update_self]
      exact .inl hb
    · rw [Function.update_of_ne hli]
      rcases h.banks l hl with hr | ⟨j, hj, hsj, hlj⟩
      · exact .inl hr
      · have hji : j ≠ i := by rintro rfl; exact hli hlj.symm
        exact .inr ⟨j, hj, (he.scheduled_of_ne hji).mpr hsj, by rw [he.addr_of_ne hji, hlj]⟩

/-- A waiting entry whose bank is free takes it. -/
theorem Sched.schedule (h : Sched c w ch m) (hi : i < c.size w) (hs : ¬ Scheduled m w ch i)
    (ha : addr m w ch i ≠ 0) (hfree : (m.bank (c.loc (addr m w ch i))).working = false)
    (he : EntrySet m w ch i p m') (hp : p.scheduled = true) (hpa : p.address = addr m w ch i)
    {b : BankRequest} (hb : Serves b w i)
    (hbank : m'.bank = Function.update m.bank (c.loc (addr m w ch i)) b)
    (hcw : m'.scheduled w ch = m.scheduled w ch + 1)
    (hco : m'.scheduled w.other ch = m.scheduled w.other ch) : Sched c w ch m' where
  size := fun w' => by rw [he.size, h.size]
  channel := he.channel h fun _ => by rw [hpa]; exact h.channel w i hi ha
  live := he.live h fun _ => by rw [hpa]; exact ha
  idle := fun j hj => by rw [he.other_scheduled]; exact h.idle j hj
  counts := by
    intro w'
    rcases QueueId.eq_or_other w w' with rfl | rfl
    · have hraise := Lib.count_raise (q := Scheduled m' w' ch) hi hs
        (by rw [he.scheduled_self]; exact hp) fun j _ hji => (he.scheduled_of_ne hji).symm
      rw [hcw, h.counts]
      omega
    · rw [hco, h.counts]
      exact Lib.count_congr fun j _ => (he.other_scheduled j).symm
  serves := by
    intro j hj hsj
    by_cases hji : j = i
    · subst hji
      rw [he.addr_self, hpa, hbank, Function.update_self]
      exact hb
    · rw [he.scheduled_of_ne hji] at hsj
      have hserve := h.serves j hj hsj
      have hloc : c.loc (addr m w ch j) ≠ c.loc (addr m w ch i) := by
        intro hl
        have hw := hserve.working
        rw [hl, hfree] at hw
        cases hw
      rw [he.addr_of_ne hji, hbank, Function.update_of_ne hloc]
      exact hserve
  banks := by
    intro l hl
    rw [hbank]
    by_cases hli : l = c.loc (addr m w ch i)
    · exact .inr ⟨i, hi, he.scheduled_self.mpr hp, by rw [he.addr_self, hpa, hli]⟩
    · rw [Function.update_of_ne hli]
      rcases h.banks l hl with hr | ⟨j, hj, hsj, hlj⟩
      · exact .inl hr
      · have hji : j ≠ i := by rintro rfl; exact hs hsj
        exact .inr ⟨j, hj, (he.scheduled_of_ne hji).mpr hsj, by rw [he.addr_of_ne hji, hlj]⟩

/-- An unscheduled packet is written over an unscheduled entry of either queue. -/
theorem Sched.enter (h : Sched c w ch m) {w₁ : QueueId} (hs : ¬ Scheduled m w₁ ch i)
    (he : EntrySet m w₁ ch i p m') (hp : p.scheduled = false)
    (hch : p.address ≠ 0 → c.dramGetChannel p.address = ch) (hbank : m'.bank = m.bank)
    (hc : ∀ w', m'.scheduled w' ch = m.scheduled w' ch) : Sched c w ch m' := by
  have hsch : ∀ w' j, Scheduled m' w' ch j ↔ Scheduled m w' ch j := by
    intro w' j
    rcases QueueId.eq_or_other w₁ w' with rfl | rfl
    · by_cases hji : j = i
      · subst hji
        rw [he.scheduled_self, hp]
        simpa using hs
      · exact he.scheduled_of_ne hji
    · exact he.other_scheduled j
  have haddr : ∀ w' j, Scheduled m w' ch j → addr m' w' ch j = addr m w' ch j := by
    intro w' j hsj
    rcases QueueId.eq_or_other w₁ w' with rfl | rfl
    · exact he.addr_of_ne fun hji => hs (hji ▸ hsj)
    · exact he.other_addr j
  refine ⟨fun w' => by rw [he.size, h.size], ?_, ?_, ?_, ?_, ?_, ?_⟩
  · intro w' j hj
    rcases QueueId.eq_or_other w₁ w' with rfl | rfl
    · by_cases hji : j = i
      · subst hji; rw [he.addr_self]; exact hch
      · rw [he.addr_of_ne hji]; exact h.channel w' j hj
    · rw [he.other_addr]; exact h.channel _ j hj
  · intro w' j hj hsj
    rw [hsch] at hsj
    rw [haddr w' j hsj]
    exact h.live w' j hj hsj
  · intro j hj
    rw [hsch]
    exact h.idle j hj
  · intro w'
    rw [hc, h.counts]
    exact Lib.count_congr fun j _ => (hsch w' j).symm
  · intro j hj hsj
    rw [hsch] at hsj
    rw [haddr w j hsj, hbank]
    exact h.serves j hj hsj
  · intro l hl
    rw [hbank]
    rcases h.banks l hl with hr | ⟨j, hj, hsj, hlj⟩
    · exact .inl hr
    · exact .inr ⟨j, hj, (hsch w j).mpr hsj, by rw [haddr w j hsj, hlj]⟩

/-- With nothing scheduled, either queue may be the one that is served next. -/
theorem Sched.swap (h : Sched c w ch m) (hnone : ∀ i < c.size w, ¬ Scheduled m w ch i) (w₁ : QueueId) :
    Sched c w₁ ch m := by
  have hall : ∀ w', ∀ i < c.size w', ¬ Scheduled m w' ch i := by
    intro w' i hi
    rcases QueueId.eq_or_other w w' with rfl | rfl
    · exact hnone i hi
    · exact h.idle i hi
  refine ⟨h.size, h.channel, h.live, fun i hi => hall _ i hi, h.counts, ?_, ?_⟩
  · intro i hi hs
    exact absurd hs (hall w₁ i hi)
  · intro l hl
    rcases h.banks l hl with hr | ⟨i, hi, hs, _⟩
    · exact .inl hr
    · exact absurd hs (hnone i hi)

end Sched

/-! ## The invariant -/

/-- The `next_process` cursor is what a scan of the queue would give, up to the index that the
constructor leaves at 0. -/
structure CursorOk (q : PacketQueue) : Prop where
  cycle : q.nextProcessCycle = (scanProcess q).1
  index : q.nextProcessCycle < u64Max → q.nextProcessIndex = (scanProcess q).2.getD q.size

theorem cursorOk_updateProcessCycle (q : PacketQueue) : CursorOk (updateProcessCycle q) :=
  ⟨rfl, fun _ => rfl⟩

structure ChanInv (c : Config) (ch : Nat) (m : Controller) : Prop where
  sched : Sched c (m.active ch) ch m
  occupancy : ∀ w, (m.queue w ch).occupancy = Nat.count (fun i => addr m w ch i ≠ 0) (c.size w)
  distinct : ∀ w, ∀ i < c.size w, ∀ j < c.size w, addr m w ch i ≠ 0 →
    addr m w ch i = addr m w ch j → i = j
  cursor : ∀ w, CursorOk (m.queue w ch)

def Inv (c : Config) (m : Controller) : Prop := ∀ ch, ChanInv c ch m

/-- The two states agree on everything the invariant of channel `ch` reads. -/
structure Same (ch : Nat) (m m' : Controller) : Prop where
  queue : ∀ w, m'.queue w ch = m.queue w ch
  bank : ∀ l, l.channel = ch → m'.bank l = m.bank l
  scheduled : ∀ w, m'.scheduled w ch = m.scheduled w ch
  writeMode : m'.writeMode ch = m.writeMode ch

theorem Same.refl (ch : Nat) (m : Controller) : Same ch m m :=
  ⟨fun _ => rfl, fun _ _ => rfl, fun _ => rfl, rfl⟩

theorem Same.trans {ch : Nat} {m₁ m₂ m₃ : Controller} (h : Same ch m₁ m₂) (h' : Same ch m₂ m₃) :
    Same ch m₁ m₃ where
  queue := fun w => by rw [h'.queue, h.queue]
  bank := fun l hl => by rw [h'.bank l hl, h.bank l hl]
  scheduled := fun w => by rw [h'.scheduled, h.scheduled]
  writeMode := by rw [h'.writeMode, h.writeMode]

theorem ChanInv.congr {c : Config} {ch : Nat} {m m' : Controller} (h : ChanInv c ch m)
    (hs : Same ch m m') : ChanInv c ch m' := by
  have hactive : m'.active ch = m.active ch := by unfold active; rw [hs.writeMode]
  have haddr : ∀ w, addr m' w ch = addr m w ch := by
    intro w; funext i; unfold addr; rw [hs.queue]
  refine ⟨?_, ?_, ?_, ?_⟩
  · rw [hactive]
    exact h.sched.congr (fun w => by rw [hs.queue]) (fun w => by rw [hs.queue]) hs.bank
      hs.scheduled
  · intro w; rw [hs.queue, haddr]; exact h.occupancy w
  · intro w; rw [haddr]; exact h.distinct w
  · intro w; rw [hs.queue]; exact h.cursor w

theorem inv_new (c : Config) : Inv c (Controller.new c) := by
  intro ch
  have haddr : ∀ w i, addr (Controller.new c) w ch i = 0 := fun _ _ => rfl
  have hsch : ∀ w i, ¬ Scheduled (Controller.new c) w ch i := by
    intro w i h; cases h
  have hscan : ∀ w, (scanProcess ((Controller.new c).queue w ch)).1 = u64Max := by
    intro w
    cases hs : (scanProcess ((Controller.new c).queue w ch)).2 with
    | none => exact (Lib.scanMin_none hs).1
    | some i => exact absurd (Lib.scanMin_some hs).2.1 (hsch w i)
  refine ⟨⟨fun _ => rfl, ?_, ?_, fun i _ => hsch _ i, ?_, ?_, ?_⟩, ?_, ?_, ?_⟩
  · intro w i _ h; exact absurd (haddr w i) h
  · intro w i _ h; exact absurd h (hsch w i)
  · intro w
    exact (Nat.count_iff_forall_not.mpr fun i _ => hsch w i).symm
  · intro i _ h; exact absurd h (hsch _ i)
  · intro l _; exact .inl ⟨rfl, rfl, rfl, rfl⟩
  · intro w
    exact (Nat.count_iff_forall_not.mpr fun i _ h => h (haddr w i)).symm
  · intro w i _ j _ h; exact absurd (haddr w i) h
  · intro w
    exact ⟨(hscan w).symm, fun h => absurd h (Nat.lt_irrefl _)⟩

end Dram
end ChampSim
