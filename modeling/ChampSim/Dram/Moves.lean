import ChampSim.Dram.Invariant

/-!
# ChampSim.Dram.Moves

What `operate` can do to the queues, and that each part of it keeps the invariant.

* `Move c m m'` — the requests in the queues stay where they are, or one of them is served and
  leaves.
* `schedule_spec`, `turnAround_spec`, `complete_spec`, `process_spec` — one part each.
* `operate_spec` — `operate` is a sequence of moves, keeps the invariant and, while no cycle equals
  the sentinel `UINT64_MAX`, fails no assertion.
-/

namespace ChampSim
namespace Dram

open Controller

inductive Move (c : Config) (m m' : Controller) : Prop where
  | quiet (hlog : m'.log = m.log)
      (hreq : ∀ w ch i, request ((m'.queue w ch).entry i) = request ((m.queue w ch).entry i))
  | served (w : QueueId) (ch i : Nat) (p : Packet) (t : Nat) (hi : i < c.size w)
      (hne : addr m w ch i ≠ 0) (hch : c.dramGetChannel (addr m w ch i) = ch)
      (hlog : m'.log = .served w p t :: m.log)
      (hp : request p = request ((m.queue w ch).entry i)) (hself : addr m' w ch i = 0)
      (hother : ∀ w' ch' j, ¬ (w' = w ∧ ch' = ch ∧ j = i) →
        request ((m'.queue w' ch').entry j) = request ((m.queue w' ch').entry j))

abbrev Moves (c : Config) : Controller → Controller → Prop := Relation.ReflTransGen (Move c)

section Parts

variable {c : Config} {m m' : Controller} (cycle : Nat → Nat) {w : QueueId} {ch i : Nat}

theorem addr_eq_of_request
    (hreq : ∀ w ch i, request ((m'.queue w ch).entry i) = request ((m.queue w ch).entry i))
    (w : QueueId) (ch i : Nat) : addr m' w ch i = addr m w ch i :=
  address_of_request (hreq w ch i)

/-- A part that leaves the requests where they are only has to account for the scheduling. -/
theorem ChanInv.of_requests (h : ChanInv c ch m) (hs : Sched c (m'.active ch) ch m')
    (hreq : ∀ w ch i, request ((m'.queue w ch).entry i) = request ((m.queue w ch).entry i))
    (hocc : ∀ w, (m'.queue w ch).occupancy = (m.queue w ch).occupancy)
    (hcur : ∀ w, CursorOk (m'.queue w ch)) : ChanInv c ch m' := by
  have haddr := addr_eq_of_request hreq
  refine ⟨hs, fun w => ?_, fun w => ?_, hcur⟩
  · rw [hocc, h.occupancy]
    exact Lib.count_congr fun j _ => by rw [haddr]
  · simp only [haddr]
    exact h.distinct w

/-- One entry of queue `w` of channel `ch` becomes `p`, one bank becomes `b`, and the counter of
that queue may change. Nothing else that the invariant reads does. -/
structure Edit (m : Controller) (w : QueueId) (ch i : Nat) (p : Packet) (l : Loc)
    (b : BankRequest) (m' : Controller) : Prop where
  queue : ∀ w' ch', ¬ (w' = w ∧ ch' = ch) → m'.queue w' ch' = m.queue w' ch'
  size : (m'.queue w ch).size = (m.queue w ch).size
  entry : (m'.queue w ch).entry = Function.update (m.queue w ch).entry i p
  bank : m'.bank = Function.update m.bank l b
  scheduled : ∀ w' ch', ¬ (w' = w ∧ ch' = ch) → m'.scheduled w' ch' = m.scheduled w' ch'
  writeMode : m'.writeMode = m.writeMode

section Edit

variable {p : Packet} {l : Loc} {b : BankRequest}

theorem Edit.same (h : Edit m w ch i p l b m') (hl : l.channel = ch) {ch' : Nat} (hc : ch' ≠ ch) :
    Same ch' m m' where
  queue := fun w' => h.queue w' ch' (by simp [hc])
  bank := by
    intro l' hl'
    have hne : l' ≠ l := by
      rintro rfl
      exact hc (hl'.symm.trans hl)
    rw [h.bank, Function.update_of_ne hne]
  scheduled := fun w' => h.scheduled w' ch' (by simp [hc])
  writeMode := by rw [h.writeMode]

theorem Edit.entrySet (h : Edit m w ch i p l b m') : EntrySet m w ch i p m' where
  size := by
    intro w'
    by_cases hw : w' = w
    · subst hw; exact h.size
    · rw [h.queue w' ch (by simp [hw])]
  other := by rw [h.queue w.other ch (by simp)]
  entry := h.entry

theorem Edit.request_of_ne (h : Edit m w ch i p l b m') (w' : QueueId) (ch' j : Nat)
    (hn : ¬ (w' = w ∧ ch' = ch ∧ j = i)) :
    request ((m'.queue w' ch').entry j) = request ((m.queue w' ch').entry j) := by
  by_cases hw : w' = w ∧ ch' = ch
  · obtain ⟨rfl, rfl⟩ := hw
    have hji : j ≠ i := by simpa using hn
    rw [h.entry, Function.update_of_ne hji]
  · rw [h.queue w' ch' hw]

theorem Edit.request_eq (h : Edit m w ch i p l b m')
    (hp : request p = request ((m.queue w ch).entry i)) (w' : QueueId) (ch' j : Nat) :
    request ((m'.queue w' ch').entry j) = request ((m.queue w' ch').entry j) := by
  by_cases hn : w' = w ∧ ch' = ch ∧ j = i
  · obtain ⟨rfl, rfl, rfl⟩ := hn
    rw [h.entry, Function.update_self, hp]
  · exact h.request_of_ne w' ch' j hn

theorem Edit.occupancy (h : Edit m w ch i p l b m')
    (hocc : (m'.queue w ch).occupancy = (m.queue w ch).occupancy) (w' : QueueId) :
    (m'.queue w' ch).occupancy = (m.queue w' ch).occupancy := by
  by_cases hw : w' = w
  · subst hw; exact hocc
  · rw [h.queue w' ch (by simp [hw])]

theorem Edit.cursor (h : Edit m w ch i p l b m') (hm : ∀ w, CursorOk (m.queue w ch))
    (hw : CursorOk (m'.queue w ch)) (w' : QueueId) : CursorOk (m'.queue w' ch) := by
  by_cases hww : w' = w
  · subst hww; exact hw
  · rw [h.queue w' ch (by simp [hww])]
    exact hm w'

end Edit

/-! ## schedule -/

theorem scheduleEntry_edit (hl : (c.loc (addr m w ch i)).channel = ch) (hit : Bool) :
    ∃ p b, Edit m w ch i p (c.loc (addr m w ch i)) b (m.scheduleEntry c cycle w ch i hit) ∧
      p.scheduled = true ∧ request p = request ((m.queue w ch).entry i) ∧ Serves b w i := by
  have hl' : (c.loc ((m.queue w ch).entry i).address).channel = ch := hl
  refine ⟨{ (m.queue w ch).entry i with
      scheduled := true
      eventCycle := add64 (cycle ((m.queue w ch).entry i).cpu) (latency c hit) }, _,
    ⟨?_, ?_, ?_, rfl, ?_, rfl⟩, rfl, rfl, ⟨rfl, rfl, rfl, rfl⟩⟩
  · intro w' ch' hn
    simp [scheduleEntry, updateCursors, incrScheduled, hn]
  · simp [scheduleEntry, updateCursors, incrScheduled]
  · simp [scheduleEntry, updateCursors, incrScheduled]
  · intro w' ch' hn
    simp only [scheduleEntry, updateCursors, incrScheduled, setQueue_scheduled, hl']
    exact (update_pair _ _ _ _ _ _).trans (if_neg hn)

theorem scheduleEntry_spec (h : Inv c m) (ha : m.active ch = w) (hi : i < c.size w)
    (haw : awaiting (m.queue w ch) i = true) (hfree : m.bankFree c (m.queue w ch) i = true)
    (hit : Bool) :
    Inv c (m.scheduleEntry c cycle w ch i hit) ∧ Move c m (m.scheduleEntry c cycle w ch i hit) := by
  have hch := h ch
  have hs := hch.sched
  rw [ha] at hs
  simp only [awaiting, Bool.and_eq_true, bne_iff_ne, Bool.not_eq_true'] at haw
  have hne : addr m w ch i ≠ 0 := haw.1
  have hns : ¬ Scheduled m w ch i := by simp [Scheduled, haw.2]
  have hfree' : (m.bank (c.loc (addr m w ch i))).working = false := by
    unfold addr
    simpa [bankFree] using hfree
  have hloc := hs.loc_channel hi hne
  obtain ⟨p, b, he, hps, hpr, hb⟩ := scheduleEntry_edit cycle hloc hit
  refine ⟨fun ch' => ?_, .quiet rfl (he.request_eq hpr)⟩
  by_cases hc : ch' = ch
  · subst hc
    have hactive : (m.scheduleEntry c cycle w ch' i hit).active ch' = w := ha
    have hqueue : (m.scheduleEntry c cycle w ch' i hit).queue w ch' =
        updateProcessCycle (updateScheduleCycle
          (((m.scheduleEntry c cycle w ch' i hit).queue w ch'))) := by
      simp [scheduleEntry, updateCursors, incrScheduled]
      rfl
    refine hch.of_requests ?_ (he.request_eq hpr) (he.occupancy ?_) (he.cursor hch.cursor ?_)
    · rw [hactive]
      refine hs.schedule hi hns hne hfree' he.entrySet hps (address_of_request hpr) hb he.bank ?_
        (he.scheduled _ _ (by simp))
      have hloc' : (c.loc ((m.queue w ch').entry i).address).channel = ch' := hloc
      simp [scheduleEntry, updateCursors, incrScheduled, hloc']
    · simp [scheduleEntry, updateCursors, incrScheduled]
    · rw [hqueue]
      exact cursorOk_updateProcessCycle _
  · exact (h ch').congr (he.same hloc hc)

theorem oldest_spec {q : PacketQueue} {hit : Bool} (h : m.oldest c q = some (i, hit)) :
    i < q.size ∧ awaiting q i = true ∧ m.bankFree c q i = true := by
  simp only [oldest] at h
  split at h
  · rename_i j hj
    obtain ⟨hlt, hp, _⟩ := Lib.scanMin_some hj
    simp only [Bool.and_eq_true] at hp
    cases h
    exact ⟨hlt, hp.1.1, hp.1.2⟩
  · obtain ⟨j, hj, heq⟩ := Option.map_eq_some_iff.mp h
    obtain ⟨hlt, hp, _⟩ := Lib.scanMin_some hj
    simp only [Bool.and_eq_true] at hp
    cases heq
    exact ⟨hlt, hp.1, hp.2⟩

theorem schedule_spec (h : Inv c m) (ha : m.active ch = w) :
    Inv c (m.schedule c cycle w ch) ∧ Moves c m (m.schedule c cycle w ch) ∧
      (m.schedule c cycle w ch).writeMode = m.writeMode := by
  unfold schedule
  split
  · exact ⟨h, .refl, rfl⟩
  · rename_i i hit hold
    obtain ⟨hi, haw, hfree⟩ := oldest_spec hold
    rw [(h ch).sched.size] at hi
    obtain ⟨hinv, hmove⟩ := scheduleEntry_spec cycle h ha hi haw hfree hit
    exact ⟨hinv, .single hmove, rfl⟩

/-! ## Switching modes -/

theorem resetEntry_edit (hs : Sched c w ch m) (hi : i < c.size w) (hsi : Scheduled m w ch i) :
    ∃ m' p b, m.resetEntry c cycle w ch i = some m' ∧
      Edit m w ch i p (c.loc (addr m w ch i)) b m' ∧ p.scheduled = false ∧
      request p = request ((m.queue w ch).entry i) ∧ Released b ∧
      m'.scheduled w ch = m.scheduled w ch - 1 ∧ m'.log = m.log ∧
      (m'.queue w ch).occupancy = (m.queue w ch).occupancy := by
  have hb := hs.serves i hi hsi
  have hpos : 0 < m.scheduled w ch := by
    rw [hs.counts]
    exact Lib.count_pos_of hi hsi
  unfold addr at hb
  simp only [resetEntry]
  -- the bank's flags name the queue, so its counter is the one that is decremented
  cases w with
  | rq =>
    have hw : (m.bank (c.loc ((m.queue .rq ch).entry i).address)).isWrite = false := hb.isWrite
    have hr : (m.bank (c.loc ((m.queue .rq ch).entry i).address)).isRead = true := hb.isRead
    rw [hw, hr, if_neg (by simp), if_pos rfl, decrScheduled_eq _ _ _ (by simpa using hpos)]
    refine ⟨_, { (m.queue .rq ch).entry i with
        scheduled := false
        eventCycle := cycle ((m.queue .rq ch).entry i).cpu }, _, rfl,
      ⟨?_, ?_, ?_, rfl, ?_, rfl⟩, rfl, rfl, ⟨rfl, rfl, rfl, rfl⟩, ?_, rfl, ?_⟩
    · intro w' ch' hn; simp [hn]
    · simp
    · simp
    · intro w' ch' hn; exact (update_pair _ _ _ _ _ _).trans (if_neg hn)
    · simp
    · simp
  | wq =>
    have hw : (m.bank (c.loc ((m.queue .wq ch).entry i).address)).isWrite = true := hb.isWrite
    have hr : (m.bank (c.loc ((m.queue .wq ch).entry i).address)).isRead = false := hb.isRead
    rw [hw, if_pos rfl, decrScheduled_eq _ _ _ (by simpa using hpos)]
    refine ⟨_, { (m.queue .wq ch).entry i with
        scheduled := false
        eventCycle := cycle ((m.queue .wq ch).entry i).cpu }, _, rfl,
      ⟨?_, ?_, ?_, rfl, ?_, rfl⟩, rfl, rfl, ⟨rfl, rfl, rfl, hr⟩, ?_, rfl, ?_⟩
    · intro w' ch' hn; simp [hn]
    · simp
    · simp
    · intro w' ch' hn; exact (update_pair _ _ _ _ _ _).trans (if_neg hn)
    · simp
    · simp

/-- The state of `reset_remain_requests` after the first `k` slots. -/
structure Resetting (c : Config) (w : QueueId) (ch : Nat) (m : Controller) (k : Nat)
    (m' : Controller) : Prop where
  sched : Sched c w ch m'
  done : ∀ i < k, ¬ Scheduled m' w ch i
  same : ∀ ch', ch' ≠ ch → Same ch' m m'
  request : ∀ w ch i, request ((m'.queue w ch).entry i) = request ((m.queue w ch).entry i)
  occupancy : ∀ w, (m'.queue w ch).occupancy = (m.queue w ch).occupancy
  writeMode : m'.writeMode = m.writeMode
  log : m'.log = m.log

theorem resetEntries_spec (hs : Sched c w ch m) : ∀ k ≤ c.size w,
    ∃ m', m.resetEntries c cycle w ch k = some m' ∧ Resetting c w ch m k m' := by
  intro k
  induction k with
  | zero =>
    intro _
    exact ⟨m, rfl, hs, fun i hi => absurd hi (Nat.not_lt_zero i), fun ch' _ => .refl ch' m,
      fun _ _ _ => rfl, fun _ => rfl, rfl, rfl⟩
  | succ k ih =>
    intro hk
    obtain ⟨m₁, h₁, hr⟩ := ih (by omega)
    rw [resetEntries, h₁, Option.bind_some]
    by_cases hsk : Scheduled m₁ w ch k
    · rw [if_pos (by exact hsk)]
      obtain ⟨m₂, p, b, h₂, he, hp, hpr, hb, hcnt, hlog, hocc⟩ :=
        resetEntry_edit cycle hr.sched (by omega) hsk
      have hloc := hr.sched.loc_channel (by omega) (hr.sched.live w k (by omega) hsk)
      refine ⟨m₂, h₂, ?_, ?_, ?_, ?_, ?_, ?_, ?_⟩
      · exact hr.sched.unschedule (by omega) hsk he.entrySet hp (.inr (address_of_request hpr)) hb
          he.bank hcnt (he.scheduled _ _ (by simp))
      · intro i hi
        by_cases hik : i = k
        · subst hik
          rw [he.entrySet.scheduled_self, hp]
          simp
        · rw [he.entrySet.scheduled_of_ne hik]
          exact hr.done i (by omega)
      · exact fun ch' hc => (hr.same ch' hc).trans (he.same hloc hc)
      · exact fun w' ch' i => (he.request_eq hpr w' ch' i).trans (hr.request w' ch' i)
      · exact fun w' => (he.occupancy hocc w').trans (hr.occupancy w')
      · rw [he.writeMode, hr.writeMode]
      · rw [hlog, hr.log]
    · rw [if_neg (by exact hsk)]
      refine ⟨m₁, rfl, { hr with done := fun i hi => ?_ }⟩
      rcases Nat.lt_succ_iff_lt_or_eq.mp hi with hi | rfl
      · exact hr.done i hi
      · exact hsk

theorem updateCursors_queue (m : Controller) (w w' : QueueId) (ch ch' : Nat) :
    (m.updateCursors w ch).queue w' ch' =
      if w' = w ∧ ch' = ch then updateProcessCycle (updateScheduleCycle (m.queue w ch))
      else m.queue w' ch' := by
  simp [updateCursors]

theorem turnAround_spec (h : Inv c m) (ha : m.active ch = w) :
    ∃ m', m.turnAround c cycle w ch = some m' ∧ Inv c m' ∧ Move c m m' := by
  have hch := h ch
  have hs := hch.sched
  rw [ha] at hs
  -- the mode flips first, so the loop runs with the other queue active
  obtain ⟨m₀, hm₀⟩ : ∃ m₀ : Controller, m₀ =
      { m with writeMode := Function.update m.writeMode ch (w == QueueId.rq) } := ⟨_, rfl⟩
  have hs₀ : Sched c w ch m₀ := by
    subst hm₀
    exact hs.congr (fun _ => rfl) (fun _ => rfl) (fun _ _ => rfl) fun _ => rfl
  obtain ⟨m₁, h₁, hr⟩ := resetEntries_spec cycle hs₀ (c.size w) (Nat.le_refl _)
  have hzero : m₁.scheduled w ch = 0 := by
    rw [hr.sched.counts]
    exact Nat.count_iff_forall_not.mpr hr.done
  obtain ⟨m₂, hm₂⟩ : ∃ m₂ : Controller, m₂ =
      { (m₁.updateCursors .rq ch).updateCursors .wq ch with
        dbusCycleAvailable := Function.update m₁.dbusCycleAvailable ch
          (add64 (m₁.dbusCycleAvailable ch) c.dbusTurnAroundTime) } := ⟨_, rfl⟩
  have hturn : m.turnAround c cycle w ch = some m₂ := by
    have hsize : (m.queue w ch).size = c.size w := hs.size w
    have hz : ((m₁.updateCursors .rq ch).updateCursors .wq ch).scheduled w ch = 0 := hzero
    simp only [turnAround, ← hm₀, resetRemainRequests, hsize, h₁, Option.bind_some, hz]
    subst hm₂
    rfl
  have hcur : ∀ w' ch', m₂.queue w' ch' =
      if ch' = ch then updateProcessCycle (updateScheduleCycle (m₁.queue w' ch))
      else m₁.queue w' ch' := by
    intro w' ch'
    subst hm₂
    show ((m₁.updateCursors .rq ch).updateCursors .wq ch).queue w' ch' = _
    rw [updateCursors_queue, updateCursors_queue, updateCursors_queue]
    cases w' <;> by_cases hc : ch' = ch <;> simp [hc]
  have hq₀ : m₀.queue = m.queue := by subst hm₀; rfl
  have hreq : ∀ w' ch' i, request ((m₂.queue w' ch').entry i) =
      request ((m.queue w' ch').entry i) := by
    intro w' ch' i
    rw [hcur, ← hq₀, ← hr.request]
    by_cases hc : ch' = ch <;> simp [hc]
  refine ⟨m₂, hturn, fun ch' => ?_, .quiet ?_ hreq⟩
  · by_cases hc : ch' = ch
    · subst hc
      refine hch.of_requests ?_ hreq ?_ ?_
      · refine (hr.sched.swap hr.done _).congr ?_ ?_ ?_ ?_
        · intro w'; rw [hcur, if_pos rfl]; rfl
        · intro w'; rw [hcur, if_pos rfl]; rfl
        · intro l _; subst hm₂; rfl
        · intro w'; subst hm₂; rfl
      · intro w'
        rw [hcur, if_pos rfl, ← hq₀, ← hr.occupancy]
        rfl
      · intro w'
        rw [hcur, if_pos rfl]
        exact cursorOk_updateProcessCycle _
    · have hsame := hr.same ch' hc
      refine (h ch').congr ⟨?_, ?_, ?_, ?_⟩
      · intro w'; rw [hcur, if_neg hc, hsame.queue, hq₀]
      · intro l hl
        rw [show m₂.bank = m₁.bank by subst hm₂; rfl, hsame.bank l hl]
        subst hm₀; rfl
      · intro w'
        rw [show m₂.scheduled = m₁.scheduled by subst hm₂; rfl, hsame.scheduled]
        subst hm₀; rfl
      · rw [show m₂.writeMode = m₁.writeMode by subst hm₂; rfl, hsame.writeMode]
        subst hm₀
        simp [hc]
  · rw [show m₂.log = m₁.log by subst hm₂; rfl, hr.log]
    subst hm₀; rfl

/-! ## process -/

theorem complete_edit (hs : Sched c w ch m) (hi : i < c.size w) (hsi : Scheduled m w ch i)
    (hocc : 0 < (m.queue w ch).occupancy) :
    ∃ m' p b, m.complete c cycle w ch i = some m' ∧
      Edit m w ch i (Packet.empty c.numCpus) (c.loc (addr m w ch i)) b m' ∧ Released b ∧
      m'.scheduled w ch = m.scheduled w ch - 1 ∧
      (m'.queue w ch).occupancy = (m.queue w ch).occupancy - 1 ∧ CursorOk (m'.queue w ch) ∧
      m'.log = .served w p (cycle ((m.queue w ch).entry i).cpu) :: m.log ∧
      request p = request ((m.queue w ch).entry i) := by
  have hne := hs.live w i hi hsi
  have hloc : (c.loc ((m.queue w ch).entry i).address).channel = ch := hs.loc_channel hi hne
  have hpos : 0 < m.scheduled w ch := by
    rw [hs.counts]
    exact Lib.count_pos_of hi hsi
  obtain ⟨q, hq⟩ : ∃ q : PacketQueue, q =
      (if (m.bank (c.loc ((m.queue w ch).entry i).address)).rowBufferHit then
        { m.queue w ch with rowBufferHit := (m.queue w ch).rowBufferHit + 1 }
      else { m.queue w ch with rowBufferMiss := (m.queue w ch).rowBufferMiss + 1 }) := ⟨_, rfl⟩
  have hqr : q.toRing = (m.queue w ch).toRing := by subst hq; split <;> rfl
  obtain ⟨q', hq'⟩ : ∃ q', q.removeQueue c.numCpus i = some q' ∧
      q'.entry = Function.update (m.queue w ch).entry i (Packet.empty c.numCpus) ∧
      q'.size = (m.queue w ch).size ∧ q'.occupancy = (m.queue w ch).occupancy - 1 := by
    have h0 : ¬ (q.occupancy = 0 ∧ q.head = q.tail) := by rw [hqr]; omega
    exact ⟨_, by rw [PacketQueue.removeQueue, if_neg h0], by rw [hqr], by rw [hqr], by rw [hqr]⟩
  obtain ⟨hrem, hentry, hsize, hoc⟩ := hq'
  unfold complete
  dsimp only
  rw [← hq, hloc, decrScheduled_eq _ _ _ (by simpa using hpos), Option.bind_some, hrem,
    Option.map_some]
  refine ⟨_, if w = .rq then { (m.queue w ch).entry i with
      eventCycle := add64 (cycle ((m.queue w ch).entry i).cpu) c.dbusReturnTime }
    else (m.queue w ch).entry i, _, rfl, ⟨?_, ?_, ?_, rfl, ?_, rfl⟩, ⟨rfl, rfl, rfl, rfl⟩,
    ?_, ?_, ?_, rfl, ?_⟩
  · intro w' ch' hn; simp [hn]
  · simp [hsize]
  · simp [hentry]
  · intro w' ch' hn
    exact (update_pair _ _ _ _ _ _).trans (if_neg hn)
  · simp
  · simp [hoc]
  · simpa using cursorOk_updateProcessCycle q'
  · split <;> rfl

theorem complete_spec (h : Inv c m) (ha : m.active ch = w) (hi : i < c.size w)
    (hsi : Scheduled m w ch i) :
    ∃ m', m.complete c cycle w ch i = some m' ∧ Inv c m' ∧ Move c m m' := by
  have hch := h ch
  have hs := hch.sched
  rw [ha] at hs
  have hne := hs.live w i hi hsi
  have hloc := hs.loc_channel hi hne
  have hocc : 0 < (m.queue w ch).occupancy := by
    rw [hch.occupancy]
    exact Lib.count_pos_of hi hne
  obtain ⟨m', p, b, heq, he, hb, hcnt, hoc, hcur, hlog, hp⟩ :=
    complete_edit cycle hs hi hsi hocc
  have hself : addr m' w ch i = 0 := he.entrySet.addr_self
  refine ⟨m', heq, fun ch' => ?_,
    .served w ch i p _ hi hne hloc hlog hp hself he.request_of_ne⟩
  by_cases hc : ch' = ch
  · subst hc
    have haddr : ∀ w' j, addr m' w' ch' j ≠ 0 → addr m' w' ch' j = addr m w' ch' j := by
      intro w' j hj
      by_cases hn : w' = w ∧ j = i
      · obtain ⟨rfl, rfl⟩ := hn
        exact absurd hself hj
      · exact address_of_request (he.request_of_ne w' ch' j (by simpa using hn))
    refine ⟨?_, fun w' => ?_, fun w' j hj k hk hj0 hjk => ?_, he.cursor hch.cursor hcur⟩
    · rw [show m'.active ch' = w by rw [← ha]; unfold active; rw [he.writeMode]]
      exact hs.unschedule hi hsi he.entrySet rfl (.inl rfl) hb he.bank hcnt
        (he.scheduled _ _ (by simp))
    · by_cases hw : w' = w
      · subst hw
        have hlow := Lib.count_lower (q := fun j => addr m' w' ch' j ≠ 0) hi hne
          (by simpa using hself) fun j _ hji => by rw [he.entrySet.addr_of_ne hji]
        rw [hoc, hch.occupancy]
        omega
      · have hw' : w' = w.other := (QueueId.eq_or_other w w').resolve_left hw
        subst hw'
        rw [he.queue _ _ (by simp), hch.occupancy]
        exact Lib.count_congr fun j _ => by rw [he.entrySet.other_addr]
    · have hk0 : addr m' w' ch' k ≠ 0 := hjk ▸ hj0
      rw [haddr w' j hj0, haddr w' k hk0] at hjk
      exact hch.distinct w' j hj k hk (by rw [← haddr w' j hj0]; exact hj0) hjk
  · exact (h ch').congr (he.same hloc hc)

theorem congest_spec (h : Inv c m) (w : QueueId) (ch i : Nat) :
    Inv c (m.congest c cycle w ch i) ∧ Move c m (m.congest c cycle w ch i) := by
  have hbank : ∀ l, ∃ t, (m.congest c cycle w ch i).bank l =
      { m.bank l with cycleAvailable := t } := by
    intro l
    show ∃ t, Function.update m.bank _ _ l = _
    by_cases hl : l = c.loc ((m.queue w ch).entry i).address
    · subst hl
      rw [Function.update_self]
      exact ⟨_, rfl⟩
    · rw [Function.update_of_ne hl]
      exact ⟨(m.bank l).cycleAvailable, rfl⟩
  refine ⟨fun ch' => ?_, .quiet rfl fun _ _ _ => rfl⟩
  have hs := (h ch').sched
  refine (h ch').of_requests ⟨hs.size, hs.channel, hs.live, hs.idle, hs.counts, ?_, ?_⟩
    (fun _ _ _ => rfl) (fun _ => rfl) (h ch').cursor
  · intro j hj hsj
    obtain ⟨t, ht⟩ := hbank (c.loc (addr m (m.active ch') ch' j))
    have hv := hs.serves j hj hsj
    show Serves ((m.congest c cycle w ch i).bank (c.loc (addr m (m.active ch') ch' j))) _ j
    rw [ht]
    exact ⟨hv.working, hv.index, hv.isWrite, hv.isRead⟩
  · intro l hl
    obtain ⟨t, ht⟩ := hbank l
    rw [ht]
    rcases hs.banks l hl with hr | hv
    · exact .inl ⟨hr.working, hr.index, hr.isWrite, hr.isRead⟩
    · exact .inr hv

/-- What the cursor points to, once it is below the sentinel. -/
theorem ChanInv.cursor_scheduled (h : ChanInv c ch m)
    (hi : (m.queue w ch).nextProcessIndex < c.size w)
    (hlt : (m.queue w ch).nextProcessCycle < u64Max) :
    Scheduled m w ch (m.queue w ch).nextProcessIndex := by
  have hcur := h.cursor w
  have hidx := hcur.index hlt
  cases hs : (scanProcess (m.queue w ch)).2 with
  | none =>
    rw [hs, Option.getD_none, h.sched.size] at hidx
    omega
  | some i =>
    rw [hs, Option.getD_some] at hidx
    rw [hidx]
    exact (Lib.scanMin_some hs).2.1

/-- The process step on the entry that the cursor names. With cycles below the sentinel it passes
both assertions. In a controller with one channel it may instead stop at the second one. -/
theorem process_spec (h : Inv c m) (ha : m.active ch = w)
    (hT : c.log2Channels = 0 ∧ ch = 0 ∨ ∀ cpu, cycle cpu < u64Max)
    (hi : (m.queue w ch).nextProcessIndex < (m.queue w ch).size)
    (hcyc : (m.queue w ch).nextProcessCycle ≤
      cycle ((m.queue w ch).entry (m.queue w ch).nextProcessIndex).cpu) :
    Lib.Ends (∀ cpu, cycle cpu < u64Max) (fun m' => Inv c m' ∧ Moves c m m')
      (m.process c cycle w ch) := by
  have hch := h ch
  have hs := hch.sched
  rw [ha] at hs
  have hsize : (m.queue w ch).size = c.size w := hs.size w
  obtain ⟨i, hidef⟩ : ∃ i, i = (m.queue w ch).nextProcessIndex := ⟨_, rfl⟩
  rw [← hidef, hsize] at hi
  have hsched : (∀ cpu, cycle cpu < u64Max) → Scheduled m w ch i := fun hlt => by
    rw [hidef]
    exact hch.cursor_scheduled (by omega) (Nat.lt_of_le_of_lt hcyc (hlt _))
  simp only [process, ← hidef, hsize]
  rw [if_neg (by omega)]
  by_cases hreq : (m.bank (c.loc ((m.queue w ch).entry i).address)).requestIndex = some i
  · rw [if_neg (by simp [hreq])]
    -- the bank works for this very entry
    have hsi : Scheduled m w ch i := by
      rcases hT with ⟨h0, rfl⟩ | hlt
      · have hl : (c.loc ((m.queue w 0).entry i).address).channel = 0 := by
          show Geometry.field c.log2Channels c.channels 0 _ = 0
          simp [Geometry.field, h0]
        rcases hs.banks _ hl with hr | ⟨j, hj, hsj, hlj⟩
        · rw [hr.index] at hreq; cases hreq
        · have hv := (hs.serves j hj hsj).index
          rw [hlj, hreq] at hv
          cases hv
          exact hsj
      · exact hsched hlt
    split
    · split
      · obtain ⟨m', heq, hinv, hmove⟩ := complete_spec cycle h ha hi hsi
        rw [heq]
        exact ⟨hinv, .single hmove⟩
      · obtain ⟨hinv, hmove⟩ := congest_spec cycle h w ch i
        exact ⟨hinv, .single hmove⟩
    · exact ⟨h, .refl⟩
  · rw [if_pos hreq]
    intro hlt
    exact hreq (hs.serves i hi (hsched hlt)).index

/-! ## operate -/

theorem active_of_writeMode (h : m'.writeMode = m.writeMode) : m'.active ch = m.active ch := by
  unfold active; rw [h]

theorem serve_spec (h : Inv c m) (w : QueueId)
    (hT : c.log2Channels = 0 ∧ ch = 0 ∨ ∀ cpu, cycle cpu < u64Max) :
    Lib.Ends (∀ cpu, cycle cpu < u64Max) (fun m' => Inv c m' ∧ Moves c m m')
      (m.serve c cycle w ch) := by
  unfold serve
  split
  · rename_i ha
    dsimp only
    obtain ⟨m₁, hm₁, hinv, hmoves, hact⟩ : ∃ m₁, m₁ =
        (if (m.queue w ch).nextScheduleIndex < (m.queue w ch).size ∧
            (m.queue w ch).nextScheduleCycle ≤
              cycle ((m.queue w ch).entry (m.queue w ch).nextScheduleIndex).cpu then
          m.schedule c cycle w ch
        else m) ∧ Inv c m₁ ∧ Moves c m m₁ ∧ m₁.active ch = w := by
      refine ⟨_, rfl, ?_⟩
      split
      · obtain ⟨h1, h2, h3⟩ := schedule_spec cycle h ha
        exact ⟨h1, h2, by rw [active_of_writeMode h3]; exact ha⟩
      · exact ⟨h, .refl, ha⟩
    rw [← hm₁]
    split
    · rename_i hcond
      exact (process_spec cycle hinv hact hT hcond.1 hcond.2).mono fun m' hm' =>
        ⟨hm'.1, hmoves.trans hm'.2⟩
    · exact ⟨hinv, hmoves⟩
  · exact ⟨h, .refl⟩

theorem switchMode_spec (h : Inv c m) (ch : Nat) :
    ∃ m', m.switchMode c cycle ch = some m' ∧ Inv c m' ∧ Moves c m m' := by
  unfold switchMode
  dsimp only
  split
  · rename_i hcond
    have ha : m.active ch = .rq := by simp [active, hcond.1]
    obtain ⟨m', heq, hinv, hmove⟩ := turnAround_spec cycle h ha
    exact ⟨m', heq, hinv, .single hmove⟩
  · split
    · rename_i hcond
      have ha : m.active ch = .wq := by simp [active, hcond.1]
      obtain ⟨m', heq, hinv, hmove⟩ := turnAround_spec cycle h ha
      exact ⟨m', heq, hinv, .single hmove⟩
    · exact ⟨m, rfl, h, .refl⟩

theorem operateChannel_spec (h : Inv c m)
    (hT : c.log2Channels = 0 ∧ ch = 0 ∨ ∀ cpu, cycle cpu < u64Max) :
    Lib.Ends (∀ cpu, cycle cpu < u64Max) (fun m' => Inv c m' ∧ Moves c m m')
      (m.operateChannel c cycle ch) := by
  obtain ⟨m₁, h₁, hinv, hmoves⟩ := switchMode_spec cycle h ch
  rw [operateChannel, h₁, Option.bind_some]
  refine (serve_spec cycle hinv .wq hT).bind fun m₂ h₂ => ?_
  exact (serve_spec cycle h₂.1 .rq hT).mono fun m₃ h₃ =>
    ⟨h₃.1, (hmoves.trans h₂.2).trans h₃.2⟩

end Parts

/-- One channel, as `champsim.h` has it. -/
def Config.OneChannel (c : Config) : Prop := c.channels = 1 ∧ c.log2Channels = 0

theorem operate_spec {c : Config} {m : Controller} {cycle : Nat → Nat} (h : Inv c m)
    (hT : c.OneChannel ∨ ∀ cpu, cycle cpu < u64Max) :
    Lib.Ends (∀ cpu, cycle cpu < u64Max) (fun m' => Inv c m' ∧ Moves c m m')
      (m.operate c cycle) := by
  have hloop : ∀ k ≤ c.channels, Lib.Ends (∀ cpu, cycle cpu < u64Max)
      (fun m' => Inv c m' ∧ Moves c m m') (m.operateChannels c cycle k) := by
    intro k
    induction k with
    | zero => intro _; exact ⟨h, .refl⟩
    | succ k ih =>
      intro hk
      refine (ih (by omega)).bind fun m₁ h₁ => ?_
      have hTk : c.log2Channels = 0 ∧ k = 0 ∨ ∀ cpu, cycle cpu < u64Max :=
        hT.imp_left fun h1 => ⟨h1.2, by have := h1.1; omega⟩
      exact (operateChannel_spec cycle h₁.1 hTk).mono fun m₂ h₂ => ⟨h₂.1, h₁.2.trans h₂.2⟩
  exact hloop c.channels (Nat.le_refl _)

end Dram
end ChampSim
