import ChampSim.Dram.Arrivals
import Mathlib.Data.List.Count

/-!
# ChampSim.Dram.Conservation

No request is lost and none is answered twice.

* `Ledger`      — the history of arrivals: reads that met a queued write of their address, and the
  reads and writes that matched nothing. It is kept beside the controller and never read by it.
* `Conserved`   — every read of the first kind was forwarded; every other request is in exactly one
  slot of its queue or has been served, as often as it arrived.
* `run_conserved` — this holds after any run, with exact occupancies and distinct addresses.

Requests are compared by `request`, that is up to the fields the controller writes. The two sides
are counted, so a request that arrives again after its answer counts twice on both.
-/

namespace ChampSim
namespace Dram

open Controller

def Event.forwarded? : Event → Option Packet
  | .forward _ packet => some (request packet)
  | _ => none

def Event.served? (w : QueueId) : Event → Option Packet
  | .served w' packet _ => if w' = w then some (request packet) else none
  | _ => none

/-- The requests returned by `add_rq` from queued writes. -/
def forwardedReads (m : Controller) : List Packet := m.log.filterMap Event.forwarded?

/-- The requests that `process` has served and removed from queue `w`. -/
def served (m : Controller) (w : QueueId) : List Packet := m.log.filterMap (Event.served? w)

/-- The number of slots of queue `w` that hold request `r`. -/
def slots (c : Config) (m : Controller) (w : QueueId) (r : Packet) : Nat :=
  Nat.count (fun i => addr m w (c.dramGetChannel r.address) i ≠ 0 ∧
    request ((m.queue w (c.dramGetChannel r.address)).entry i) = r) (c.size w)

structure Ledger where
  forwarded : List Packet
  admitted : QueueId → List Packet

def Ledger.empty : Ledger := ⟨[], fun _ => []⟩

def Ledger.accept (L : Ledger) (w : QueueId) (packet : Packet) : Ledger :=
  { L with admitted := Function.update L.admitted w (request packet :: L.admitted w) }

/-- The entry a call makes, by what is queued when it is made. -/
def Ledger.note (c : Config) (m : Controller) (L : Ledger) : Op → Ledger
  | .addRq _ packet =>
    if Queued c m .wq packet then { L with forwarded := request packet :: L.forwarded }
    else if Queued c m .rq packet then L
    else L.accept .rq packet
  | .addWq _ packet => if Queued c m .wq packet then L else L.accept .wq packet
  | .operate _ => L

/-- The controller with its ledger. -/
def stepLedger (c : Config) (s : Controller × Ledger) (op : Op) : Option (Controller × Ledger) :=
  (step c s.1 op).map fun m => (m, s.2.note c s.1 op)

structure Conserved (c : Config) (m : Controller) (L : Ledger) : Prop where
  forwarded : ∀ r, L.forwarded.count r = (forwardedReads m).count r
  admitted : ∀ w r, (L.admitted w).count r = (served m w).count r + slots c m w r

/-- After the warm-up, a caller adds a request only when its queue has room, and a read asks either
for an instruction or for data. -/
def Op.Polite (c : Config) (m : Controller) : Op → Prop
  | .addRq warm packet => c.numCpus ≤ warm ∧ packet.instruction ≠ packet.isData ∧
      (m.queue .rq (c.dramGetChannel packet.address)).occupancy < c.rqSize
  | .addWq warm packet => c.numCpus ≤ warm ∧
      (m.queue .wq (c.dramGetChannel packet.address)).occupancy < c.wqSize
  | .operate _ => True

section Conserved

variable {c : Config} {m m' : Controller} {L : Ledger} {w : QueueId} {packet : Packet}

theorem slots_congr (h : ∀ w ch i, request ((m'.queue w ch).entry i) =
    request ((m.queue w ch).entry i)) (w : QueueId) (r : Packet) :
    slots c m' w r = slots c m w r := by
  refine Lib.count_congr fun i _ => ?_
  rw [h, addr_eq_of_request h]

theorem Conserved.quiet (hC : Conserved c m L) (hlog : m'.log = m.log)
    (hreq : ∀ w ch i, request ((m'.queue w ch).entry i) = request ((m.queue w ch).entry i)) :
    Conserved c m' L where
  forwarded := fun r => by rw [hC.forwarded, forwardedReads, forwardedReads, hlog]
  admitted := fun w r => by rw [hC.admitted, served, served, hlog, slots_congr hreq]

/-- A slot that held `r₀` and is empty now was one of the slots of `r₀` and of no other request. -/
theorem slots_leave {i : Nat} {ch : Nat} (hi : i < c.size w) (hne : addr m w ch i ≠ 0)
    (hch : c.dramGetChannel (addr m w ch i) = ch) (hself : addr m' w ch i = 0)
    (hother : ∀ w' ch' j, ¬ (w' = w ∧ ch' = ch ∧ j = i) →
      request ((m'.queue w' ch').entry j) = request ((m.queue w' ch').entry j))
    (w' : QueueId) (r : Packet) :
    slots c m w' r = slots c m' w' r +
      if w' = w ∧ r = request ((m.queue w ch).entry i) then 1 else 0 := by
  by_cases hr : w' = w ∧ r = request ((m.queue w ch).entry i)
  · obtain ⟨rfl, rfl⟩ := hr
    rw [if_pos ⟨rfl, rfl⟩]
    have hc : c.dramGetChannel (request ((m.queue w' ch).entry i)).address = ch := hch
    unfold slots
    rw [hc]
    refine Lib.count_lower hi ⟨hne, rfl⟩ (fun h => h.1 hself) fun j _ hji => ?_
    have hj := hother w' ch j (by simp [hji])
    rw [hj]
    unfold addr
    rw [address_of_request hj]
  · rw [if_neg hr, Nat.add_zero]
    refine Lib.count_congr fun j _ => ?_
    by_cases hn : w' = w ∧ c.dramGetChannel r.address = ch ∧ j = i
    · obtain ⟨rfl, hrc, rfl⟩ := hn
      rw [hrc]
      constructor
      · rintro ⟨_, hreq⟩
        exact absurd ⟨rfl, hreq.symm⟩ hr
      · rintro ⟨h0, _⟩
        exact absurd hself h0
    · have hj := hother w' _ j hn
      rw [hj]
      unfold addr
      rw [address_of_request hj]

theorem Conserved.move (hC : Conserved c m L) (h : Move c m m') : Conserved c m' L := by
  cases h with
  | quiet hlog hreq => exact hC.quiet hlog hreq
  | served w ch i p t hi hne hch hlog hp hself hother =>
    refine ⟨fun r => ?_, fun w' r => ?_⟩
    · rw [hC.forwarded, forwardedReads, forwardedReads, hlog]
      rfl
    · rw [hC.admitted, slots_leave hi hne hch hself hother, served, served, hlog]
      simp only [List.filterMap_cons, Event.served?, hp]
      by_cases hw : w = w'
      · subst hw
        simp only [if_true, List.count_cons, beq_iff_eq, true_and]
        simp only [eq_comm (a := r)]
        omega
      · simp [hw, Ne.symm hw]

theorem Conserved.moves (hC : Conserved c m L) (h : Moves c m m') : Conserved c m' L := by
  induction h with
  | refl => exact hC
  | tail _ hmove ih => exact ih.move hmove

/-- A new request takes exactly one slot. -/
theorem Conserved.entered (hC : Conserved c m L) (h0 : packet.address ≠ 0) {i : Nat}
    (he : Entered c m w (c.dramGetChannel packet.address) i packet m') :
    Conserved c m' (L.accept w packet) := by
  have hself : addr m' w (c.dramGetChannel packet.address) i = packet.address := by
    unfold addr; rw [he.entry]
  refine ⟨fun r => ?_, fun w' r => ?_⟩
  · show L.forwarded.count r = _
    rw [hC.forwarded, forwardedReads, forwardedReads, he.log]
  · -- read backwards, the slot of `packet` is left
    have hleave := slots_leave (m := m') he.lt (by rw [hself]; exact h0)
      (by rw [hself]) he.empty (fun w' ch' j hn => by rw [he.other w' ch' j hn]) w' r
    have hadm : (L.accept w packet).admitted w' =
        if w' = w then request packet :: L.admitted w' else L.admitted w' := by
      by_cases hw : w' = w
      · subst hw; simp [Ledger.accept]
      · simp [Ledger.accept, hw]
    have hlog : served m' w' = served m w' := by unfold served; rw [he.log]
    rw [hadm, hleave, he.entry, hlog]
    have hold := hC.admitted w' r
    by_cases hw : w' = w
    · simp only [hw, if_true, List.count_cons, beq_iff_eq, true_and] at hold ⊢
      simp only [eq_comm (a := r)]
      omega
    · simp only [hw, if_false, false_and]
      omega

theorem Conserved.enqueue (hC : Conserved c m L) (h : Inv c m) (hp : packet.scheduled = false)
    (h0 : packet.address ≠ 0) (hnew : ¬ Queued c m w packet)
    (hroom : (m.queue w (c.dramGetChannel packet.address)).occupancy < c.size w) :
    Conserved c (m.enqueue w (c.dramGetChannel packet.address) packet) (L.accept w packet) := by
  obtain ⟨_, ⟨i, he⟩ | ⟨hfull, _⟩⟩ := enqueue_spec h hp h0 rfl hnew
  · exact hC.entered h0 he
  · exact absurd hroom (Nat.not_lt.mpr hfull)

theorem Conserved.forward (hC : Conserved c m L) (h : Inv c m) {warm : Nat}
    (hw : c.numCpus ≤ warm) (hone : packet.instruction ≠ packet.isData)
    (hq : Queued c m .wq packet) :
    Conserved c (m.addRq c warm packet).1
      { L with forwarded := request packet :: L.forwarded } := by
  obtain ⟨data, hlog, hqueue, _⟩ := addRq_forward h (Nat.not_lt.mpr hw) hq
  have hent : ∀ w ch, ((m.addRq c warm packet).1.queue w ch).entry = (m.queue w ch).entry := by
    intro w ch; obtain ⟨f, a, he⟩ := hqueue w ch; rw [he]
  -- exactly one of the two levels is answered
  obtain ⟨level, hone⟩ : ∃ level, (m.addRq c warm packet).1.log =
      .forward level { packet with data := data } :: m.log := by
    rw [hlog, respond_eq]
    cases hi : packet.instruction <;> cases hd : packet.isData
    · exact absurd (hi.trans hd.symm) hone
    · exact ⟨.dcache, rfl⟩
    · exact ⟨.icache, rfl⟩
    · exact absurd (hi.trans hd.symm) hone
  refine ⟨fun r => ?_, fun w r => ?_⟩
  · unfold forwardedReads
    rw [hone]
    simp only [List.filterMap_cons, Event.forwarded?, List.count_cons]
    rw [hC.forwarded]
    rfl
  · show (L.admitted w).count r = _
    rw [hC.admitted, slots_congr fun w ch i => by rw [hent]]
    unfold served
    rw [hone]
    rfl

theorem step_conserved (h : Inv c m) (hC : Conserved c m L) {op : Op} (hl : op.Legal)
    (hp : op.Polite c m) (hT : c.OneChannel ∨ op.BelowSentinel) (hs : step c m op = some m') :
    Conserved c m' (L.note c m op) := by
  cases op with
  | operate cycle =>
    exact hC.moves ((operate_spec h hT).of_eq hs).2
  | addRq warm packet =>
    obtain ⟨hw, hone, hroom⟩ := hp
    cases hs
    unfold Ledger.note
    dsimp only
    split
    · rename_i hwq
      exact hC.forward h hw hone hwq
    · rename_i hwq
      split
      · rename_i hrq
        rw [addRq_merge h (Nat.not_lt.mpr hw) hwq hrq]
        exact hC
      · rename_i hrq
        rw [addRq_enter h (Nat.not_lt.mpr hw) hwq hrq]
        exact hC.enqueue h hl.2 hl.1 hrq hroom
  | addWq warm packet =>
    obtain ⟨hw, hroom⟩ := hp
    cases hs
    unfold Ledger.note
    dsimp only
    split
    · rename_i hwq
      rw [addWq_merge h hwq]
      exact hC
    · rename_i hwq
      rw [addWq_enter h (Nat.not_lt.mpr hw) hwq]
      exact hC.enqueue h hl.2 hl.1 hwq hroom

end Conserved

/-- The queues as arrays: occupancy counts the entries of non-zero address, which are distinct. -/
structure Exact (c : Config) (m : Controller) : Prop where
  occupancy : ∀ w ch, (m.queue w ch).occupancy = Nat.count (fun i => addr m w ch i ≠ 0) (c.size w)
  distinct : ∀ w ch, ∀ i < c.size w, ∀ j < c.size w, addr m w ch i ≠ 0 →
    addr m w ch i = addr m w ch j → i = j

/-- What the callers keep to along a run. With one channel nothing is asked of the cycles. -/
def Calls (c : Config) (ops : List Op) : Prop :=
  Lib.Along (stepLedger c)
    (fun s op => op.Legal ∧ op.Polite c s.1 ∧ (c.OneChannel ∨ op.BelowSentinel))
    (Controller.new c, Ledger.empty) ops

/-- After every run, every read that met a queued write has been returned by `add_rq`, every other
request that matched nothing has been served by `process` or is in one slot of its queue, each
exactly as often as it arrived, and the queues are exact. -/
theorem run_conserved (c : Config) (ops : List Op) (hcalls : Calls c ops) (m : Controller)
    (L : Ledger)
    (hrun : Lib.run (stepLedger c) (Controller.new c, Ledger.empty) ops = some (m, L)) :
    Conserved c m L ∧ Exact c m := by
  have hstep : ∀ (s : Controller × Ledger) (op : Op) (s' : Controller × Ledger),
      (Inv c s.1 ∧ Conserved c s.1 s.2) →
      (op.Legal ∧ op.Polite c s.1 ∧ (c.OneChannel ∨ op.BelowSentinel)) →
      stepLedger c s op = some s' → Inv c s'.1 ∧ Conserved c s'.1 s'.2 := by
    rintro ⟨m, L⟩ op s' ⟨hm, hC⟩ ⟨hl, hp, hT⟩ hs
    obtain ⟨m', hm', rfl⟩ := Option.map_eq_some_iff.mp hs
    exact ⟨(step_spec hm hl hT).of_eq hm', step_conserved hm hC hl hp hT hm'⟩
  have hinit : Conserved c (Controller.new c) Ledger.empty := by
    refine ⟨fun _ => rfl, fun w r => ?_⟩
    show 0 = 0 + slots c (Controller.new c) w r
    rw [Nat.zero_add]
    exact (Nat.count_iff_forall_not.mpr fun i _ h => h.1 rfl).symm
  obtain ⟨hm, hC⟩ := Lib.run_invariant (I := fun s => Inv c s.1 ∧ Conserved c s.1 s.2) hstep
    ⟨inv_new c, hinit⟩ hcalls hrun
  exact ⟨hC, fun w ch => (hm ch).occupancy w, fun w ch => (hm ch).distinct w⟩

/-- One read of line 3, sent after the warm-up, and two cycles of the controller. -/
def oneRead : List Op :=
  [.addRq 1 { Packet.empty 1 with address := 3, cpu := 0, eventCycle := 10 },
    .operate fun _ => 11, .operate fun _ => 200]

theorem run_conserved_oneRead :
    Calls Config.default oneRead ∧
      ∃ m L, Lib.run (stepLedger Config.default) (Controller.new Config.default, Ledger.empty)
          oneRead = some (m, L) ∧ Conserved Config.default m L ∧ Exact Config.default m := by
  have hone : Config.default.OneChannel := ⟨rfl, rfl⟩
  have hcalls : Calls Config.default oneRead := by
    refine ⟨⟨⟨by decide, rfl⟩, ⟨by decide, by decide, by decide⟩, .inl hone⟩, fun s _ => ?_⟩
    exact ⟨⟨trivial, trivial, .inl hone⟩, fun _ _ => ⟨⟨trivial, trivial, .inl hone⟩, fun _ _ => trivial⟩⟩
  have hsome : (Lib.run (stepLedger Config.default)
      (Controller.new Config.default, Ledger.empty) oneRead).isSome = true := by decide +kernel
  obtain ⟨⟨m, L⟩, hrun⟩ := Option.isSome_iff_exists.mp hsome
  exact ⟨hcalls, m, L, hrun, run_conserved Config.default oneRead hcalls m L hrun⟩

end Dram
end ChampSim
