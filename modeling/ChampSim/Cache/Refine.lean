import ChampSim.Cache.Abstract
import ChampSim.Lib.Slots

/-!
# ChampSim.Cache.Refine

The parts of the cache refine the abstract steps.

* `view`   — the abstraction of a state.
* `Shape`  — the invariant it needs: the queues are rings in shape and the MSHR counts its entries.
* `Does`   — an operation keeps the shape and changes the view by the given relation.

The lemmas follow the model: queues, blocks, callbacks, MSHR. The handlers are in
`ChampSim.Cache.Simulate`.
-/

namespace ChampSim
namespace Cache

open Lib

variable {ρ : Type} {c : Config}

def Free (p : Packet) : Prop := p.address = 0

def Block.line (b : Block) : Line := ⟨b.valid, b.dirty, b.tag, b.address⟩

def Call.writeback? : Call → Option Nat
  | .lowerAddWq p => some p.address
  | _ => none

def view (c : Config) (s : State ρ) : View where
  line := fun set way => (s.block set way).line
  mshr := fun i =>
    if i < c.mshrSize ∧ (s.mshr.entry i).address ≠ 0 then some (s.mshr.entry i) else none
  rq := s.rq.contents
  wq := s.wq.contents
  pq := s.pq.contents
  processed := s.processed.contents
  sent := s.calls.filterMap Call.writeback?
  dropped := s.dropped

structure InShape (size : Nat) (q : PacketQueue) : Prop where
  wf : Ring.Wf Free q.toRing
  size_eq : q.size = size

structure MshrShape (c : Config) (q : PacketQueue) : Prop where
  size_eq : q.size = c.mshrSize
  occupancy : q.occupancy = Nat.count (fun i => (q.entry i).address ≠ 0) c.mshrSize
  free : ∀ i < c.mshrSize, (q.entry i).address = 0 →
    (q.entry i).cpu = c.numCpus ∧ (q.entry i).type = .load

structure Shape (c : Config) (s : State ρ) : Prop where
  rq : InShape c.rqSize s.rq
  rqLive : ∀ p ∈ s.rq.contents, p.address ≠ 0
  wq : InShape c.wqSize s.wq
  pq : InShape c.pqSize s.pq
  pqLive : ∀ p ∈ s.pq.contents, p.address ≠ 0
  processed : InShape c.processedSize s.processed
  mshr : MshrShape c s.mshr

def Does (c : Config) (Q : View → View → Prop) (s : State ρ) : Option (State ρ) → Prop :=
  Ends False fun s' => Shape c s' ∧ Q (view c s) (view c s')

/-! ## Queues -/

theorem inShape_new (n size : Nat) (l1dWq : Bool) : InShape size (PacketQueue.new n size l1dWq) :=
  ⟨Ring.wf_init size _ fun _ _ => rfl, rfl⟩

theorem removeQueue_head {n : Nat} {q : PacketQueue} (ho : 0 < q.occupancy) :
    q.removeQueue n q.head = some { q with toRing := q.toRing.pop (Packet.empty n) } := by
  unfold PacketQueue.removeQueue
  rw [if_neg (by omega)]
  rfl

theorem InShape.pop {size n : Nat} {q : PacketQueue} (h : InShape size q) (ho : 0 < q.occupancy) :
    InShape size { q with toRing := q.toRing.pop (Packet.empty n) } :=
  ⟨h.wf.pop ho rfl, h.size_eq⟩

theorem InShape.push {size : Nat} {q : PacketQueue} (h : InShape size q) (ho : q.occupancy < size)
    (p : Packet) : InShape size { q with toRing := q.toRing.push p } :=
  ⟨h.wf.push (h.size_eq.symm ▸ ho) p, h.size_eq⟩

/-- The scan of `check_queue` stays in the live region. -/
theorem checkQueue_some {q : PacketQueue} {p : Packet} {i : Nat} (h : Ring.Wf Free q.toRing)
    (hi : q.checkQueue p = some i) :
    ∃ k < q.occupancy, i = Ring.idx q.size q.head k ∧ q.sameKey p i = true := by
  have htail := h.tail_eq
  have hocc := h.occ_le
  unfold PacketQueue.checkQueue at hi
  split at hi
  · cases hi
  · rename_i hne
    split at hi
    · rename_i hlt
      obtain ⟨hk, hlo, hhi, -⟩ := PacketQueue.findFrom_eq_some.mp hi
      have hk' : i - q.head < q.occupancy ∧ i < q.size := by
        unfold Ring.idx at htail
        split at htail <;> omega
      refine ⟨i - q.head, hk'.1, ?_, hk⟩
      unfold Ring.idx
      rw [if_pos (by omega)]
      omega
    · rename_i hle
      rcases Option.or_eq_some_iff.mp hi with hi | ⟨-, hi⟩
      · obtain ⟨hk, hlo, hhi, -⟩ := PacketQueue.findFrom_eq_some.mp hi
        have hk' : i - q.head < q.occupancy := by
          unfold Ring.idx at htail
          split at htail <;> omega
        refine ⟨i - q.head, hk', ?_, hk⟩
        unfold Ring.idx
        rw [if_pos (by omega)]
        omega
      · obtain ⟨hk, hlo, hhi, -⟩ := PacketQueue.findFrom_eq_some.mp hi
        have hsize : 0 < q.size := by
          by_contra h0
          have := h.head_zero (by omega)
          unfold Ring.idx at htail
          split at htail <;> omega
        have hlt := h.head_lt hsize
        have hk' : i + q.size - q.head < q.occupancy := by
          unfold Ring.idx at htail
          split at htail <;> omega
        refine ⟨i + q.size - q.head, hk', ?_, hk⟩
        unfold Ring.idx
        split <;> omega

theorem InShape.setEntry {size : Nat} {q : PacketQueue} (h : InShape size q) {k : Nat}
    (hk : k < q.occupancy) (p : Packet) : InShape size (q.setEntry (Ring.idx q.size q.head k) p) :=
  ⟨h.wf.update_live ⟨k, hk, rfl⟩ p, h.size_eq⟩

theorem setEntry_contents {q : PacketQueue} (h : Ring.Wf Free q.toRing) {k : Nat}
    (hk : k < q.occupancy) (p : Packet) :
    (q.setEntry (Ring.idx q.size q.head k) p).contents = q.contents.set k p :=
  Ring.update_contents h hk p

theorem enqueue_eq {env : Env} {q q' : PacketQueue} {p : Packet}
    (h : enqueue c env q p = some q') :
    q'.toRing = q.toRing.push { p with eventCycle := env.delay c p.cpu p.eventCycle } := by
  unfold enqueue at h
  split at h
  · cases h
  · cases h; rfl

/-! ## Framing -/

theorem InShape.of_ring {size : Nat} {q q' : PacketQueue} (h : InShape size q)
    (hq : q'.toRing = q.toRing) : InShape size q' :=
  ⟨hq ▸ h.wf, hq ▸ h.size_eq⟩

theorem InShape.room {size : Nat} {q : PacketQueue} (h : InShape size q)
    (hfull : ¬ q.occupancy = size) : q.occupancy < size :=
  Nat.lt_of_le_of_ne (h.size_eq ▸ h.wf.occ_le) hfull

theorem InShape.enqueued {size : Nat} {env : Env} {q q' : PacketQueue} {p : Packet}
    (h : InShape size q) (hroom : q.occupancy < size) (hq : enqueue c env q p = some q') :
    InShape size q' ∧
      q'.contents = q.contents ++ [{ p with eventCycle := env.delay c p.cpu p.eventCycle }] := by
  have hring := enqueue_eq hq
  refine ⟨(h.push hroom _).of_ring hring, ?_⟩
  exact hring ▸ Ring.push_contents h.wf (h.size_eq.symm ▸ hroom) _

/-- The shape depends on the rings and the MSHR, not on blocks, counters and logs. -/
theorem Shape.of_rings {s s' : State ρ} (h : Shape c s) (hrq : s'.rq.toRing = s.rq.toRing)
    (hwq : s'.wq.toRing = s.wq.toRing) (hpq : s'.pq.toRing = s.pq.toRing)
    (hprocessed : s'.processed.toRing = s.processed.toRing) (hmshr : s'.mshr = s.mshr) :
    Shape c s' where
  rq := h.rq.of_ring hrq
  rqLive := hrq ▸ h.rqLive
  wq := h.wq.of_ring hwq
  pq := h.pq.of_ring hpq
  pqLive := hpq ▸ h.pqLive
  processed := h.processed.of_ring hprocessed
  mshr := hmshr ▸ h.mshr

theorem view_setBlock (s : State ρ) (set way : Nat) (b : Block) :
    view c (s.setBlock set way b) = (view c s).setLine set way b.line := by
  have hline : (fun i j => ((s.setBlock set way b).block i j).line) =
      ((view c s).setLine set way b.line).line := by
    funext i j
    rw [setLine_line]
    by_cases hi : i = set
    · subst hi
      by_cases hj : j = way
      · subst hj; simp [State.setBlock]
      · simp [State.setBlock, hj, view]
    · simp [State.setBlock, hi, view]
  simp only [view, View.setLine] at hline ⊢
  rw [hline]
  rfl

theorem view_updateReplacement (P : Policy c ρ) (s : State ρ) (set way : Nat) (p : Packet)
    (fullAddr victimAddr : Nat) (hit : Bool) :
    view c (updateReplacement P s set way p fullAddr victimAddr hit) = view c s := by
  have hline : (fun i j =>
      ((updateReplacement P s set way p fullAddr victimAddr hit).block i j).line) =
      (fun i j => (s.block i j).line) := by
    funext i j
    by_cases hi : i = set
    · subst hi; simp [updateReplacement, Block.line]
    · simp [updateReplacement, hi]
  simp only [view, hline]
  rfl

theorem updateReplacement_shape (P : Policy c ρ) {s : State ρ} (h : Shape c s) (set way : Nat)
    (p : Packet) (fullAddr victimAddr : Nat) (hit : Bool) :
    Shape c (updateReplacement P s set way p fullAddr victimAddr hit) :=
  h.of_rings rfl rfl rfl rfl rfl

theorem view_call {s : State ρ} {e : Call} (he : e.writeback? = none) :
    view c (s.call e) = view c s := by
  have hsent : (s.calls ++ [e]).filterMap Call.writeback? =
      s.calls.filterMap Call.writeback? := by simp [he]
  simp only [view, State.call, hsent]
  rfl

theorem call_shape {s : State ρ} (h : Shape c s) (e : Call) : Shape c (s.call e) :=
  h.of_rings rfl rfl rfl rfl rfl

theorem returnUpper_does {s : State ρ} (h : Shape c s) (cpu : Nat) (p : Packet) :
    Shape c (returnUpper c s cpu p) ∧ view c (returnUpper c s cpu p) = view c s := by
  unfold returnUpper
  split
  · dsimp only
    generalize (if c.fillLevel = fillL2 then p.fillL1i else p.instruction) = toIcache
    generalize (if c.fillLevel = fillL2 then p.fillL1d else p.isData) = toDcache
    cases toIcache <;> cases toDcache
    · exact ⟨h, rfl⟩
    · exact ⟨call_shape h _, view_call rfl⟩
    · exact ⟨call_shape h _, view_call rfl⟩
    · exact ⟨call_shape (call_shape h _) _, (view_call rfl).trans (view_call rfl)⟩
  · exact ⟨h, rfl⟩

/-! ## Blocks -/

theorem checkHit_some {s : State ρ} {address way : Nat} (h : checkHit c s address = some way) :
    (view c s).Hit c address way := by
  have hw := List.mem_range.mp (List.mem_of_find?_eq_some h)
  have hp := List.find?_some h
  simp only [Bool.and_eq_true, beq_iff_eq] at hp
  exact ⟨hw, hp.1, hp.2⟩

theorem checkHit_none {s : State ρ} {address : Nat} (h : checkHit c s address = none) :
    (view c s).Miss c address := by
  rintro way ⟨hw, hv, ht⟩
  have hp := List.find?_eq_none.mp h way (List.mem_range.mpr hw)
  simp only [Bool.and_eq_true, beq_iff_eq, not_and] at hp
  exact hp hv ht

theorem invalidateEntry_does {I : Prop} {s : State ρ} (h : Shape c s) (hI : I) (address : Nat) :
    Shape c (invalidateEntry c s address) ∧
      CallbackSteps I (view c s) (view c (invalidateEntry c s address)) := by
  unfold invalidateEntry
  split
  · rename_i way hw
    refine ⟨h.of_rings rfl rfl rfl rfl rfl, ?_⟩
    dsimp only
    rw [view_setBlock]
    exact .single (.invalidated (view c s) (c.getSet address) way hI)
  · exact ⟨h, .refl⟩

theorem fillCache_eq {s s' : State ρ} {set way : Nat} {p : Packet}
    (hf : fillCache c s set way p = some s') :
    (s'.rq = s.rq ∧ s'.wq = s.wq ∧ s'.pq = s.pq ∧ s'.processed = s.processed ∧
      s'.mshr = s.mshr) ∧
      view c s' = (view c s).setLine set way ⟨true, false, p.address, p.address⟩ := by
  unfold fillCache at hf
  split at hf
  · cases hf
  · cases hf
    refine ⟨⟨rfl, rfl, rfl, rfl, rfl⟩, ?_⟩
    rw [view_setBlock]
    rfl

theorem view_markDirty (s : State ρ) (set way : Nat) :
    view c (markDirty s set way) = (view c s).setLine set way
      { (view c s).line set way with dirty := true } := by
  unfold markDirty
  rw [view_setBlock]
  rfl

theorem markDirty_shape {s : State ρ} (h : Shape c s) (set way : Nat) :
    Shape c (markDirty s set way) :=
  h.of_rings rfl rfl rfl rfl rfl

/-! ## Adding to the queues -/

@[simp] theorem mergeRq_address (p e : Packet) : (mergeRq p e).address = e.address := by
  unfold mergeRq
  split
  · rfl
  · split <;> rfl

@[simp] theorem mergePq_address (p e : Packet) : (mergePq p e).address = e.address := rfl

inductive PqEffect (p : Packet) : View → View → Prop
  | same (v : View) : PqEffect p v v
  | merged (v : View) {k : Nat} {e : Packet} (he : v.pq[k]? = some e) :
    PqEffect p v { v with pq := v.pq.set k (mergePq p e) }
  | added (v : View) (t : Nat) (h0 : p.address ≠ 0) :
    PqEffect p v { v with pq := v.pq ++ [{ p with eventCycle := t }] }

theorem live_push {q : PacketQueue} {size : Nat} {p : Packet} (h : InShape size q)
    (ho : q.occupancy < size) (hl : ∀ x ∈ q.contents, x.address ≠ 0) (hp : p.address ≠ 0) :
    ∀ x ∈ (q.toRing.push p).contents, x.address ≠ 0 := by
  intro x hx
  rw [Ring.push_contents h.wf (h.size_eq.symm ▸ ho)] at hx
  rcases List.mem_append.mp hx with hx | hx
  · exact hl x hx
  · rw [List.mem_singleton.mp hx]; exact hp

theorem live_set {q : PacketQueue} {k : Nat} {p : Packet} (h : Ring.Wf Free q.toRing)
    (hk : k < q.occupancy) (hl : ∀ x ∈ q.contents, x.address ≠ 0) (hp : p.address ≠ 0) :
    ∀ x ∈ (q.setEntry (Ring.idx q.size q.head k) p).contents, x.address ≠ 0 := by
  intro x hx
  rw [setEntry_contents h hk] at hx
  rcases List.mem_or_eq_of_mem_set hx with hx | hx
  · exact hl x hx
  · rw [hx]; exact hp

/-- Merging into the entry that `check_queue` found. -/
theorem mergeAt {size i : Nat} {q : PacketQueue} {p : Packet} {f : Packet → Packet}
    (h : InShape size q) (hl : ∀ x ∈ q.contents, x.address ≠ 0)
    (hf : ∀ e, (f e).address = e.address) (hi : q.checkQueue p = some i) :
    InShape size (q.setEntry i (f (q.entry i))) ∧
      (∀ x ∈ (q.setEntry i (f (q.entry i))).contents, x.address ≠ 0) ∧
      ∃ k e, q.contents[k]? = some e ∧
        (q.setEntry i (f (q.entry i))).contents = q.contents.set k (f e) := by
  obtain ⟨k, hk, rfl, -⟩ := checkQueue_some h.wf hi
  have hget : q.contents[k]? = some (q.entry (Ring.idx q.size q.head k)) :=
    Ring.getElem?_contents hk
  refine ⟨h.setEntry hk _, live_set h.wf hk hl ?_, k, _, hget, setEntry_contents h.wf hk _⟩
  rw [hf]
  exact hl _ (List.mem_of_getElem? hget)

theorem forwardFromWq_does {s s' : State ρ} {i : Nat} {p p' : Packet} (h : Shape c s)
    (hf : forwardFromWq c s i p = (s', p')) :
    Shape c s' ∧ view c s' = view c s ∧ SameRequest p p' := by
  unfold forwardFromWq at hf
  split at hf
  · cases hf
    obtain ⟨hs, hv⟩ := returnUpper_does h p.cpu { p with data := (s.wq.entry i).data }
    exact ⟨hs, hv, _, _, _, _, _, _, _, rfl⟩
  · cases hf
    exact ⟨h, rfl, SameRequest.refl p⟩

theorem Shape.setPq {s : State ρ} (h : Shape c s) {q : PacketQueue} (hq : InShape c.pqSize q)
    (hl : ∀ p ∈ q.contents, p.address ≠ 0) : Shape c { s with pq := q } :=
  ⟨h.rq, h.rqLive, h.wq, hq, hl, h.processed, h.mshr⟩

theorem Shape.setRq {s : State ρ} (h : Shape c s) {q : PacketQueue} (hq : InShape c.rqSize q)
    (hl : ∀ p ∈ q.contents, p.address ≠ 0) : Shape c { s with rq := q } :=
  ⟨hq, hl, h.wq, h.pq, h.pqLive, h.processed, h.mshr⟩

theorem Shape.setWq {s : State ρ} (h : Shape c s) {q : PacketQueue} (hq : InShape c.wqSize q) :
    Shape c { s with wq := q } :=
  ⟨h.rq, h.rqLive, hq, h.pq, h.pqLive, h.processed, h.mshr⟩

theorem Shape.setProcessed {s : State ρ} (h : Shape c s) {q : PacketQueue}
    (hq : InShape c.processedSize q) : Shape c { s with processed := q } :=
  ⟨h.rq, h.rqLive, h.wq, h.pq, h.pqLive, hq, h.mshr⟩

theorem Shape.setMshr {s : State ρ} (h : Shape c s) {q : PacketQueue} (hq : MshrShape c q) :
    Shape c { s with mshr := q } :=
  ⟨h.rq, h.rqLive, h.wq, h.pq, h.pqLive, h.processed, hq⟩

theorem addPq_does {env : Env} {s : State ρ} {p : Packet} (h : Shape c s) :
    Ends False (fun r => Shape c r.2 ∧ PqEffect p (view c s) (view c r.2)) (addPq c env s p) := by
  unfold addPq
  cases hw : s.wq.checkQueue p with
  | some i =>
    dsimp only
    cases hf : forwardFromWq c s i p with
    | mk s₁ p₁ =>
      obtain ⟨h₁, hv, -⟩ := forwardFromWq_does h hf
      refine ⟨h₁.of_rings rfl rfl rfl rfl rfl, ?_⟩
      show PqEffect p (view c s) (view c s₁)
      rw [hv]
      exact .same (view c s)
  | none =>
    dsimp only
    cases hq : s.pq.checkQueue p with
    | some i =>
      obtain ⟨hshape, hlive, k, e, he, hcontents⟩ :=
        mergeAt h.pq h.pqLive (mergePq_address p) hq
      refine ⟨h.setPq (hshape.of_ring rfl) hlive, ?_⟩
      show PqEffect p (view c s) { view c s with
        pq := (s.pq.setEntry i (mergePq p (s.pq.entry i))).contents }
      rw [hcontents]
      exact .merged (view c s) he
    | none =>
      dsimp only
      split
      · exact ⟨h.of_rings rfl rfl rfl rfl rfl, .same (view c s)⟩
      · rename_i hfull
        have hroom := h.pq.room hfull
        refine Ends.intro fun r hr => ?_
        obtain ⟨q, hq, hr⟩ := Option.bind_eq_some_iff.mp hr
        split at hr
        · cases hr
        · rename_i h0
          cases hr
          obtain ⟨hshape, hcontents⟩ := h.pq.enqueued hroom hq
          refine ⟨h.setPq hshape ?_, ?_⟩
          · exact enqueue_eq hq ▸ live_push h.pq hroom h.pqLive h0
          · show PqEffect p (view c s) { view c s with pq := q.contents }
            rw [hcontents]
            exact .added (view c s) _ h0

/-- The effect of `add_rq` with the result `a`. -/
inductive RqEffect (c : Config) (p : Packet) : Added → View → View → Prop
  | forwarded (v : View) {q : Packet} (room : Bool) (hq : SameRequest p q) :
    RqEffect c p .taken v (v.deliver c room q)
  | merged (v : View) {i k : Nat} {e : Packet} (he : v.rq[k]? = some e) :
    RqEffect c p (.merged i) v { v with rq := v.rq.set k (mergeRq p e) }
  | full (v : View) : RqEffect c p .full v v
  | added (v : View) (t : Nat) (h0 : p.address ≠ 0) :
    RqEffect c p .taken v { v with rq := v.rq ++ [{ p with eventCycle := t }] }

theorem process_does {s : State ρ} {p : Packet} (h : Shape c s) (hp : View.ToCore c p) :
    Ends False (fun s' => Shape c s' ∧ ∃ room, view c s' = (view c s).deliver c room p)
      (process s p) := by
  unfold process
  split
  · rename_i hroom
    refine Ends.intro fun s' hs' => ?_
    obtain ⟨q, hq, rfl⟩ := Option.map_eq_some_iff.mp hs'
    unfold PacketQueue.addQueue at hq
    split at hq
    · cases hq
    · cases hq
      have hroom' : s.processed.occupancy < c.processedSize := h.processed.size_eq ▸ hroom
      refine ⟨h.setProcessed (h.processed.push hroom' p), true, ?_⟩
      have hcontents := Ring.push_contents h.processed.wf hroom p
      show { view c s with processed := (s.processed.toRing.push p).contents } = _
      rw [hcontents, View.deliver, if_pos hp, if_pos rfl]
      rfl
  · refine ⟨h.of_rings rfl rfl rfl rfl rfl, false, ?_⟩
    rw [View.deliver, if_pos hp, if_neg (by simp)]
    rfl

theorem addRq_does {env : Env} {s : State ρ} {p : Packet} (h : Shape c s) :
    Ends False (fun r => Shape c r.2 ∧ RqEffect c p r.1 (view c s) (view c r.2))
      (addRq c env s p) := by
  unfold addRq
  cases hw : s.wq.checkQueue p with
  | some i =>
    dsimp only
    cases hf : forwardFromWq c s i p with
    | mk s₁ p₁ =>
      obtain ⟨h₁, hv, hsame⟩ := forwardFromWq_does h hf
      dsimp only
      split
      · exact id
      · rename_i hc
        by_cases hl1d : c.cacheType = .l1d ∧ p₁.type ≠ .prefetch
        · rw [if_pos hl1d]
          refine (process_does h₁ (.inr (.inr (.inr hl1d)))).map ?_
          rintro s₂ ⟨h₂, room, hv₂⟩
          refine ⟨h₂.of_rings rfl rfl rfl rfl rfl, ?_⟩
          show RqEffect c p .taken (view c s) (view c s₂)
          rw [hv₂, hv]
          exact .forwarded (view c s) room hsame
        · rw [if_neg hl1d]
          refine ⟨h₁.of_rings rfl rfl rfl rfl rfl, ?_⟩
          have hnot : ¬ View.ToCore c p₁ := fun ht => by
            rcases ht with ht | ht | ht | ht
            · exact hc (.inl ht)
            · exact hc (.inr (.inl ht))
            · exact hc (.inr (.inr ht))
            · exact hl1d ht
          have hforward := RqEffect.forwarded (c := c) (view c s) true hsame
          rw [View.deliver, if_neg hnot] at hforward
          show RqEffect c p .taken (view c s) (view c s₁)
          rw [hv]
          exact hforward
  | none =>
    dsimp only
    cases hq : s.rq.checkQueue p with
    | some i =>
      obtain ⟨hshape, hlive, k, e, he, hcontents⟩ :=
        mergeAt h.rq h.rqLive (mergeRq_address p) hq
      refine ⟨h.setRq (hshape.of_ring rfl) hlive, ?_⟩
      show RqEffect c p (.merged i) (view c s) { view c s with
        rq := (s.rq.setEntry i (mergeRq p (s.rq.entry i))).contents }
      rw [hcontents]
      exact .merged (view c s) he
    | none =>
      dsimp only
      split
      · exact ⟨h.of_rings rfl rfl rfl rfl rfl, .full (view c s)⟩
      · rename_i hfull
        have hroom := h.rq.room hfull
        refine Ends.intro fun r hr => ?_
        obtain ⟨q, hq, hr⟩ := Option.bind_eq_some_iff.mp hr
        split at hr
        · cases hr
        · rename_i h0
          cases hr
          obtain ⟨hshape, hcontents⟩ := h.rq.enqueued hroom hq
          refine ⟨h.setRq hshape ?_, ?_⟩
          · exact enqueue_eq hq ▸ live_push h.rq hroom h.rqLive h0
          · show RqEffect c p .taken (view c s) { view c s with rq := q.contents }
            rw [hcontents]
            exact .added (view c s) _ h0

theorem addWq_does {env : Env} {s : State ρ} {p : Packet} (h : Shape c s) :
    Ends False (fun r => Shape c r.2 ∧ (view c r.2 = view c s ∨ ∃ t,
      view c r.2 = { view c s with wq := (view c s).wq ++ [{ p with eventCycle := t }] }))
      (addWq c env s p) := by
  unfold addWq
  cases hw : s.wq.checkQueue p with
  | some i => exact ⟨h.of_rings rfl rfl rfl rfl rfl, .inl rfl⟩
  | none =>
    dsimp only
    split
    · exact id
    · rename_i hfull
      have hroom : s.wq.occupancy < c.wqSize := by
        rw [← h.wq.size_eq]
        omega
      refine Ends.intro fun r hr => ?_
      obtain ⟨q, hq, rfl⟩ := Option.map_eq_some_iff.mp hr
      obtain ⟨hshape, hcontents⟩ := h.wq.enqueued hroom hq
      refine ⟨h.setWq hshape, .inr ⟨env.delay c p.cpu p.eventCycle, ?_⟩⟩
      show { view c s with wq := q.contents } = _
      rw [hcontents]
      rfl

end Cache
end ChampSim
