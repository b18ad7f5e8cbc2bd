import ChampSim.Cache.Refine
import ChampSim.Lib.RingWalk

/-!
# ChampSim.Cache.Rings

`RQ`, `WQ` and `PQ` as rings of the requests they have accepted.

* `QueueOp`       — the calls that add requests, and the removals of the head entries.
* `Accepted`      — the requests that each queue holds, as they arrived: a call adds its request
  unless a queue already has the key or is full.
* `Carries p e`   — the entry `e` holds the request `p`, up to what the latency and merges change.
* `Queued`        — a ring holds a list of requests with different keys.
* `queues_sound`  — the queues hold the accepted requests after every run.
-/

namespace ChampSim
namespace Cache

open Lib

variable {ρ : Type} {c : Config}

inductive QueueOp where
  | addRq (env : Env) (p : Packet)
  | addWq (env : Env) (p : Packet)
  | addPq (env : Env) (p : Packet)
  | removeRq
  | removeWq
  | removePq

def QueueOp.NonZero : QueueOp → Prop
  | .addRq _ p | .addWq _ p | .addPq _ p => p.address ≠ 0
  | .removeRq | .removeWq | .removePq => True

def queueStep (c : Config) (s : State ρ) : QueueOp → Option (State ρ)
  | .addRq env p => (addRq c env s p).map Prod.snd
  | .addWq env p => (addWq c env s p).map Prod.snd
  | .addPq env p => (addPq c env s p).map Prod.snd
  | .removeRq => popRq c s
  | .removeWq => popWq c s
  | .removePq => popPq c s

/-! ## What the queues should hold -/

/-- What `check_queue` compares; `byFullAddr` holds of the `WQ` of the L1D. -/
def keyBy (byFullAddr : Bool) (p : Packet) : Nat := if byFullAddr then p.fullAddr else p.address

def wqKey (c : Config) : Packet → Nat := keyBy (c.cacheType == .l1d)

structure Accepted where
  rq : List Packet
  wq : List Packet
  pq : List Packet

def Accepted.empty : Accepted := ⟨[], [], []⟩

/-- Some request of `l` has the key of `p`. -/
def HasKey (key : Packet → Nat) (l : List Packet) (p : Packet) : Prop := ∃ x ∈ l, key x = key p

instance HasKey.decidable (key : Packet → Nat) (l : List Packet) (p : Packet) :
    Decidable (HasKey key l p) := inferInstanceAs (Decidable (∃ x ∈ l, key x = key p))

def Accepted.step (c : Config) (a : Accepted) : QueueOp → Accepted
  | .addRq _ p =>
    if HasKey (wqKey c) a.wq p ∨ HasKey Packet.address a.rq p ∨ a.rq.length = c.rqSize then a
    else { a with rq := a.rq ++ [p] }
  | .addWq _ p => if HasKey (wqKey c) a.wq p then a else { a with wq := a.wq ++ [p] }
  | .addPq _ p =>
    if HasKey (wqKey c) a.wq p ∨ HasKey Packet.address a.pq p ∨ a.pq.length = c.pqSize then a
    else { a with pq := a.pq ++ [p] }
  | .removeRq => { a with rq := a.rq.tail }
  | .removeWq => { a with wq := a.wq.tail }
  | .removePq => { a with pq := a.pq.tail }

/-! ## Entries -/

def Carries (p e : Packet) : Prop :=
  ∃ eventCycle fillLevel instruction isData fillL1i fillL1d instrMerged loadMerged storeMerged
      robIndexDependOnMe lqIndexDependOnMe sqIndexDependOnMe,
    e = { p with
      eventCycle := eventCycle
      fillLevel := fillLevel
      instruction := instruction
      isData := isData
      fillL1i := fillL1i
      fillL1d := fillL1d
      instrMerged := instrMerged
      loadMerged := loadMerged
      storeMerged := storeMerged
      robIndexDependOnMe := robIndexDependOnMe
      lqIndexDependOnMe := lqIndexDependOnMe
      sqIndexDependOnMe := sqIndexDependOnMe }

variable {p e x : Packet}

theorem Carries.delayed (p : Packet) (t : Nat) : Carries p { p with eventCycle := t } :=
  ⟨_, _, _, _, _, _, _, _, _, _, _, _, rfl⟩

theorem Carries.mergeRq (h : Carries p e) (x : Packet) : Carries p (mergeRq x e) := by
  obtain ⟨_, _, _, _, _, _, _, _, _, _, _, _, rfl⟩ := h
  unfold Cache.mergeRq
  split
  · exact ⟨_, _, _, _, _, _, _, _, _, _, _, _, rfl⟩
  · split
    · exact ⟨_, _, _, _, _, _, _, _, _, _, _, _, rfl⟩
    · exact ⟨_, _, _, _, _, _, _, _, _, _, _, _, rfl⟩

theorem Carries.mergePq (h : Carries p e) (x : Packet) : Carries p (mergePq x e) := by
  obtain ⟨_, _, _, _, _, _, _, _, _, _, _, _, rfl⟩ := h
  exact ⟨_, _, _, _, _, _, _, _, _, _, _, _, rfl⟩

theorem Carries.address (h : Carries p e) : e.address = p.address := by
  obtain ⟨_, _, _, _, _, _, _, _, _, _, _, _, rfl⟩ := h
  rfl

theorem Carries.fullAddr (h : Carries p e) : e.fullAddr = p.fullAddr := by
  obtain ⟨_, _, _, _, _, _, _, _, _, _, _, _, rfl⟩ := h
  rfl

theorem Carries.key (h : Carries p e) (b : Bool) : keyBy b e = keyBy b p := by
  unfold keyBy
  rw [h.address, h.fullAddr]

/-! ## Queues -/

/-- `q` holds the requests `l` in `size` slots. -/
structure Queued (n size : Nat) (byFullAddr : Bool) (q : PacketQueue) (l : List Packet) :
    Prop where
  wf : Ring.Wf (· = Packet.empty n) q.toRing
  size_eq : q.size = size
  name : q.l1dWq = byFullAddr
  carries : List.Forall₂ Carries l q.contents
  distinct : l.Pairwise fun x y => keyBy byFullAddr x ≠ keyBy byFullAddr y

namespace Queued

variable {n size : Nat} {b : Bool} {q q' : PacketQueue} {l l' : List Packet}

theorem occupancy (h : Queued n size b q l) : q.occupancy = l.length := by
  rw [← Ring.contents_length, h.carries.length_eq]

theorem sameKey (h : Queued n size b q l) (x : Packet) (i : Nat) :
    q.sameKey x i = (keyBy b (q.entry i) == keyBy b x) := by
  unfold PacketQueue.sameKey keyBy
  rw [h.name]
  split <;> rfl

theorem head_eq_tail (h : Queued n size b q l) (h0 : q.occupancy = 0) : q.head = q.tail := by
  have htail := h.wf.tail_eq
  rw [h0] at htail
  rcases Nat.eq_zero_or_pos q.size with hs | hs
  · have := h.wf.head_zero hs
    unfold Ring.idx at htail
    split at htail <;> omega
  · rw [htail, Ring.idx_zero (h.wf.head_lt hs)]

theorem checkQueue_eq (h : Queued n size b q l) (x : Packet) :
    q.checkQueue x = ((List.range q.occupancy).map (Ring.idx q.size q.head)).find? (q.sameKey x) := by
  unfold PacketQueue.checkQueue PacketQueue.findFrom
  rcases Nat.eq_zero_or_pos q.occupancy with h0 | hpos
  · rw [if_pos ⟨h.head_eq_tail h0, h0⟩, h0]
    rfl
  · rw [if_neg (by omega), ← h.wf.walk_tail hpos]
    unfold Ring.walk
    split
    · rfl
    · rw [List.find?_append, Nat.sub_zero, List.range_eq_range']

theorem entry (h : Queued n size b q l) {k : Nat} (hk : k < q.occupancy) :
    ∃ x, l[k]? = some x ∧ Carries x (q.entry (Ring.idx q.size q.head k)) ∧
      keyBy b (q.entry (Ring.idx q.size q.head k)) = keyBy b x := by
  have hl : k < l.length := h.occupancy ▸ hk
  have hcarries := (List.forall₂_iff_get.mp h.carries).2 k hl (by simpa using hk)
  have hget : q.contents.get ⟨k, by simpa using hk⟩ = q.entry (Ring.idx q.size q.head k) := by
    simp [Ring.contents]
  rw [hget] at hcarries
  exact ⟨l.get ⟨k, hl⟩, List.getElem?_eq_getElem hl, hcarries, hcarries.key b⟩

/-- The key of a request in the list is the key of its entry. -/
theorem hasKey_iff (h : Queued n size b q l) {x : Packet} :
    HasKey (keyBy b) l x ↔
      ∃ k < q.occupancy, keyBy b (q.entry (Ring.idx q.size q.head k)) = keyBy b x := by
  constructor
  · rintro ⟨y, hy, heq⟩
    obtain ⟨k, hk, hget⟩ := List.getElem_of_mem hy
    have hk' : k < q.occupancy := h.occupancy ▸ hk
    obtain ⟨z, hz, -, hkey⟩ := h.entry hk'
    rw [List.getElem?_eq_getElem hk, hget] at hz
    cases hz
    exact ⟨k, hk', hkey.trans heq⟩
  · rintro ⟨k, hk, heq⟩
    obtain ⟨z, hz, -, hkey⟩ := h.entry hk
    exact ⟨z, List.mem_of_getElem? hz, hkey.symm.trans heq⟩

theorem checkQueue_some (h : Queued n size b q l) {i : Nat} :
    q.checkQueue x = some i ↔ ∃ k < q.occupancy, i = Ring.idx q.size q.head k ∧
      keyBy b (q.entry i) = keyBy b x ∧
      ∀ j < k, keyBy b (q.entry (Ring.idx q.size q.head j)) ≠ keyBy b x := by
  rw [h.checkQueue_eq, Ring.find?_map_range_eq_some]
  constructor
  · rintro ⟨k, hk, rfl, hsame, hbefore⟩
    rw [h.sameKey] at hsame
    refine ⟨k, hk, rfl, beq_iff_eq.mp hsame, fun j hj => ?_⟩
    have hdiff := hbefore j hj
    rw [h.sameKey] at hdiff
    exact beq_eq_false_iff_ne.mp hdiff
  · rintro ⟨k, hk, rfl, hsame, hbefore⟩
    refine ⟨k, hk, rfl, by rw [h.sameKey]; exact beq_iff_eq.mpr hsame, fun j hj => ?_⟩
    rw [h.sameKey]
    exact beq_eq_false_iff_ne.mpr (hbefore j hj)

theorem checkQueue_none (h : Queued n size b q l) :
    q.checkQueue x = none ↔ ¬ HasKey (keyBy b) l x := by
  rw [h.checkQueue_eq, h.hasKey_iff, List.find?_eq_none]
  constructor
  · rintro hnone ⟨k, hk, heq⟩
    refine hnone _ (List.mem_map_of_mem (List.mem_range.mpr hk)) ?_
    rw [h.sameKey]
    exact beq_iff_eq.mpr heq
  · intro hno i hi hsame
    obtain ⟨k, hk, rfl⟩ := List.mem_map.mp hi
    rw [h.sameKey] at hsame
    exact hno ⟨k, List.mem_range.mp hk, beq_iff_eq.mp hsame⟩

theorem hasKey_of_checkQueue (h : Queued n size b q l) {i : Nat}
    (hsome : q.checkQueue x = some i) : HasKey (keyBy b) l x := by
  by_contra hno
  rw [h.checkQueue_none.mpr hno] at hsome
  cases hsome

/-! ### Operations -/

/-- The counters beside a ring are free. -/
theorem of_ring (h : Queued n size b q l) (hring : q'.toRing = q.toRing)
    (hname : q'.l1dWq = q.l1dWq) : Queued n size b q' l where
  wf := hring ▸ h.wf
  size_eq := hring ▸ h.size_eq
  name := hname.trans h.name
  carries := hring ▸ h.carries
  distinct := h.distinct

theorem push (h : Queued n size b q l) (hroom : q.occupancy < size)
    (hnew : ¬ HasKey (keyBy b) l x) (hcarries : Carries x e) (hring : q'.toRing = q.toRing.push e)
    (hname : q'.l1dWq = q.l1dWq) : Queued n size b q' (l ++ [x]) where
  wf := hring ▸ h.wf.push (h.size_eq ▸ hroom) e
  size_eq := hring ▸ h.size_eq
  name := hname.trans h.name
  carries := by
    rw [hring, Ring.push_contents h.wf (h.size_eq ▸ hroom)]
    exact List.rel_append h.carries (.cons hcarries .nil)
  distinct := by
    refine List.pairwise_append.mpr ⟨h.distinct, List.pairwise_singleton _ _, fun y hy z hz => ?_⟩
    rw [List.mem_singleton.mp hz]
    exact fun heq => hnew ⟨y, hy, heq⟩

/-- The entry found is merged into. -/
theorem merge (h : Queued n size b q l) {i : Nat} (hi : q.checkQueue x = some i)
    (he : ∀ p, Carries p (q.entry i) → Carries p e) : Queued n size b (q.setEntry i e) l := by
  obtain ⟨k, hk, rfl, -, -⟩ := h.checkQueue_some.mp hi
  refine ⟨h.wf.update_live ⟨k, hk, rfl⟩ e, h.size_eq, h.name, ?_, h.distinct⟩
  show List.Forall₂ Carries l (Ring.contents { q.toRing with entry := _ })
  rw [Ring.update_contents h.wf hk]
  refine List.forall₂_iff_get.mpr ⟨?_, fun j hl hj => ?_⟩
  · rw [List.length_set]
    exact h.carries.length_eq
  · have hj' : j < q.contents.length := by rwa [List.length_set] at hj
    have hold := (List.forall₂_iff_get.mp h.carries).2 j hl hj'
    rw [List.get_eq_getElem] at hold ⊢
    by_cases hjk : k = j
    · subst hjk
      rw [List.get_eq_getElem, List.getElem_set_self]
      refine he _ ?_
      have hget : q.contents.get ⟨k, hj'⟩ = q.entry (Ring.idx q.size q.head k) := by
        simp [Ring.contents]
      rw [← hget]
      exact hold
    · rw [List.get_eq_getElem, List.getElem_set_ne hjk]
      exact hold

theorem remove (h : Queued n size b q l) :
    Ends (l ≠ []) (fun q' => Queued n size b q' l.tail) (q.removeQueue n q.head) := by
  rcases Nat.eq_zero_or_pos q.occupancy with h0 | hpos
  · unfold PacketQueue.removeQueue
    rw [if_pos ⟨h0, h.head_eq_tail h0⟩]
    rw [h.occupancy] at h0
    exact not_not_intro (List.length_eq_zero_iff.mp h0)
  · rw [removeQueue_head hpos]
    have hcarries := h.carries
    rw [Ring.pop_contents h.wf hpos (Packet.empty n)] at hcarries
    refine ⟨h.wf.pop hpos rfl, h.size_eq, h.name, ?_, h.distinct.tail⟩
    cases hcarries with
    | cons _ hrest => exact hrest

end Queued

/-! ## Calls -/

structure Rings (c : Config) (s : State ρ) (a : Accepted) : Prop where
  rq : Queued c.numCpus c.rqSize false s.rq a.rq
  wq : Queued c.numCpus c.wqSize (c.cacheType == .l1d) s.wq a.wq
  pq : Queued c.numCpus c.pqSize false s.pq a.pq
  processed : InShape c.processedSize s.processed

/-- When a call returns. The L1 caches of instructions and translations expect no write, the
callers of `add_wq` see to the room, and an empty queue has no head. -/
def Returns (c : Config) (a : Accepted) : QueueOp → Prop
  | .addRq _ p => HasKey (wqKey c) a.wq p →
    ¬ (c.cacheType = .itlb ∨ c.cacheType = .dtlb ∨ c.cacheType = .l1i)
  | .addWq _ p => HasKey (wqKey c) a.wq p ∨ a.wq.length < c.wqSize
  | .addPq _ _ => True
  | .removeRq => a.rq ≠ []
  | .removeWq => a.wq ≠ []
  | .removePq => a.pq ≠ []

section Calls

variable {s : State ρ} {a : Accepted} {env : Env}

theorem returnUpper_calls (s : State ρ) (cpu : Nat) (p : Packet) :
    ∃ calls, returnUpper c s cpu p = { s with calls := calls } := by
  unfold returnUpper
  split
  · dsimp only
    generalize (if c.fillLevel = fillL2 then p.fillL1i else p.instruction) = toIcache
    generalize (if c.fillLevel = fillL2 then p.fillL1d else p.isData) = toDcache
    cases toIcache <;> cases toDcache <;> exact ⟨_, rfl⟩
  · exact ⟨_, rfl⟩

theorem forwardFromWq_calls (s : State ρ) (i : Nat) (p : Packet) :
    ∃ calls q, forwardFromWq c s i p = ({ s with calls := calls }, q) := by
  unfold forwardFromWq
  split
  · obtain ⟨calls, hcalls⟩ := returnUpper_calls (c := c) s p.cpu
      { p with data := (s.wq.entry i).data }
    exact ⟨calls, { p with data := (s.wq.entry i).data }, Prod.ext hcalls rfl⟩
  · exact ⟨s.calls, p, rfl⟩

/-- The three queues are as they were. -/
structure SameRings (s s' : State ρ) : Prop where
  rq : s'.rq.toRing = s.rq.toRing ∧ s'.rq.l1dWq = s.rq.l1dWq
  wq : s'.wq.toRing = s.wq.toRing ∧ s'.wq.l1dWq = s.wq.l1dWq
  pq : s'.pq.toRing = s.pq.toRing ∧ s'.pq.l1dWq = s.pq.l1dWq

theorem Rings.of_sameRings (h : Rings c s a) {s' : State ρ} (hk : SameRings s s')
    (hprocessed : InShape c.processedSize s'.processed) : Rings c s' a where
  rq := h.rq.of_ring hk.rq.1 hk.rq.2
  wq := h.wq.of_ring hk.wq.1 hk.wq.2
  pq := h.pq.of_ring hk.pq.1 hk.pq.2
  processed := hprocessed

theorem process_sameRings (h : InShape c.processedSize s.processed) (p : Packet) :
    Ends True (fun s' => SameRings s s' ∧ InShape c.processedSize s'.processed) (process s p) := by
  unfold process
  split
  · rename_i hroom
    have hroom' : s.processed.occupancy < c.processedSize := h.size_eq ▸ hroom
    have hne : ¬ (s.processed.occupancy ≠ 0 ∧ s.processed.head = s.processed.tail) := by
      rintro ⟨hocc, heq⟩
      have htail := h.wf.tail_eq
      have hh := h.wf.head_lt (by omega)
      have h0 : Ring.idx s.processed.size s.processed.head 0 =
          Ring.idx s.processed.size s.processed.head s.processed.occupancy := by
        rw [Ring.idx_zero hh, ← htail, heq]
      exact hocc (Ring.idx_inj (by omega) (by omega) h0).symm
    unfold PacketQueue.addQueue
    rw [if_neg hne]
    exact ⟨⟨⟨rfl, rfl⟩, ⟨rfl, rfl⟩, ⟨rfl, rfl⟩⟩, h.push hroom' p⟩
  · exact ⟨⟨⟨rfl, rfl⟩, ⟨rfl, rfl⟩, ⟨rfl, rfl⟩⟩, h⟩

/-- The slot that a new request takes is empty. -/
theorem Queued.enqueue (c : Config) (env : Env) {n size : Nat} {b : Bool} {q : PacketQueue}
    {l : List Packet} (h : Queued n size b q l) (hroom : q.occupancy < size)
    (hnew : ¬ HasKey (keyBy b) l p) :
    ∃ q', enqueue c env q p = some q' ∧ Queued n size b q' (l ++ [p]) := by
  have hempty : q.entry q.tail = Packet.empty n := h.wf.tail_empty (h.size_eq ▸ hroom)
  unfold Cache.enqueue
  rw [hempty, if_neg (not_not_intro (Packet.empty_address n))]
  exact ⟨_, rfl, h.push hroom hnew (.delayed p _) rfl rfl⟩

theorem addWq_rings (h : Rings c s a) (p : Packet) :
    Ends (Returns c a (.addWq env p)) (fun r => Rings c r.2 (a.step c (.addWq env p)))
      (addWq c env s p) := by
  unfold addWq Accepted.step
  cases hw : s.wq.checkQueue p with
  | some i =>
    have hhas : HasKey (wqKey c) a.wq p := h.wq.hasKey_of_checkQueue hw
    dsimp only
    rw [if_pos hhas]
    exact h.of_sameRings ⟨⟨rfl, rfl⟩, ⟨rfl, rfl⟩, ⟨rfl, rfl⟩⟩ h.processed
  | none =>
    have hno : ¬ HasKey (wqKey c) a.wq p := h.wq.checkQueue_none.mp hw
    dsimp only
    rw [if_neg hno]
    split
    · rename_i hfull
      rw [h.wq.size_eq, h.wq.occupancy] at hfull
      rintro (hhas | hroom)
      · exact hno hhas
      · omega
    · rename_i hroom
      rw [h.wq.size_eq] at hroom
      obtain ⟨q', hq', hqueued⟩ := h.wq.enqueue c env (Nat.not_le.mp hroom) hno
      rw [hq']
      exact ⟨h.rq, hqueued, h.pq, h.processed⟩

theorem addPq_rings (h : Rings c s a) (h0 : p.address ≠ 0) :
    Ends True (fun r => Rings c r.2 (a.step c (.addPq env p)) ∧ (r.1 = .full → SameRings s r.2))
      (addPq c env s p) := by
  unfold addPq Accepted.step
  cases hw : s.wq.checkQueue p with
  | some i =>
    have hhas : HasKey (wqKey c) a.wq p := h.wq.hasKey_of_checkQueue hw
    obtain ⟨calls, q, hforward⟩ := forwardFromWq_calls (c := c) s i p
    dsimp only
    rw [hforward, if_pos (.inl hhas)]
    exact ⟨h.of_sameRings ⟨⟨rfl, rfl⟩, ⟨rfl, rfl⟩, ⟨rfl, rfl⟩⟩ h.processed, fun hfull => by cases hfull⟩
  | none =>
    have hno : ¬ HasKey (wqKey c) a.wq p := h.wq.checkQueue_none.mp hw
    dsimp only
    cases hq : s.pq.checkQueue p with
    | some i =>
      have hhas : HasKey Packet.address a.pq p := h.pq.hasKey_of_checkQueue hq
      dsimp only
      rw [if_pos (.inr (.inl hhas))]
      refine ⟨⟨h.rq, h.wq, ?_, h.processed⟩, fun hfull => by cases hfull⟩
      exact (h.pq.merge hq fun _ hcarries => hcarries.mergePq p).of_ring rfl rfl
    | none =>
      have hno' : ¬ HasKey Packet.address a.pq p := h.pq.checkQueue_none.mp hq
      dsimp only
      by_cases hfull : s.pq.occupancy = c.pqSize
      · rw [if_pos hfull, if_pos (.inr (.inr (h.pq.occupancy ▸ hfull)))]
        exact ⟨h.of_sameRings ⟨⟨rfl, rfl⟩, ⟨rfl, rfl⟩, ⟨rfl, rfl⟩⟩ h.processed,
          fun _ => ⟨⟨rfl, rfl⟩, ⟨rfl, rfl⟩, ⟨rfl, rfl⟩⟩⟩
      · have hle := h.pq.wf.occ_le
        rw [h.pq.size_eq] at hle
        obtain ⟨q', hq', hqueued⟩ := h.pq.enqueue c env (by omega) hno'
        have hadded : ¬ (HasKey (wqKey c) a.wq p ∨ HasKey Packet.address a.pq p ∨
            a.pq.length = c.pqSize) := by
          rw [← h.pq.occupancy]
          exact not_or.mpr ⟨hno, not_or.mpr ⟨hno', hfull⟩⟩
        rw [if_neg hfull, hq', Option.bind_some, if_neg h0, if_neg hadded]
        exact ⟨⟨h.rq, h.wq, hqueued, h.processed⟩, fun hfull => by cases hfull⟩

theorem addRq_rings (h : Rings c s a) (h0 : p.address ≠ 0) :
    Ends (Returns c a (.addRq env p))
      (fun r => Rings c r.2 (a.step c (.addRq env p)) ∧ (r.1 = .full → SameRings s r.2))
      (addRq c env s p) := by
  unfold addRq Accepted.step
  cases hw : s.wq.checkQueue p with
  | some i =>
    have hhas : HasKey (wqKey c) a.wq p := h.wq.hasKey_of_checkQueue hw
    obtain ⟨calls, q, hforward⟩ := forwardFromWq_calls (c := c) s i p
    dsimp only
    rw [hforward, if_pos (.inl hhas)]
    dsimp only
    split
    · rename_i hlevel
      exact fun hreturns => hreturns hhas hlevel
    · rename_i hlevel
      have hprocessed : Ends True (fun s' => SameRings s s' ∧ InShape c.processedSize s'.processed)
          (if c.cacheType = .l1d ∧ q.type ≠ .prefetch then process { s with calls := calls } q
            else some { s with calls := calls }) := by
        split
        · refine (process_sameRings (s := { s with calls := calls }) h.processed q).mono fun s' hs' => ?_
          exact ⟨⟨hs'.1.rq, hs'.1.wq, hs'.1.pq⟩, hs'.2⟩
        · exact ⟨⟨⟨rfl, rfl⟩, ⟨rfl, rfl⟩, ⟨rfl, rfl⟩⟩, h.processed⟩
      obtain ⟨s', hs', hkeeps, hshape⟩ := hprocessed.exists trivial
      rw [hs']
      refine ⟨h.of_sameRings ⟨hkeeps.rq, hkeeps.wq, hkeeps.pq⟩ hshape, fun hfull => by cases hfull⟩
  | none =>
    have hno : ¬ HasKey (wqKey c) a.wq p := h.wq.checkQueue_none.mp hw
    dsimp only
    cases hq : s.rq.checkQueue p with
    | some i =>
      have hhas : HasKey Packet.address a.rq p := h.rq.hasKey_of_checkQueue hq
      dsimp only
      rw [if_pos (.inr (.inl hhas))]
      refine ⟨⟨?_, h.wq, h.pq, h.processed⟩, fun hfull => by cases hfull⟩
      exact (h.rq.merge hq fun _ hcarries => hcarries.mergeRq p).of_ring rfl rfl
    | none =>
      have hno' : ¬ HasKey Packet.address a.rq p := h.rq.checkQueue_none.mp hq
      dsimp only
      by_cases hfull : s.rq.occupancy = c.rqSize
      · rw [if_pos hfull, if_pos (.inr (.inr (h.rq.occupancy ▸ hfull)))]
        exact ⟨h.of_sameRings ⟨⟨rfl, rfl⟩, ⟨rfl, rfl⟩, ⟨rfl, rfl⟩⟩ h.processed,
          fun _ => ⟨⟨rfl, rfl⟩, ⟨rfl, rfl⟩, ⟨rfl, rfl⟩⟩⟩
      · have hle := h.rq.wf.occ_le
        rw [h.rq.size_eq] at hle
        obtain ⟨q', hq', hqueued⟩ := h.rq.enqueue c env (by omega) hno'
        have hadded : ¬ (HasKey (wqKey c) a.wq p ∨ HasKey Packet.address a.rq p ∨
            a.rq.length = c.rqSize) := by
          rw [← h.rq.occupancy]
          exact not_or.mpr ⟨hno, not_or.mpr ⟨hno', hfull⟩⟩
        rw [if_neg hfull, hq', Option.bind_some, if_neg h0, if_neg hadded]
        exact ⟨⟨hqueued, h.wq, h.pq, h.processed⟩, fun hfull => by cases hfull⟩

end Calls

/-! ## Runs -/

theorem rings_init (P : Policy c ρ) : Rings c (State.init P) .empty where
  rq := ⟨Ring.wf_init _ _ fun _ _ => rfl, rfl, rfl, .nil, .nil⟩
  wq := ⟨Ring.wf_init _ _ fun _ _ => rfl, rfl, rfl, .nil, .nil⟩
  pq := ⟨Ring.wf_init _ _ fun _ _ => rfl, rfl, rfl, .nil, .nil⟩
  processed := inShape_new _ _ _

theorem queueStep_rings {s : State ρ} {a : Accepted} (h : Rings c s a) {o : QueueOp}
    (ho : o.NonZero) :
    Ends (Returns c a o) (fun s' => Rings c s' (a.step c o)) (queueStep c s o) := by
  cases o with
  | addRq env p => exact (addRq_rings h ho).map fun _ hr => hr.1
  | addWq env p => exact (addWq_rings h p).map fun _ hr => hr
  | addPq env p => exact (addPq_rings h ho).map fun _ hr => hr.1
  | removeRq => exact h.rq.remove.map fun _ hq => ⟨hq, h.wq, h.pq, h.processed⟩
  | removeWq => exact h.wq.remove.map fun _ hq => ⟨h.rq, hq, h.pq, h.processed⟩
  | removePq => exact h.pq.remove.map fun _ hq => ⟨h.rq, h.wq, hq, h.processed⟩

theorem run_rings {ops : List QueueOp} :
    ∀ {s s' : State ρ} {a : Accepted}, Rings c s a → (∀ o ∈ ops, o.NonZero) →
      run (queueStep c) s ops = some s' → Rings c s' (ops.foldl (Accepted.step c) a) := by
  induction ops with
  | nil =>
    intro s s' a h _ hs
    cases hs
    exact h
  | cons o ops ih =>
    intro s s' a h hops hs
    obtain ⟨s₁, hs₁, hs⟩ := run_cons_inv hs
    have h₁ := (queueStep_rings h (hops o List.mem_cons_self)).of_eq hs₁
    exact ih h₁ (fun o ho => hops o (List.mem_cons_of_mem _ ho)) hs

/-- The ring of one queue, as the positions after its head. -/
structure SoundRing (n size : Nat) (key : Packet → Nat) (q : PacketQueue) (l : List Packet) :
    Prop where
  slots : q.size = size
  head : 0 < size → q.head < size
  tail : q.tail = (q.head + q.occupancy) % size
  occupancy : q.occupancy = l.length ∧ q.occupancy ≤ size
  entries : ∀ (k : Nat) (p : Packet), l[k]? = some p → Carries p (q.entry ((q.head + k) % size))
  empty : ∀ i < size, (∀ k < q.occupancy, i ≠ (q.head + k) % size) → q.entry i = Packet.empty n
  distinct : ∀ k < q.occupancy, ∀ j < k,
    key (q.entry ((q.head + j) % size)) ≠ key (q.entry ((q.head + k) % size))
  found : ∀ p i, q.checkQueue p = some i ↔ ∃ k < q.occupancy, i = (q.head + k) % size ∧
    key (q.entry i) = key p ∧ ∀ j < k, key (q.entry ((q.head + j) % size)) ≠ key p
  missing : ∀ p, q.checkQueue p = none ↔
    ∀ k < q.occupancy, key (q.entry ((q.head + k) % size)) ≠ key p

theorem Queued.sound {n size : Nat} {b : Bool} {q : PacketQueue} {l : List Packet}
    (h : Queued n size b q l) : SoundRing n size (keyBy b) q l := by
  obtain rfl := h.size_eq
  have hocc := h.wf.occ_le
  have hidx : ∀ k < q.occupancy, (q.head + k) % q.size = Ring.idx q.size q.head k := by
    intro k hk
    exact (Ring.idx_eq_mod (h.wf.head_lt (by omega)) (by omega)).symm
  refine ⟨rfl, h.wf.head_lt, ?_, ⟨h.occupancy, hocc⟩, ?_, ?_, ?_, ?_, ?_⟩
  · rw [h.wf.tail_eq]
    rcases Nat.eq_zero_or_pos q.size with hs | hs
    · rw [h.wf.head_zero hs, show q.occupancy = 0 by omega, hs]
      rfl
    · exact Ring.idx_eq_mod (h.wf.head_lt hs) hocc
  · intro k p hk
    have hlt : k < q.occupancy := by
      rw [h.occupancy]
      exact (List.getElem?_eq_some_iff.mp hk).1
    obtain ⟨x, hx, hcarries, -⟩ := h.entry hlt
    obtain rfl : p = x := Option.some.inj (hk.symm.trans hx)
    rw [hidx k hlt]
    exact hcarries
  · intro i hi hout
    refine h.wf.outside i hi ?_
    rintro ⟨k, hk, rfl⟩
    exact hout k hk (hidx k hk).symm
  · intro k hk j hj
    obtain ⟨x, hx, -, hkx⟩ := h.entry hk
    obtain ⟨y, hy, -, hky⟩ := h.entry (k := j) (by omega)
    obtain ⟨hkl, rfl⟩ := List.getElem?_eq_some_iff.mp hx
    obtain ⟨hjl, rfl⟩ := List.getElem?_eq_some_iff.mp hy
    rw [hidx k hk, hidx j (by omega), hkx, hky]
    exact List.pairwise_iff_getElem.mp h.distinct j k hjl hkl hj
  · intro p i
    rw [h.checkQueue_some]
    constructor
    · rintro ⟨k, hk, rfl, hkey, hbefore⟩
      refine ⟨k, hk, (hidx k hk).symm, hkey, fun j hj => ?_⟩
      rw [hidx j (by omega)]
      exact hbefore j hj
    · rintro ⟨k, hk, rfl, hkey, hbefore⟩
      refine ⟨k, hk, hidx k hk, hkey, fun j hj => ?_⟩
      rw [← hidx j (by omega)]
      exact hbefore j hj
  · intro p
    rw [h.checkQueue_none, h.hasKey_iff]
    constructor
    · intro hno k hk hkey
      rw [hidx k hk] at hkey
      exact hno ⟨k, hk, hkey⟩
    · rintro hno ⟨k, hk, hkey⟩
      rw [← hidx k hk] at hkey
      exact hno k hk hkey

structure QueuesSound (c : Config) (s : State ρ) (a : Accepted) : Prop where
  rq : SoundRing c.numCpus c.rqSize Packet.address s.rq a.rq
  wq : SoundRing c.numCpus c.wqSize (wqKey c) s.wq a.wq
  pq : SoundRing c.numCpus c.pqSize Packet.address s.pq a.pq
  returns : ∀ o : QueueOp, o.NonZero → Returns c a o → ∃ s', queueStep c s o = some s'
  rqRefused : ∀ env p s', p.address ≠ 0 → addRq c env s p = some (.full, s') → SameRings s s'
  pqRefused : ∀ env p s', p.address ≠ 0 → addPq c env s p = some (.full, s') → SameRings s s'

theorem queues_sound {P : Policy c ρ} {ops : List QueueOp} {s : State ρ}
    (hops : ∀ o ∈ ops, o.NonZero) (h : run (queueStep c) (State.init P) ops = some s) :
    QueuesSound c s (ops.foldl (Accepted.step c) .empty) := by
  have hrings := run_rings (rings_init P) hops h
  exact {
    rq := hrings.rq.sound
    wq := hrings.wq.sound
    pq := hrings.pq.sound
    returns := fun o ho hreturns => (((queueStep_rings hrings ho).exists hreturns).imp
      fun _ hs => hs.1)
    rqRefused := fun env p s' h0 hs => ((addRq_rings hrings h0).of_eq hs).2 rfl
    pqRefused := fun env p s' h0 hs => ((addPq_rings hrings h0).of_eq hs).2 rfl }

/-- A read that is merged, a write, and a read and a prefetch beside them. -/
def mixedOps : List QueueOp :=
  let request (a : Nat) : Packet := { Packet.empty 1 with cpu := 0, address := a }
  [.addRq (.quiet 5) (request 1), .addRq (.quiet 5) (request 1), .addWq (.quiet 5) (request 2),
    .addRq (.quiet 6) (request 2), .addPq (.quiet 6) (request 3), .removeRq]

theorem queues_sound_mixedOps :
    ∃ s, run (queueStep (l2c 1 0)) (State.init (lru (l2c 1 0))) mixedOps = some s ∧
      QueuesSound (l2c 1 0) s (mixedOps.foldl (Accepted.step (l2c 1 0)) .empty) := by
  have hrun : (run (queueStep (l2c 1 0)) (State.init (lru (l2c 1 0))) mixedOps).isSome = true := by
    decide
  obtain ⟨s, hs⟩ := Option.isSome_iff_exists.mp hrun
  refine ⟨s, hs, queues_sound (fun o ho => ?_) hs⟩
  simp only [mixedOps, List.mem_cons, List.not_mem_nil, or_false] at ho
  rcases ho with rfl | rfl | rfl | rfl | rfl | rfl
  · exact Nat.one_ne_zero
  · exact Nat.one_ne_zero
  · exact Nat.succ_ne_zero 1
  · exact Nat.succ_ne_zero 1
  · exact Nat.succ_ne_zero 2
  · trivial

end Cache
end ChampSim
