import ChampSim.Cache.Handlers
import Mathlib.Logic.Relation

/-!
# ChampSim.Cache.Abstract

What a cache does, one change at a time.

* `View`      — lines, outstanding misses and the queues as lists, without cursors, recency and
  statistics.
* `Step`      — the changes that the handlers make, each with what the handler has checked.
* `Rules`     — extra conditions on invalidations and on the three changes of `handle_writeback` that
  can go wrong.
* `CallbackStep` — the changes that a prefetcher can make while a handler runs it.

`ChampSim.Cache.Refine` shows that every handler is a sequence of these steps.
-/

namespace ChampSim
namespace Cache

structure Line where
  valid : Bool
  dirty : Bool
  tag : Nat
  address : Nat
deriving DecidableEq

structure View where
  line : Nat → Nat → Line
  mshr : Nat → Option Packet
  rq : List Packet
  wq : List Packet
  pq : List Packet
  processed : List Packet
  /-- The addresses of the write-backs sent to the lower level. -/
  sent : List Nat
  dropped : List Packet

/-- `q` is `p` up to the fields that only travel with a request: data, translations, metadata,
cycles and the returned mark. -/
def SameRequest (p q : Packet) : Prop :=
  ∃ data instructionPa dataPa pfMetadata eventCycle cycleEnqueued returned,
    q = { p with
      data := data
      instructionPa := instructionPa
      dataPa := dataPa
      pfMetadata := pfMetadata
      eventCycle := eventCycle
      cycleEnqueued := cycleEnqueued
      returned := returned }

theorem SameRequest.refl (p : Packet) : SameRequest p p := ⟨_, _, _, _, _, _, _, rfl⟩

theorem SameRequest.trans {p q r : Packet} (h : SameRequest p q) (h' : SameRequest q r) :
    SameRequest p r := by
  obtain ⟨_, _, _, _, _, _, _, rfl⟩ := h
  obtain ⟨_, _, _, _, _, _, _, rfl⟩ := h'
  exact ⟨_, _, _, _, _, _, _, rfl⟩

theorem SameRequest.address {p q : Packet} (h : SameRequest p q) : q.address = p.address := by
  obtain ⟨_, _, _, _, _, _, _, rfl⟩ := h
  rfl

theorem SameRequest.type {p q : Packet} (h : SameRequest p q) : q.type = p.type := by
  obtain ⟨_, _, _, _, _, _, _, rfl⟩ := h
  rfl

theorem SameRequest.cpu {p q : Packet} (h : SameRequest p q) : q.cpu = p.cpu := by
  obtain ⟨_, _, _, _, _, _, _, rfl⟩ := h
  rfl

namespace View

variable (c : Config) (v : View)

def Hit (address way : Nat) : Prop :=
  way < c.numWay ∧ (v.line (c.getSet address) way).valid = true ∧
    (v.line (c.getSet address) way).tag = address

def Miss (address : Nat) : Prop := ∀ way, ¬ v.Hit c address way

/-- No miss of `address` is outstanding. -/
def Fresh (address : Nat) : Prop := ∀ i e, v.mshr i = some e → e.address ≠ address

def setLine (set way : Nat) (l : Line) : View :=
  { v with line := Function.update v.line set (Function.update (v.line set) way l) }

def setMshr (i : Nat) (e : Option Packet) : View := { v with mshr := Function.update v.mshr i e }

/-- The requests of this kind of cache that the core waits for. -/
def ToCore (p : Packet) : Prop :=
  c.cacheType = .itlb ∨ c.cacheType = .dtlb ∨ c.cacheType = .l1i ∨
    c.cacheType = .l1d ∧ p.type ≠ .prefetch

instance (p : Packet) : Decidable (ToCore c p) := inferInstanceAs (Decidable (_ ∨ _ ∨ _ ∨ _ ∧ _))

/-- `room` tells whether `PROCESSED` has room. -/
def deliver (room : Bool) (p : Packet) : View :=
  if ToCore c p then
    if room then { v with processed := v.processed ++ [p] }
    else { v with dropped := v.dropped ++ [p] }
  else v

/-- The line is written with `p`; a dirty one that was there goes to the lower level. -/
def replace (set way : Nat) (dirty : Bool) (p : Packet) : View :=
  let l := v.line set way
  { v.setLine set way ⟨true, dirty, p.address, p.address⟩ with
    sent := if l.dirty && c.hasLower then v.sent ++ [l.address] else v.sent }

end View

structure Rules where
  /-- Lines of swapped pages are invalidated. -/
  invalidate : Prop
  /-- A write-back that misses is installed while these misses are outstanding. -/
  install : (Nat → Option Packet) → Packet → Prop
  /-- A store merges into an MSHR entry. -/
  mergeStore : Packet → Packet → Prop
  /-- A store of address 0 leaves the `WQ`. -/
  loseStore : Prop

def Rules.any : Rules := ⟨True, fun _ _ => True, fun _ _ => True, True⟩

/-- `I` tells whether lines can be invalidated. -/
inductive CallbackStep (I : Prop) : View → View → Prop
  | invalidated (v : View) (set way : Nat) (hI : I) :
    CallbackStep I v (v.setLine set way { v.line set way with valid := false })
  | added (v : View) (p : Packet) (hp : p.type = .prefetch) :
    CallbackStep I v { v with pq := v.pq ++ [p] }
  | merged (v : View) (k : Nat) (e p : Packet) (he : v.pq[k]? = some e) :
    CallbackStep I v { v with pq := v.pq.set k (mergePq p e) }

inductive Step (c : Config) (R : Rules) : View → View → Prop
  | callback {v v' : View} (h : CallbackStep R.invalidate v v') : Step c R v v'
  | answered (v : View) {i : Nat} {e q : Packet} (he : v.mshr i = some e)
    (hq : SameRequest e q) : Step c R v (v.setMshr i (some q))
  | filled (v : View) {i way : Nat} {e q : Packet} (room : Bool) (he : v.mshr i = some e)
    (hq : SameRequest e q) (hway : way < c.numWay) :
    Step c R v (((v.replace c (c.getSet e.address) way
      (c.cacheType == .l1d && e.type == .rfo) e).setMshr i none).deliver c room q)
  | bypassed (v : View) {i : Nat} {e : Packet} (he : v.mshr i = some e)
    (hc : c.cacheType = .llc) : Step c R v (v.setMshr i none)
  | writeHit (v : View) {p : Packet} {rest : List Packet} {way : Nat} (hp : v.wq = p :: rest)
    (hhit : v.Hit c p.address way) :
    Step c R v { v.setLine (c.getSet p.address) way
      { v.line (c.getSet p.address) way with dirty := true } with wq := rest }
  | storeAllocated (v : View) {p q : Packet} {rest : List Packet} {i : Nat}
    (hp : v.wq = p :: rest) (hq : SameRequest p q) (hc : c.cacheType = .l1d)
    (hmiss : v.Miss c p.address) (hfresh : v.Fresh p.address) (hfree : v.mshr i = none)
    (h0 : p.address ≠ 0) (hi : i < c.mshrSize) :
    Step c R v { v.setMshr i (some q) with wq := rest }
  | storeMerged (v : View) {p e : Packet} {rest : List Packet} {i : Nat} (hp : v.wq = p :: rest)
    (hc : c.cacheType = .l1d) (he : v.mshr i = some e) (ha : e.address = p.address)
    (hR : R.mergeStore p e) : Step c R v { v.setMshr i (some (mergeWriteback p e)) with wq := rest }
  | storeLost (v : View) {p : Packet} {rest : List Packet} (hp : v.wq = p :: rest)
    (hc : c.cacheType = .l1d) (h0 : p.address = 0) (hR : R.loseStore) :
    Step c R v { v with wq := rest }
  | installed (v : View) {p : Packet} {rest : List Packet} {way : Nat} (hp : v.wq = p :: rest)
    (hc : c.cacheType ≠ .l1d) (hmiss : v.Miss c p.address) (hway : way < c.numWay)
    (hR : R.install v.mshr p) :
    Step c R v { v.replace c (c.getSet p.address) way true p with wq := rest }
  | readHit (v : View) {p q : Packet} {rest : List Packet} (room : Bool) (hp : v.rq = p :: rest)
    (hq : SameRequest p q) : Step c R v ({ v with rq := rest }.deliver c room q)
  | readAllocated (v : View) {p q : Packet} {rest : List Packet} {i : Nat} (hp : v.rq = p :: rest)
    (hq : SameRequest p q) (hmiss : v.Miss c p.address) (hfresh : v.Fresh p.address)
    (hfree : v.mshr i = none) (h0 : p.address ≠ 0) (hi : i < c.mshrSize) :
    Step c R v { v.setMshr i (some q) with rq := rest }
  | readMerged (v : View) {p e : Packet} {rest : List Packet} {i : Nat} (hp : v.rq = p :: rest)
    (he : v.mshr i = some e) (ha : e.address = p.address) :
    Step c R v { v.setMshr i (some (mergeRead p e)) with rq := rest }
  | prefetchAllocated (v : View) {p q : Packet} {i : Nat} (hp : p ∈ v.pq) (hq : SameRequest p q)
    (hmiss : v.Miss c p.address) (hfresh : v.Fresh p.address) (hfree : v.mshr i = none)
    (h0 : p.address ≠ 0) (hi : i < c.mshrSize) : Step c R v (v.setMshr i (some q))
  | prefetchMerged (v : View) {p e : Packet} {i : Nat} (hp : p ∈ v.pq) (he : v.mshr i = some e)
    (ha : e.address = p.address) : Step c R v (v.setMshr i (some (mergePrefetch p e)))
  | prefetchDone (v : View) {p : Packet} {rest : List Packet} (hp : v.pq = p :: rest) :
    Step c R v { v with pq := rest }

/-- A sequence of steps. -/
def Steps (c : Config) (R : Rules) : View → View → Prop := Relation.ReflTransGen (Step c R)

def CallbackSteps (I : Prop) : View → View → Prop := Relation.ReflTransGen (CallbackStep I)

theorem CallbackSteps.steps {c : Config} {R : Rules} {v v' : View}
    (h : CallbackSteps R.invalidate v v') : Steps c R v v' :=
  h.lift id fun _ _ hs => .callback hs

/-- What a prefetcher cannot change. -/
structure Undisturbed (v v' : View) : Prop where
  mshr : v'.mshr = v.mshr
  rq : v'.rq = v.rq
  wq : v'.wq = v.wq
  processed : v'.processed = v.processed
  sent : v'.sent = v.sent
  dropped : v'.dropped = v.dropped
  valid : ∀ set way, (v'.line set way).valid = true → (v.line set way).valid = true
  dirty : ∀ set way, (v'.line set way).dirty = (v.line set way).dirty
  tag : ∀ set way, (v'.line set way).tag = (v.line set way).tag
  address : ∀ set way, (v'.line set way).address = (v.line set way).address

theorem Undisturbed.refl (v : View) : Undisturbed v v :=
  ⟨rfl, rfl, rfl, rfl, rfl, rfl, fun _ _ h => h, fun _ _ => rfl, fun _ _ => rfl, fun _ _ => rfl⟩

theorem Undisturbed.trans {v v' v'' : View} (h : Undisturbed v v') (h' : Undisturbed v' v'') :
    Undisturbed v v'' where
  mshr := h'.mshr.trans h.mshr
  rq := h'.rq.trans h.rq
  wq := h'.wq.trans h.wq
  processed := h'.processed.trans h.processed
  sent := h'.sent.trans h.sent
  dropped := h'.dropped.trans h.dropped
  valid := fun set way hv => h.valid set way (h'.valid set way hv)
  dirty := fun set way => (h'.dirty set way).trans (h.dirty set way)
  tag := fun set way => (h'.tag set way).trans (h.tag set way)
  address := fun set way => (h'.address set way).trans (h.address set way)

/-- Reading a line after one has been rewritten. -/
theorem setLine_line (v : View) (set way s w : Nat) (l : Line) :
    (v.setLine set way l).line s w = if s = set ∧ w = way then l else v.line s w := by
  by_cases hs : s = set
  · subst hs
    by_cases hw : w = way
    · simp [View.setLine, hw]
    · simp [View.setLine, hw]
  · simp [View.setLine, hs]

theorem CallbackStep.undisturbed {I : Prop} {v v' : View} (h : CallbackStep I v v') :
    Undisturbed v v' := by
  cases h with
  | invalidated set way hI =>
    refine ⟨rfl, rfl, rfl, rfl, rfl, rfl, ?_, ?_, ?_, ?_⟩ <;> intro s w <;>
      rw [setLine_line] <;> split <;> simp_all
  | added p hp =>
    exact ⟨rfl, rfl, rfl, rfl, rfl, rfl, fun _ _ h => h, fun _ _ => rfl, fun _ _ => rfl,
      fun _ _ => rfl⟩
  | merged k e p he =>
    exact ⟨rfl, rfl, rfl, rfl, rfl, rfl, fun _ _ h => h, fun _ _ => rfl, fun _ _ => rfl,
      fun _ _ => rfl⟩

theorem CallbackSteps.undisturbed {I : Prop} {v v' : View} (h : CallbackSteps I v v') :
    Undisturbed v v' := by
  induction h with
  | refl => exact Undisturbed.refl _
  | tail _ hs ih => exact ih.trans hs.undisturbed

theorem Undisturbed.miss {c : Config} {v v' : View} (h : Undisturbed v v') {address : Nat}
    (hm : v.Miss c address) : v'.Miss c address := by
  rintro way ⟨hw, hv, ht⟩
  exact hm way ⟨hw, h.valid _ _ hv, by rw [← h.tag]; exact ht⟩

theorem Undisturbed.fresh {v v' : View} (h : Undisturbed v v') {address : Nat}
    (hf : v.Fresh address) : v'.Fresh address := by
  intro i e he
  rw [h.mshr] at he
  exact hf i e he

end Cache
end ChampSim
