import ChampSim.O3.Lsq

/-!
# ChampSim.O3.Stations

Where the loads and stores stand on their way through the queues.

* `Station`     — free, tied to a store, ready for the DTLB, translating, known, fetching, done.
* `station_ask`, `station_answer`, `station_fetch`, `station_execute` — the moves.
* `Lanes a n g f` — the ready lists `f` of a queue of `n` slots hold what is ready and what is
  translated, each once.
-/

namespace ChampSim
namespace O3

open Lib ChampSim.Core

variable {μ : Type}

/-! ## The stations of an operand -/

/-- What tells where the operand in a slot stands. -/
structure Station where
  vacant : Bool
  /-- It waits for no store. -/
  alone : Bool
  translated : Progress
  fetched : Progress
deriving DecidableEq

namespace Station

def free : Station := ⟨true, true, .idle, .idle⟩

/-- A load that gets its data from a store. -/
def tied : Station := ⟨false, false, .inflight, .idle⟩

def ready : Station := ⟨false, true, .idle, .idle⟩

/-- The DTLB has been asked. -/
def translating : Station := ⟨false, true, .inflight, .idle⟩

/-- It has its translation. -/
def known : Station := ⟨false, true, .completed, .idle⟩

/-- The L1D has been asked. -/
def fetching : Station := ⟨false, true, .completed, .inflight⟩

/-- A store that has been executed. -/
def done : Station := ⟨false, true, .completed, .completed⟩

/-- The stations of a load. -/
def loads : List Station := [free, tied, ready, translating, known, fetching]

/-- The stations of a store. -/
def stores : List Station := [free, ready, translating, known, done]

end Station

def station (e : LsqEntry) : Station :=
  ⟨e.virtualAddress == 0, e.producerId == u64Max, e.translated, e.fetched⟩

def Cpu.load (s : Cpu μ) (l : Nat) : Station := station (s.lq.entry l)

def Cpu.store (s : Cpu μ) (k : Nat) : Station := station (s.sq.entry k)

section Stations

variable {e : LsqEntry}

theorem station_empty : station .empty = .free := rfl

theorem station_eq {x : Station} (h : station e = x) :
    (e.virtualAddress == 0) = x.vacant ∧ (e.producerId == u64Max) = x.alone ∧
      e.translated = x.translated ∧ e.fetched = x.fetched := by
  subst h
  exact ⟨rfl, rfl, rfl, rfl⟩

theorem address_of_station {x : Station} (h : station e = x) (hx : x.vacant = false) :
    e.virtualAddress ≠ 0 := by
  intro hzero
  have hvacant := (station_eq h).1
  rw [hx, hzero] at hvacant
  cases hvacant

theorem load_free (h : station e ∈ Station.loads) (hzero : e.virtualAddress = 0) :
    station e = .free := by
  have hall : ∀ x ∈ Station.loads, x.vacant = true → x = .free := by decide
  exact hall _ h (beq_iff_eq.mpr hzero)

theorem store_free (h : station e ∈ Station.stores) (hzero : e.virtualAddress = 0) :
    station e = .free := by
  have hall : ∀ x ∈ Station.stores, x.vacant = true → x = .free := by decide
  exact hall _ h (beq_iff_eq.mpr hzero)

/-- A load that names a producer waits for it. -/
theorem load_tied (h : station e ∈ Station.loads) (hid : e.producerId ≠ u64Max) :
    station e = .tied := by
  have hall : ∀ x ∈ Station.loads, x.alone = false → x = .tied := by decide
  exact hall _ h (beq_eq_false_iff_ne.mpr hid)

theorem store_done (h : station e ∈ Station.stores) (hf : e.fetched = .completed) :
    station e = .done := by
  have hall : ∀ x ∈ Station.stores, x.fetched = .completed → x = .done := by decide
  exact hall _ h hf

theorem station_ask (h : station e = .ready) :
    station { e with translated := .inflight } = .translating := by
  obtain ⟨hvacant, halone, -, hfetched⟩ := station_eq h
  unfold station
  rw [hvacant, halone, hfetched]
  rfl

theorem station_answer (h : station e = .translating) (pa cycle : Nat) :
    station (translateEntry pa cycle e) = .known := by
  obtain ⟨hvacant, halone, -, hfetched⟩ := station_eq h
  show (⟨e.virtualAddress == 0, e.producerId == u64Max, .completed, e.fetched⟩ : Station) = _
  rw [hvacant, halone, hfetched]
  rfl

theorem station_fetch (h : station e = .known) :
    station { e with fetched := .inflight } = .fetching := by
  obtain ⟨hvacant, halone, htranslated, -⟩ := station_eq h
  unfold station
  rw [hvacant, halone, htranslated]
  rfl

theorem station_execute (h : station e = .known) (cycle : Nat) :
    station { e with fetched := .completed, eventCycle := cycle } = .done := by
  obtain ⟨hvacant, halone, htranslated, -⟩ := station_eq h
  unfold station
  rw [hvacant, halone, htranslated]
  rfl

theorem load_update {s s' : Cpu μ} {l : Nat} {e : LsqEntry}
    (h : s'.lq.entry = Function.update s.lq.entry l e) :
    s'.load = Function.update s.load l (station e) := by
  show station ∘ s'.lq.entry = _
  rw [h]
  exact Function.comp_update station s.lq.entry l e

theorem store_update {s s' : Cpu μ} {k : Nat} {e : LsqEntry}
    (h : s'.sq.entry = Function.update s.sq.entry k e) :
    s'.store = Function.update s.store k (station e) := by
  show station ∘ s'.sq.entry = _
  rw [h]
  exact Function.comp_update station s.sq.entry k e

end Stations

/-! ## The ready lists of a queue -/

/-- The stations of a queue of `n` slots are among `a`; the first list holds what may ask the DTLB,
the second what has its translation. -/
structure Lanes (a : List Station) (n : Nat) (g : Nat → Station) (f : Half → Feed) : Prop where
  valid : ∀ i, g i ∈ a
  inside : ∀ i, g i ≠ .free → i < n
  zero : (f .zero).Selects n g .ready
  one : (f .one).Selects n g .known

namespace Lanes

variable {a : List Station} {n i : Nat} {g g' : Nat → Station} {f : Half → Feed} {x : Station}

theorem new (hn : 0 < n) (ha : .free ∈ a) : Lanes a n (fun _ => .free) fun _ => .new n n :=
  ⟨fun _ => ha, fun _ h => absurd rfl h, .new hn fun _ => by decide, .new hn fun _ => by decide⟩

theorem valid_update (h : Lanes a n g f) (hx : x ∈ a) (k : Nat) : Function.update g i x k ∈ a := by
  by_cases hk : k = i
  · subst hk
    rwa [Function.update_self]
  · rw [Function.update_of_ne hk]
    exact h.valid k

theorem inside_update (h : Lanes a n g f) (hi : i < n) (k : Nat)
    (hk : Function.update g i x k ≠ .free) : k < n := by
  by_cases hki : k = i
  · exact hki ▸ hi
  · rw [Function.update_of_ne hki] at hk
    exact h.inside k hk

/-- Operands leave, which neither list holds. -/
theorem clear (h : Lanes a n g f) (ha : .free ∈ a)
    (hg : ∀ k, g' k = g k ∨ g k = .done ∧ g' k = .free) : Lanes a n g' f where
  valid := by
    intro k
    rcases hg k with heq | ⟨-, heq⟩
    · rw [heq]
      exact h.valid k
    · rwa [heq]
  inside := by
    intro k hk
    rcases hg k with heq | ⟨-, heq⟩
    · exact h.inside k (heq ▸ hk)
    · exact absurd heq hk
  zero := h.zero.congr fun k => by
    rcases hg k with heq | ⟨hold, hnew⟩
    · rw [heq]
    · rw [hold, hnew]
      decide
  one := h.one.congr fun k => by
    rcases hg k with heq | ⟨hold, hnew⟩
    · rw [heq]
    · rw [hold, hnew]
      decide

/-- An operand moves that neither list holds, to where none does. -/
theorem other (h : Lanes a n g f) (hx : x ∈ a) (hi : i < n) (hold : g i ≠ .ready ∧ g i ≠ .known)
    (hnew : x ≠ .ready ∧ x ≠ .known) : Lanes a n (Function.update g i x) f :=
  ⟨h.valid_update hx, h.inside_update hi, h.zero.other hold.1 hnew.1, h.one.other hold.2 hnew.2⟩

theorem enter (h : Lanes a n g f) (hx : .ready ∈ a) (hi : i < n) (hold : g i = .free) :
    Lanes a n (Function.update g i .ready) (Function.update f .zero ((f .zero).push i)) where
  valid := h.valid_update hx
  inside := h.inside_update hi
  zero := by
    rw [Function.update_self]
    exact h.zero.push hi (by rw [hold]; decide)
  one := by
    rw [Function.update_of_ne (by decide)]
    exact h.one.other (by rw [hold]; decide) (by decide)

theorem ask (h : Lanes a n g f) (hx : .translating ∈ a) (hi : (f .zero).front < n) :
    Lanes a n (Function.update g (f .zero).front .translating)
      (Function.update f .zero (f .zero).pop) where
  valid := h.valid_update hx
  inside := h.inside_update hi
  zero := by
    rw [Function.update_self]
    exact h.zero.pop hi (by decide)
  one := by
    rw [Function.update_of_ne (by decide)]
    exact h.one.other (by rw [h.zero.front hi]; decide) (by decide)

theorem answer (h : Lanes a n g f) (hx : .known ∈ a) (hold : g i = .translating) :
    Lanes a n (Function.update g i .known) (Function.update f .one ((f .one).push i)) where
  valid := h.valid_update hx
  inside := h.inside_update (h.inside i (by rw [hold]; decide))
  zero := by
    rw [Function.update_of_ne (by decide)]
    exact h.zero.other (by rw [hold]; decide) (by decide)
  one := by
    rw [Function.update_self]
    exact h.one.push (h.inside i (by rw [hold]; decide)) (by rw [hold]; decide)

/-- A translated operand is fetched, or executed. -/
theorem use (h : Lanes a n g f) (hx : x ∈ a) (hi : (f .one).front < n)
    (hnew : x ≠ .ready ∧ x ≠ .known) :
    Lanes a n (Function.update g (f .one).front x) (Function.update f .one (f .one).pop) where
  valid := h.valid_update hx
  inside := h.inside_update hi
  zero := by
    rw [Function.update_of_ne (by decide)]
    exact h.zero.other (by rw [h.one.front hi]; decide) hnew.1
  one := by
    rw [Function.update_self]
    exact h.one.pop hi hnew.2

end Lanes

end O3
end ChampSim
