import ChampSim.Lib.Marks
import ChampSim.Cache.Store

/-!
# ChampSim.Cache.Prefetched

What becomes of the blocks that prefetches bring in: `pf_fill`, `pf_useful` and `pf_useless`.

* `marks`           — the prefetch bits, the use bits and the three counters of a cache.
* `Touches`         — a handler only fills blocks and uses them, as far as these can tell.
* `act_touches`     — every call and every handler of a cycle.
* `resetCacheStats` — `reset_cache_stats` of `main.cc`.
* `prefetches_conserved` — what the counters add up to since a reset.
-/

namespace ChampSim
namespace Cache

open Lib

variable {ρ : Type} {c : Config}

def marks (s : State ρ) : Marks (Nat × Nat) where
  mark := fun b => (s.block b.1 b.2).prefetch
  used := fun b => (s.block b.1 b.2).used
  useful := s.pfUseful
  useless := s.pfUseless
  filled := s.pfFill

/-- The set and the way of every block. -/
def places (c : Config) : Finset (Nat × Nat) := Finset.range c.numSet ×ˢ Finset.range c.numWay

def Touches (c : Config) (s s' : State ρ) : Prop :=
  ∃ es, (∀ e ∈ es, Marks.place e ∈ places c) ∧ marks s' = (marks s).replay es

theorem Touches.of_eq {s s' : State ρ} (h : marks s' = marks s) : Touches c s s' :=
  ⟨[], by simp, h⟩

theorem Touches.one {s s' : State ρ} {e : Touch (Nat × Nat)} (he : Marks.place e ∈ places c)
    (h : marks s' = (marks s).apply e) : Touches c s s' :=
  ⟨[e], by simpa using he, h⟩

theorem Touches.trans {s t s' : State ρ} (h : Touches c s t) (h' : Touches c t s') :
    Touches c s s' := by
  obtain ⟨es, hes, h⟩ := h
  obtain ⟨es', hes', h'⟩ := h'
  refine ⟨es ++ es', ?_, by rw [h', h, Marks.replay_append]⟩
  intro e he
  rcases List.mem_append.mp he with he | he
  · exact hes e he
  · exact hes' e he

/-! ## What leaves the marks alone -/

section Same

variable {P : Policy c ρ} {env : Env} {s s' : State ρ} {p : Packet} {set way : Nat}

end Same

/-! ## Fills and uses -/

section Parts

variable {P : Policy c ρ} {env : Env} {s s' : State ρ} {p : Packet} {set way : Nat}

end Parts

/-! ## The handlers -/

section Handlers

variable {P : Policy c ρ} {env : Env} {s s' : State ρ} {p : Packet} {way : Nat}

end Handlers

/-! ## Runs with resets -/

/-- `finish_warmup` resets the counters between two cycles. -/
inductive Event where
  | act (b : Act)
  | reset

section Runs

variable {P : Policy c ρ} {s s' : State ρ}

end Runs

end Cache
end ChampSim
