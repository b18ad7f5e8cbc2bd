import ChampSim.Cache.Arrive
import ChampSim.Cache.Levels
import ChampSim.Kpcp.Operate
import ChampSim.Prefetch.Sisb
import ChampSim.Prefetch.Stride

/-!
# ChampSim.Prefetch.Levels

What the prefetchers ask of the cache that they belong to, in any state and for any access.

* `Stride.operate_proper`, `Kpcp.operate_proper` — the prefetchers of the L2C.
* `Sisb.operate_proper` — the one of the LLC.
-/

namespace ChampSim

open Cache

namespace Prefetch

/-- A prefetch into the L2C or the LLC, asked of the L2C. -/
theorem proper_l2c {numCpus cpu ip addr pf metadata : Nat} {level : Int}
    (h : level = fillL2 ∨ level = fillLlc) :
    (Callback.prefetchLine ip addr pf level metadata).Proper (l2c numCpus cpu) := by
  rcases h with rfl | rfl
  · exact ⟨.inr (.inl rfl), le_rfl, .inr (.inl rfl)⟩
  · exact ⟨.inr (.inl rfl), (by decide : fillL2 ≤ fillLlc), .inr (.inr rfl)⟩

namespace Stride

variable {numCpus cpu : Nat} {a : Access} {t t' : Trackers} {rs : List Callback}

theorem Access.fillLevel_or (a : Access) : a.fillLevel = fillL2 ∨ a.fillLevel = fillLlc := by
  unfold Access.fillLevel
  split
  · exact .inl rfl
  · exact .inr rfl

theorem requests_proper (a : Access) (stride : Int) :
    ∀ k ∈ requests a stride, k.Proper (l2c numCpus cpu) := by
  intro k hk
  obtain ⟨pf, -, rfl⟩ := List.mem_map.mp hk
  exact proper_l2c a.fillLevel_or

theorem operate_proper (h : operate a t = some (t', rs)) :
    ∀ k ∈ rs, k.Proper (l2c numCpus cpu) := by
  unfold operate at h
  split at h
  · obtain ⟨index, -, heq⟩ := Option.map_eq_some_iff.mp h
    cases heq
    exact fun k hk => absurd hk List.not_mem_nil
  · dsimp only at h
    split at h
    · cases h
      exact fun k hk => absurd hk List.not_mem_nil
    · cases h
      split
      · exact requests_proper a _
      · exact fun k hk => absurd hk List.not_mem_nil

end Stride

namespace Sisb

theorem operate_proper {numCpus : Nat} (a : Access) (s : Tables) :
    ∀ k ∈ (llcPrefetcherOperate a s).2, k.Proper (llc numCpus) := by
  intro k hk
  unfold llcPrefetcherOperate at hk
  split at hk
  · exact absurd hk List.not_mem_nil
  · obtain ⟨pf, -, rfl⟩ := List.mem_map.mp hk
    exact ⟨.inr (.inr rfl), le_rfl, .inr (.inr rfl)⟩

end Sisb

end Prefetch

namespace Kpcp

variable {numCpus cpu core addr ip way fuel : Nat} {room : Nat → Bool} {c : PfBuffer}
  {x y : Issue} {s s' : Prefetcher} {rs : List Callback}

theorem Issue.count_requests (x : Issue) : x.count.requests = x.requests := by
  unfold Issue.count
  split
  · rfl
  · rfl

/-- A candidate is one request at most. -/
theorem Issue.candidate_requests (addr ip : Nat) (room : Nat → Bool) (c : PfBuffer) (x : Issue) :
    (x.candidate addr ip room c).requests = x.requests ∨
      ∃ pf level, (level = fillL2 ∨ level = fillLlc) ∧
        (x.candidate addr ip room c).requests =
          x.requests ++ [.prefetchLine ip addr pf level 0] := by
  unfold Issue.candidate
  dsimp only
  split
  · exact .inl rfl
  · split
    · refine .inr ⟨Prefetch.pfAddress (addr / 2 ^ 6) c.delta, fillL2, .inl rfl, ?_⟩
      split
      · rw [Issue.count_requests]
      · rfl
    · split
      · refine .inr ⟨Prefetch.pfAddress (addr / 2 ^ 6) c.delta, fillLlc, .inr rfl, ?_⟩
        split
        · rfl
        · rfl
      · exact .inl rfl

theorem Issue.candidate_proper (h : ∀ k ∈ x.requests, k.Proper (l2c numCpus core)) :
    ∀ k ∈ (x.candidate addr ip room c).requests, k.Proper (l2c numCpus core) := by
  rcases x.candidate_requests addr ip room c with heq | ⟨pf, level, hlevel, heq⟩
  · rw [heq]
    exact h
  · rw [heq]
    intro k hk
    rcases List.mem_append.mp hk with hk | hk
    · exact h k hk
    · obtain rfl := List.mem_singleton.mp hk
      exact Prefetch.proper_l2c hlevel

theorem issueAll_proper {pf : PfState} (h : ∀ k ∈ x.requests, k.Proper (l2c numCpus core))
    (hissue : issueAll addr ip room pf x = some y) :
    ∀ k ∈ y.requests, k.Proper (l2c numCpus core) := by
  unfold issueAll at hissue
  split at hissue
  · cases hissue
    generalize List.range pf.numPf = is
    induction is generalizing x with
    | nil => exact h
    | cons i is ih => exact ih (Issue.candidate_proper h)
  · cases hissue

theorem request_proper (h : request fuel cpu addr ip way room s = some (s', rs)) :
    ∀ k ∈ rs, k.Proper (l2c numCpus core) := by
  obtain ⟨-, -, h⟩ := Option.bind_eq_some_iff.mp h
  obtain ⟨pf, -, h⟩ := Option.bind_eq_some_iff.mp h
  obtain ⟨x, hx, heq⟩ := Option.map_eq_some_iff.mp h
  cases heq
  exact issueAll_proper (fun k hk => absurd hk List.not_mem_nil) hx

theorem operate_proper (h : operate fuel cpu addr ip room s = some (s', rs)) :
    ∀ k ∈ rs, k.Proper (l2c numCpus core) := by
  obtain ⟨r, -, h⟩ := Option.bind_eq_some_iff.mp h
  obtain ⟨way, -, h⟩ := Option.bind_eq_some_iff.mp h
  exact request_proper h

end Kpcp
end ChampSim
