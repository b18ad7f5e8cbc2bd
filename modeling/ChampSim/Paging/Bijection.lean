import ChampSim.Paging.Model
import ChampSim.Lib.Inverse
import ChampSim.Lib.Run

/-!
# ChampSim.Paging.Bijection

The page tables stay a bijection.

* `Bijection`   — the two maps are inverses, `allocatedPages` counts their keys and stays within the
  memory, and `numAdjacentPage` has not wrapped.
* `fault_cases` — a page fault does nothing, swaps, or allocates an unused page.
* `victim`      — the key that a call takes its page from.
* `run_bijection` — every run keeps the bijection; a key loses its page only as a victim.
-/

namespace ChampSim
namespace Paging

open Lib

variable {c : Config} {s s' : State}

structure Bijection (c : Config) (s : State) : Prop where
  inverse : Inverse s.pageTable s.inverseTable
  injective : ∀ v v' p, s.pageTable.lookup v = some p → s.pageTable.lookup v' = some p → v = v'
  pageCount : s.pageTable.keys.card = s.allocatedPages
  inverseCount : s.inverseTable.keys.card = s.allocatedPages
  allocated_le : s.allocatedPages ≤ c.dramPages
  adjacent_le : s.numAdjacentPage ≤ 512

theorem Bijection.of (hinv : Inverse s.pageTable s.inverseTable)
    (hcard : s.pageTable.keys.card = s.allocatedPages) (hle : s.allocatedPages ≤ c.dramPages)
    (hadj : s.numAdjacentPage ≤ 512) : Bijection c s where
  inverse := hinv
  injective := fun _ _ _ hv hv' => hinv.injective hv hv'
  pageCount := hcard
  inverseCount := by rw [← hinv.card_eq, hcard]
  allocated_le := hle
  adjacent_le := hadj

/-! ## What a page fault does -/

/-- The search ends at an unused page; without adjacent pages the run counts as broken. -/
theorem findFree_spec {draws : List Nat} {ppage : Nat} {fragmented : Bool} {r : Nat × Bool}
    (h : findFree s draws ppage fragmented = some r) :
    s.inverseTable.lookup r.1 = none ∧ (fragmented = true → r.2 = true) := by
  induction draws generalizing ppage fragmented with
  | nil =>
    unfold findFree at h
    split at h
    · cases h
      exact ⟨Option.isNone_iff_eq_none.mp ‹_›, id⟩
    · cases h
  | cons d draws ih =>
    unfold findFree at h
    split at h
    · cases h
      exact ⟨Option.isNone_iff_eq_none.mp ‹_›, id⟩
    · obtain ⟨hfree, hfrag⟩ := ih h
      exact ⟨hfree, fun hf => hfrag (by rw [hf]; rfl)⟩

theorem allocate_spec {vpage rand : Nat} {draws : List Nat}
    (h : allocate s vpage draws rand = some s') :
    ∃ ppage fragmented, s.inverseTable.lookup ppage = none ∧
      (s.numAdjacentPage = 0 → fragmented = true) ∧
        s' = insertPage s vpage ppage fragmented rand := by
  obtain ⟨⟨first, rest⟩, -, h⟩ := Option.bind_eq_some_iff.mp h
  obtain ⟨⟨ppage, fragmented⟩, hfree, rfl⟩ := Option.map_eq_some_iff.mp h
  obtain ⟨hunused, hfrag⟩ := findFree_spec hfree
  exact ⟨ppage, fragmented, hunused, fun h0 => hfrag (by simp [h0]), rfl⟩

theorem swap_spec {vpage : Nat} (h : swap s vpage = some s') :
    ∃ nru ppage, nruVpage s = some nru ∧ s.pageTable.lookup nru = some ppage ∧
      s' = reassign s nru vpage ppage := by
  obtain ⟨nru, hnru, h⟩ := Option.bind_eq_some_iff.mp h
  obtain ⟨ppage, hppage, h⟩ := Option.bind_eq_some_iff.mp h
  split at h
  · cases h
  · cases h
    exact ⟨nru, ppage, hnru, hppage, rfl⟩

theorem fault_cases {vpage rand : Nat} {draws : List Nat}
    (h : fault c s vpage draws rand = some s') :
    (s.pageTable.lookup vpage ≠ none ∧ s' = s) ∨
    (Swaps c s vpage ∧ ∃ nru ppage, nruVpage s = some nru ∧ s.pageTable.lookup nru = some ppage ∧
      s' = reassign s nru vpage ppage) ∨
    (s.pageTable.lookup vpage = none ∧ s.allocatedPages < c.dramPages ∧
      ∃ ppage fragmented, s.inverseTable.lookup ppage = none ∧
        (s.numAdjacentPage = 0 → fragmented = true) ∧
          s' = insertPage s vpage ppage fragmented rand) := by
  unfold fault at h
  split at h
  · rename_i hsome
    cases h
    exact .inl ⟨Option.isSome_iff_ne_none.mp hsome, rfl⟩
  · rename_i hnone
    have hlookup : s.pageTable.lookup vpage = none := by simpa using hnone
    split at h
    · rename_i hfull
      exact .inr (.inl ⟨⟨hlookup, hfull⟩, swap_spec h⟩)
    · rename_i hroom
      exact .inr (.inr ⟨hlookup, Nat.lt_of_not_le hroom, allocate_spec h⟩)

/-! ## The invariant -/

theorem bijection_init (c : Config) : Bijection c .init :=
  .of inverse_empty rfl (Nat.zero_le _) (Nat.zero_le _)

theorem Bijection.reassign (h : Bijection c s) {nru vpage ppage : Nat}
    (hnru : s.pageTable.lookup nru = some ppage) (hv : s.pageTable.lookup vpage = none) :
    Bijection c (reassign s nru vpage ppage) := by
  refine .of (h.inverse.move hnru hv) ?_ h.allocated_le h.adjacent_le
  have hsome : s.pageTable.lookup nru ≠ none := by rw [hnru]; simp
  exact (card_move ppage hsome hv).trans h.pageCount

/-- The decrement wraps at 0 only, and then the run of adjacent pages is broken and drawn anew. -/
theorem adjacent_insertPage {vpage ppage rand : Nat} {fragmented : Bool}
    (h : s.numAdjacentPage ≤ 512) (hfrag : s.numAdjacentPage = 0 → fragmented = true) :
    (insertPage s vpage ppage fragmented rand).numAdjacentPage ≤ 512 := by
  simp only [insertPage]
  split
  · have hexp : rand % 10 ≤ 9 := by omega
    calc 2 ^ (rand % 10) ≤ 2 ^ 9 := Nat.pow_le_pow_right (by omega) hexp
      _ = 512 := rfl
  · rename_i hf
    have hpos : s.numAdjacentPage ≠ 0 := fun h0 => hf (hfrag h0)
    unfold sub64
    omega

theorem Bijection.insertPage (h : Bijection c s) {vpage ppage rand : Nat} {fragmented : Bool}
    (hv : s.pageTable.lookup vpage = none) (hp : s.inverseTable.lookup ppage = none)
    (hroom : s.allocatedPages < c.dramPages)
    (hfrag : s.numAdjacentPage = 0 → fragmented = true) :
    Bijection c (Paging.insertPage s vpage ppage fragmented rand) := by
  have hcount : (Paging.insertPage s vpage ppage fragmented rand).allocatedPages
      = s.allocatedPages + 1 := by
    have := c.dramPages_lt
    simp only [Paging.insertPage, add64]
    omega
  refine .of (h.inverse.insert hv hp) ?_ ?_ (adjacent_insertPage h.adjacent_le hfrag)
  · rw [hcount]
    exact (card_insert s.pageTable ppage hv).trans (by rw [h.pageCount])
  · omega

theorem Bijection.fault (h : Bijection c s) {vpage rand : Nat} {draws : List Nat}
    (hs : fault c s vpage draws rand = some s') : Bijection c s' := by
  rcases fault_cases hs with ⟨-, rfl⟩ | ⟨hswap, nru, ppage, -, hnru, rfl⟩ |
    ⟨hv, hroom, ppage, fragmented, hp, hfrag, rfl⟩
  · exact h
  · exact h.reassign hnru hswap.1
  · exact h.insertPage hv hp hroom hfrag

theorem Bijection.pay (h : Bijection c s) (swapped : Bool) (call : Call) :
    Bijection c (pay swapped call s) := by
  unfold Paging.pay
  split
  · exact h
  · exact .of h.inverse h.pageCount h.allocated_le h.adjacent_le

@[simp] theorem pay_pageTable (swapped : Bool) (call : Call) (s : State) :
    (pay swapped call s).pageTable = s.pageTable := by
  unfold pay
  split <;> rfl

/-- The key that the call looks up. -/
def Call.vpage (c : Config) (call : Call) : Option Nat :=
  (highBitMask c.numCpus call.cpu).map (call.uniqueVpage ||| ·)

/-- What one call does: a fault on its key, then the payment. -/
theorem step_cases {call : Call} (h : step c s call = some s') :
    ∃ vpage s₁, call.vpage c = some vpage ∧ fault c s vpage call.draws call.rand = some s₁ ∧
      s' = pay (decide (Swaps c s vpage)) call s₁ := by
  obtain ⟨⟨pa, t⟩, hpa, rfl⟩ := Option.map_eq_some_iff.mp h
  unfold vaToPa at hpa
  split at hpa
  · cases hpa
  · obtain ⟨mask, hmask, hpa⟩ := Option.bind_eq_some_iff.mp hpa
    obtain ⟨s₁, hs₁, hpa⟩ := Option.bind_eq_some_iff.mp hpa
    obtain ⟨ppage, -, he⟩ := Option.map_eq_some_iff.mp hpa
    cases he
    exact ⟨call.uniqueVpage ||| mask, s₁, by simp [Call.vpage, hmask], hs₁, rfl⟩

theorem step_bijection {call : Call} (h : Bijection c s) (hs : step c s call = some s') :
    Bijection c s' := by
  obtain ⟨vpage, s₁, -, hs₁, rfl⟩ := step_cases hs
  exact (h.fault hs₁).pay _ _

/-! ## Keeping a page -/

/-- The key that the call takes its page from, when it swaps. -/
def victim (c : Config) (s : State) (call : Call) : Option Nat :=
  (call.vpage c).bind fun vpage => if Swaps c s vpage then nruVpage s else none

theorem step_keeps {call : Call} {v p : Nat} (hs : step c s call = some s')
    (hvictim : victim c s call ≠ some v) (hv : s.pageTable.lookup v = some p) :
    s'.pageTable.lookup v = some p := by
  obtain ⟨vpage, s₁, hvpage, hs₁, rfl⟩ := step_cases hs
  rw [pay_pageTable]
  have hne : s.pageTable.lookup vpage = none → v ≠ vpage := by
    rintro hnone rfl
    rw [hnone] at hv
    cases hv
  rcases fault_cases hs₁ with ⟨-, rfl⟩ | ⟨hswap, nru, ppage, hnru, hpage, rfl⟩ |
    ⟨hnone, -, ppage, fragmented, -, -, rfl⟩
  · exact hv
  · have hother : v ≠ nru := by
      rintro rfl
      exact hvictim (by simp [victim, hvpage, hswap, hnru])
    show ((s.pageTable.erase nru).insert vpage ppage).lookup v = some p
    rw [Finmap.lookup_insert_of_ne _ (hne hswap.1), Finmap.lookup_erase_ne hother, hv]
  · show (s.pageTable.insert vpage ppage).lookup v = some p
    rw [Finmap.lookup_insert_of_ne _ (hne hnone), hv]

theorem run_keeps {calls : List Call} {v p : Nat} (h : run (step c) s calls = some s')
    (hvictim : Along (step c) (fun t call => victim c t call ≠ some v) s calls)
    (hv : s.pageTable.lookup v = some p) : s'.pageTable.lookup v = some p :=
  run_invariant (I := fun t => t.pageTable.lookup v = some p)
    (fun _ _ _ hI hP hs => step_keeps hs hP hI) hv hvictim h

/-- After any calls the tables are a bijection within the memory, the adjacency counter has not
wrapped, and a key keeps its page through any further calls of which it is no victim. -/
theorem run_bijection (c : Config) {calls : List Call} {s : State}
    (h : run (step c) .init calls = some s) :
    Bijection c s ∧
      ∀ v p, s.pageTable.lookup v = some p → ∀ calls' s',
        Along (step c) (fun t call => victim c t call ≠ some v) s calls' →
          run (step c) s calls' = some s' → s'.pageTable.lookup v = some p := by
  refine ⟨?_, fun v p hv calls' s' hvictim hs' => run_keeps hs' hvictim hv⟩
  exact run_invariant (P := fun _ _ => True) (fun _ _ _ hI _ hs => step_bijection hI hs)
    (bijection_init c) (along_of_forall (fun _ _ => trivial) _) h

/-- One page of memory, two pages of addresses: the second call swaps. -/
def swapCalls : List Call :=
  [⟨0, 4096, 1, false, 0, [7], 3⟩, ⟨0, 8192, 2, true, 5, [], 0⟩]

theorem run_bijection_swap :
    ∃ s, run (step ⟨1, 1, by decide⟩) .init swapCalls = some s ∧ s.pageTable.lookup 2 = some 7 ∧
      Bijection ⟨1, 1, by decide⟩ s := by
  have hrun : ((run (step ⟨1, 1, by decide⟩) .init swapCalls).map
      fun s => s.pageTable.lookup 2) = some (some 7) := by decide
  obtain ⟨s, hs, hv⟩ := Option.map_eq_some_iff.mp hrun
  exact ⟨s, hs, hv, (run_bijection _ hs).1⟩

end Paging
end ChampSim
