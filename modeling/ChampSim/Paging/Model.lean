import ChampSim.Packet
import Mathlib.Data.Finmap
import Mathlib.Data.Finset.Max

/-!
# ChampSim.Paging.Model

Virtual memory (`va_to_pa` in `src/main.cc`): two maps shared by all cores and a random allocator.

* `lg2`, `rotr64`, `highBitMask` — the core number folded into the page-table key.
* `State`     — the tables and counters. `recentPage` is looked up and never written.
* `Call`      — the arguments of one call, the clock, and what the generators return during it:
  `draws` are the values of `draw_rand`, `rand` is that of `rand`.
* `swap`      — memory is full: a page passes from the first key not recently used to the new one.
* `allocate`  — an unused page, adjacent to the last one or random.
* `vaToPa`    — the whole call; `none` is a failed assertion or a search that `draws` does not end.

A `std::map` is a `Finmap`; a loop over one sees the least key first.
-/

namespace ChampSim
namespace Paging

def logPageSize : Nat := 12

def swapLatency : Nat := 100000

def pageTableLatency : Nat := 100

structure Config where
  /-- `NUM_CPUS`. -/
  numCpus : Nat
  /-- `DRAM_PAGES`. -/
  dramPages : Nat
  dramPages_lt : dramPages < 2 ^ 64

/-! ## Keys -/

/-- The loop of `lg2`, which counts halvings towards zero. `fuel` bounds the bits of an `int`. -/
def lg2Loop : Nat → Int → Int → Int
  | 0, _, c => c
  | fuel + 1, m, c => if m = 0 then c else lg2Loop fuel (m.tdiv 2) (c + 1)

def lg2 (n : Int) : Int := lg2Loop 32 n (-1)

/-- The conversion of a constant to `int`. -/
def toInt (n : Nat) : Int := (n : Int).bmod (2 ^ 32)

/-- `n` is below `2 ^ 64`. A rotation by more than 63 fails the assertion. -/
def rotr64 (n c : Nat) : Option Nat :=
  if c ≤ 63 then some (n >>> c ||| (n <<< ((64 - c) % 64)) % 2 ^ 64) else none

/-- `rotr64(cpu, lg2(NUM_CPUS))`; the second argument is converted to `unsigned int`. -/
def highBitMask (numCpus cpu : Nat) : Option Nat :=
  rotr64 cpu ((lg2 (toInt numCpus) % 2 ^ 32).toNat)

/-! ## State -/

structure State where
  pageTable : Finmap fun _ : Nat => Nat
  inverseTable : Finmap fun _ : Nat => Nat
  recentPage : Finmap fun _ : Nat => Nat
  pageQueue : List Nat
  previousPpage : Nat
  numAdjacentPage : Nat
  allocatedPages : Nat
  stallCycle : Nat → Nat

def State.init : State where
  pageTable := ∅
  inverseTable := ∅
  recentPage := ∅
  pageQueue := []
  previousPpage := 0
  numAdjacentPage := 0
  allocatedPages := 0
  stallCycle := fun _ => 0

structure Call where
  cpu : Nat
  va : Nat
  uniqueVpage : Nat
  isCode : Bool
  currentCoreCycle : Nat
  draws : List Nat
  rand : Nat

/-! ## Page faults -/

/-- The first key of the page table that is not recent. -/
def nruVpage (s : State) : Option Nat :=
  let old := s.pageTable.keys.filter fun v => s.recentPage.lookup v = none
  if h : old.Nonempty then some (old.min' h) else none

/-- The page of `nru` passes to `vpage`. -/
def reassign (s : State) (nru vpage ppage : Nat) : State :=
  { s with
    pageTable := (s.pageTable.erase nru).insert vpage ppage
    inverseTable := s.inverseTable.insert ppage vpage
    pageQueue := s.pageQueue.tail ++ [vpage] }

def swap (s : State) (vpage : Nat) : Option State :=
  (nruVpage s).bind fun nru =>
    (s.pageTable.lookup nru).bind fun ppage =>
      if (s.inverseTable.lookup ppage).isNone then none else some (reassign s nru vpage ppage)

/-- The retry loop: the page found, and whether the run of adjacent pages is broken. -/
def findFree (s : State) : List Nat → Nat → Bool → Option (Nat × Bool)
  | draws, ppage, fragmented =>
    if (s.inverseTable.lookup ppage).isNone then some (ppage, fragmented)
    else
      match draws with
      | [] => none
      | d :: draws => findFree s draws d (fragmented || s.numAdjacentPage > 0)

/-- The page tried first. -/
def firstTry (s : State) (draws : List Nat) : Option (Nat × List Nat) :=
  if s.numAdjacentPage > 0 then some (add64 s.previousPpage 1, draws)
  else
    match draws with
    | [] => none
    | d :: draws => some (d, draws)

/-- `vpage` gets `ppage`. -/
def insertPage (s : State) (vpage ppage : Nat) (fragmented : Bool) (rand : Nat) : State :=
  { s with
    pageTable := s.pageTable.insert vpage ppage
    inverseTable := s.inverseTable.insert ppage vpage
    pageQueue := s.pageQueue ++ [vpage]
    previousPpage := ppage
    numAdjacentPage := if fragmented then 2 ^ (rand % 10) else sub64 s.numAdjacentPage 1
    allocatedPages := add64 s.allocatedPages 1 }

def allocate (s : State) (vpage : Nat) (draws : List Nat) (rand : Nat) : Option State :=
  (firstTry s draws).bind fun (ppage, draws) =>
    (findFree s draws ppage (s.numAdjacentPage == 0)).map fun (ppage, fragmented) =>
      insertPage s vpage ppage fragmented rand

/-- `pr == page_table.end()` and `allocated_pages >= DRAM_PAGES`. -/
def Swaps (c : Config) (s : State) (vpage : Nat) : Prop :=
  s.pageTable.lookup vpage = none ∧ s.allocatedPages ≥ c.dramPages

instance (c : Config) (s : State) (vpage : Nat) : Decidable (Swaps c s vpage) :=
  inferInstanceAs (Decidable (_ ∧ _))

def fault (c : Config) (s : State) (vpage : Nat) (draws : List Nat) (rand : Nat) : Option State :=
  if (s.pageTable.lookup vpage).isSome then some s
  else if s.allocatedPages ≥ c.dramPages then swap s vpage
  else allocate s vpage draws rand

/-- Data accesses pay for the translation. -/
def pay (swapped : Bool) (call : Call) (s : State) : State :=
  if call.isCode then s
  else
    let latency := if swapped then swapLatency else pageTableLatency
    { s with
      stallCycle := Function.update s.stallCycle call.cpu (add64 call.currentCoreCycle latency) }

/-- The result and the state after the call. -/
def vaToPa (c : Config) (s : State) (call : Call) : Option (Nat × State) :=
  if call.va = 0 then none
  else
    (highBitMask c.numCpus call.cpu).bind fun mask =>
      let vpage := call.uniqueVpage ||| mask
      let voffset := (call.va ||| mask) % 2 ^ logPageSize
      (fault c s vpage call.draws call.rand).bind fun s' =>
        (s'.pageTable.lookup vpage).map fun ppage =>
          (ppage * 2 ^ logPageSize % 2 ^ 64 ||| voffset, pay (decide (Swaps c s vpage)) call s')

def step (c : Config) (s : State) (call : Call) : Option State := (vaToPa c s call).map Prod.snd

end Paging
end ChampSim
