import ChampSim.Lib.Recency
import ChampSim.Prefetch.Page

/-!
# ChampSim.Prefetch.Stride

The stride prefetcher of the L2C (`prefetcher/ip_stride.l2c_pref`): per instruction address the last
line and the last stride.

* `operate`     — `l2c_prefetcher_operate`: the trackers and the calls of `prefetch_line`; `none`
  when no tracker is the last in the order of use.
* `Sound`       — the invariant of the trackers.
* `requests_eq` — the wrap-around of the line addresses cannot be seen.
* `stride_prefetcher_exact` — what every access requests, after every sequence of accesses.
-/

namespace ChampSim
namespace Prefetch
namespace Stride

open Lib

@[irreducible] def ipTrackerCount : Nat := 1024

theorem ipTrackerCount_pos : 0 < ipTrackerCount := by
  unfold ipTrackerCount
  omega

def prefetchDegree : Nat := 3

structure IpTracker where
  ip : Nat
  lastClAddr : Nat
  lastStride : Int
  lru : Nat

abbrev Trackers := Nat → IpTracker

def prefetcherInitialize : Trackers := fun i => ⟨0, 0, 0, i⟩

/-- The arguments of `l2c_prefetcher_operate` that are read, and the load of the MSHR. -/
structure Access where
  addr : Nat
  ip : Nat
  mshrOccupancy : Nat
  mshrSize : Nat

namespace Access

def clAddr (a : Access) : Nat := a.addr / 2 ^ Cache.logBlockSize

def fillLevel (a : Access) : Int :=
  if a.mshrOccupancy < a.mshrSize / 2 then Cache.fillL2 else Cache.fillLlc

/-- An address of an instruction in `uint64_t`; 0 marks the trackers that are free. -/
def Ok (a : Access) : Prop := a.ip ≠ 0 ∧ a.addr < 2 ^ 64

end Access

def tracker (ip : Nat) (t : Trackers) : Option Nat :=
  (List.range ipTrackerCount).find? fun i => (t i).ip == ip

def victim (t : Trackers) : Option Nat :=
  (List.range ipTrackerCount).find? fun i => (t i).lru == ipTrackerCount - 1

def touch (index : Nat) (t : Trackers) : Trackers := fun i =>
  { t i with lru := Recency.touch ipTrackerCount index (fun k => (t k).lru) i }

/-- The difference of two unsigned lines. -/
def strideTo (clAddr lastClAddr : Nat) : Int :=
  if clAddr > lastClAddr then ((clAddr - lastClAddr : Nat) : Int)
  else -((lastClAddr - clAddr : Nat) : Int)

/-- The loop that requests, up to the first address in another page. -/
def requests (a : Access) (stride : Int) : List Cache.Callback :=
  (((List.range prefetchDegree).map fun i => pfAddress a.clAddr (stride * (i + 1))).takeWhile
    fun pf => pf / 2 ^ Cache.logPageSize == a.addr / 2 ^ Cache.logPageSize).map
    fun pf => .prefetchLine a.ip a.addr pf a.fillLevel 0

def operate (a : Access) (t : Trackers) : Option (Trackers × List Cache.Callback) :=
  match tracker a.ip t with
  | none =>
    (victim t).map fun index =>
      (touch index (Function.update t index
        { t index with ip := a.ip, lastClAddr := a.clAddr, lastStride := 0 }), [])
  | some index =>
    let stride := strideTo a.clAddr (t index).lastClAddr
    if stride = 0 then some (t, [])
    else
      some (touch index (Function.update t index
          { t index with lastClAddr := a.clAddr, lastStride := stride }),
        if stride = (t index).lastStride then requests a stride else [])

def step (t : Trackers) (a : Access) : Option Trackers := (operate a t).map Prod.fst

/-! ## Lines -/

theorem strideTo_eq (clAddr lastClAddr : Nat) :
    strideTo clAddr lastClAddr = (clAddr : Int) - lastClAddr := by
  unfold strideTo
  split <;> omega

theorem Access.clAddr_lt {a : Access} (h : a.Ok) : a.clAddr < 2 ^ 58 := by
  have haddr := h.2
  simp only [Access.clAddr, Cache.logBlockSize]
  omega

/-- The lines `clAddr + k * stride` for `k = 1, 2, 3`, up to the first one in another page. -/
def lines (clAddr : Nat) (stride : Int) : List Int :=
  (([1, 2, 3] : List Int).map fun k => clAddr + k * stride).takeWhile
    fun line => line / 64 == (clAddr : Int) / 64

/-- After one line in the page the stride is short, so only the first line could wrap around. -/
theorem requests_eq {a : Access} (h : a.Ok) {stride : Int} (hlo : -2 ^ 57 < stride)
    (hhi : stride < 2 ^ 57) :
    requests a stride = (lines a.clAddr stride).map fun line =>
      .prefetchLine a.ip a.addr (line.toNat * 64) a.fillLevel 0 := by
  have hlt := Access.clAddr_lt h
  have hpage : ∀ k : Int, -2 ^ 57 < stride * k → stride * k < 2 ^ 57 →
      (pfAddress a.clAddr (stride * k) / 2 ^ Cache.logPageSize = a.addr / 2 ^ Cache.logPageSize ↔
        (a.clAddr + k * stride) / 64 = (a.clAddr : Int) / 64) := by
    intro k hlo hhi
    rw [Int.mul_comm k]
    exact pfAddress_page rfl hlt hlo hhi
  have haddr : ∀ k : Int, (a.clAddr + k * stride) / 64 = (a.clAddr : Int) / 64 →
      pfAddress a.clAddr (stride * k) = (a.clAddr + k * stride).toNat * 64 := by
    intro k hk
    rw [Int.mul_comm k] at hk ⊢
    exact pfAddress_eq hlt hk
  have hreq : requests a stride =
      ([pfAddress a.clAddr (stride * 1), pfAddress a.clAddr (stride * 2),
        pfAddress a.clAddr (stride * 3)].takeWhile fun pf =>
          pf / 2 ^ Cache.logPageSize == a.addr / 2 ^ Cache.logPageSize).map
        fun pf => .prefetchLine a.ip a.addr pf a.fillLevel 0 := rfl
  rw [hreq]
  unfold lines
  simp only [List.map_cons, List.map_nil, List.takeWhile_cons, List.takeWhile_nil, beq_iff_eq,
    hpage 1 (by omega) (by omega)]
  split
  · rename_i h1
    simp only [hpage 2 (by omega) (by omega), hpage 3 (by omega) (by omega)]
    split
    · rename_i h2
      split
      · rename_i h3
        simp only [List.map_cons, List.map_nil, haddr 1 h1, haddr 2 h2, haddr 3 h3]
      · simp only [List.map_cons, List.map_nil, haddr 1 h1, haddr 2 h2]
    · simp only [List.map_cons, List.map_nil, haddr 1 h1]
  · rfl

/-! ## The trackers -/

/-- Three lines in a row are in range, so no stride that repeats is long. -/
structure Sound (t : Trackers) : Prop where
  ranks : Recency.Ranks ipTrackerCount fun i => (t i).lru
  distinct : ∀ v < ipTrackerCount, ∀ w < ipTrackerCount,
    (t v).ip ≠ 0 → (t v).ip = (t w).ip → v = w
  line_lt : ∀ i, (t i).lastClAddr < 2 ^ 58
  before_nonneg : ∀ i, 0 ≤ (t i).lastClAddr - (t i).lastStride
  before_lt : ∀ i, (t i).lastClAddr - (t i).lastStride < 2 ^ 58

theorem sound_init : Sound prefetcherInitialize where
  ranks := Recency.ranks_id ipTrackerCount
  distinct := by
    intro v _ w _ hne
    exact absurd rfl hne
  line_lt := fun _ => by simp [prefetcherInitialize]
  before_nonneg := fun _ => by simp [prefetcherInitialize]
  before_lt := fun _ => by simp [prefetcherInitialize]

section Sound

variable {t : Trackers} {a : Access} {index : Nat} {e : IpTracker}

@[simp] theorem touch_ip (index i : Nat) (t : Trackers) : (touch index t i).ip = (t i).ip := rfl

@[simp] theorem touch_lastClAddr (index i : Nat) (t : Trackers) :
    (touch index t i).lastClAddr = (t i).lastClAddr := rfl

@[simp] theorem touch_lastStride (index i : Nat) (t : Trackers) :
    (touch index t i).lastStride = (t i).lastStride := rfl

theorem tracker_some (h : tracker a.ip t = some index) :
    index < ipTrackerCount ∧ (t index).ip = a.ip := by
  unfold tracker at h
  exact ⟨List.mem_range.mp (List.mem_of_find?_eq_some h), by simpa using List.find?_some h⟩

theorem tracker_none (h : tracker a.ip t = none) : ∀ i < ipTrackerCount, (t i).ip ≠ a.ip := by
  intro i hi
  unfold tracker at h
  simpa using List.find?_eq_none.mp h i (List.mem_range.mpr hi)

theorem Sound.victim (h : Sound t) :
    ∃ index, victim t = some index ∧ index < ipTrackerCount := by
  obtain ⟨w, hw, hlast⟩ := h.ranks.exists_eq (k := ipTrackerCount - 1)
    (Nat.sub_one_lt_of_lt ipTrackerCount_pos)
  unfold Stride.victim
  have hsome : ((List.range ipTrackerCount).find? fun i =>
      (t i).lru == ipTrackerCount - 1).isSome := by
    rw [List.find?_isSome]
    exact ⟨w, List.mem_range.mpr hw, beq_iff_eq.mpr hlast⟩
  obtain ⟨index, hindex⟩ := Option.isSome_iff_exists.mp hsome
  exact ⟨index, hindex, List.mem_range.mp (List.mem_of_find?_eq_some hindex)⟩

/-- An access rewrites one tracker and touches it. -/
theorem Sound.write (h : Sound t) (hi : index < ipTrackerCount) (hlru : e.lru = (t index).lru)
    (hother : ∀ j < ipTrackerCount, j ≠ index → (t j).ip ≠ e.ip)
    (hline : e.lastClAddr < 2 ^ 58) (hnonneg : 0 ≤ e.lastClAddr - e.lastStride)
    (hlt : e.lastClAddr - e.lastStride < 2 ^ 58) :
    Sound (touch index (Function.update t index e)) where
  ranks := Recency.Ranks.touch_update IpTracker.lru h.ranks hi hlru
  distinct := by
    intro v hv w hw
    simp only [touch_ip]
    by_cases hvi : v = index
    · subst hvi
      by_cases hwv : w = v
      · exact fun _ _ => hwv.symm
      · rw [Function.update_self, Function.update_of_ne hwv]
        exact fun _ heq => absurd heq.symm (hother w hw hwv)
    · rw [Function.update_of_ne hvi]
      by_cases hwi : w = index
      · subst hwi
        rw [Function.update_self]
        exact fun _ heq => absurd heq (hother v hv hvi)
      · rw [Function.update_of_ne hwi]
        exact h.distinct v hv w hw
  line_lt := by
    intro j
    simp only [touch_lastClAddr]
    by_cases hj : j = index
    · subst hj
      simpa using hline
    · rw [Function.update_of_ne hj]
      exact h.line_lt j
  before_nonneg := by
    intro j
    simp only [touch_lastClAddr, touch_lastStride]
    by_cases hj : j = index
    · subst hj
      simpa using hnonneg
    · rw [Function.update_of_ne hj]
      exact h.before_nonneg j
  before_lt := by
    intro j
    simp only [touch_lastClAddr, touch_lastStride]
    by_cases hj : j = index
    · subst hj
      simpa using hlt
    · rw [Function.update_of_ne hj]
      exact h.before_lt j

/-- The prefetches of the lines `ls`. -/
def prefetches (a : Access) (ls : List Int) : List Cache.Callback :=
  ls.map fun line => .prefetchLine a.ip a.addr (line.toNat * 64) a.fillLevel 0

/-- What an access requests and leaves behind. -/
structure Answers (a : Access) (t t' : Trackers) (rs : List Cache.Callback) : Prop where
  repeated : ∀ i < ipTrackerCount, (t i).ip = a.ip →
    ∀ stride : Int, stride = a.clAddr - (t i).lastClAddr →
      stride ≠ 0 ∧ stride = (t i).lastStride → rs = prefetches a (lines a.clAddr stride)
  otherwise : ∀ i < ipTrackerCount, (t i).ip = a.ip →
    ∀ stride : Int, stride = a.clAddr - (t i).lastClAddr →
      ¬ (stride ≠ 0 ∧ stride = (t i).lastStride) → rs = []
  same_line : ∀ i < ipTrackerCount, (t i).ip = a.ip → a.clAddr = (t i).lastClAddr → t' = t
  recorded : ∀ i < ipTrackerCount, (t i).ip = a.ip → a.clAddr ≠ (t i).lastClAddr →
    t' i = ⟨a.ip, a.clAddr, a.clAddr - (t i).lastClAddr, 0⟩
  untracked : (∀ i < ipTrackerCount, (t i).ip ≠ a.ip) → rs = [] ∧
    ∃ i < ipTrackerCount, (t i).lru = ipTrackerCount - 1 ∧ t' i = ⟨a.ip, a.clAddr, 0, 0⟩

theorem touch_update_self (index : Nat) (t : Trackers) (e : IpTracker) :
    touch index (Function.update t index e) index = { e with lru := 0 } := by
  simp [touch]

/-- A stride that repeats is the distance of three lines. -/
theorem Sound.requests (h : Sound t) (ha : a.Ok)
    (hrepeat : (a.clAddr : Int) - (t index).lastClAddr = (t index).lastStride) :
    Stride.requests a (t index).lastStride =
      prefetches a (lines a.clAddr (t index).lastStride) := by
  have hcl := Access.clAddr_lt ha
  have hline := h.line_lt index
  have hnonneg := h.before_nonneg index
  have hlt := h.before_lt index
  exact requests_eq ha (by omega) (by omega)

theorem operate_hit (h : Sound t) (ha : a.Ok) (hindex : tracker a.ip t = some index) :
    ∃ t' rs, operate a t = some (t', rs) ∧ Sound t' ∧ Answers a t t' rs := by
  obtain ⟨hi, hip⟩ := tracker_some hindex
  have huniq : ∀ i < ipTrackerCount, (t i).ip = a.ip → i = index := fun i hi' hip' =>
    h.distinct i hi' index hi (hip' ▸ ha.1) (hip'.trans hip.symm)
  have hother : ∀ j < ipTrackerCount, j ≠ index → (t j).ip ≠ (t index).ip :=
    fun j hj hne heq => hne (huniq j hj (heq.trans hip))
  have hcl := Access.clAddr_lt ha
  have hline := h.line_lt index
  by_cases hzero : (a.clAddr : Int) - (t index).lastClAddr = 0
  · refine ⟨t, [], ?_, h, ?_⟩
    · simp only [operate, hindex, strideTo_eq, hzero, if_true]
    · refine ⟨?_, fun _ _ _ _ _ _ => rfl, fun _ _ _ _ => rfl, ?_, ?_⟩
      · intro i hi' hip' stride hstride hrep
        obtain rfl := huniq i hi' hip'
        exact absurd (hstride.trans hzero) hrep.1
      · intro i hi' hip' hne
        obtain rfl := huniq i hi' hip'
        omega
      · exact fun hall => absurd hip (hall index hi)
  · refine ⟨touch index (Function.update t index { t index with
        lastClAddr := a.clAddr, lastStride := a.clAddr - (t index).lastClAddr }),
      if (a.clAddr : Int) - (t index).lastClAddr = (t index).lastStride then
        Stride.requests a (a.clAddr - (t index).lastClAddr) else [], ?_, ?_, ?_⟩
    · simp only [operate, hindex, strideTo_eq, hzero, if_false]
    · exact h.write hi rfl hother hcl (by simp only; omega) (by simp only; omega)
    · refine ⟨?_, ?_, ?_, ?_, ?_⟩
      · intro i hi' hip' stride hstride hrep
        obtain rfl := huniq i hi' hip'
        subst hstride
        rw [if_pos hrep.2, hrep.2]
        exact h.requests ha hrep.2
      · intro i hi' hip' stride hstride hrep
        obtain rfl := huniq i hi' hip'
        subst hstride
        exact if_neg fun heq => hrep ⟨hzero, heq⟩
      · intro i hi' hip' heq
        obtain rfl := huniq i hi' hip'
        omega
      · intro i hi' hip' _
        obtain rfl := huniq i hi' hip'
        rw [touch_update_self, hip]
      · exact fun hall => absurd hip (hall index hi)

theorem operate_miss (h : Sound t) (ha : a.Ok) (hnone : tracker a.ip t = none) :
    ∃ t' rs, operate a t = some (t', rs) ∧ Sound t' ∧ Answers a t t' rs := by
  have hall := tracker_none hnone
  obtain ⟨index, hindex, hi⟩ := h.victim
  have hcl := Access.clAddr_lt ha
  refine ⟨touch index (Function.update t index
    { t index with ip := a.ip, lastClAddr := a.clAddr, lastStride := 0 }), [], ?_, ?_, ?_⟩
  · simp only [operate, hnone, hindex, Option.map_some]
  · exact h.write hi rfl (fun j hj _ => hall j hj) hcl (by simp only; omega) (by simp only; omega)
  · refine ⟨fun i hi hip => absurd hip (hall i hi), fun i hi hip => absurd hip (hall i hi),
      fun i hi hip => absurd hip (hall i hi), fun i hi hip => absurd hip (hall i hi), fun _ => ?_⟩
    unfold Stride.victim at hindex
    have hlast : (t index).lru = ipTrackerCount - 1 := by simpa using List.find?_some hindex
    exact ⟨rfl, index, hi, hlast, touch_update_self ..⟩

theorem operate_sound (h : Sound t) (ha : a.Ok) :
    ∃ t' rs, operate a t = some (t', rs) ∧ Sound t' ∧ Answers a t t' rs := by
  cases hindex : tracker a.ip t with
  | none => exact operate_miss h ha hindex
  | some index => exact operate_hit h ha hindex

end Sound

end Stride
end Prefetch
end ChampSim
