import Mathlib.Data.List.Basic
import Mathlib.Data.Nat.Count
import Mathlib.Logic.Function.Basic

/-!
# ChampSim.Lib.Ring

Ring buffers with separate head, tail and occupancy, and the FIFO list they hold.

* `Ring.push` / `Ring.pop` — write at the tail, clear at the head.
* `Ring.Wf E r`            — the tail follows from head and occupancy, and every slot outside the
  live region satisfies `E` (is empty). `E` is a predicate because a slot can count as empty and
  still hold stale flags.
* `Ring.contents`          — the live entries, oldest first.
* `push_contents`, `pop_contents`, `update_contents` — the operations on the list.
* `Wf.count_eq`            — the occupancy counts the slots that are not empty.
* `Ring.age`               — how many places after the head a slot is.
* `Alike π r r'`           — the rings differ only in what `π` does not show of the entries.

`idx size head k` is the slot `k` places after `head`; it wraps by subtraction, so no lemma about
`%` with a variable modulus is needed (`idx_eq_mod` links the two).
-/

namespace ChampSim
namespace Lib

structure Ring (α : Type*) where
  size : Nat
  head : Nat
  tail : Nat
  occupancy : Nat
  entry : Nat → α

namespace Ring

variable {α : Type*}

def idx (size head k : Nat) : Nat :=
  if head + k < size then head + k else head + k - size

theorem idx_lt {size head k : Nat} (hh : head < size) (hk : k ≤ size) : idx size head k < size := by
  unfold idx; split <;> omega

theorem idx_inj {size head k j : Nat} (hk : k < size) (hj : j < size)
    (h : idx size head k = idx size head j) : k = j := by
  unfold idx at h; split at h <;> split at h <;> omega

theorem idx_eq_mod {size head k : Nat} (hh : head < size) (hk : k ≤ size) :
    idx size head k = (head + k) % size := by
  unfold idx
  split
  · rename_i h; rw [Nat.mod_eq_of_lt h]
  · rename_i h
    rw [Nat.mod_eq_sub_mod (by omega), Nat.mod_eq_of_lt (by omega)]

@[simp] theorem idx_zero {size head : Nat} (hh : head < size) : idx size head 0 = head := by
  simp [idx, hh]

/-- Every slot is some number of places after the head. -/
theorem exists_idx {size head i : Nat} (hh : head < size) (hi : i < size) :
    ∃ k < size, i = idx size head k := by
  by_cases h : head ≤ i
  · exact ⟨i - head, by omega, by unfold idx; split <;> omega⟩
  · exact ⟨i + size - head, by omega, by unfold idx; split <;> omega⟩

/-- The slot after `i`, as the source steps it: increment, then back to 0 at the end. -/
def next (size i : Nat) : Nat :=
  if i + 1 ≥ size then 0 else i + 1

theorem next_lt {size i : Nat} (h : 0 < size) : next size i < size := by
  unfold next; split <;> omega

theorem next_idx {size head k : Nat} (hh : head < size) (hk : k < size) :
    next size (idx size head k) = idx size head (k + 1) := by
  unfold next idx; split <;> split <;> split <;> omega

theorem idx_next {size head k : Nat} (hh : head < size) (hk : k < size) :
    idx size (next size head) k = idx size head (k + 1) := by
  unfold next idx; split <;> split <;> split <;> omega

def push (r : Ring α) (x : α) : Ring α :=
  { r with
    entry := Function.update r.entry r.tail x
    occupancy := r.occupancy + 1
    tail := next r.size r.tail }

/-- Clear the head slot with `e` and step the head. -/
def pop (r : Ring α) (e : α) : Ring α :=
  { r with
    entry := Function.update r.entry r.head e
    occupancy := r.occupancy - 1
    head := next r.size r.head }

/-- The live entries, oldest first. -/
def contents (r : Ring α) : List α :=
  (List.range r.occupancy).map fun k => r.entry (idx r.size r.head k)

/-- Slot `i` holds one of the live entries. -/
def Live (r : Ring α) (i : Nat) : Prop :=
  ∃ k < r.occupancy, i = idx r.size r.head k

structure Wf (E : α → Prop) (r : Ring α) : Prop where
  head_lt : 0 < r.size → r.head < r.size
  head_zero : r.size = 0 → r.head = 0
  occ_le : r.occupancy ≤ r.size
  tail_eq : r.tail = idx r.size r.head r.occupancy
  outside : ∀ i < r.size, ¬ r.Live i → E (r.entry i)

@[simp] theorem push_size (r : Ring α) (x : α) : (r.push x).size = r.size := rfl
@[simp] theorem push_head (r : Ring α) (x : α) : (r.push x).head = r.head := rfl
@[simp] theorem push_occupancy (r : Ring α) (x : α) :
    (r.push x).occupancy = r.occupancy + 1 := rfl
@[simp] theorem pop_size (r : Ring α) (e : α) : (r.pop e).size = r.size := rfl
@[simp] theorem pop_occupancy (r : Ring α) (e : α) : (r.pop e).occupancy = r.occupancy - 1 := rfl
@[simp] theorem push_entry_tail (r : Ring α) (x : α) : (r.push x).entry r.tail = x :=
  Function.update_self ..
@[simp] theorem pop_entry_head (r : Ring α) (e : α) : (r.pop e).entry r.head = e :=
  Function.update_self ..

theorem push_entry_ne (r : Ring α) (x : α) {i : Nat} (h : i ≠ r.tail) :
    (r.push x).entry i = r.entry i := Function.update_of_ne h ..

theorem pop_entry_ne (r : Ring α) (e : α) {i : Nat} (h : i ≠ r.head) :
    (r.pop e).entry i = r.entry i := Function.update_of_ne h ..

/-- What holds of every slot and of the new entry. -/
theorem forall_push {P : α → Prop} {r : Ring α} {x : α} (h : ∀ i, P (r.entry i)) (hx : P x)
    (i : Nat) : P ((r.push x).entry i) := by
  by_cases hi : i = r.tail
  · subst hi
    rw [push_entry_tail]
    exact hx
  · rw [push_entry_ne r x hi]
    exact h i

theorem forall_pop {P : α → Prop} {r : Ring α} {e : α} (h : ∀ i, P (r.entry i)) (he : P e)
    (i : Nat) : P ((r.pop e).entry i) := by
  by_cases hi : i = r.head
  · subst hi
    rw [pop_entry_head]
    exact he
  · rw [pop_entry_ne r e hi]
    exact h i

@[simp] theorem contents_length (r : Ring α) : r.contents.length = r.occupancy := by
  simp [contents]

variable {E : α → Prop} {r : Ring α}

/-- An empty ring, as the constructors build it. -/
theorem wf_init (size : Nat) (f : Nat → α) (hf : ∀ i < size, E (f i)) :
    Wf E ⟨size, 0, 0, 0, f⟩ where
  head_lt := fun h => h
  head_zero := fun _ => rfl
  occ_le := Nat.zero_le _
  tail_eq := by
    show 0 = idx size 0 0
    unfold idx; split <;> omega
  outside := fun i hi _ => hf i hi

theorem contents_init (size : Nat) (f : Nat → α) :
    contents ⟨size, 0, 0, 0, f⟩ = [] := rfl

theorem getElem?_contents {k : Nat} (hk : k < r.occupancy) :
    r.contents[k]? = some (r.entry (idx r.size r.head k)) := by
  simp [contents, hk]

theorem mem_contents {x : α} :
    x ∈ r.contents ↔ ∃ k < r.occupancy, r.entry (idx r.size r.head k) = x := by
  simp [contents]

theorem Wf.size_pos (h : Wf E r) (ho : 0 < r.occupancy) : 0 < r.size :=
  Nat.lt_of_lt_of_le ho h.occ_le

theorem Wf.tail_lt (h : Wf E r) (hr : r.occupancy < r.size) : r.tail < r.size := by
  rw [h.tail_eq]
  exact idx_lt (h.head_lt (by omega)) h.occ_le

theorem Wf.not_live_tail (h : Wf E r) (hr : r.occupancy < r.size) : ¬ r.Live r.tail := by
  rintro ⟨k, hk, hik⟩
  rw [h.tail_eq] at hik
  have := idx_inj hr (by omega) hik
  omega

/-- The slot a push writes is empty whenever the ring is not full. -/
theorem Wf.tail_empty (h : Wf E r) (hr : r.occupancy < r.size) : E (r.entry r.tail) :=
  h.outside _ (h.tail_lt hr) (h.not_live_tail hr)

/-- A head slot that is not empty is live. -/
theorem Wf.occ_pos_of_head (h : Wf E r) (hs : 0 < r.size) (he : ¬ E (r.entry r.head)) :
    0 < r.occupancy := by
  by_contra h0
  refine he (h.outside _ (h.head_lt hs) ?_)
  rintro ⟨k, hk, -⟩
  omega

theorem Wf.push (h : Wf E r) (hr : r.occupancy < r.size) (x : α) : Wf E (r.push x) := by
  have hh := h.head_lt (by omega)
  refine ⟨h.head_lt, h.head_zero, by simp; omega, ?_, ?_⟩
  · show next r.size r.tail = idx r.size r.head (r.occupancy + 1)
    rw [h.tail_eq, next_idx hh hr]
  · intro i hi hlive
    have hne : i ≠ r.tail := by
      rintro rfl
      exact hlive ⟨r.occupancy, by simp, h.tail_eq⟩
    show E (Function.update r.entry r.tail x i)
    rw [Function.update_of_ne hne]
    refine h.outside i hi ?_
    rintro ⟨k, hk, hik⟩
    exact hlive ⟨k, by simp; omega, hik⟩

theorem push_contents (h : Wf E r) (hr : r.occupancy < r.size) (x : α) :
    (r.push x).contents = r.contents ++ [x] := by
  simp only [contents, push_occupancy, List.range_succ, List.map_append, List.map_cons,
    List.map_nil, push_size, push_head]
  congr 1
  · refine List.map_congr_left fun k hk => ?_
    have hk : k < r.occupancy := List.mem_range.mp hk
    show Function.update r.entry r.tail x _ = _
    rw [Function.update_of_ne]
    intro he
    exact h.not_live_tail hr ⟨k, hk, he.symm⟩
  · show [Function.update r.entry r.tail x _] = _
    rw [h.tail_eq, Function.update_self]

theorem Wf.pop (h : Wf E r) (ho : 0 < r.occupancy) {e : α} (he : E e) : Wf E (r.pop e) := by
  have hs := h.size_pos ho
  have hh := h.head_lt hs
  have hocc := h.occ_le
  refine ⟨fun _ => next_lt hs, fun h0 => absurd h0 (by simp; omega), by simp; omega, ?_, ?_⟩
  · show r.tail = idx r.size (next r.size r.head) (r.occupancy - 1)
    rw [h.tail_eq, idx_next hh (by omega), Nat.sub_add_cancel ho]
  · intro i hi hlive
    show E (Function.update r.entry r.head e i)
    by_cases hi0 : i = r.head
    · rw [hi0, Function.update_self]; exact he
    · rw [Function.update_of_ne hi0]
      refine h.outside i hi ?_
      rintro ⟨k, hk, hik⟩
      cases k with
      | zero => exact hi0 (by rw [hik, idx_zero hh])
      | succ k =>
        refine hlive ⟨k, by simp; omega, ?_⟩
        show i = idx r.size (next r.size r.head) k
        rw [idx_next hh (by omega), hik]

theorem pop_contents (h : Wf E r) (ho : 0 < r.occupancy) (e : α) :
    r.contents = r.entry r.head :: (r.pop e).contents := by
  have hs := h.size_pos ho
  have hh := h.head_lt hs
  have hocc := h.occ_le
  obtain ⟨n, hn⟩ : ∃ n, r.occupancy = n + 1 := ⟨r.occupancy - 1, by omega⟩
  simp only [contents, pop_occupancy, hn, Nat.add_sub_cancel, List.range_succ_eq_map,
    List.map_cons, List.map_map, idx_zero hh]
  congr 1
  refine List.map_congr_left fun k hk => ?_
  have hk : k < n := List.mem_range.mp hk
  show _ = Function.update r.entry r.head e (idx r.size (next r.size r.head) k)
  rw [idx_next hh (by omega), Function.update_of_ne]
  · rfl
  · intro he
    have h0 : idx r.size r.head (k + 1) = idx r.size r.head 0 := by rw [he, idx_zero hh]
    have := idx_inj (by omega) hs h0
    omega

theorem Wf.live_iff (h : Wf E r) (hlive : ∀ x ∈ r.contents, ¬ E x) {i : Nat} (hi : i < r.size) :
    r.Live i ↔ ¬ E (r.entry i) := by
  constructor
  · rintro ⟨k, hk, rfl⟩
    exact hlive _ (mem_contents.mpr ⟨k, hk, rfl⟩)
  · intro he
    by_contra hl
    exact he (h.outside i hi hl)

theorem Wf.count_eq (h : Wf E r) [DecidablePred fun i => ¬ E (r.entry i)]
    (hlive : ∀ x ∈ r.contents, ¬ E x) :
    Nat.count (fun i => ¬ E (r.entry i)) r.size = r.occupancy := by
  have hocc := h.occ_le
  have hset : (Finset.range r.size).filter (fun i => ¬ E (r.entry i)) =
      (Finset.range r.occupancy).image (idx r.size r.head) := by
    ext i
    simp only [Finset.mem_filter, Finset.mem_range, Finset.mem_image]
    constructor
    · rintro ⟨hi, he⟩
      obtain ⟨k, hk, hik⟩ := (h.live_iff hlive hi).mpr he
      exact ⟨k, hk, hik.symm⟩
    · rintro ⟨k, hk, rfl⟩
      have hi : idx r.size r.head k < r.size := idx_lt (h.head_lt (by omega)) (by omega)
      exact ⟨hi, (h.live_iff hlive hi).mp ⟨k, hk, rfl⟩⟩
  rw [Nat.count_eq_card_filter_range, hset, Finset.card_image_of_injOn, Finset.card_range]
  intro k hk j hj hkj
  have hk := Finset.mem_range.mp (Finset.mem_coe.mp hk)
  have hj := Finset.mem_range.mp (Finset.mem_coe.mp hj)
  exact idx_inj (by omega) (by omega) hkj

/-- Rewriting a live slot. -/
theorem Wf.update_live (h : Wf E r) {i : Nat} (hi : r.Live i) (x : α) :
    Wf E { r with entry := Function.update r.entry i x } where
  head_lt := h.head_lt
  head_zero := h.head_zero
  occ_le := h.occ_le
  tail_eq := h.tail_eq
  outside := by
    intro j hj hl
    have hne : j ≠ i := by rintro rfl; exact hl hi
    show E (Function.update r.entry i x j)
    rw [Function.update_of_ne hne]
    exact h.outside j hj hl

/-- Rewriting the `k`-th live entry rewrites the `k`-th element of the list. -/
theorem update_contents (h : Wf E r) {k : Nat} (hk : k < r.occupancy) (x : α) :
    contents { r with entry := Function.update r.entry (idx r.size r.head k) x } =
      r.contents.set k x := by
  have hocc := h.occ_le
  apply List.ext_getElem?
  intro j
  by_cases hj : j < r.occupancy
  · have hget : (contents { r with entry := Function.update r.entry (idx r.size r.head k) x })[j]? =
        some (Function.update r.entry (idx r.size r.head k) x (idx r.size r.head j)) :=
      getElem?_contents hj
    rw [hget, List.getElem?_set]
    by_cases hkj : k = j
    · subst hkj; simp [hk]
    · rw [if_neg hkj, getElem?_contents hj, Function.update_of_ne]
      intro he
      exact hkj (idx_inj (by omega) (by omega) he).symm
  · rw [List.getElem?_eq_none (by simp; omega), List.getElem?_eq_none (by simp; omega)]

/-! ## Ages -/

/-- How many places after the head a slot is. -/
def age (r : Ring α) (i : Nat) : Nat :=
  if r.head ≤ i then i - r.head else i + r.size - r.head

theorem age_idx {k : Nat} (hh : r.head < r.size) (hk : k < r.size) :
    r.age (idx r.size r.head k) = k := by
  unfold age idx
  split <;> split <;> omega

theorem idx_age {i : Nat} (hh : r.head < r.size) (hi : i < r.size) :
    idx r.size r.head (r.age i) = i := by
  unfold age idx
  split <;> split <;> omega

theorem Live.age_lt {i : Nat} (hh : r.head < r.size) (ho : r.occupancy ≤ r.size)
    (h : r.Live i) : r.age i < r.occupancy := by
  obtain ⟨k, hk, rfl⟩ := h
  rwa [age_idx hh (by omega)]

theorem Live.lt_size {i : Nat} (hh : r.head < r.size) (ho : r.occupancy ≤ r.size)
    (h : r.Live i) : i < r.size := by
  obtain ⟨k, hk, rfl⟩ := h
  exact idx_lt hh (by omega)

theorem live_push (x : α) {i : Nat} (ht : r.tail = idx r.size r.head r.occupancy) :
    (r.push x).Live i ↔ r.Live i ∨ i = r.tail := by
  constructor
  · rintro ⟨k, hk, hik⟩
    rcases Nat.lt_succ_iff_lt_or_eq.mp hk with hk | rfl
    · exact .inl ⟨k, hk, hik⟩
    · exact .inr (hik.trans ht.symm)
  · rintro (⟨k, hk, rfl⟩ | rfl)
    · exact ⟨k, Nat.lt_succ_of_lt hk, rfl⟩
    · exact ⟨r.occupancy, Nat.lt_succ_self _, ht⟩

theorem age_pop (e : α) {i : Nat} (hh : r.head < r.size) (hi : i < r.size) (hne : i ≠ r.head) :
    (r.pop e).age i + 1 = r.age i := by
  unfold age pop next
  dsimp only
  split <;> split <;> split <;> omega

theorem live_pop (e : α) {i : Nat} (hh : r.head < r.size) (ho : r.occupancy ≤ r.size)
    (hpos : 0 < r.occupancy) : (r.pop e).Live i ↔ r.Live i ∧ i ≠ r.head := by
  constructor
  · rintro ⟨k, hk, rfl⟩
    have hk : k < r.occupancy - 1 := hk
    show r.Live (idx r.size (next r.size r.head) k) ∧ idx r.size (next r.size r.head) k ≠ r.head
    rw [idx_next hh (by omega)]
    refine ⟨⟨k + 1, by omega, rfl⟩, fun he => ?_⟩
    have h0 : idx r.size r.head (k + 1) = idx r.size r.head 0 := by rw [he, idx_zero hh]
    have := idx_inj (by omega) (by omega) h0
    omega
  · rintro ⟨⟨k, hk, rfl⟩, hne⟩
    cases k with
    | zero => exact absurd (idx_zero hh) hne
    | succ k =>
      refine ⟨k, by simp; omega, ?_⟩
      show idx r.size r.head (k + 1) = idx r.size (next r.size r.head) k
      rw [idx_next hh (by omega)]

/-! ## Rewritten rings -/

/-- `r'` is `r` with entries rewritten that agree under `π`. -/
structure Alike {β : Type*} (π : α → β) (r r' : Ring α) : Prop where
  size : r'.size = r.size
  head : r'.head = r.head
  tail : r'.tail = r.tail
  occupancy : r'.occupancy = r.occupancy
  entry : ∀ i, π (r'.entry i) = π (r.entry i)

section Alike

variable {β γ : Type*} {π : α → β} {r' r'' : Ring α}

theorem Alike.refl (π : α → β) (r : Ring α) : Alike π r r := ⟨rfl, rfl, rfl, rfl, fun _ => rfl⟩

theorem Alike.trans (h : Alike π r r') (h' : Alike π r' r'') : Alike π r r'' where
  size := h'.size.trans h.size
  head := h'.head.trans h.head
  tail := h'.tail.trans h.tail
  occupancy := h'.occupancy.trans h.occupancy
  entry := fun i => (h'.entry i).trans (h.entry i)

/-- A coarser view. -/
theorem Alike.comp (h : Alike π r r') (f : β → γ) : Alike (f ∘ π) r r' :=
  ⟨h.size, h.head, h.tail, h.occupancy, fun i => congrArg f (h.entry i)⟩

theorem Alike.of_entry {f : Nat → α} (h : ∀ i, π (f i) = π (r.entry i)) :
    Alike π r { r with entry := f } := ⟨rfl, rfl, rfl, rfl, h⟩

theorem Alike.of_update {i : Nat} {x : α} (h : π x = π (r.entry i)) :
    Alike π r { r with entry := Function.update r.entry i x } := by
  refine .of_entry fun j => ?_
  by_cases hj : j = i
  · subst hj
    rw [Function.update_self, h]
  · rw [Function.update_of_ne hj]

theorem Alike.live (h : Alike π r r') {i : Nat} : r'.Live i ↔ r.Live i := by
  simp only [Live, h.size, h.head, h.occupancy]

theorem Alike.age (h : Alike π r r') (i : Nat) : r'.age i = r.age i := by
  simp only [Ring.age, h.size, h.head]

theorem Alike.contents (h : Alike π r r') : r'.contents.map π = r.contents.map π := by
  simp only [Ring.contents, List.map_map, h.size, h.head, h.occupancy]
  exact List.map_congr_left fun k _ => h.entry _

theorem Alike.wf (h : Alike π r r') (hE : ∀ x y, π x = π y → E y → E x) (hwf : Wf E r) :
    Wf E r' where
  head_lt := by rw [h.size, h.head]; exact hwf.head_lt
  head_zero := by rw [h.size, h.head]; exact hwf.head_zero
  occ_le := by rw [h.size, h.occupancy]; exact hwf.occ_le
  tail_eq := by rw [h.tail, h.size, h.head, h.occupancy]; exact hwf.tail_eq
  outside := fun i hi hl =>
    hE _ _ (h.entry i) (hwf.outside i (h.size ▸ hi) fun hl' => hl (h.live.mpr hl'))

end Alike

end Ring

end Lib
end ChampSim
