import ChampSim.Lib.Ring

/-!
# ChampSim.Lib.Feed

Arrays of numbers with a head and a tail but no count: a free slot holds a mark.

* `Feed.push` / `Feed.pop` — write at the tail, put the mark back at the head.
* `Feed.Holds f l`         — `f` holds the list `l`, oldest first, and the mark everywhere else.
* `Holds.push`, `Holds.pop`, `Holds.free` — the operations on the list.
* `Feed.Selects f n g v`   — the list is the positions below `n` where `g` is `v`.

Nothing stops a `push` into a full feed: it overwrites the oldest element. `Holds.push` asks for room.
-/

namespace ChampSim
namespace Lib

structure Feed where
  size : Nat
  /-- The mark of a free slot. -/
  mark : Nat
  head : Nat
  tail : Nat
  slot : Nat → Nat

namespace Feed

def new (size mark : Nat) : Feed := ⟨size, mark, 0, 0, fun _ => mark⟩

def front (f : Feed) : Nat := f.slot f.head

def push (f : Feed) (x : Nat) : Feed :=
  { f with slot := Function.update f.slot f.tail x, tail := Ring.next f.size f.tail }

def pop (f : Feed) : Feed :=
  { f with slot := Function.update f.slot f.head f.mark, head := Ring.next f.size f.head }

@[simp] theorem push_size (f : Feed) (x : Nat) : (f.push x).size = f.size := rfl
@[simp] theorem push_mark (f : Feed) (x : Nat) : (f.push x).mark = f.mark := rfl
@[simp] theorem pop_size (f : Feed) : f.pop.size = f.size := rfl
@[simp] theorem pop_mark (f : Feed) : f.pop.mark = f.mark := rfl

/-- The ring of `n` elements that starts at the head. -/
def ring (f : Feed) (n : Nat) : Ring Nat := ⟨f.size, f.head, f.tail, n, f.slot⟩

structure Holds (f : Feed) (l : List Nat) : Prop where
  pos : 0 < f.size
  wf : Ring.Wf (· = f.mark) (f.ring l.length)
  contents : (f.ring l.length).contents = l

variable {f : Feed} {l : List Nat} {x : Nat}

theorem holds_new {size mark : Nat} (h : 0 < size) : Holds (new size mark) [] where
  pos := h
  wf := Ring.wf_init size _ fun _ _ => rfl
  contents := rfl

/-- A feed that has been written from slot 0 on. -/
theorem holds_of_slots {n : Nat} (hhead : f.head = 0) (htail : f.tail = n) (hn : n < f.size)
    (hmark : ∀ i < f.size, n ≤ i → f.slot i = f.mark) : f.Holds ((List.range n).map f.slot) := by
  have hidx : ∀ k ≤ n, Ring.idx f.size f.head k = k := by
    intro k hk
    rw [hhead, Ring.idx, if_pos (by omega), Nat.zero_add]
  have hlen : ((List.range n).map f.slot).length = n := by
    rw [List.length_map, List.length_range]
  refine ⟨by omega, ?_, ?_⟩
  · rw [hlen]
    refine ⟨fun _ => ?_, fun _ => hhead, hn.le, htail.trans (hidx n le_rfl).symm, fun i hi hdead => ?_⟩
    · show f.head < f.size
      omega
    · exact hmark i hi (Nat.le_of_not_lt fun hlt => hdead ⟨i, hlt, (hidx i hlt.le).symm⟩)
  · rw [hlen]
    exact List.map_congr_left fun k hk => congrArg f.slot (hidx k (List.mem_range.mp hk).le)

theorem Holds.length_le (h : f.Holds l) : l.length ≤ f.size := h.wf.occ_le

/-- The slot that a push writes is free while there is room. -/
theorem Holds.free (h : f.Holds l) (hroom : l.length < f.size) : f.slot f.tail = f.mark :=
  h.wf.tail_empty hroom

/-- With no room, it holds the oldest element. -/
theorem Holds.not_free (h : f.Holds l) (hfull : l.length = f.size) (hmark : f.mark ∉ l) :
    f.slot f.tail ≠ f.mark := by
  have hpos := h.pos
  have hhead := h.wf.head_lt h.pos
  have htail : f.tail = f.head := by
    have hidx : f.tail = Ring.idx f.size f.head l.length := h.wf.tail_eq
    have hlt : f.head < f.size := hhead
    rw [hidx, hfull]
    unfold Ring.idx
    split <;> omega
  have hmem : f.slot f.head ∈ l := by
    rw [← h.contents]
    exact Ring.mem_contents.mpr ⟨0, by show 0 < l.length; omega, by rw [Ring.idx_zero hhead]; rfl⟩
  intro hfree
  rw [htail] at hfree
  exact hmark (hfree ▸ hmem)

theorem Holds.push (h : f.Holds l) (hroom : l.length < f.size) (x : Nat) :
    (f.push x).Holds (l ++ [x]) where
  pos := h.pos
  wf := by
    rw [List.length_append]
    exact h.wf.push hroom x
  contents := by
    rw [List.length_append]
    exact (Ring.push_contents h.wf hroom x).trans (by rw [h.contents])

theorem Holds.front (h : f.Holds (x :: l)) : f.front = x := by
  have hpop := Ring.pop_contents h.wf (Nat.succ_pos _) f.mark
  rw [h.contents] at hpop
  exact (List.cons.inj hpop).1.symm

theorem Holds.front_nil (h : f.Holds []) : f.front = f.mark :=
  h.wf.outside _ (h.wf.head_lt h.pos) fun ⟨_, hk, _⟩ => absurd hk (Nat.not_lt_zero _)

theorem Holds.pop (h : f.Holds (x :: l)) : f.pop.Holds l where
  pos := h.pos
  wf := h.wf.pop (Nat.succ_pos _) rfl
  contents := by
    have hpop := Ring.pop_contents h.wf (Nat.succ_pos _) f.mark
    rw [h.contents] at hpop
    exact (List.cons.inj hpop).2.symm

/-- A front other than the mark is the oldest element. -/
theorem Holds.of_front (h : f.Holds l) (hfront : f.front ≠ f.mark) : ∃ l', l = f.front :: l' := by
  cases l with
  | nil => exact absurd h.front_nil hfront
  | cons x l => exact ⟨l, by rw [h.front]⟩

/-- A list of distinct numbers below `n` has room for one more. -/
theorem length_lt_of_nodup {n : Nat} (hnodup : l.Nodup) (hlt : ∀ y ∈ l, y < n) (hx : x < n)
    (hnew : x ∉ l) : l.length < n := by
  have hsub : (x :: l) ⊆ List.range n := by
    intro y hy
    rcases List.mem_cons.mp hy with rfl | hy
    · exact List.mem_range.mpr hx
    · exact List.mem_range.mpr (hlt y hy)
  have hle := (List.subperm_of_subset (List.nodup_cons.mpr ⟨hnew, hnodup⟩) hsub).length_le
  rw [List.length_cons, List.length_range] at hle
  omega

/-! ## Counting -/

/-- How many slots hold `x`. -/
def occurrences (f : Feed) (x : Nat) : Nat :=
  ((List.range f.size).filter fun i => f.slot i = x).length

theorem occurrences_eq (f : Feed) (x : Nat) :
    f.occurrences x = ((List.range f.size).map f.slot).count x := by
  unfold occurrences
  rw [List.count_eq_countP, List.countP_map, List.countP_eq_length_filter]
  rfl

/-- The slots, from the head on. -/
theorem range_perm {size head : Nat} (hh : head < size) :
    ((List.range size).map (Ring.idx size head)).Perm (List.range size) := by
  have hnodup : ((List.range size).map (Ring.idx size head)).Nodup :=
    List.nodup_range.map_on fun i hi j hj h =>
      Ring.idx_inj (List.mem_range.mp hi) (List.mem_range.mp hj) h
  have hsub : (List.range size).map (Ring.idx size head) ⊆ List.range size := by
    intro i hi
    obtain ⟨k, hk, rfl⟩ := List.mem_map.mp hi
    exact List.mem_range.mpr (Ring.idx_lt hh (le_of_lt (List.mem_range.mp hk)))
  refine (List.subperm_of_subset hnodup hsub).perm_of_length_le ?_
  rw [List.length_map]

/-- The slots hold the elements, and the mark. -/
theorem Holds.slots (h : f.Holds l) : ((List.range f.size).map f.slot).Perm
    (l ++ List.replicate (f.size - l.length) f.mark) := by
  have hh : f.head < f.size := h.wf.head_lt h.pos
  have hle := h.length_le
  refine ((range_perm hh).map f.slot).symm.trans (.of_eq ?_)
  obtain ⟨m, hm⟩ : ∃ m, f.size = l.length + m := ⟨f.size - l.length, by omega⟩
  have hsplit : List.range f.size = List.range l.length ++ List.range' l.length m := by
    rw [hm, List.range_eq_range', List.range_eq_range', ← List.range'_append_1, Nat.zero_add]
  rw [List.map_map, hsplit, List.map_append]
  congr 1
  · exact h.contents
  · rw [List.eq_replicate_iff]
    refine ⟨by simp; omega, fun y hy => ?_⟩
    obtain ⟨k, hk, rfl⟩ := List.mem_map.mp hy
    obtain ⟨hlo, hhi⟩ := List.mem_range'_1.mp hk
    refine h.wf.outside _ (Ring.idx_lt hh (by omega)) ?_
    rintro ⟨j, hj, heq⟩
    have hj : j < l.length := hj
    have hkj := Ring.idx_inj (show k < f.size by omega) (show j < f.size by omega) heq
    omega

/-- An element other than the mark stands in as many slots as places of the list. -/
theorem Holds.occurrences_eq_count (h : f.Holds l) (hx : x ≠ f.mark) :
    f.occurrences x = l.count x := by
  rw [occurrences_eq, h.slots.count_eq, List.count_append, List.count_replicate,
    if_neg (by simpa using hx.symm), Nat.add_zero]

/-! ## A feed of positions -/

/-- The feed lists the positions below its size where `g` is `v`, each once. -/
structure Selects {κ : Type*} (f : Feed) (n : Nat) (g : Nat → κ) (v : κ) : Prop where
  size : f.size = n
  mark : f.mark = n
  holds : ∃ l, f.Holds l ∧ l.Nodup ∧ ∀ i, i ∈ l ↔ i < n ∧ g i = v

namespace Selects

variable {κ : Type*} {f : Feed} {n i : Nat} {g : Nat → κ} {u v : κ}

theorem new (hn : 0 < n) (h : ∀ i, g i ≠ v) : (Feed.new n n).Selects n g v :=
  ⟨rfl, rfl, [], holds_new hn, .nil, fun i =>
    ⟨fun hi => absurd hi List.not_mem_nil, fun hi => absurd hi.2 (h i)⟩⟩

/-- The same positions are at `v`. -/
theorem congr {g' : Nat → κ} (h : f.Selects n g v) (hg : ∀ k, g' k = v ↔ g k = v) :
    f.Selects n g' v := by
  obtain ⟨l, hl, hnodup, hmem⟩ := h.holds
  refine ⟨h.size, h.mark, l, hl, hnodup, fun k => ?_⟩
  rw [hmem k, hg k]

/-- A position changes that was not listed and is not to be. -/
theorem other (h : f.Selects n g v) (hold : g i ≠ v) (hnew : u ≠ v) :
    f.Selects n (Function.update g i u) v := by
  refine h.congr fun k => ?_
  by_cases hk : k = i
  · subst hk
    rw [Function.update_self]
    exact ⟨fun hk => absurd hk hnew, fun hk => absurd hk hold⟩
  · rw [Function.update_of_ne hk]

/-- A position joins the list. -/
theorem push (h : f.Selects n g v) (hi : i < n) (hold : g i ≠ v) :
    (f.push i).Selects n (Function.update g i v) v := by
  obtain ⟨l, hl, hnodup, hmem⟩ := h.holds
  have hnot : i ∉ l := fun hin => hold ((hmem i).mp hin).2
  have hroom : l.length < f.size := by
    rw [h.size]
    exact length_lt_of_nodup hnodup (fun k hk => ((hmem k).mp hk).1) hi hnot
  refine ⟨h.size, h.mark, l ++ [i], hl.push hroom i, ?_, fun k => ?_⟩
  · refine List.nodup_append.mpr ⟨hnodup, List.nodup_singleton i, fun x hx y hy => ?_⟩
    rw [List.mem_singleton.mp hy]
    rintro rfl
    exact hnot hx
  · rw [List.mem_append, List.mem_singleton, hmem k]
    by_cases hk : k = i
    · subst hk
      rw [Function.update_self]
      exact ⟨fun _ => ⟨hi, rfl⟩, fun _ => .inr rfl⟩
    · rw [Function.update_of_ne hk]
      exact ⟨fun hl => hl.resolve_right hk, .inl⟩

theorem front (h : f.Selects n g v) (hfront : f.front < n) : g f.front = v := by
  obtain ⟨l, hl, -, hmem⟩ := h.holds
  obtain ⟨l', heq⟩ := hl.of_front (by rw [h.mark]; exact Nat.ne_of_lt hfront)
  exact ((hmem f.front).mp (heq ▸ List.mem_cons_self)).2

/-- The front leaves the list. -/
theorem pop (h : f.Selects n g v) (hfront : f.front < n) (hnew : u ≠ v) :
    f.pop.Selects n (Function.update g f.front u) v := by
  obtain ⟨l, hl, hnodup, hmem⟩ := h.holds
  obtain ⟨rest, rfl⟩ := hl.of_front (by rw [h.mark]; exact Nat.ne_of_lt hfront)
  obtain ⟨hnot, hrest⟩ := List.nodup_cons.mp hnodup
  refine ⟨h.size, h.mark, rest, hl.pop, hrest, fun k => ?_⟩
  by_cases hk : k = f.front
  · subst hk
    rw [Function.update_self]
    exact ⟨fun hin => absurd hin hnot, fun hin => absurd hin.2 hnew⟩
  · rw [Function.update_of_ne hk, ← hmem k, List.mem_cons]
    exact ⟨.inr, fun hin => hin.resolve_left hk⟩

end Selects

end Feed

end Lib
end ChampSim
