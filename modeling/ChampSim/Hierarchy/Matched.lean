import ChampSim.Hierarchy.Model
import ChampSim.Cache.Trade

/-!
# ChampSim.Hierarchy.Matched

Data owed to the levels above, and misses of these levels in flight.

* `waits`    — the misses of an address in flight above a cache.
* `Matched`  — no cache owes more to the levels above than they wait for. `spare` is a margin.
* `Returned` — what calls leave behind that hand data to the levels above.
* `handle_matched` — what a handler and its calls preserve.
-/

namespace ChampSim
namespace Cache

open Lib

variable {numCpus : Nat} {ρ : Type}

/-! ## The connections -/

namespace Node

theorem mem_uppers {u l : Node numCpus} : u ∈ l.uppers ↔ u.lower = some l := by
  cases l with
  | llc =>
    cases u with
    | llc => simp [uppers, lower]
    | ofCore level cpu => cases level <;> simp [uppers, lower]
  | ofCore level i =>
    cases u with
    | llc => cases level <;> simp [uppers, lower]
    | ofCore level' cpu => cases level <;> cases level' <;> simp [uppers, lower, eq_comm]

theorem uppers_nodup (l : Node numCpus) : l.uppers.Nodup := by
  cases l with
  | llc =>
    refine (List.nodup_finRange numCpus).map ?_
    intro i j hij
    simpa using hij
  | ofCore level i => cases level <;> simp [uppers]

theorem lower_ne {n l : Node numCpus} (h : n.lower = some l) : l ≠ n := by
  rintro rfl
  cases l with
  | llc => simp [lower] at h
  | ofCore level i => cases level <;> simp [lower] at h

theorem upperIcache_lower {l u : Node numCpus} {cpu : Nat} (h : l.upperIcache cpu = some u) :
    u.lower = some l := by
  cases l with
  | llc =>
    simp only [upperIcache, Option.dite_none_right_eq_some, Option.some.injEq] at h
    obtain ⟨_, rfl⟩ := h
    rfl
  | ofCore level i =>
    cases level with
    | stlb | l2c =>
      simp only [upperIcache, Option.ite_none_right_eq_some, Option.some.injEq] at h
      obtain ⟨_, rfl⟩ := h
      rfl
    | itlb | dtlb | l1i | l1d => cases h

theorem upperDcache_lower {l u : Node numCpus} {cpu : Nat} (h : l.upperDcache cpu = some u) :
    u.lower = some l := by
  cases l with
  | llc =>
    simp only [upperDcache, Option.dite_none_right_eq_some, Option.some.injEq] at h
    obtain ⟨_, rfl⟩ := h
    rfl
  | ofCore level i =>
    cases level with
    | stlb | l2c =>
      simp only [upperDcache, Option.ite_none_right_eq_some, Option.some.injEq] at h
      obtain ⟨_, rfl⟩ := h
      rfl
    | itlb | dtlb | l1i | l1d => cases h

theorem target_lower {l u : Node numCpus} {k : Call} {p : Packet}
    (h : l.target k = some (u, p)) : u.lower = some l := by
  cases k with
  | returnIcache cpu q =>
    obtain ⟨u', hu, heq⟩ := Option.map_eq_some_iff.mp h
    cases heq
    exact upperIcache_lower hu
  | returnDcache cpu q =>
    obtain ⟨u', hu, heq⟩ := Option.map_eq_some_iff.mp h
    cases heq
    exact upperDcache_lower hu
  | lowerAddRq | lowerAddWq | lowerAddPq | lowerWqFull => cases h

/-- The MSHR entries of the caches above fit into the `RQ`. -/
theorem uppers_fit (l : Node numCpus) :
    (l.uppers.map fun u => u.config.mshrSize).sum ≤ l.config.rqSize := by
  cases l with
  | llc =>
    have : (Node.uppers (.llc : Node numCpus)).map (fun u => u.config.mshrSize) =
        List.replicate numCpus 32 := by
      rw [uppers, List.map_map]
      refine List.eq_replicate_iff.mpr ⟨by simp, fun x hx => ?_⟩
      obtain ⟨i, -, rfl⟩ := List.mem_map.mp hx
      rfl
    rw [this, List.sum_replicate]
    exact le_refl _
  | ofCore level i =>
    cases level <;> simp [uppers, config, Level.config, stlb, l2c, itlb, dtlb, l1i, l1d]

/-- The second level of a core, or the LLC. -/
inductive Below (n l : Node numCpus) : Prop
  | icache (hn : n.config.cacheType = .itlb ∨ n.config.cacheType = .l1i)
    (hlevel : n.config.fillLevel = fillL1) (hl : l.config.fillLevel = fillL2)
  | dcache (hn : n.config.cacheType = .dtlb ∨ n.config.cacheType = .l1d)
    (hlevel : n.config.fillLevel = fillL1) (hl : l.config.fillLevel = fillL2)
  | second (hl : l = .llc) (hlevel : n.config.fillLevel = fillL2)

theorem below {n l : Node numCpus} (h : n.lower = some l) : Below n l := by
  cases n with
  | llc => simp [lower] at h
  | ofCore level i =>
    cases level with
    | itlb => cases h; exact .icache (.inl rfl) rfl rfl
    | dtlb => cases h; exact .dcache (.inl rfl) rfl rfl
    | stlb => simp [lower] at h
    | l1i => cases h; exact .icache (.inr rfl) rfl rfl
    | l1d => cases h; exact .dcache (.inr rfl) rfl rfl
    | l2c => cases h; exact .second rfl rfl

theorem Below.level {n l : Node numCpus} (h : Below n l) :
    l.config.fillLevel = n.config.fillLevel * 2 := by
  cases h with
  | icache _ hn hl | dcache _ hn hl => rw [hn, hl]; rfl
  | second hl hn => rw [hn, hl]; rfl

theorem level_cases (l : Node numCpus) :
    l.config.fillLevel = fillL1 ∨ l.config.fillLevel = fillL2 ∨ l = .llc := by
  cases l with
  | llc => exact .inr (.inr rfl)
  | ofCore level i =>
    cases level with
    | itlb | dtlb | l1i | l1d => exact .inl rfl
    | stlb | l2c => exact .inr (.inl rfl)

theorem eq_llc {n : Node numCpus} (h : n.config.cacheType = .llc) : n = .llc := by
  cases n with
  | llc => rfl
  | ofCore level i => cases level <;> cases h

theorem lower_cacheType {n l : Node numCpus} (h : n.lower = some l) :
    l.config.cacheType = .stlb ∨ l.config.cacheType = .l2c ∨ l.config.cacheType = .llc := by
  cases n with
  | llc => simp [lower] at h
  | ofCore level i =>
    cases level with
    | itlb | dtlb => cases h; exact .inl rfl
    | stlb => simp [lower] at h
    | l1i | l1d => cases h; exact .inr (.inl rfl)
    | l2c => cases h; exact .inr (.inr rfl)

end Node

/-- The prefetchers and the clock are proper, and the DRAM answers for an address. -/
def Action.Proper : Action numCpus → Prop
  | .operate n E =>
    E.fill.Proper n.config ∧ E.writeback.Proper n.config ∧ (∀ k, (E.read k).Proper n.config) ∧
      ∀ k, (E.prefetch k).Proper n.config
  | .prefetch n _ k => k.Proper n.config
  | .returnData _ p => p.address ≠ 0
  | .request .. | .store .. | .invalidateEntry .. | .complete _ => True

/-! ## The invariant -/

namespace Machine

def owes (m : Machine numCpus ρ) (n : Node numCpus) (a : Nat) : Nat :=
  (m.node n).books.owes n.config a

/-- The misses of `a` in flight in the caches above `l`. -/
def waits (m : Machine numCpus ρ) (l : Node numCpus) (a : Nat) : Nat :=
  tally (fun u => flies u.config a (m.node u).mshr) l.uppers

structure Sound (m : Machine numCpus ρ) : Prop where
  shape : ∀ n, Shape n.config (m.node n)
  good : ∀ n : Node numCpus, Good n.config (m.node n).books

structure Matched (spare : Node numCpus → Nat → Nat) (m : Machine numCpus ρ) : Prop where
  sound : m.Sound
  owes : ∀ n a, m.owes n a + spare n a ≤ m.waits n a
  refused : m.refused = []
  crowded : m.crowded = []

section Set

variable {m : Machine numCpus ρ} {n l u : Node numCpus} {s : State ρ}

@[simp] theorem set_node_self : (m.set n s).node n = s := Function.update_self _ _ _

theorem set_node_of_ne (h : l ≠ n) : (m.set n s).node l = m.node l := Function.update_of_ne h _ _

theorem set_set (s s' : State ρ) : (m.set n s).set n s' = m.set n s' := by
  simp [set]

theorem Sound.set (h : m.Sound) (hs : Shape n.config s) (hg : Good n.config s.books) :
    (m.set n s).Sound := by
  constructor
  · intro x
    by_cases hx : x = n
    · subst hx
      rwa [set_node_self]
    · rw [set_node_of_ne hx]
      exact h.shape x
  · intro x
    by_cases hx : x = n
    · subst hx
      rwa [set_node_self]
    · rw [set_node_of_ne hx]
      exact h.good x

theorem owes_set_of_ne (h : l ≠ n) (a : Nat) : (m.set n s).owes l a = m.owes l a := by
  unfold owes
  rw [set_node_of_ne h]

theorem waits_set (h : u.lower = some l) (a : Nat) :
    (m.set u s).waits l a + flies u.config a (m.node u).mshr =
      m.waits l a + flies u.config a s.mshr := by
  have hrest : ∀ x ∈ l.uppers, x ≠ u →
      flies x.config a ((m.set u s).node x).mshr = flies x.config a (m.node x).mshr :=
    fun x _ hx => by rw [set_node_of_ne hx]
  have hsum := tally_eq_of_ne l.uppers_nodup (Node.mem_uppers.mpr h) hrest
  rw [set_node_self] at hsum
  exact hsum

theorem waits_set_of_ne (h : u.lower ≠ some l) (a : Nat) :
    (m.set u s).waits l a = m.waits l a := by
  unfold waits tally
  congr 1
  refine List.map_congr_left fun x hx => ?_
  rw [set_node_of_ne]
  rintro rfl
  exact h (Node.mem_uppers.mp hx)

/-- A node changes: it owes less, and waits for more. -/
theorem Matched.set {w δ : Nat → Nat} (h : m.Matched fun _ _ => 0) (hs : Shape n.config s)
    (hg : Good n.config s.books)
    (howes : ∀ a, s.books.owes n.config a + w a ≤ m.owes n a)
    (hflies : ∀ l, n.lower = some l → ∀ a,
      flies n.config a (m.node n).mshr + δ a ≤ flies n.config a s.mshr) :
    (m.set n s).Matched fun x a =>
      (if x = n then w a else 0) + if n.lower = some x then δ a else 0 := by
  refine ⟨h.sound.set hs hg, fun x a => ?_, h.refused, h.crowded⟩
  have hold := h.owes x a
  have hmore : m.waits x a + (if n.lower = some x then δ a else 0) ≤ (m.set n s).waits x a := by
    by_cases hx : n.lower = some x
    · rw [if_pos hx]
      have := waits_set (m := m) (s := s) hx a
      have := hflies x hx a
      omega
    · rw [if_neg hx, waits_set_of_ne hx]
      exact le_refl _
  by_cases hx : x = n
  · subst hx
    rw [if_pos rfl]
    have := howes a
    have hself : (m.set x s).owes x a = s.books.owes x.config a := by
      unfold Machine.owes
      rw [set_node_self]
    omega
  · rw [if_neg hx, owes_set_of_ne hx]
    omega

theorem Matched.mono {spare spare' : Node numCpus → Nat → Nat} (h : m.Matched spare)
    (hle : ∀ n a, spare' n a ≤ spare n a) : m.Matched spare' :=
  ⟨h.sound, fun n a => (Nat.add_le_add_left (hle n a) _).trans (h.owes n a), h.refused, h.crowded⟩

end Set

/-! ## Data goes up -/

/-- Some calls have handed data to caches: there are fewer misses in flight, by `w` at most. -/
structure Returned (w : Node numCpus → Nat → Nat) (m m' : Machine numCpus ρ) : Prop where
  sound : m'.Sound
  owes : ∀ n a, m'.owes n a = m.owes n a
  waits : ∀ n a, m.waits n a ≤ m'.waits n a + w n a
  refused : m'.refused = m.refused
  crowded : m'.crowded = m.crowded

/-- `w` for the caches above `l`. -/
def above (l : Node numCpus) (w : Nat → Nat) (n : Node numCpus) (a : Nat) : Nat :=
  if n = l then w a else 0

section Returns

variable {m m' m'' : Machine numCpus ρ} {n l u : Node numCpus} {env : Env}
  {w w' : Node numCpus → Nat → Nat} {p q : Packet}

theorem Returned.refl (h : m.Sound) (w : Node numCpus → Nat → Nat) : Returned w m m :=
  ⟨h, fun _ _ => rfl, fun _ _ => Nat.le_add_right _ _, rfl, rfl⟩

theorem Returned.trans (h : Returned w m m') (h' : Returned w' m' m'') :
    Returned (fun n a => w n a + w' n a) m m'' := by
  refine ⟨h'.sound, fun n a => (h'.owes n a).trans (h.owes n a), fun n a => ?_,
    h'.refused.trans h.refused, h'.crowded.trans h.crowded⟩
  have := h.waits n a
  have := h'.waits n a
  omega

theorem Returned.mono (h : Returned w m m') (hle : ∀ n a, w n a ≤ w' n a) : Returned w' m m' :=
  ⟨h.sound, h.owes, fun n a => (h.waits n a).trans (Nat.add_le_add_left (hle n a) _), h.refused,
    h.crowded⟩

/-- What is returned is covered by the margin. -/
theorem Matched.returned {spare spare' : Node numCpus → Nat → Nat} (h : m.Matched spare)
    (hr : Returned w m m') (hle : ∀ n a, spare' n a + w n a ≤ spare n a) : m'.Matched spare' := by
  refine ⟨hr.sound, fun n a => ?_, hr.refused.trans h.refused, hr.crowded.trans h.crowded⟩
  have := h.owes n a
  have := hr.waits n a
  have := hle n a
  rw [hr.owes]
  omega

/-- The same data reaches `u`, again and again. -/
theorem run_returns {ks : List Call} (hm : m.Sound)
    (hks : ∀ k ∈ ks, l.target k = some (u, q)) (h0 : q.address ≠ 0)
    (h : run (returnUp env l) m ks = some m') :
    ∃ s, m' = m.set u s ∧ Shape u.config s ∧ Good u.config s.books ∧
      (∀ a, s.books.owes u.config a = m.owes u a) ∧
      ∀ a, q.address ≠ a → flies u.config a s.mshr = flies u.config a (m.node u).mshr := by
  refine run_invariant (I := fun t => ∃ s, t = m.set u s ∧ Shape u.config s ∧
      Good u.config s.books ∧ (∀ a, s.books.owes u.config a = m.owes u a) ∧
      ∀ a, q.address ≠ a → flies u.config a s.mshr = flies u.config a (m.node u).mshr)
    (P := fun _ k => l.target k = some (u, q)) ?_
    ⟨m.node u, by simp [set], hm.shape u, hm.good u, fun _ => rfl, fun _ _ => rfl⟩
    (along_of_forall hks m) h
  rintro t k t' ⟨s, rfl, hs, hg, howes, hflies⟩ hk ht'
  obtain ⟨⟨_, _⟩, hv, ht'⟩ := Option.bind_eq_some_iff.mp ht'
  cases hk.symm.trans hv
  obtain ⟨s', hs', rfl⟩ := Option.map_eq_some_iff.mp ht'
  rw [set_node_self] at hs'
  obtain ⟨hshape, -⟩ := (returnData_does (I := True) hs).of_eq hs'
  obtain ⟨q', rfl, hq', howes', hle, hge⟩ := returnData_books hg.mshr h0 hs'
  refine ⟨_, set_set _ _, hshape, hg.withMshr hq', fun a => ?_, fun a ha => ?_⟩
  · have hsame : (State.books { s with mshr := q' }).owes u.config a =
        s.books.owes u.config a := congrArg (_ + ·) (howes' a)
    exact hsame.trans (howes a)
  · have hge := hge a
    rw [if_neg ha, Nat.add_zero] at hge
    exact (le_antisymm (hle a) hge).trans (hflies a ha)

/-- A cache has one miss of an address at most, which the calls take. -/
theorem run_returnUp {o : Option (Node numCpus)} {ks : List Call} (hm : m.Sound)
    (hks : ∀ k ∈ ks, l.target k = o.map fun u => (u, q)) (h0 : q.address ≠ 0)
    (h : run (returnUp env l) m ks = some m') :
    Returned (above l fun a => if q.address = a then min 1 ks.length else 0) m m' := by
  cases ks with
  | nil =>
    cases h
    exact Returned.refl hm _
  | cons k ks =>
    obtain ⟨m₁, hm₁, -⟩ := run_cons_inv h
    obtain ⟨⟨u, q'⟩, hu, -⟩ := Option.bind_eq_some_iff.mp hm₁
    rw [hks k List.mem_cons_self] at hu
    obtain ⟨_, ho, heq⟩ := Option.map_eq_some_iff.mp hu
    cases heq
    have hlower : u.lower = some l := Node.target_lower ((hks k List.mem_cons_self).trans hu)
    obtain ⟨s, rfl, hs, hg, howes, hflies⟩ :=
      run_returns hm (fun k hk => (hks k hk).trans hu) h0 h
    refine ⟨hm.set hs hg, fun n a => ?_, fun n a => ?_, rfl, rfl⟩
    · by_cases hn : n = u
      · subst hn
        unfold Machine.owes
        rw [set_node_self]
        exact howes a
      · exact owes_set_of_ne hn a
    · unfold above
      by_cases hn : n = l
      · subst hn
        rw [if_pos rfl]
        have hsum := waits_set (m := m) (s := s) hlower a
        have hone : flies u.config a (m.node u).mshr ≤ 1 := flies_le_one (hm.good u).mshr a
        dsimp only
        split
        · rw [List.length_cons, Nat.min_eq_left (by omega)]
          omega
        · rename_i ha
          have := hflies a ha
          omega
      · rw [if_neg hn, waits_set_of_ne fun hx => hn (Option.some.inj (hx.symm.trans hlower))]
        exact Nat.le_add_right _ _

/-- The data of `q` goes to the caches that it is owed to. -/
theorem run_returnCalls {cpu : Nat} (hm : m.Sound) (hq : Fits l.config q) (h0 : q.address ≠ 0)
    (h : run (returnUp env l) m (returnCalls l.config cpu q) = some m') :
    Returned (above l fun a => weigh l.config a q) m m' := by
  by_cases hlevel : l.config.fillLevel ≤ q.fillLevel
  · rw [returnCalls_of_level hlevel] at h
    cases h
    exact Returned.refl hm _
  · unfold returnCalls at h
    rw [if_pos (Int.not_le.mp hlevel)] at h
    rcases l.level_cases with hl | hl | rfl
    · have := hq.level
      simp only [hl, fillL1, fillL2, fillLlc] at this hlevel
      omega
    · -- A mark for each of the two caches above.
      rw [if_pos hl, if_pos hl, run_append] at h
      obtain ⟨m₁, hm₁, h⟩ := Option.bind_eq_some_iff.mp h
      have hi := run_returnUp (o := l.upperIcache cpu) hm (by
        intro k hk
        obtain ⟨_, rfl⟩ : _ ∧ k = _ := by simpa using hk
        rfl) h0 hm₁
      have hd := run_returnUp (o := l.upperDcache cpu) hi.sound (by
        intro k hk
        obtain ⟨_, rfl⟩ : _ ∧ k = _ := by simpa using hk
        rfl) h0 h
      refine (hi.trans hd).mono fun n a => ?_
      unfold above weigh
      rw [owed_marks hq hl]
      by_cases hn : n = l
      · rw [if_pos hn, if_pos hn, if_pos hn]
        dsimp only
        by_cases ha : q.address = a
        · rw [if_pos ha, if_pos ha, if_pos ha]
          cases q.fillL1i <;> cases q.fillL1d <;> simp
        · rw [if_neg ha, if_neg ha, if_neg ha]
      · rw [if_neg hn, if_neg hn, if_neg hn]
    · -- Both calls reach the second level of the same core.
      have hall := run_returnUp (o := Node.upperIcache cpu .llc) hm (by
        intro k hk
        rcases List.mem_append.mp hk with hk | hk
        · obtain ⟨_, rfl⟩ : _ ∧ k = _ := by simpa using hk
          rfl
        · obtain ⟨_, rfl⟩ : _ ∧ k = _ := by simpa using hk
          rfl) h0 h
      refine hall.mono fun n a => ?_
      have howed : owed (Node.config (.llc : Node numCpus)) q = 1 := by
        unfold owed
        rw [if_pos (Int.not_le.mp hlevel)]
        rfl
      unfold above weigh
      rw [howed]
      split
      · dsimp only
        split
        · exact Nat.min_le_left _ _
        · exact le_refl _
      · exact le_refl _

end Returns

/-! ## Requests go down -/

section Requests

variable {m m' : Machine numCpus ρ} {n l : Node numCpus} {env : Env} {p q : Packet} {s s' : State ρ}

theorem fits_lower (hl : n.lower = some l) (hp : Fits n.config p) : Fits l.config p := by
  refine ⟨hp.level, hp.marked, fun h => ?_, fun h => ?_⟩
  · rcases Node.lower_cacheType hl with hc | hc | hc <;> simp [hc] at h
  · rcases Node.lower_cacheType hl with hc | hc | hc <;> simp [hc] at h

/-- A request is owed below what its cache waits for. -/
theorem weigh_lower (hl : n.lower = some l) (hp : Fits n.config p) (a : Nat) :
    weigh l.config a p ≤
      if p.address = a ∧ p.fillLevel ≤ n.config.fillLevel then 1 else 0 := by
  have hlevel := hp.level
  unfold weigh
  by_cases ha : p.address = a
  · rw [if_pos ha]
    cases Node.below hl with
    | icache hn hn1 hl2 =>
      rw [owed_marks (fits_lower hl hp) hl2, hp.icache hn]
      split
      · cases p.fillL1i <;> decide
      · rename_i hne
        have : p.fillL1i = false := by
          rw [← Bool.not_eq_true]
          intro hi
          have := hp.marked.mp (.inl hi)
          exact hne ⟨ha, by rw [hn1, this]⟩
        rw [this]
        exact le_refl _
    | dcache hn hn1 hl2 =>
      rw [owed_marks (fits_lower hl hp) hl2, hp.dcache hn]
      split
      · cases p.fillL1d <;> decide
      · rename_i hne
        have : p.fillL1d = false := by
          rw [← Bool.not_eq_true]
          intro hd
          have := hp.marked.mp (.inr hd)
          exact hne ⟨ha, by rw [hn1, this]⟩
        rw [this]
        exact le_refl _
    | second hl4 hn2 =>
      subst hl4
      unfold owed
      split
      · rename_i hlt
        change p.fillLevel < fillLlc at hlt
        have hfills : p.fillLevel ≤ n.config.fillLevel := by
          simp only [hn2, fillL1, fillL2, fillLlc] at hlevel hlt ⊢
          omega
        have hboth : p.address = a ∧ p.fillLevel ≤ n.config.fillLevel := ⟨ha, hfills⟩
        rw [if_pos hboth]
        exact le_refl _
      · exact Nat.zero_le _
  · rw [if_neg ha]
    exact Nat.zero_le _

/-- The data of a request from above goes to one cache. -/
theorem returnCalls_target {cpu : Nat} (hl : n.lower = some l) (hq : Fits n.config q) :
    ∃ o : Option (Node numCpus), ∀ k ∈ returnCalls l.config cpu q,
      l.target k = o.map fun u => (u, q) := by
  by_cases hlevel : l.config.fillLevel ≤ q.fillLevel
  · rw [returnCalls_of_level hlevel]
    exact ⟨none, by simp⟩
  · unfold returnCalls
    rw [if_pos (Int.not_le.mp hlevel)]
    cases Node.below hl with
    | icache hn _ hl2 =>
      refine ⟨l.upperIcache cpu, fun k hk => ?_⟩
      rw [if_pos hl2, if_pos hl2, hq.icache hn] at hk
      obtain ⟨_, rfl⟩ : _ ∧ k = _ := by simpa using hk
      rfl
    | dcache hn _ hl2 =>
      refine ⟨l.upperDcache cpu, fun k hk => ?_⟩
      rw [if_pos hl2, if_pos hl2, hq.dcache hn] at hk
      obtain ⟨_, rfl⟩ : _ ∧ k = _ := by simpa using hk
      rfl
    | second hl4 _ =>
      subst hl4
      refine ⟨Node.upperIcache cpu .llc, fun k hk => ?_⟩
      rcases List.mem_append.mp hk with hk | hk
      · obtain ⟨_, rfl⟩ : _ ∧ k = _ := by simpa using hk
        rfl
      · obtain ⟨_, rfl⟩ : _ ∧ k = _ := by simpa using hk
        rfl

/-- Either all of it was for the caller, or none. -/
theorem answered_returned {cpu : Nat} (hm : m.Sound) (hl : n.lower = some l)
    (hq : Fits n.config q) (h0 : q.address ≠ 0)
    (hcalls : (m.node l).calls = returnCalls l.config cpu q)
    (h : answered env n l m = some m') :
    Returned (above l fun a => if env.answers = [] then weigh l.config a q else 0) m m' := by
  unfold answered at h
  dsimp only at h
  split at h
  · rename_i hanswers
    rw [hcalls] at h hanswers
    obtain ⟨o, ho⟩ : ∃ o : Option (Node numCpus), ∀ k ∈ returnCalls l.config cpu q,
        l.target k = o.map fun u => (u, q) := returnCalls_target hl hq
    by_cases hself : o = some n
    · have hnone : (returnCalls l.config cpu q).filter (fun k => (l.answerTo n k).isNone) = [] := by
        rw [List.filter_eq_nil_iff]
        intro k hk
        simp [Node.answerTo, ho k hk, hself]
      rw [hnone] at h
      cases h
      exact Returned.refl hm _
    · have hother : ∀ k ∈ returnCalls l.config cpu q, l.answerTo n k = none := by
        intro k hk
        unfold Node.answerTo
        rw [ho k hk]
        cases o with
        | none => rfl
        | some u => exact if_neg fun hu => hself (congrArg some hu)
      rw [List.filter_eq_self.mpr fun k hk => by simp [hother k hk]] at h
      have hnil : env.answers = [] := by
        rw [← hanswers]
        exact List.filterMap_eq_nil_iff.mpr hother
      rw [hnil]
      exact run_returnCalls hm (fits_lower hl hq) h0 h
  · cases h

theorem Returned.set (hm : m.Sound) (hs : Shape n.config s) (hg : Good n.config s.books)
    (howes : ∀ a, s.books.owes n.config a = m.owes n a) (hmshr : s.mshr = (m.node n).mshr) :
    Returned (fun _ _ => 0) m (m.set n s) := by
  refine ⟨hm.set hs hg, fun x a => ?_, fun x a => ?_, rfl, rfl⟩
  · by_cases hx : x = n
    · subst hx
      unfold Machine.owes
      rw [set_node_self]
      exact howes a
    · exact owes_set_of_ne hx a
  · by_cases hx : n.lower = some x
    · have hsum := waits_set (m := m) (s := s) hx a
      rw [hmshr] at hsum
      omega
    · rw [waits_set_of_ne hx]
      exact le_refl _

/-- What the margin is for: a request arrives for which its cache waits. -/
theorem arrived_matched {δ : Nat → Nat} (h : m.Matched (above l δ)) (hl : n.lower = some l)
    (hp : Fits n.config p) (h0 : p.address ≠ 0)
    (hδ : ∀ a, (if env.answers = [] ∧ p.address = a ∧ p.fillLevel ≤ n.config.fillLevel then 1
      else 0) ≤ δ a) (hs : Shape l.config s) (hg : Good l.config s.books)
    (hout : (∃ q, SameRequest p q ∧ s.books =
        { (m.node l).books with calls := returnCalls l.config p.cpu q }) ∨
      s.calls = [] ∧ s.mshr = (m.node l).mshr ∧
        ∀ a, s.books.owes l.config a ≤ m.owes l a + weigh l.config a p)
    (h' : answered env n l (m.set l s) = some m') : m'.Matched fun _ _ => 0 := by
  rcases hout with ⟨q, hq, hbooks⟩ | ⟨hcalls, hmshr, howes⟩
  · have hset : Returned (fun _ _ => 0) m (m.set l s) :=
      Returned.set h.sound hs hg (fun a => by rw [hbooks]; rfl) (congrArg Books.mshr hbooks)
    have hreturned := answered_returned hset.sound hl (hp.same hq) (hq.address ▸ h0)
      (by rw [set_node_self]; exact congrArg Books.calls hbooks) h'
    refine h.returned (hset.trans hreturned) fun x a => ?_
    unfold above
    by_cases hx : x = l
    · rw [if_pos hx, if_pos hx]
      dsimp only
      rw [weigh_same hq]
      have hweigh := weigh_lower hl hp a
      have hδ := hδ a
      split
      · rename_i hnil
        simp only [hnil, true_and] at hδ
        omega
      · omega
    · rw [if_neg hx, if_neg hx]
  · unfold answered at h'
    dsimp only at h'
    rw [set_node_self, hcalls] at h'
    split at h'
    · rename_i hanswers
      cases h'
      refine ⟨h.sound.set hs hg, fun x a => ?_, h.refused, h.crowded⟩
      have hold := h.owes x a
      have hwaits : (m.set l s).waits x a = m.waits x a := by
        by_cases hx : l.lower = some x
        · have hsum := waits_set (m := m) (s := s) hx a
          rw [hmshr] at hsum
          omega
        · exact waits_set_of_ne hx a
      rw [hwaits]
      unfold above at hold
      by_cases hx : x = l
      · subst hx
        rw [if_pos rfl] at hold
        have hweigh := weigh_lower hl hp a
        have hδ := hδ a
        have howes := howes a
        simp only [← hanswers, List.filterMap_nil, true_and] at hδ
        have hself : (m.set x s).owes x a = s.books.owes x.config a := by
          unfold Machine.owes
          rw [set_node_self]
        omega
      · rw [owes_set_of_ne hx]
        omega
    · cases h'

end Requests

end Machine

end Cache
end ChampSim
