import ChampSim.Tlb.Hierarchy
import ChampSim.Tlb.Pending

/-!
# ChampSim.Tlb.Once

A miss of a first-level TLB waits for one request in the STLB, and is answered once.

* `handle_frame` — the TLBs of a core are touched by their own handlers only.
* `Even`       — for each side and each page, as many misses are in flight as requests are pending in
  the STLB; `num_returned` counts the answered entries.
* `asked_even` — a new miss has its request in the STLB.
* `gave_even`  — an answer goes to each side that waits for it, and to no other.
* `handle_even`, `step_once` — a handler and an action.
-/

namespace ChampSim
namespace Cache

open Lib

variable {numCpus : Nat} {ρ : Type}

def Side.level : Side → Level
  | .icache => .itlb
  | .dcache => .dtlb

/-- The core that a TLB belongs to. -/
def Node.tlbCore : Node numCpus → Option (Fin numCpus)
  | .ofCore .itlb cpu | .ofCore .dtlb cpu | .ofCore .stlb cpu => some cpu
  | .ofCore .l1i _ | .ofCore .l1d _ | .ofCore .l2c _ | .llc => none

theorem Node.lower_tlbCore {n l : Node numCpus} (h : n.lower = some l) :
    l.tlbCore = n.tlbCore := by
  cases n with
  | llc => simp [lower] at h
  | ofCore level cpu => cases level <;> cases h <;> rfl

theorem Node.side_lower (side : Side) (cpu : Fin numCpus) :
    (Node.ofCore side.level cpu).lower = some (.ofCore .stlb cpu) := by
  cases side <;> rfl

theorem Node.side_ne (side : Side) (cpu : Fin numCpus) :
    Node.ofCore side.level cpu ≠ .ofCore .stlb cpu := by
  cases side <;> simp [Side.level]

namespace Machine

/-! ## Frames -/

section Frame

variable {P : ∀ n : Node numCpus, Policy n.config ρ} {m m' : Machine numCpus ρ}
  {n l x : Node numCpus} {env : Env} {k : Call} {f : Env → State ρ → Option (State ρ)}

theorem returnUp_frame (hx : x.tlbCore ≠ l.tlbCore) (h' : returnUp env l m k = some m') :
    m'.node x = m.node x := by
  obtain ⟨⟨u, p⟩, hu, h'⟩ := Option.bind_eq_some_iff.mp h'
  obtain ⟨s, -, rfl⟩ := Option.map_eq_some_iff.mp h'
  refine set_node_of_ne fun hxu => hx ?_
  rw [hxu]
  exact (Node.lower_tlbCore (Node.target_lower hu)).symm

theorem answered_frame (hx : x.tlbCore ≠ l.tlbCore) (h' : answered env n l m = some m') :
    m'.node x = m.node x := by
  unfold answered at h'
  dsimp only at h'
  split at h'
  · exact run_invariant (I := fun t => t.node x = m.node x) (P := fun _ _ => True)
      (fun _ _ _ h _ h' => (returnUp_frame hx h').trans h) rfl
      (along_of_forall (A := fun _ => True) (by simp) _) h'
  · cases h'

theorem callLower_frame (hl : n.lower = some l) (hx : x.tlbCore ≠ n.tlbCore)
    (h' : callLower env n l m k = some m') : m'.node x = m.node x := by
  rw [← Node.lower_tlbCore hl] at hx
  have hxl : x ≠ l := fun h => hx (by rw [h])
  cases k with
  | lowerAddRq p | lowerAddPq p =>
    obtain ⟨⟨r, s⟩, -, h'⟩ := Option.bind_eq_some_iff.mp h'
    exact (answered_frame hx h').trans (set_node_of_ne hxl)
  | lowerAddWq p =>
    obtain ⟨⟨r, s⟩, -, rfl⟩ := Option.map_eq_some_iff.mp h'
    exact set_node_of_ne hxl
  | lowerWqFull a =>
    cases h'
    exact set_node_of_ne hxl
  | returnIcache | returnDcache => cases h'

theorem perform_frame (hx : x.tlbCore ≠ n.tlbCore) (h' : perform env n m k = some m') :
    m'.node x = m.node x := by
  cases k with
  | returnIcache | returnDcache => exact returnUp_frame hx h'
  | lowerAddRq | lowerAddPq | lowerAddWq | lowerWqFull =>
    unfold perform at h'
    cases hl : n.lower with
    | none =>
      rw [hl] at h'
      cases h'
      rfl
    | some l =>
      rw [hl] at h'
      exact callLower_frame hl hx h'

theorem handle_frame (hx : x.tlbCore ≠ n.tlbCore) (h' : m.handle n env f = some m') :
    m'.node x = m.node x := by
  obtain ⟨s, -, h'⟩ := Option.bind_eq_some_iff.mp h'
  have hxn : x ≠ n := fun h => hx (by rw [h])
  exact run_invariant (I := fun t => t.node x = m.node x) (P := fun _ _ => True)
    (fun _ _ _ h _ h' => (perform_frame hx h').trans h) (set_node_of_ne hxn)
    (along_of_forall (A := fun _ => True) (by simp) _) h'

end Frame

/-! ## The balance -/

structure Even (m : Machine numCpus ρ) (cpu : Fin numCpus) : Prop where
  pending : ∀ side a,
    pending (stlb numCpus cpu) side a (m.node (.ofCore .stlb cpu)).books =
      flies (side.level.config numCpus cpu) a (m.node (.ofCore side.level cpu)).mshr
  stlb : Counted (stlb numCpus cpu) (m.node (.ofCore .stlb cpu)).mshr
  first : ∀ side : Side,
    Counted (side.level.config numCpus cpu) (m.node (.ofCore side.level cpu)).mshr

section Even

variable {m m' : Machine numCpus ρ} {cpu : Fin numCpus} {env : Env} {s : State ρ} {p : Packet}

/-- Only `RQ` and the MSHR of the TLBs of the core count. -/
theorem Even.of_eq (h : m.Even cpu) (heq : ∀ x : Node numCpus, x.tlbCore = some cpu →
    (m'.node x).books.rq = (m.node x).books.rq ∧ (m'.node x).mshr = (m.node x).mshr) :
    m'.Even cpu := by
  obtain ⟨hrq, hstlb⟩ := heq (.ofCore .stlb cpu) rfl
  have hside : ∀ side : Side,
      (m'.node (.ofCore side.level cpu)).mshr = (m.node (.ofCore side.level cpu)).mshr := by
    intro side
    cases side
    · exact (heq (.ofCore .itlb cpu) rfl).2
    · exact (heq (.ofCore .dtlb cpu) rfl).2
  refine ⟨fun side a => ?_, ?_, fun side => ?_⟩
  · have hbooks : (m'.node (.ofCore .stlb cpu)).books.mshr =
        (m.node (.ofCore .stlb cpu)).books.mshr := hstlb
    have hold := h.pending side a
    unfold Cache.pending at hold ⊢
    rw [hrq, hbooks, hside]
    exact hold
  · rw [hstlb]
    exact h.stlb
  · rw [hside]
    exact h.first side

theorem side_node_ne {side side' : Side} (h : side' ≠ side) :
    (Node.ofCore side'.level cpu : Node numCpus) ≠ .ofCore side.level cpu := by
  intro heq
  cases side <;> cases side' <;> simp [Side.level] at heq h

/-- A TLB of the first level changes, and waits for the same. -/
theorem Even.setFirst (h : m.Even cpu) (side : Side)
    (hflies : ∀ a, flies (side.level.config numCpus cpu) a s.mshr =
      flies (side.level.config numCpus cpu) a (m.node (.ofCore side.level cpu)).mshr)
    (hcount : Counted (side.level.config numCpus cpu) s.mshr) :
    (m.set (.ofCore side.level cpu) s).Even cpu := by
  have hstlb := set_node_of_ne (m := m) (s := s) (Node.side_ne side cpu).symm
  refine ⟨fun side' a => ?_, ?_, fun side' => ?_⟩
  · rw [hstlb, h.pending]
    by_cases hside : side' = side
    · subst hside
      rw [set_node_self]
      exact (hflies a).symm
    · rw [set_node_of_ne (side_node_ne hside)]
  · rw [hstlb]
    exact h.stlb
  · by_cases hside : side' = side
    · subst hside
      rwa [set_node_self]
    · rw [set_node_of_ne (side_node_ne hside)]
      exact h.first side'

/-- The STLB changes, and owes the same. -/
theorem Even.setStlb (h : m.Even cpu)
    (hpending : ∀ side a, Cache.pending (Cache.stlb numCpus cpu) side a s.books =
      Cache.pending (Cache.stlb numCpus cpu) side a (m.node (.ofCore .stlb cpu)).books)
    (hcount : Counted (Cache.stlb numCpus cpu) s.mshr) :
    (m.set (.ofCore .stlb cpu) s).Even cpu := by
  refine ⟨fun side a => ?_, ?_, fun side => ?_⟩
  · rw [set_node_self, hpending, set_node_of_ne (Node.side_ne side cpu)]
    exact h.pending side a
  · rwa [set_node_self]
  · rw [set_node_of_ne (Node.side_ne side cpu)]
    exact h.first side

end Even

/-! ## A miss goes down -/

section Asked

variable {m m' : Machine numCpus ρ} {cpu : Fin numCpus} {env : Env} {s : State ρ} {p : Packet}
  {T : Nat → Nat → Nat → Prop} {side : Side}

theorem side_fits (hp : Fits (side.level.config numCpus cpu) p) (hlevel : p.fillLevel = fillL1)
    (side' : Side) : side'.mark p = true ↔ side' = side := by
  have hmarked := hp.marked.mpr hlevel
  cases side with
  | icache =>
    have hd : p.fillL1d = false := hp.icache (.inl rfl)
    rw [hd] at hmarked
    cases side' <;> simp_all [Side.mark]
  | dcache =>
    have hi : p.fillL1i = false := hp.dcache (.inl rfl)
    rw [hi] at hmarked
    cases side' <;> simp_all [Side.mark]

theorem asked_even (h : m.Even cpu) (hm : m.Matched fun _ _ => 0) (ht : m.Translated T)
    (hp : Fits (side.level.config numCpus cpu) p) (hlevel : p.fillLevel = fillL1)
    (hfresh : flies (side.level.config numCpus cpu) p.address
      (m.node (.ofCore side.level cpu)).mshr = 0)
    (hfree : ∃ i < (side.level.config numCpus cpu).mshrSize,
      ((m.node (.ofCore side.level cpu)).mshr.entry i).address = 0)
    (hflies : ∀ a, flies (side.level.config numCpus cpu) a s.mshr =
      flies (side.level.config numCpus cpu) a (m.node (.ofCore side.level cpu)).mshr +
        if p.address = a then 1 else 0)
    (hcount : Counted (side.level.config numCpus cpu) s.mshr)
    (h' : run (perform env (.ofCore side.level cpu)) (m.set (.ofCore side.level cpu) s)
      [.lowerAddRq p] = some m') : m'.Even cpu := by
  have hl := Node.side_lower side cpu
  have hne : (Node.ofCore .stlb cpu : Node numCpus) ≠ .ofCore side.level cpu :=
    Node.lower_ne hl
  have hroom := hm.room hl hfree
  rw [run_singleton] at h'
  unfold perform at h'
  dsimp only at h'
  rw [hl] at h'
  obtain ⟨⟨r, t⟩, hr, h'⟩ := Option.bind_eq_some_iff.mp h'
  rw [set_node_of_ne hne] at hr
  have hfreshStlb := ht.fresh (n := .ofCore .stlb cpu) rfl
  have hmshr := addRq_mshr hfreshStlb hr
  have hpending := addRq_pending
    (s := { m.node (.ofCore .stlb cpu) with calls := [] })
    ((hm.sound.shape (.ofCore .stlb cpu)).of_rings rfl rfl rfl rfl rfl)
    ((hm.sound.good (.ofCore .stlb cpu)).withCalls []) hfreshStlb hlevel (Nat.ne_of_lt hroom)
    (fun side' hmark => by
      rw [(side_fits hp hlevel side').mp hmark]
      exact (h.pending side p.address).trans hfresh) hr
  have hcalls := addRq_calls hfreshStlb hr
  dsimp only at hmshr hpending hcalls h'
  -- the STLB returns nothing while it is called
  unfold answered at h'
  dsimp only at h'
  rw [set_node_self, hcalls] at h'
  split at h'
  · cases h'
    have hnode : ∀ x : Node numCpus, x ≠ .ofCore .stlb cpu →
        ((m.set (.ofCore side.level cpu) s).set (.ofCore .stlb cpu) t).node x =
          (m.set (.ofCore side.level cpu) s).node x := fun x hx => set_node_of_ne hx
    refine ⟨fun side' a => ?_, ?_, fun side' => ?_⟩
    · show pending _ side' a (((m.set (.ofCore side.level cpu) s).set (.ofCore .stlb cpu) t).node
          (.ofCore .stlb cpu)).books = flies _ a
            (((m.set (.ofCore side.level cpu) s).set (.ofCore .stlb cpu) t).node
              (.ofCore side'.level cpu)).mshr
      rw [set_node_self, hnode _ (Node.side_ne side' cpu)]
      have hold : pending (Node.config (.ofCore .stlb cpu)) side' a
          (State.books { m.node (.ofCore .stlb cpu) with calls := [] }) =
            flies (side'.level.config numCpus cpu) a (m.node (.ofCore side'.level cpu)).mshr :=
        h.pending side' a
      have hnew := hpending side' a
      rw [hold] at hnew
      refine hnew.trans ?_
      by_cases hside : side' = side
      · subst hside
        rw [set_node_self, hflies]
        unfold wants
        simp only [(side_fits hp hlevel side').mpr rfl, and_true]
      · rw [set_node_of_ne (side_node_ne hside)]
        unfold wants
        rw [if_neg fun hand => hside ((side_fits hp hlevel side').mp hand.2), Nat.add_zero]
    · show Counted _ (((m.set (.ofCore side.level cpu) s).set (.ofCore .stlb cpu) t).node
        (.ofCore .stlb cpu)).mshr
      rw [set_node_self, hmshr]
      exact h.stlb
    · show Counted _ (((m.set (.ofCore side.level cpu) s).set (.ofCore .stlb cpu) t).node
        (.ofCore side'.level cpu)).mshr
      rw [hnode _ (Node.side_ne side' cpu)]
      by_cases hside : side' = side
      · subst hside
        rwa [set_node_self]
      · rw [set_node_of_ne (side_node_ne hside)]
        exact h.first side'
  · cases h'

end Asked

/-! ## An answer goes up -/

section Gave

variable {m m' : Machine numCpus ρ} {cpu : Fin numCpus} {env : Env} {s : State ρ} {p : Packet}
  {side : Side} {k : Nat}

/-- The call that hands `p` to one side. -/
def sideCalls (side : Side) (k : Nat) (p : Packet) : List Call :=
  if side.mark p = true then
    [match side with
      | .icache => .returnIcache k p
      | .dcache => .returnDcache k p]
  else []

theorem returnCalls_stlb (hp : Fits (stlb numCpus cpu) p) :
    returnCalls (stlb numCpus cpu) k p = sideCalls .icache k p ++ sideCalls .dcache k p := by
  have hlevel : (stlb numCpus cpu).fillLevel = fillL2 := rfl
  unfold returnCalls sideCalls
  rw [hlevel]
  by_cases h1 : p.fillLevel = fillL1
  · rw [h1, if_pos (by decide)]
    rfl
  · -- nobody above waits
    obtain ⟨hi, hd⟩ := not_or.mp (mt hp.marked.mp h1)
    have hnot : ¬ p.fillLevel < fillL2 := by
      have := hp.level
      simp only [fillL1, fillL2, fillLlc] at *
      omega
    rw [if_neg hnot]
    simp [Side.mark, hi, hd]

/-- One side gets its data, when it waits for it. -/
theorem run_sideCalls
    (ht : Tracked (side.level.config numCpus cpu) (m.node (.ofCore side.level cpu)).mshr)
    (hcount : Counted (side.level.config numCpus cpu) (m.node (.ofCore side.level cpu)).mshr)
    (h0 : p.address ≠ 0)
    (hfly : wants side p.address p ≤
      flies (side.level.config numCpus cpu) p.address (m.node (.ofCore side.level cpu)).mshr)
    (h' : run (returnUp env (.ofCore .stlb cpu)) m (sideCalls side k p) = some m') :
    ∃ s, m' = m.set (.ofCore side.level cpu) s ∧
      Counted (side.level.config numCpus cpu) s.mshr ∧
      ∀ a, flies (side.level.config numCpus cpu) a s.mshr + wants side a p =
        flies (side.level.config numCpus cpu) a (m.node (.ofCore side.level cpu)).mshr := by
  unfold sideCalls at h'
  by_cases hmark : side.mark p = true
  · rw [if_pos hmark, run_singleton] at h'
    obtain ⟨⟨u, q⟩, hu, h'⟩ := Option.bind_eq_some_iff.mp h'
    obtain ⟨s, hs, rfl⟩ := Option.map_eq_some_iff.mp h'
    obtain ⟨rfl, rfl⟩ : u = .ofCore side.level cpu ∧ q = p := by
      cases side <;>
      · obtain ⟨u', hu', heq⟩ := Option.map_eq_some_iff.mp hu
        cases heq
        simp only [Node.upperIcache, Node.upperDcache, Option.ite_none_right_eq_some,
          Option.some.injEq] at hu'
        exact ⟨hu'.2.symm, rfl⟩
    have hone : wants side q.address q = 1 := if_pos ⟨rfl, hmark⟩
    obtain ⟨r, rfl, hcounted, -, hflies⟩ := returnData_inFlight ht h0 (by omega) hcount hs
    refine ⟨_, rfl, hcounted, fun a => ?_⟩
    rw [← hflies a]
    unfold wants
    simp only [hmark, and_true]
  · rw [if_neg hmark, run_nil] at h'
    cases h'
    refine ⟨m.node (.ofCore side.level cpu), by simp [Machine.set], hcount, fun a => ?_⟩
    unfold wants
    rw [if_neg fun hand => hmark hand.2, Nat.add_zero]

theorem gave_even (h : m.Even cpu) (hm : m.Matched fun _ _ => 0) (hp : Fits (stlb numCpus cpu) p)
    (h0 : p.address ≠ 0)
    (hpending : ∀ side a, pending (stlb numCpus cpu) side a s.books + wants side a p =
      pending (stlb numCpus cpu) side a (m.node (.ofCore .stlb cpu)).books)
    (hcount : Counted (stlb numCpus cpu) s.mshr)
    (h' : run (perform env (.ofCore .stlb cpu)) (m.set (.ofCore .stlb cpu) s)
      (returnCalls (stlb numCpus cpu) k p) = some m') : m'.Even cpu := by
  have hreturns : run (perform env (.ofCore .stlb cpu)) (m.set (.ofCore .stlb cpu) s)
      (returnCalls (stlb numCpus cpu) k p) =
        run (returnUp env (.ofCore .stlb cpu)) (m.set (.ofCore .stlb cpu) s)
          (returnCalls (stlb numCpus cpu) k p) := run_perform_returns
  rw [hreturns, returnCalls_stlb hp, run_append] at h'
  obtain ⟨m₁, hm₁, hm'⟩ := Option.bind_eq_some_iff.mp h'
  have hfly : ∀ side : Side, wants side p.address p ≤
      flies (side.level.config numCpus cpu) p.address (m.node (.ofCore side.level cpu)).mshr := by
    intro side
    rw [← h.pending, ← hpending]
    exact Nat.le_add_left _ _
  have hnode : ∀ side : Side, (m.set (.ofCore .stlb cpu) s).node (.ofCore side.level cpu) =
      m.node (.ofCore side.level cpu) := fun side => set_node_of_ne (Node.side_ne side cpu)
  have htracked : ∀ side : Side,
      Tracked (side.level.config numCpus cpu) (m.node (.ofCore side.level cpu)).mshr :=
    fun side => (hm.sound.good (.ofCore side.level cpu)).mshr
  obtain ⟨s₁, rfl, hcount₁, hflies₁⟩ := run_sideCalls
    (by rw [hnode]; exact htracked .icache) (by rw [hnode]; exact h.first _) h0
    (by rw [hnode]; exact hfly _) hm₁
  rw [hnode] at hflies₁
  have hnode₁ : ((m.set (.ofCore .stlb cpu) s).set (.ofCore Side.icache.level cpu) s₁).node
      (.ofCore Side.dcache.level cpu) = m.node (.ofCore Side.dcache.level cpu) :=
    (set_node_of_ne (side_node_ne (by decide))).trans (hnode _)
  obtain ⟨s₂, rfl, hcount₂, hflies₂⟩ := run_sideCalls
    (by rw [hnode₁]; exact htracked .dcache) (by rw [hnode₁]; exact h.first _) h0
    (by rw [hnode₁]; exact hfly _) hm'
  rw [hnode₁] at hflies₂
  have hstlb : (((m.set (.ofCore .stlb cpu) s).set (.ofCore Side.icache.level cpu) s₁).set
      (.ofCore Side.dcache.level cpu) s₂).node (.ofCore .stlb cpu) = s := by
    rw [set_node_of_ne (Node.side_ne .dcache cpu).symm,
      set_node_of_ne (Node.side_ne .icache cpu).symm, set_node_self]
  have hicache : (((m.set (.ofCore .stlb cpu) s).set (.ofCore Side.icache.level cpu) s₁).set
      (.ofCore Side.dcache.level cpu) s₂).node (.ofCore Side.icache.level cpu) = s₁ := by
    rw [set_node_of_ne (side_node_ne (by decide)), set_node_self]
  refine ⟨fun side a => ?_, ?_, fun side => ?_⟩
  · rw [hstlb]
    have hnew := hpending side a
    rw [h.pending] at hnew
    cases side with
    | icache =>
      rw [hicache]
      have := hflies₁ a
      omega
    | dcache =>
      rw [set_node_self]
      have := hflies₂ a
      omega
  · rw [hstlb]
    exact hcount
  · cases side with
    | icache =>
      rw [hicache]
      exact hcount₁
    | dcache =>
      rw [set_node_self]
      exact hcount₂

end Gave

/-! ## Handlers -/

section Handlers

variable {P : ∀ n : Node numCpus, Policy n.config ρ} {m m' : Machine numCpus ρ}
  {n : Node numCpus} {cpu : Fin numCpus} {env : Env} {f : Env → State ρ → Option (State ρ)}
  {T : Nat → Nat → Nat → Prop}

/-- What a handler passes on, its calls carry. -/
theorem handle_first (side : Side) (h : m.Even cpu) (hm : m.Matched fun _ _ => 0)
    (ht : m.Translated T)
    (hf : ∀ s, f (m.outside (.ofCore side.level cpu) env)
        { m.node (.ofCore side.level cpu) with calls := [] } = some s →
      run (perform env (.ofCore side.level cpu)) (m.set (.ofCore side.level cpu) s) s.calls =
        some m' → Counted (side.level.config numCpus cpu) s.mshr ∧
          Passes (side.level.config numCpus cpu)
            (State.books { m.node (.ofCore side.level cpu) with calls := [] }) s.books)
    (h' : m.handle (.ofCore side.level cpu) env f = some m') : m'.Even cpu := by
  obtain ⟨s, hs, h'⟩ := Option.bind_eq_some_iff.mp h'
  obtain ⟨hcount, hpasses⟩ := hf s hs h'
  have htype : (side.level.config numCpus cpu).cacheType ≠ .stlb := by
    cases side <;> exact fun h => nomatch h
  cases hpasses with
  | kept hcalls hpending hflies =>
    change s.calls = [] at hcalls
    rw [hcalls, run_nil] at h'
    cases h'
    exact h.setFirst side (hflies htype) hcount
  | gave p hcalls hp h0 hpending hflies =>
    -- above the first level there is nobody
    have hlevel : (side.level.config numCpus cpu).fillLevel ≤ p.fillLevel := by
      have hlevel : (side.level.config numCpus cpu).fillLevel = fillL1 := by cases side <;> rfl
      have := hp.level
      simp only [fillL1, fillL2, fillLlc] at *
      omega
    change s.calls = _ at hcalls
    rw [hcalls, returnCalls_of_level hlevel, run_nil] at h'
    cases h'
    exact h.setFirst side hflies hcount
  | asked p hlower hcalls hp hlevel h0 hfresh hroom hflies =>
    change s.calls = _ at hcalls
    rw [hcalls] at h'
    exact asked_even h hm ht hp hlevel hfresh hroom hflies hcount h'

theorem handle_stlb (h : m.Even cpu) (hm : m.Matched fun _ _ => 0)
    (hf : ∀ s, f (m.outside (.ofCore .stlb cpu) env)
        { m.node (.ofCore .stlb cpu) with calls := [] } = some s →
      run (perform env (.ofCore .stlb cpu)) (m.set (.ofCore .stlb cpu) s) s.calls = some m' →
        Counted (stlb numCpus cpu) s.mshr ∧ Passes (stlb numCpus cpu)
          (State.books { m.node (.ofCore .stlb cpu) with calls := [] }) s.books)
    (h' : m.handle (.ofCore .stlb cpu) env f = some m') : m'.Even cpu := by
  obtain ⟨s, hs, h'⟩ := Option.bind_eq_some_iff.mp h'
  obtain ⟨hcount, hpasses⟩ := hf s hs h'
  cases hpasses with
  | kept hcalls hpending hflies =>
    change s.calls = [] at hcalls
    rw [hcalls, run_nil] at h'
    cases h'
    exact h.setStlb (hpending rfl) hcount
  | gave p hcalls hp h0 hpending hflies =>
    change s.calls = _ at hcalls
    rw [hcalls] at h'
    exact gave_even h hm hp h0 hpending hcount h'
  | asked p hlower => cases hlower

theorem handle_even (h : ∀ cpu, m.Even cpu) (hm : m.Matched fun _ _ => 0) (ht : m.Translated T)
    (hf : n.isTlb = true → ∀ s, f (m.outside n env) { m.node n with calls := [] } = some s →
      run (perform env n) (m.set n s) s.calls = some m' → Counted n.config s.mshr ∧
        Passes n.config (State.books { m.node n with calls := [] }) s.books)
    (h' : m.handle n env f = some m') (cpu : Fin numCpus) : m'.Even cpu := by
  by_cases hcpu : n.tlbCore = some cpu
  · cases n with
    | llc => cases hcpu
    | ofCore level i =>
      cases level with
      | itlb =>
        cases hcpu
        exact handle_first .icache (h cpu) hm ht (hf rfl) h'
      | dtlb =>
        cases hcpu
        exact handle_first .dcache (h cpu) hm ht (hf rfl) h'
      | stlb =>
        cases hcpu
        exact handle_stlb (h cpu) hm (hf rfl) h'
      | l1i | l1d | l2c => cases hcpu
  · refine (h cpu).of_eq fun x hx => ?_
    rw [handle_frame (fun hand => hcpu (hand.symm.trans hx)) h']
    exact ⟨rfl, rfl⟩

/-- The hierarchy between two handlers. -/
structure Once (m : Machine numCpus ρ) : Prop where
  matched : m.Matched fun _ _ => 0
  translated : m.Translated fun _ _ _ => True
  even : ∀ cpu, m.Even cpu

theorem Once.counted (h : m.Once) (hn : n.isTlb = true) : Counted n.config (m.node n).mshr := by
  cases n with
  | llc => cases hn
  | ofCore level cpu =>
    cases level with
    | itlb => exact (h.even cpu).first .icache
    | dtlb => exact (h.even cpu).first .dcache
    | stlb => exact (h.even cpu).stlb
    | l1i | l1d | l2c => cases hn

theorem Once.fresh_shape (h : m.Once) (n : Node numCpus) :
    Shape n.config { m.node n with calls := [] } :=
  (h.matched.sound.shape n).of_rings rfl rfl rfl rfl rfl

/-- Nobody above the STLB waits for a page twice. -/
theorem Once.pending_le_one (h : m.Once) (hn : n.config.cacheType = .stlb) (side : Side) (a : Nat) :
    pending n.config side a (m.node n).books ≤ 1 := by
  cases n with
  | llc => cases hn
  | ofCore level cpu =>
    cases level with
    | stlb =>
      refine ((h.even cpu).pending side a).le.trans ?_
      exact flies_le_one (h.matched.sound.good (.ofCore side.level cpu)).mshr a
    | itlb | dtlb | l1i | l1d | l2c => cases hn

theorem fill_once (h : m.Once) (henv : env.Proper n.config)
    (h' : m.handle n env (handleFill (P n)) = some m') : m'.Once := by
  refine ⟨fill_matched h.matched henv h', fill_translated h.translated h.matched henv h',
    handle_even h.even h.matched h.translated (fun hn s hs _ => ?_) h'⟩
  exact handleFill_passes hn ((h.matched.sound.good n).withCalls []) (h.translated.fresh hn)
    (h.counted hn) rfl (outside_proper henv) hs

theorem writeback_once (h : m.Once) (henv : env.Proper n.config)
    (h' : m.handle n env (handleWriteback (P n)) = some m') : m'.Once := by
  refine ⟨writeback_matched h.matched henv h', writeback_translated h.translated h',
    handle_even h.even h.matched h.translated (fun hn s hs _ => ?_) h'⟩
  rw [handleWriteback_translates (h.translated.fresh hn) hs]
  exact ⟨h.counted hn, .kept rfl (fun _ _ _ => rfl) fun _ _ => rfl⟩

theorem read_once (h : m.Once) (henv : env.Proper n.config)
    (hready : Ready n.config env (m.node n).rq)
    (h' : m.handle n env (readOne (P n)) = some m') : m'.Once := by
  refine ⟨read_matched h.matched henv hready h',
    read_translated h.translated (fun _ _ _ => trivial) h',
    handle_even h.even h.matched h.translated (fun hn s hs hrun => ?_) h'⟩
  refine readOne_passes hn (h.fresh_shape n) ((h.matched.sound.good n).withCalls [])
    (h.translated.fresh hn) (h.counted hn) rfl h.pending_le_one ?_ (fun hlower q hcalls => ?_)
    (outside_ready hready) hs
  · cases n with
    | llc => cases hn
    | ofCore level cpu =>
      cases level with
      | itlb | dtlb => exact ⟨fun _ h => (nomatch h), fun _ => rfl⟩
      | stlb => exact ⟨fun h => (nomatch h), fun h => absurd rfl h⟩
      | l1i | l1d | l2c => cases hn
  · rw [outside_answers]
    rw [hcalls] at hrun
    exact asked_answers h.translated hn hlower hrun

/-- A TLB has nothing to prefetch. -/
theorem prefetch_once (h : m.Once) (henv : env.Proper n.config)
    (hready : Ready n.config env (m.node n).pq)
    (h' : m.handle n env (prefetchOne (P n)) = some m') : m'.Once := by
  have hnone : n.isTlb = true → False := fun hn => by
    have := (h.translated n hn).pq.1
    exact absurd hready.2.2 (by omega)
  exact ⟨prefetch_matched h.matched henv hready h',
    handle_translated h.translated (fun _ _ _ hn => (hnone hn).elim) h',
    handle_even h.even h.matched h.translated (fun hn => (hnone hn).elim) h'⟩

/-- What changes neither `RQ` nor the MSHR. -/
theorem Once.set (h : m.Once) {s : State ρ} (hm : (m.set n s).Matched fun _ _ => 0)
    (hs : n.isTlb = true → Translates n.config (fun _ _ => True) s)
    (hrq : s.books.rq = (m.node n).books.rq) (hmshr : s.mshr = (m.node n).mshr) :
    (m.set n s).Once := by
  refine ⟨hm, h.translated.set hs, fun cpu => (h.even cpu).of_eq fun x _ => ?_⟩
  by_cases hx : x = n
  · subst hx
    rw [set_node_self]
    exact ⟨hrq, hmshr⟩
  · rw [set_node_of_ne hx]
    exact ⟨rfl, rfl⟩

theorem operate_once {E : CycleEnv} (h : m.Once) (hE : (Action.operate n E).Proper)
    (h' : m.operate P n E = some m') : m'.Once := by
  obtain ⟨hfill, hwriteback, hread, hprefetch⟩ := hE
  obtain ⟨m₁, hm₁, h'⟩ := Option.bind_eq_some_iff.mp h'
  obtain ⟨m₂, hm₂, h'⟩ := Option.bind_eq_some_iff.mp h'
  obtain ⟨m₃, hm₃, h'⟩ := Option.bind_eq_some_iff.mp h'
  have h₂ := writeback_once (fill_once h hfill hm₁) hwriteback hm₂
  have hset : (m₂.set n { m₂.node n with readsAvailable := n.config.maxRead }).Once := by
    refine h₂.set ?_ (fun hn => { h₂.translated n hn with }) rfl rfl
    exact h₂.matched.set_zero ((h₂.matched.sound.shape n).of_rings rfl rfl rfl rfl rfl)
      (h₂.matched.sound.good n) (fun _ => le_refl _) fun _ _ _ => le_refl _
  have h₃ := serve_invariant (I := Once)
    (fun _ _ k h hready h' => read_once h (hread k) hready h') _ hset hm₃
  split at h'
  · exact serve_invariant (I := Once)
      (fun _ _ k h hready h' => prefetch_once h (hprefetch k) hready h') _ h₃ h'
  · cases h'
    exact h₃

end Handlers

/-! ## Runs -/

section Runs

variable {P : ∀ n : Node numCpus, Policy n.config ρ} {m m' : Machine numCpus ρ}

theorem step_once {a : Action numCpus} (h : m.Once) (ha : a.Proper) (h' : m.step P a = some m') :
    m'.Once := by
  have hm := step_matched h.matched ha h'
  have ht : m'.Translated fun _ _ _ => True :=
    step_translated h.translated h.matched ha (fun _ _ _ _ _ _ _ _ _ => trivial) h'
  cases a with
  | operate n E => exact operate_once h ha h'
  | request cpu env r =>
    unfold step at h'
    refine ⟨hm, ht, handle_even h.even h.matched h.translated (fun hn s hs _ => ?_) h'⟩
    obtain ⟨⟨r', t⟩, hr, rfl⟩ := Option.map_eq_some_iff.mp hs
    have hmshr := addRq_mshr (h.translated.fresh hn) hr
    have hcalls := addRq_calls (h.translated.fresh hn) hr
    dsimp only at hmshr hcalls ⊢
    refine ⟨by rw [hmshr]; exact h.counted hn, .kept hcalls (fun hstlb => ?_) fun _ a => ?_⟩
    · cases r <;> cases hstlb
    · show flies _ a t.mshr = _
      rw [hmshr]
      rfl
  | store cpu env cycle sqIndex e =>
    unfold step at h'
    refine ⟨hm, ht, handle_even h.even h.matched h.translated (fun hn => ?_) h'⟩
    cases hn
  | prefetch n env k =>
    unfold step at h'
    refine ⟨hm, ht, handle_even h.even h.matched h.translated (fun hn s hs _ => ?_) h'⟩
    have hbooks := (runCallback_books (h.fresh_shape n)
      ((h.matched.sound.good n).withCalls []) ha hs).rest
    have hmshr : s.books.mshr = (m.node n).mshr := (congrArg Books.mshr hbooks).trans rfl
    have hrq : s.books.rq = (m.node n).books.rq := (congrArg Books.rq hbooks).trans rfl
    have hcounted : Counted n.config s.books.mshr := by
      rw [hmshr]
      exact h.counted hn
    refine ⟨hcounted, .kept ((congrArg Books.calls hbooks).trans rfl) ?_ ?_⟩
    · intro _ side a
      unfold pending
      rw [hrq, hmshr]
      rfl
    · intro _ a
      rw [hmshr]
      rfl
  | returnData env p =>
    unfold step at h'
    refine ⟨hm, ht, handle_even h.even h.matched h.translated (fun hn => ?_) h'⟩
    cases hn
  | invalidateEntry n address =>
    cases h'
    have hbooks : (Cache.invalidateEntry n.config (m.node n) address).books = (m.node n).books :=
      invalidateAll_books [address] (m.node n)
    exact h.set hm (fun hn => invalidateEntry_translates (h.translated n hn) address)
      (congrArg Books.rq hbooks) (congrArg Books.mshr hbooks)
  | complete n =>
    obtain ⟨q, hq, rfl⟩ := Option.map_eq_some_iff.mp h'
    exact h.set hm (fun hn => complete_translates (h.translated n hn) hq) rfl rfl

theorem init_once (P : ∀ n : Node numCpus, Policy n.config ρ) : (init P).Once := by
  have hslots : ∀ (n : Node numCpus) (w : Packet → Nat),
      slots w n.config.mshrSize (slotsOf n.config ((init P).node n).mshr) = 0 := by
    intro n w
    refine slots_eq_zero fun i _ e he => ?_
    cases (init_slots (P n) i).symm.trans he
  refine ⟨init_matched P, init_translated P, fun cpu => ⟨fun side a => ?_, ?_, fun side => ?_⟩⟩
  · have hrq : ((init P).node (.ofCore .stlb cpu)).books.rq = [] := rfl
    unfold pending
    rw [hrq, tally_nil]
    exact (Nat.zero_add _).trans ((hslots (.ofCore .stlb cpu) _).trans
      (hslots (.ofCore side.level cpu) _).symm)
  · exact (hslots (.ofCore .stlb cpu) _).symm
  · exact (hslots (.ofCore side.level cpu) _).symm

/-- In every run of the hierarchy each miss in flight of a first-level TLB has one request in the
STLB that will be answered to it, and the STLB answers to no TLB that does not wait; so every miss
is answered once, and `num_returned` of every TLB counts its answered entries. -/
theorem tlb_misses_answered_once {as : List (Action numCpus)} (has : ∀ a ∈ as, a.Proper)
    (h : run (step P) (init P) as = some m) :
    (∀ (cpu : Fin numCpus) (side : Side) (a : Nat),
      pending (stlb numCpus cpu) side a (m.node (.ofCore .stlb cpu)).books =
        flies (side.level.config numCpus cpu) a (m.node (.ofCore side.level cpu)).mshr ∧
      flies (side.level.config numCpus cpu) a (m.node (.ofCore side.level cpu)).mshr ≤ 1) ∧
    ∀ n : Node numCpus, n.isTlb = true → (m.node n).mshr.numReturned =
      slots finished n.config.mshrSize (slotsOf n.config (m.node n).mshr) := by
  have honce : m.Once := run_invariant (P := fun _ a => a.Proper)
    (fun _ _ _ h ha h' => step_once h ha h') (init_once P) (along_of_forall has _) h
  refine ⟨fun cpu side a => ⟨(honce.even cpu).pending side a, ?_⟩, fun n hn => honce.counted hn⟩
  exact flies_le_one (honce.matched.sound.good (.ofCore side.level cpu)).mshr a

/-- An instruction and a load of one page miss in both TLBs; one request in the STLB is for both. -/
def bothMiss : List (Action 1) :=
  [.request (.last 0) (Env.quiet 0) (.fetchTranslation 20480 3 0),
    .request (.last 0) (Env.quiet 0)
      (.loadTranslation false 3 { Core.LsqEntry.empty with virtualAddress := 20488 }),
    .operate (.ofCore .itlb (.last 0)) (CycleEnv.quiet 10),
    .operate (.ofCore .dtlb (.last 0)) (CycleEnv.quiet 10)]

theorem bothMiss_proper : ∀ a ∈ bothMiss, a.Proper := by
  have hquiet : ∀ n : Node 1, (Action.operate n (CycleEnv.quiet 10)).Proper := fun n =>
    ⟨quiet_proper (by decide), quiet_proper (by decide), fun _ => quiet_proper (by decide),
      fun _ => quiet_proper (by decide)⟩
  intro a ha
  simp only [bothMiss, List.mem_cons, List.not_mem_nil, or_false] at ha
  rcases ha with rfl | rfl | rfl | rfl
  · trivial
  · trivial
  · exact hquiet _
  · exact hquiet _

theorem bothMiss_asks :
    (run (step fun n => lru n.config) (init fun n => lru n.config) bothMiss).map (fun m =>
      ((m.node (.ofCore .stlb 0)).rq.occupancy, flies (itlb 1 0) 5 (m.node (.ofCore .itlb 0)).mshr,
        flies (dtlb 1 0) 5 (m.node (.ofCore .dtlb 0)).mshr)) = some (1, 1, 1) := by
  decide +kernel

theorem bothMiss_pending :
    ∃ m, run (step fun n => lru n.config) (init fun n => lru n.config) bothMiss = some m ∧
      (m.node (.ofCore .stlb 0)).rq.occupancy = 1 ∧
      ∀ side, pending (stlb 1 0) side 5 (m.node (.ofCore .stlb 0)).books = 1 := by
  obtain ⟨m, hm, hasks⟩ := Option.map_eq_some_iff.mp bothMiss_asks
  simp only [Prod.mk.injEq] at hasks
  obtain ⟨hone, hicache, hdcache⟩ := hasks
  have honce := (tlb_misses_answered_once bothMiss_proper hm).1 0
  refine ⟨m, hm, hone, fun side => ?_⟩
  cases side with
  | icache => exact (honce .icache 5).1.trans hicache
  | dcache => exact (honce .dcache 5).1.trans hdcache

end Runs

end Machine

end Cache
end ChampSim
