import ChampSim.Hierarchy.Matched
import ChampSim.Cache.Unique

/-!
# ChampSim.Hierarchy.Misses

No miss is dropped between two levels.

* `Outstanding` — an MSHR entry of a cache above that waits for a request in an `RQ`.
* `rq_matching` — the requests of an `RQ` have different entries.
* `room`        — while a cache above has a free entry, the `RQ` is not full.
* `handle_matched`, `step_matched` — handlers and actions preserve the invariant.
* `misses_reach_lower` — at the end of a run every request has its entry, and no request of a cache
  has found the `RQ` below it full.
-/

namespace ChampSim
namespace Cache

open Lib

variable {numCpus : Nat} {ρ : Type}

/-! ## Requests and their misses -/

/-- `x` is an MSHR slot of a cache above `l`, taken by a miss in flight of the address of `p`. -/
structure Machine.Outstanding (m : Machine numCpus ρ) (l : Node numCpus) (p : Packet)
    (x : Node numCpus × Nat) : Prop where
  lower : x.1.lower = some l
  slot : x.2 < x.1.config.mshrSize
  address : ((m.node x.1).mshr.entry x.2).address = p.address
  live : ((m.node x.1).mshr.entry x.2).address ≠ 0
  inflight : ((m.node x.1).mshr.entry x.2).returned = .inflight

/-- All MSHR slots of the caches above. -/
def Node.slots (l : Node numCpus) : List (Node numCpus × Nat) :=
  l.uppers.flatMap fun u => (List.range u.config.mshrSize).map fun i => (u, i)

theorem Node.slots_length (l : Node numCpus) : l.slots.length ≤ l.config.rqSize := by
  have := l.uppers_fit
  simpa [Node.slots, List.length_flatMap] using this

theorem Node.mem_slots {l u : Node numCpus} {i : Nat} (hl : u.lower = some l)
    (hi : i < u.config.mshrSize) : (u, i) ∈ l.slots :=
  List.mem_flatMap.mpr ⟨u, Node.mem_uppers.mpr hl, List.mem_map.mpr ⟨i, List.mem_range.mpr hi, rfl⟩⟩

/-- A request of the first level is owed to some cache above. -/
theorem owed_pos {n l : Node numCpus} {p : Packet} (hl : n.lower = some l) (hp : Fits l.config p)
    (h1 : p.fillLevel = fillL1) : 0 < owed l.config p := by
  have hmarks : l.config.fillLevel = fillL2 → 0 < owed l.config p := by
    intro hl2
    rw [owed_marks hp hl2]
    rcases hp.marked.mpr h1 with hi | hd
    · simp [hi]
    · simp [hd]
  cases Node.below hl with
  | icache _ _ hl2 => exact hmarks hl2
  | dcache _ _ hl2 => exact hmarks hl2
  | second hl4 _ =>
    subst hl4
    have hlevel : (Node.config (.llc : Node numCpus)).fillLevel = fillLlc := rfl
    unfold owed
    rw [h1, hlevel]
    simp [fillL1, fillL2, fillLlc]

namespace Machine

section Matching

variable {m : Machine numCpus ρ} {spare : Node numCpus → Nat → Nat} {n l : Node numCpus}
  {p : Packet}

theorem Matched.outstanding (h : m.Matched spare) (hl : n.lower = some l)
    (hp : p ∈ (m.node l).rq.contents) : ∃ x, m.Outstanding l p x := by
  obtain ⟨hfits, h1⟩ := (h.sound.good l).rq p hp
  have howed : 0 < weigh l.config p.address p := by
    unfold weigh
    rw [if_pos rfl]
    exact owed_pos hl hfits h1
  have hle : weigh l.config p.address p ≤ tally (weigh l.config p.address) (m.node l).books.rq :=
    le_tally hp
  have hwaits : m.owes l p.address + spare l p.address ≤ m.waits l p.address :=
    h.owes l p.address
  unfold Machine.owes Books.owes at hwaits
  obtain ⟨u, hu, hflies⟩ : ∃ u ∈ l.uppers, 0 < flies u.config p.address (m.node u).mshr := by
    by_contra hnone
    have : m.waits l p.address = 0 := by
      refine tally_eq_zero fun u hu => ?_
      by_contra hne
      exact hnone ⟨u, hu, Nat.pos_of_ne_zero hne⟩
    omega
  obtain ⟨i, hi, h0, ha, hinflight⟩ := flies_pos hflies
  exact ⟨(u, i), Node.mem_uppers.mp hu, hi, ha, h0, hinflight⟩

theorem Matched.rq_matching (h : m.Matched spare) (hl : n.lower = some l) :
    ∃ f : Fin (m.node l).rq.contents.length → Node numCpus × Nat, Function.Injective f ∧
      ∀ k, m.Outstanding l ((m.node l).rq.contents.get k) (f k) :=
  exists_matching Packet.address (h.sound.good l).distinct (fun _ hp => h.outstanding hl hp)
    fun _ _ _ hp hq => hp.address.symm.trans hq.address

/-- A free entry in the MSHR leaves room in the `RQ` below. -/
theorem Matched.room (h : m.Matched spare) (hl : n.lower = some l)
    (hfree : ∃ i < n.config.mshrSize, ((m.node n).mshr.entry i).address = 0) :
    (m.node l).rq.occupancy < l.config.rqSize := by
  obtain ⟨i, hi, hfree⟩ := hfree
  obtain ⟨f, hf, hout⟩ := h.rq_matching hl
  have hmem : (n, i) ∈ l.slots := Node.mem_slots hl hi
  have hle : (m.node l).rq.contents.length ≤ (l.slots.erase (n, i)).length := by
    refine le_length_of_injective hf fun k => ?_
    refine (List.mem_erase_of_ne fun hk => ?_).mpr (Node.mem_slots (hout k).lower (hout k).slot)
    have := (hout k).live
    rw [hk] at this
    exact this hfree
  rw [Ring.contents_length, List.length_erase_of_mem hmem] at hle
  have := List.length_pos_of_mem hmem
  have := l.slots_length
  omega

end Matching

/-! ## Calls -/

section Calls

variable {m m' : Machine numCpus ρ} {n l : Node numCpus} {env : Env} {p : Packet} {k : Call}
  {δ : Nat → Nat}

theorem callLower_rq (h : m.Matched (above l δ)) (hl : n.lower = some l) (hp : Fits n.config p)
    (h0 : p.address ≠ 0) (h1 : p.fillLevel = fillL1)
    (hδ : ∀ a, (if env.answers = [] ∧ p.address = a ∧ p.fillLevel ≤ n.config.fillLevel then 1
      else 0) ≤ δ a) (hroom : (m.node l).rq.occupancy < l.config.rqSize)
    (h' : callLower env n l m (.lowerAddRq p) = some m') : m'.Matched fun _ _ => 0 := by
  have hshape : Shape l.config { m.node l with calls := [] } :=
    (h.sound.shape l).of_rings rfl rfl rfl rfl rfl
  have hgood : Good l.config (State.books { m.node l with calls := [] }) :=
    (h.sound.good l).withCalls []
  obtain ⟨⟨r, s⟩, hr, h'⟩ := Option.bind_eq_some_iff.mp h'
  obtain ⟨hs, -⟩ := (addRq_does hshape).of_eq hr
  obtain ⟨hg, hfull, hout⟩ := addRq_books hshape hgood (fits_lower hl hp) h1 hr
  have hnotFull : ¬ r = .full := fun hr => Nat.ne_of_lt hroom (hfull hr)
  have hnotCrowded : ¬ (m.node l).rq.occupancy = (m.node l).rq.size := by
    rw [(h.sound.shape l).rq.size_eq]
    exact Nat.ne_of_lt hroom
  dsimp only at h'
  rw [if_neg hnotFull, if_neg hnotCrowded] at h'
  refine arrived_matched h hl hp h0 hδ hs hg ?_ h'
  rcases hout with ⟨q, hq, hbooks⟩ | ⟨rq, hbooks, howes⟩
  · exact .inl ⟨q, hq, hbooks⟩
  · refine .inr ⟨congrArg Books.calls hbooks, congrArg Books.mshr hbooks, fun a => ?_⟩
    rw [hbooks]
    have := howes a
    unfold Machine.owes Books.owes
    dsimp only [State.books] at this ⊢
    omega

theorem callLower_pq (h : m.Matched (above l δ)) (hl : n.lower = some l) (hp : Fits n.config p)
    (h0 : p.address ≠ 0)
    (hδ : ∀ a, (if env.answers = [] ∧ p.address = a ∧ p.fillLevel ≤ n.config.fillLevel then 1
      else 0) ≤ δ a)
    (h' : callLower env n l m (.lowerAddPq p) = some m') : m'.Matched fun _ _ => 0 := by
  have hshape : Shape l.config { m.node l with calls := [] } :=
    (h.sound.shape l).of_rings rfl rfl rfl rfl rfl
  have hgood : Good l.config (State.books { m.node l with calls := [] }) :=
    (h.sound.good l).withCalls []
  obtain ⟨⟨r, s⟩, hr, h'⟩ := Option.bind_eq_some_iff.mp h'
  obtain ⟨hs, -⟩ := (addPq_does hshape).of_eq hr
  obtain ⟨hg, hout⟩ := addPq_books hshape hgood (fits_lower hl hp) hr
  refine arrived_matched h hl hp h0 hδ hs hg ?_ h'
  rcases hout with ⟨q, hq, hbooks⟩ | ⟨pq, hbooks, howes, -⟩
  · exact .inl ⟨q, hq, hbooks⟩
  · refine .inr ⟨congrArg Books.calls hbooks, congrArg Books.mshr hbooks, fun a => ?_⟩
    rw [hbooks]
    have := howes a
    unfold Machine.owes Books.owes
    dsimp only [State.books] at this ⊢
    omega

/-- A write-back goes to the `WQ` below, or finds it full. -/
theorem perform_evicts (hm : m.Sound) (hk : Call.Evicts n.config k)
    (h' : perform env n m k = some m') : Returned (fun _ _ => 0) m m' := by
  cases hl : n.lower with
  | none =>
    cases k with
    | lowerAddWq | lowerWqFull =>
      unfold perform at h'
      rw [hl] at h'
      cases h'
      exact Returned.refl hm _
    | lowerAddRq | lowerAddPq | returnIcache | returnDcache => exact hk.elim
  | some l =>
    cases k with
    | lowerAddWq p =>
      unfold perform at h'
      rw [hl] at h'
      obtain ⟨⟨r, s⟩, hr, rfl⟩ := Option.map_eq_some_iff.mp h'
      obtain ⟨hs, -⟩ := (addWq_does (hm.shape l)).of_eq hr
      have hlevel : l.config.fillLevel ≤ p.fillLevel := by
        rw [(Node.below hl).level, hk]
      obtain ⟨hg, wq, hbooks⟩ := addWq_books (hm.shape l) (hm.good l)
        ⟨hlevel, fun hc => by rcases Node.lower_cacheType hl with h | h | h <;> simp [h] at hc⟩ hr
      exact Returned.set hm hs hg (fun a => by rw [hbooks]; rfl) (congrArg Books.mshr hbooks)
    | lowerWqFull a =>
      unfold perform at h'
      rw [hl] at h'
      cases h'
      exact Returned.set hm ((hm.shape l).of_rings rfl rfl rfl rfl rfl) (hm.good l) (fun _ => rfl)
        rfl
    | lowerAddRq | lowerAddPq | returnIcache | returnDcache => exact hk.elim

theorem run_evicts {out : List Call} (hm : m.Sound) (hout : ∀ k ∈ out, Call.Evicts n.config k)
    (h' : run (perform env n) m out = some m') : Returned (fun _ _ => 0) m m' := by
  refine run_invariant (I := fun t => Returned (fun _ _ => 0) m t)
    (P := fun _ k => Call.Evicts n.config k) ?_ (Returned.refl hm _) (along_of_forall hout m) h'
  intro t k t' ht hk ht'
  exact ht.trans (perform_evicts ht.sound hk ht')

theorem run_perform_returns {cpu : Nat} :
    run (perform env n) m (returnCalls n.config cpu p) =
      run (returnUp env n) m (returnCalls n.config cpu p) := by
  refine run_congr fun k hk t => ?_
  unfold returnCalls at hk
  split at hk
  · rcases List.mem_append.mp hk with hk | hk
    · obtain ⟨_, rfl⟩ : _ ∧ k = _ := by simpa using hk
      rfl
    · obtain ⟨_, rfl⟩ : _ ∧ k = _ := by simpa using hk
      rfl
  · cases hk

end Calls

/-! ## Handlers -/

section Handlers

variable {m m' : Machine numCpus ρ} {n l : Node numCpus} {env : Env}
  {f : Env → State ρ → Option (State ρ)}

theorem Matched.set_zero {s : State ρ} (h : m.Matched fun _ _ => 0) (hs : Shape n.config s)
    (hg : Good n.config s.books) (howes : ∀ a, s.books.owes n.config a ≤ m.owes n a)
    (hflies : ∀ l, n.lower = some l → ∀ a,
      flies n.config a (m.node n).mshr ≤ flies n.config a s.mshr) :
    (m.set n s).Matched fun _ _ => 0 :=
  (h.set (w := fun _ => 0) (δ := fun _ => 0) hs hg howes hflies).mono fun _ _ => Nat.zero_le _

theorem Matched.set_above {s : State ρ} {δ : Nat → Nat} (h : m.Matched fun _ _ => 0)
    (hl : n.lower = some l) (hs : Shape n.config s) (hg : Good n.config s.books)
    (howes : ∀ a, s.books.owes n.config a ≤ m.owes n a)
    (hflies : ∀ a, flies n.config a (m.node n).mshr + δ a ≤ flies n.config a s.mshr) :
    (m.set n s).Matched (above l δ) := by
  refine (h.set (w := fun _ => 0) hs hg howes fun _ _ => hflies).mono fun x a => ?_
  unfold above
  by_cases hx : x = l
  · subst hx
    rw [if_pos rfl, if_pos hl]
    exact Nat.le_add_left _ _
  · rw [if_neg hx]
    exact Nat.zero_le _

/-- What a handler trades, its calls settle. -/
theorem handle_matched (h : m.Matched fun _ _ => 0)
    (hf : ∀ s, f (m.outside n env) { m.node n with calls := [] } = some s →
      Shape n.config s ∧ Good n.config s.books ∧
        Trade n.config env.answers { (m.node n).books with calls := [] } s.books)
    (h' : m.handle n env f = some m') : m'.Matched fun _ _ => 0 := by
  obtain ⟨s, hs, h'⟩ := Option.bind_eq_some_iff.mp h'
  obtain ⟨hshape, hgood, htrade⟩ := hf s hs
  cases htrade with
  | kept out hcalls hout howes hflies =>
    change s.calls = [] ++ out at hcalls
    rw [hcalls, List.nil_append] at h'
    have hset := h.set_zero hshape hgood howes fun _ _ => hflies
    exact hset.returned (run_evicts hset.sound hout h') fun _ _ => le_refl _
  | gave out cpu p hcalls hout hp h0 howes hflies =>
    change s.calls = [] ++ (out ++ returnCalls n.config cpu p) at hcalls
    rw [hcalls, List.nil_append, run_append] at h'
    obtain ⟨m₁, hm₁, h'⟩ := Option.bind_eq_some_iff.mp h'
    rw [run_perform_returns] at h'
    have hset := h.set (δ := fun _ => 0) hshape hgood howes fun _ _ => hflies
    have hout := run_evicts hset.sound hout hm₁
    refine hset.returned (hout.trans (run_returnCalls hout.sound hp h0 h')) fun x a => ?_
    unfold above
    dsimp only
    omega
  | asked k p hcalls hk hp h0 howes hflies hfree =>
    change s.calls = [] ++ [k] at hcalls
    rw [hcalls, List.nil_append] at h'
    obtain ⟨m₁, hm₁, h'⟩ := run_cons_inv h'
    cases h'
    cases hl : n.lower with
    | none =>
      have hsame : m.set n s = m' := by
        unfold perform at hm₁
        rw [hl] at hm₁
        rcases hk with ⟨rfl, -⟩ | rfl <;> exact Option.some.inj hm₁
      rw [← hsame]
      refine h.set_zero hshape hgood howes fun _ _ a => ?_
      exact (Nat.le_add_right _ _).trans (hflies a)
    | some l =>
      have hset := h.set_above hl hshape hgood howes hflies
      have hnode : (m.set n s).node l = m.node l := set_node_of_ne (Node.lower_ne hl)
      unfold perform at hm₁
      rw [hl] at hm₁
      rcases hk with ⟨rfl, h1⟩ | rfl
      · have hllc : n.config.cacheType ≠ .llc := by
          intro hc
          rw [Node.eq_llc hc] at hl
          cases hl
        refine callLower_rq hset hl hp h0 (h1 hllc) (fun _ => le_refl _) ?_ hm₁
        rw [hnode]
        exact h.room hl hfree
      · exact callLower_pq hset hl hp h0 (fun _ => le_refl _) hm₁

end Handlers

/-! ## A cycle -/

section Cycle

variable {P : ∀ n : Node numCpus, Policy n.config ρ} {m m' : Machine numCpus ρ} {n : Node numCpus}
  {env : Env}

theorem outside_answers (m : Machine numCpus ρ) (n : Node numCpus) (env : Env) :
    (m.outside n env).answers = env.answers := by
  unfold outside
  split <;> rfl

theorem outside_proper (h : env.Proper n.config) : (m.outside n env).Proper n.config := by
  unfold outside
  split
  · exact ⟨h.callbacks, h.clock⟩
  · exact h

theorem outside_ready {q : PacketQueue} (h : Ready n.config env q) :
    Ready n.config (m.outside n env) q := by
  unfold outside
  split
  · exact h
  · exact h

/-- A handler of the cache `n` preserves the invariant when it keeps its own books. -/
theorem handler_matched {f : Env → State ρ → Option (State ρ)} (h : m.Matched fun _ _ => 0)
    (hf : ∀ s s', s.rq = (m.node n).rq → s.pq = (m.node n).pq → Shape n.config s →
      Good n.config s.books → f (m.outside n env) s = some s' →
      Shape n.config s' ∧ Good n.config s'.books ∧
        Trade n.config (m.outside n env).answers s.books s'.books)
    (h' : m.handle n env f = some m') : m'.Matched fun _ _ => 0 := by
  refine handle_matched h (fun s' hs' => ?_) h'
  obtain ⟨hshape, hgood, htrade⟩ := hf { m.node n with calls := [] } s' rfl rfl
    ((h.sound.shape n).of_rings rfl rfl rfl rfl rfl) ((h.sound.good n).withCalls []) hs'
  rw [outside_answers] at htrade
  exact ⟨hshape, hgood, htrade⟩

theorem fill_matched (h : m.Matched fun _ _ => 0) (henv : env.Proper n.config)
    (h' : m.handle n env (handleFill (P n)) = some m') : m'.Matched fun _ _ => 0 := by
  refine handler_matched h (fun s s' _ _ hs hg hs' => ?_) h'
  obtain ⟨hshape, -⟩ := (handleFill_does (R := Rules.any) hs fun _ => trivial).of_eq hs'
  exact ⟨hshape, handleFill_trades hs hg (outside_proper henv) hs'⟩

theorem writeback_matched (h : m.Matched fun _ _ => 0) (henv : env.Proper n.config)
    (h' : m.handle n env (handleWriteback (P n)) = some m') : m'.Matched fun _ _ => 0 := by
  refine handler_matched h (fun s s' _ _ hs hg hs' => ?_) h'
  obtain ⟨hshape, -⟩ :=
    (handleWriteback_does (R := Rules.any) hs (fun _ => trivial) (obeys_any _ _ _)).of_eq hs'
  exact ⟨hshape, handleWriteback_trades hs hg (outside_proper henv) hs'⟩

theorem read_matched (h : m.Matched fun _ _ => 0) (henv : env.Proper n.config)
    (hready : Ready n.config env (m.node n).rq)
    (h' : m.handle n env (readOne (P n)) = some m') : m'.Matched fun _ _ => 0 := by
  refine handler_matched h (fun s s' hrq _ hs hg hs' => ?_) h'
  have hready := outside_ready (m := m) (hrq ▸ hready)
  obtain ⟨hshape, -⟩ := (readOne_does (R := Rules.any) hs (fun _ => trivial) hready).of_eq hs'
  exact ⟨hshape, readOne_trades hs hg (outside_proper henv) hready hs'⟩

theorem prefetch_matched (h : m.Matched fun _ _ => 0) (henv : env.Proper n.config)
    (hready : Ready n.config env (m.node n).pq)
    (h' : m.handle n env (prefetchOne (P n)) = some m') : m'.Matched fun _ _ => 0 := by
  refine handler_matched h (fun s s' _ hpq hs hg hs' => ?_) h'
  have hready := outside_ready (m := m) (hpq ▸ hready)
  obtain ⟨hshape, -⟩ := (prefetchOne_does (R := Rules.any) hs (fun _ => trivial) hready).of_eq hs'
  exact ⟨hshape, prefetchOne_trades hs hg (outside_proper henv) hready hs'⟩

/-- The loops, by induction on the rounds left. -/
theorem serve_matched {queue : State ρ → PacketQueue} {one : Env → State ρ → Option (State ρ)}
    {E : Nat → Env}
    (hone : ∀ (m m' : Machine numCpus ρ) (k : Nat), m.Matched (fun _ _ => 0) →
      Ready n.config (E k) (queue (m.node n)) → m.handle n (E k) one = some m' →
      m'.Matched fun _ _ => 0) (k : Nat) (h : m.Matched fun _ _ => 0)
    (h' : m.serve n queue one E k = some m') : m'.Matched fun _ _ => 0 := by
  induction k generalizing m with
  | zero =>
    cases h'
    exact h
  | succ k ih =>
    unfold serve at h'
    dsimp only at h'
    split at h'
    · rename_i hready
      obtain ⟨m₁, hm₁, h'⟩ := Option.bind_eq_some_iff.mp h'
      have h₁ := hone m m₁ _ h hready hm₁
      split at h'
      · cases h'
        exact h₁
      · exact ih h₁ h'
    · cases h'
      exact h

theorem operate_matched {E : CycleEnv} (h : m.Matched fun _ _ => 0)
    (hE : (Action.operate n E).Proper) (h' : m.operate P n E = some m') :
    m'.Matched fun _ _ => 0 := by
  obtain ⟨hfill, hwriteback, hread, hprefetch⟩ := hE
  obtain ⟨m₁, hm₁, h'⟩ := Option.bind_eq_some_iff.mp h'
  obtain ⟨m₂, hm₂, h'⟩ := Option.bind_eq_some_iff.mp h'
  obtain ⟨m₃, hm₃, h'⟩ := Option.bind_eq_some_iff.mp h'
  have h₂ := writeback_matched (fill_matched h hfill hm₁) hwriteback hm₂
  have hset : (m₂.set n { m₂.node n with readsAvailable := n.config.maxRead }).Matched
      fun _ _ => 0 :=
    h₂.set_zero ((h₂.sound.shape n).of_rings rfl rfl rfl rfl rfl) (h₂.sound.good n)
      (fun _ => le_refl _) fun _ _ _ => le_refl _
  have h₃ := serve_matched (fun _ _ k h hready h' => read_matched h (hread k) hready h') _ hset hm₃
  split at h'
  · exact serve_matched (fun _ _ k h hready h' => prefetch_matched h (hprefetch k) hready h') _
      h₃ h'
  · cases h'
    exact h₃

end Cycle

/-! ## Actions -/

/-- What the core sends fills its first level, and waits for no other data than its own. -/
theorem Request.packet_fits (r : Request) (cpu : Fin numCpus) :
    Fits (Node.ofCore r.level cpu).config (r.packet numCpus cpu) ∧
      (r.packet numCpus cpu).fillLevel = fillL1 ∧
      (Node.ofCore r.level cpu).config.fillLevel = fillL1 := by
  cases r with
  | fetchTranslation | fetchLine =>
    refine ⟨⟨.inl rfl, ⟨fun _ => rfl, fun _ => .inl rfl⟩, fun _ => rfl, fun h => ?_⟩, rfl, rfl⟩
    rcases h with h | h <;> cases h
  | storeTranslation | loadTranslation | loadData =>
    refine ⟨⟨.inl rfl, ⟨fun _ => rfl, fun _ => .inr rfl⟩, fun h => ?_, fun _ => rfl⟩, rfl, rfl⟩
    rcases h with h | h <;> cases h

section Init

variable {c : Config}

theorem init_slots (P : Policy c ρ) (i : Nat) : slotsOf c (State.init P).mshr i = none :=
  if_neg fun h => h.2 (Packet.empty_address c.numCpus)

theorem init_good (P : Policy c ρ) : Good c (State.init P).books := by
  have hrq : (State.init P).books.rq = [] := rfl
  have hwq : (State.init P).books.wq = [] := rfl
  have hpq : (State.init P).books.pq = [] := rfl
  refine ⟨by simp [hrq], by simp [hrq], by simp [hwq], by simp [hpq], ?_, rfl⟩
  refine ⟨fun i e he => ?_, fun i j e f he => ?_, (fun i _ h => nomatch h), .inl rfl⟩
  · cases (init_slots P i).symm.trans he
  · cases (init_slots P i).symm.trans he

theorem init_owes (P : Policy c ρ) (a : Nat) : (State.init P).books.owes c a = 0 := by
  have hrq : (State.init P).books.rq = [] := rfl
  have hpq : (State.init P).books.pq = [] := rfl
  have hmshr : mshrOwes c a (State.init P).books.mshr = 0 := by
    refine slots_eq_zero fun i _ e he => ?_
    cases (init_slots P i).symm.trans he
  unfold Books.owes
  rw [hrq, hpq, hmshr]
  rfl

end Init

section Actions

variable {P : ∀ n : Node numCpus, Policy n.config ρ} {m m' : Machine numCpus ρ} {n : Node numCpus}
  {env : Env}

theorem request_matched {cpu : Fin numCpus} {r : Request} (h : m.Matched fun _ _ => 0)
    (h' : m.step P (.request cpu env r) = some m') : m'.Matched fun _ _ => 0 := by
  unfold step at h'
  dsimp only at h'
  refine handler_matched h (fun s s' _ _ hs hg hs' => ?_) h'
  obtain ⟨⟨r', s₁⟩, hr, rfl⟩ := Option.map_eq_some_iff.mp hs'
  obtain ⟨hfits, h1, hc⟩ := Request.packet_fits r cpu
  obtain ⟨hshape, -⟩ := (addRq_does hs).of_eq hr
  obtain ⟨hgood, -, hout⟩ := addRq_books hs hg hfits h1 hr
  refine ⟨hshape, hgood, ?_⟩
  rcases hout with ⟨q, hq, hbooks⟩ | ⟨rq, hbooks, howes⟩
  · have hlevel : (Node.ofCore r.level cpu).config.fillLevel ≤ q.fillLevel := by
      obtain ⟨_, _, _, _, _, _, _, rfl⟩ := hq
      rw [hc, ← h1]
    rw [returnCalls_of_level hlevel, List.append_nil] at hbooks
    rw [show s₁.books = s.books from hbooks]
    exact Trade.refl _
  · refine .kept [] ?_ (by simp) (fun a => ?_) fun a => ?_
    · rw [hbooks, List.append_nil]
    · have := howes a
      rw [weigh_of_level (by rw [hc, h1]), Nat.add_zero] at this
      rw [hbooks]
      unfold Books.owes
      dsimp only
      omega
    · rw [hbooks]

theorem store_matched {cpu : Fin numCpus} {cycle sqIndex : Nat} {e : Core.LsqEntry}
    (h : m.Matched fun _ _ => 0)
    (h' : m.step P (.store cpu env cycle sqIndex e) = some m') : m'.Matched fun _ _ => 0 := by
  unfold step at h'
  dsimp only at h'
  refine handler_matched h (fun s s' _ _ hs hg hs' => ?_) h'
  obtain ⟨⟨r, s₁⟩, hr, rfl⟩ := Option.map_eq_some_iff.mp hs'
  obtain ⟨hshape, -⟩ := (addWq_does hs).of_eq hr
  have hfits : Fits (Node.ofCore .l1d cpu).config
      (Core.storeData numCpus cpu cycle sqIndex e) := by
    refine ⟨.inl rfl, ⟨fun _ => rfl, fun _ => .inr rfl⟩, fun h => ?_, fun _ => rfl⟩
    rcases h with h | h <;> cases h
  obtain ⟨hgood, wq, hbooks⟩ := addWq_books hs hg ⟨le_refl _, fun _ => ⟨hfits, rfl⟩⟩ hr
  refine ⟨hshape, hgood, .kept [] ?_ (by simp) (fun a => ?_) fun a => ?_⟩
  · rw [hbooks, List.append_nil]
  · rw [hbooks]
    exact le_refl _
  · rw [hbooks]

theorem callback_matched {k : Callback} (h : m.Matched fun _ _ => 0) (hk : k.Proper n.config)
    (h' : m.step P (.prefetch n env k) = some m') : m'.Matched fun _ _ => 0 := by
  unfold step at h'
  dsimp only at h'
  refine handler_matched h (fun s s' _ _ hs hg hs' => ?_) h'
  obtain ⟨hshape, -⟩ := (runCallback_does (I := True) hs fun _ => trivial).of_eq hs'
  have hpre := runCallback_books hs hg hk hs'
  refine ⟨hshape, hpre.good, .kept [] ?_ (by simp) (fun a => ?_) fun a => ?_⟩
  · rw [hpre.rest, List.append_nil]
  · have := hpre.owes a
    rw [hpre.rest]
    unfold Books.owes
    dsimp only
    omega
  · rw [hpre.mshr]

/-- The LLC waits for the DRAM, and nobody else does. -/
theorem returnData_matched {p : Packet} (h : m.Matched fun _ _ => 0) (h0 : p.address ≠ 0)
    (h' : m.step P (.returnData env p) = some m') : m'.Matched fun _ _ => 0 := by
  obtain ⟨s, hs, h'⟩ := Option.bind_eq_some_iff.mp h'
  dsimp only at hs
  have hshape : Shape (Node.config (.llc : Node numCpus)) { m.node .llc with calls := [] } :=
    (h.sound.shape .llc).of_rings rfl rfl rfl rfl rfl
  obtain ⟨hshape', -⟩ := (returnData_does (I := True) hshape).of_eq hs
  obtain ⟨q, rfl, hq, howes, -⟩ :=
    returnData_books (s := { m.node .llc with calls := [] }) (h.sound.good .llc).mshr h0 hs
  cases h'
  have hgood := ((h.sound.good .llc).withCalls []).withMshr hq
  exact h.set_zero hshape' hgood (fun a => (congrArg (_ + ·) (howes a)).le) fun l hl => by cases hl

theorem step_matched {a : Action numCpus} (h : m.Matched fun _ _ => 0) (ha : a.Proper)
    (h' : m.step P a = some m') : m'.Matched fun _ _ => 0 := by
  cases a with
  | operate n E => exact operate_matched h ha h'
  | request cpu env r => exact request_matched h h'
  | store cpu env cycle sqIndex e => exact store_matched h h'
  | prefetch n env k => exact callback_matched h ha h'
  | returnData env p => exact returnData_matched h ha h'
  | invalidateEntry n address =>
    cases h'
    obtain ⟨hshape, -⟩ := invalidateEntry_does (h.sound.shape n) trivial address
    have hbooks : (Cache.invalidateEntry n.config (m.node n) address).books = (m.node n).books :=
      invalidateAll_books [address] (m.node n)
    refine h.set_zero hshape ((h.sound.good n).of_eq hbooks) (fun a => ?_) fun _ _ a => ?_
    · rw [hbooks]
      exact le_refl _
    · exact (congrArg (fun b => flies n.config a b.mshr) hbooks).ge
  | complete n =>
    obtain ⟨q, hq, rfl⟩ := Option.map_eq_some_iff.mp h'
    obtain ⟨hshape, -⟩ := (complete_does (P := P n) (R := Rules.any) (h.sound.shape n)).of_eq
      (Option.map_eq_some_iff.mpr ⟨q, hq, rfl⟩)
    exact h.set_zero hshape (h.sound.good n) (fun _ => le_refl _) fun _ _ _ => le_refl _

theorem init_matched (P : ∀ n : Node numCpus, Policy n.config ρ) :
    (init P).Matched fun _ _ => 0 := by
  refine ⟨⟨fun n => shape_init (P n), fun n => init_good (P n)⟩, fun n a => ?_, rfl, rfl⟩
  have : (init P).owes n a = 0 := init_owes (P n) a
  omega

end Actions

/-- A run of the hierarchy from its start. -/
theorem misses_reach_lower (P : ∀ n : Node numCpus, Policy n.config ρ)
    {as : List (Action numCpus)} {m : Machine numCpus ρ} (has : ∀ a ∈ as, a.Proper)
    (h : run (step P) (init P) as = some m) :
    (∀ l : Node numCpus, l.uppers ≠ [] →
      ∃ f : Fin (m.node l).rq.contents.length → Node numCpus × Nat, Function.Injective f ∧
        ∀ k, m.Outstanding l ((m.node l).rq.contents.get k) (f k)) ∧
      m.refused = [] ∧ m.crowded = [] := by
  have hm : m.Matched fun _ _ => 0 :=
    run_invariant (I := fun m => m.Matched fun _ _ => 0) (P := fun _ a => a.Proper)
      (fun _ _ _ h ha h' => step_matched h ha h') (init_matched P) (along_of_forall has _) h
  refine ⟨fun l hl => ?_, hm.refused, hm.crowded⟩
  obtain ⟨u, hu⟩ := List.exists_mem_of_ne_nil _ hl
  exact hm.rq_matching (Node.mem_uppers.mp hu)

/-- A load misses in the L1D, which asks the L2C. -/
def loadMiss : List (Action 1) :=
  [.request 0 (Env.quiet 0) (.loadData 3 { Core.LsqEntry.empty with physicalAddress := 320 }),
    .operate (.ofCore .l1d 0) (CycleEnv.quiet 10)]

theorem quiet_proper {c : Config} {t : Nat} (ht : t < u64Max) : (Env.quiet t).Proper c :=
  ⟨fun k hk => by simp [Env.quiet] at hk, fun _ => ht⟩

theorem loadMiss_proper : ∀ a ∈ loadMiss, a.Proper := by
  intro a ha
  rcases List.mem_pair.mp ha with rfl | rfl
  · trivial
  · have hquiet : (Env.quiet 10).Proper (Node.ofCore .l1d (0 : Fin 1)).config :=
      quiet_proper (by decide)
    exact ⟨hquiet, hquiet, fun _ => hquiet, fun _ => hquiet⟩

theorem loadMiss_asks :
    (run (step fun n => lru n.config) (init fun n => lru n.config) loadMiss).map
      (fun m => (m.node (.ofCore .l2c 0)).rq.occupancy) = some 1 := by
  decide +kernel

theorem loadMiss_reaches_l2c :
    ∃ m, run (step fun n => lru n.config) (init fun n => lru n.config) loadMiss = some m ∧
      (m.node (.ofCore .l2c 0)).rq.occupancy = 1 ∧
      (∀ l : Node 1, l.uppers ≠ [] →
        ∃ f : Fin (m.node l).rq.contents.length → Node 1 × Nat, Function.Injective f ∧
          ∀ k, m.Outstanding l ((m.node l).rq.contents.get k) (f k)) ∧
      m.refused = [] ∧ m.crowded = [] := by
  obtain ⟨m, hm, hone⟩ := Option.map_eq_some_iff.mp loadMiss_asks
  exact ⟨m, hm, hone, misses_reach_lower _ loadMiss_proper hm⟩

end Machine

end Cache
end ChampSim
