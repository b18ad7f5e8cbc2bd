import ChampSim.Tlb.Translate
import ChampSim.Hierarchy.Misses

/-!
# ChampSim.Tlb.Hierarchy

The TLBs of all cores in the hierarchy: the two of the first level and the STLB below them.

* `Translated` — what every TLB of a core holds is a translation of this core.
* `perform_translated` — the calls that a handler made keep it so.
* `handle_translated`  — so does a handler, when the TLB itself stays right.
* `beforeRead` — the part of a cycle that comes before `handle_read`.
* `operate_translated`, `step_translated` — a cycle, and any other action.
-/

namespace ChampSim
namespace Cache

open Lib

variable {numCpus : Nat} {ρ : Type} {T : Nat → Nat → Nat → Prop}

namespace Node

def isTlb (n : Node numCpus) : Bool := n.config.cacheType.isTlb

/-- TLBs are connected to TLBs. -/
theorem lower_isTlb {n l : Node numCpus} (h : n.lower = some l) : l.isTlb = n.isTlb := by
  cases n with
  | llc => simp [lower] at h
  | ofCore level cpu => cases level <;> cases h <;> rfl

/-- Below the TLBs of a core is its STLB. -/
theorem tlb_lower {n l : Node numCpus} (h : n.lower = some l) (hn : n.isTlb = true) :
    l.config.cacheType = .stlb ∧ l.config.cpu = n.config.cpu ∧ n.config.cacheType ≠ .stlb := by
  cases n with
  | llc => simp [lower] at h
  | ofCore level cpu =>
    cases level with
    | itlb | dtlb =>
      cases h
      refine ⟨rfl, rfl, ?_⟩
      intro hc
      cases hc
    | stlb => simp [lower] at h
    | l1i | l1d | l2c => cases hn

theorem tlb_hasLower {n : Node numCpus} (hn : n.isTlb = true) (h : n.config.hasLower = true) :
    ∃ l, n.lower = some l := by
  cases n with
  | llc => cases hn
  | ofCore level cpu =>
    cases level with
    | itlb | dtlb => exact ⟨_, rfl⟩
    | stlb => cases h
    | l1i | l1d | l2c => cases hn

theorem tlb_walks {n : Node numCpus} (hn : n.isTlb = true) (h : n.config.hasLower = false) :
    n.config.maxRead = 1 := by
  cases n with
  | llc => cases hn
  | ofCore level cpu =>
    cases level with
    | stlb => rfl
    | itlb | dtlb => cases h
    | l1i | l1d | l2c => cases hn

theorem tlb_pqSize {n : Node numCpus} (hn : n.isTlb = true) : n.config.pqSize = 0 := by
  cases n with
  | llc => cases hn
  | ofCore level cpu =>
    cases level with
    | itlb | dtlb | stlb => rfl
    | l1i | l1d | l2c => cases hn

end Node

namespace Machine

/-- `T cpu page data`: the page table maps `page` of the core `cpu` to `data`. -/
def Translated (T : Nat → Nat → Nat → Prop) (m : Machine numCpus ρ) : Prop :=
  ∀ n : Node numCpus, n.isTlb = true → Translates n.config (T n.config.cpu) (m.node n)

theorem Translated.mono {T' : Nat → Nat → Nat → Prop} {m : Machine numCpus ρ}
    (h : m.Translated T) (hT : ∀ cpu a d, T cpu a d → T' cpu a d) : m.Translated T' :=
  fun n hn => (h n hn).mono (hT _)

theorem init_translated (P : ∀ n : Node numCpus, Policy n.config ρ) : (init P).Translated T :=
  fun n hn => translates_init (P n) (Node.tlb_pqSize hn)

section Calls

variable {m m' : Machine numCpus ρ} {n l : Node numCpus} {env : Env} {s : State ρ} {k : Call}

theorem Translated.set (h : m.Translated T)
    (hs : n.isTlb = true → Translates n.config (T n.config.cpu) s) : (m.set n s).Translated T := by
  intro x hx
  by_cases hxn : x = n
  · subst hxn
    rw [set_node_self]
    exact hs hx
  · rw [set_node_of_ne hxn]
    exact h x hx

/-- A handler starts with no calls. -/
theorem Translated.fresh (h : m.Translated T) (hn : n.isTlb = true) :
    Translates n.config (T n.config.cpu) { m.node n with calls := [] } :=
  (h n hn).withCalls fun _ hk => nomatch hk

/-- The STLB hands a translation to a TLB above it. -/
theorem returnUp_translated (h : m.Translated T)
    (hk : l.isTlb = true → k.Right l.config (T l.config.cpu))
    (h' : returnUp env l m k = some m') : m'.Translated T := by
  obtain ⟨⟨u, p⟩, hu, h'⟩ := Option.bind_eq_some_iff.mp h'
  obtain ⟨s, hs, rfl⟩ := Option.map_eq_some_iff.mp h'
  have hlower := Node.target_lower hu
  refine h.set fun htlb => returnData_translates (h u htlb) ?_ hs
  obtain ⟨hstlb, hcpu, -⟩ := Node.tlb_lower hlower htlb
  have hright := hk ((Node.lower_isTlb hlower).trans htlb)
  rw [← hcpu]
  cases k with
  | returnIcache cpu q | returnDcache cpu q =>
    obtain ⟨_, -, heq⟩ := Option.map_eq_some_iff.mp hu
    cases heq
    exact hright hstlb
  | lowerAddRq | lowerAddWq | lowerAddPq | lowerWqFull => cases hu

/-- What the lower level returns at once. -/
theorem answered_translated (h : m.Translated T) (h' : answered env n l m = some m') :
    m'.Translated T := by
  unfold answered at h'
  dsimp only at h'
  split at h'
  · refine run_invariant (I := fun m => m.Translated T)
      (P := fun _ k => l.isTlb = true → k.Right l.config (T l.config.cpu))
      (fun _ _ _ h hk h' => returnUp_translated h hk h') h (along_of_forall ?_ _) h'
    intro k hk htlb
    exact (h l htlb).calls k (List.mem_filter.mp hk).1
  · cases h'

theorem callLower_translated (h : m.Translated T) (hl : n.lower = some l)
    (hk : n.isTlb = true → k.Right n.config (T n.config.cpu))
    (h' : callLower env n l m k = some m') : m'.Translated T := by
  have hnone : ∀ {s : State ρ}, (n.isTlb = true → False) →
      l.isTlb = true → Translates l.config (T l.config.cpu) s :=
    fun hn htlb => (hn ((Node.lower_isTlb hl).symm.trans htlb)).elim
  cases k with
  | lowerAddRq p =>
    obtain ⟨⟨r, s⟩, hs, h'⟩ := Option.bind_eq_some_iff.mp h'
    refine answered_translated ?_ h'
    refine h.set fun htlb => ?_
    have hn := (Node.lower_isTlb hl).symm.trans htlb
    obtain ⟨htype, hcpu⟩ : Demand n.config p := hk hn
    rw [← (Node.tlb_lower hl hn).2.1] at hcpu
    exact addRq_translates (h.fresh htlb) ⟨htype, hcpu⟩ hs
  | lowerAddPq p =>
    obtain ⟨⟨r, s⟩, hs, h'⟩ := Option.bind_eq_some_iff.mp h'
    exact answered_translated (h.set (hnone hk)) h'
  | lowerAddWq p =>
    obtain ⟨⟨r, s⟩, hs, rfl⟩ := Option.map_eq_some_iff.mp h'
    exact h.set (hnone hk)
  | lowerWqFull a =>
    cases h'
    exact h.set (hnone hk)
  | returnIcache | returnDcache => cases h'

theorem perform_translated (h : m.Translated T)
    (hk : n.isTlb = true → k.Right n.config (T n.config.cpu))
    (h' : perform env n m k = some m') : m'.Translated T := by
  cases k with
  | returnIcache | returnDcache => exact returnUp_translated h hk h'
  | lowerAddRq | lowerAddPq | lowerAddWq | lowerWqFull =>
    unfold perform at h'
    cases hl : n.lower with
    | none =>
      rw [hl] at h'
      cases h'
      exact h
    | some l =>
      rw [hl] at h'
      exact callLower_translated h hl hk h'

/-- The STLB takes a request and answers later. -/
theorem asked_answers (h : m.Translated T) (hn : n.isTlb = true) (hlower : n.config.hasLower = true)
    {q : Packet} (h' : run (perform env n) (m.set n s) [.lowerAddRq q] = some m') :
    env.answers = [] := by
  obtain ⟨l, hl⟩ := Node.tlb_hasLower hn hlower
  rw [run_singleton] at h'
  unfold perform at h'
  dsimp only at h'
  rw [hl] at h'
  obtain ⟨⟨r, t⟩, ht, h'⟩ := Option.bind_eq_some_iff.mp h'
  rw [set_node_of_ne (Node.lower_ne hl)] at ht h'
  have hcalls := addRq_calls (h.fresh ((Node.lower_isTlb hl).trans hn)) ht
  unfold answered at h'
  dsimp only at h' hcalls
  rw [set_node_self, hcalls] at h'
  split at h'
  · rename_i hnil
    exact hnil.symm
  · cases h'

end Calls

/-! ## A cycle -/

section Cycle

variable {P : ∀ n : Node numCpus, Policy n.config ρ} {m m' : Machine numCpus ρ} {n : Node numCpus}
  {env : Env} {f : Env → State ρ → Option (State ρ)}

theorem outside_walk (m : Machine numCpus ρ) (n : Node numCpus) (env : Env) :
    (m.outside n env).walk = env.walk := by
  unfold outside
  split <;> rfl

theorem handle_translated (h : m.Translated T)
    (hf : ∀ s, f (m.outside n env) { m.node n with calls := [] } = some s →
      run (perform env n) (m.set n s) s.calls = some m' → n.isTlb = true →
        Translates n.config (T n.config.cpu) s)
    (h' : m.handle n env f = some m') : m'.Translated T := by
  obtain ⟨s, hs, h'⟩ := Option.bind_eq_some_iff.mp h'
  refine run_invariant (I := fun m => m.Translated T)
    (P := fun _ k => n.isTlb = true → k.Right n.config (T n.config.cpu))
    (fun _ _ _ h hk h' => perform_translated h hk h') (h.set (hf s hs h'))
    (along_of_forall ?_ _) h'
  intro k hk htlb
  exact (hf s hs h' htlb).calls k hk

theorem fill_translated (h : m.Translated T) (hm : m.Matched fun _ _ => 0)
    (henv : env.Proper n.config) (h' : m.handle n env (handleFill (P n)) = some m') :
    m'.Translated T :=
  handle_translated h (fun _ hs _ hn =>
    handleFill_translates hn (h.fresh hn) (hm.sound.good n).mshr (outside_proper henv) hs) h'

theorem writeback_translated (h : m.Translated T)
    (h' : m.handle n env (handleWriteback (P n)) = some m') : m'.Translated T := by
  refine handle_translated h (fun s hs _ hn => ?_) h'
  rw [handleWriteback_translates (h.fresh hn) hs]
  exact h.fresh hn

theorem read_translated (h : m.Translated T)
    (hwalk : n.isTlb = true → n.config.hasLower = false → Walks n.config (m.node n) →
      T n.config.cpu ((m.node n).rq.entry (m.node n).rq.head).address
        (env.walk / 2 ^ logPageSize))
    (h' : m.handle n env (readOne (P n)) = some m') : m'.Translated T := by
  refine handle_translated h (fun s hs hrun hn => ?_) h'
  refine readOne_translates hn (h.fresh hn) rfl (fun hlower q hcalls => ?_) ?_ hs
  · rw [outside_answers]
    rw [hcalls] at hrun
    exact asked_answers h hn hlower hrun
  · rw [outside_walk]
    exact hwalk hn

/-- The loops, by induction on the rounds left. -/
theorem serve_invariant {I : Machine numCpus ρ → Prop} {queue : State ρ → PacketQueue}
    {one : Env → State ρ → Option (State ρ)} {E : Nat → Env}
    (hone : ∀ (m m' : Machine numCpus ρ) (k : Nat), I m →
      Ready n.config (E k) (queue (m.node n)) → m.handle n (E k) one = some m' → I m')
    (k : Nat) (h : I m) (h' : m.serve n queue one E k = some m') : I m' := by
  induction k generalizing m with
  | zero =>
    cases h'
    exact h
  | succ k ih =>
    unfold serve at h'
    dsimp only at h'
    split at h'
    · rename_i hready
      obtain ⟨m₁, hm₁, h'⟩ := Option.bind_eq_some_iff.mp h'
      have h₁ := hone m m₁ _ h hready hm₁
      split at h'
      · cases h'
        exact h₁
      · exact ih h₁ h'
    · cases h'
      exact h

/-- The hierarchy when `handle_read` of `n` starts. -/
def beforeRead (P : ∀ n : Node numCpus, Policy n.config ρ) (n : Node numCpus) (E : CycleEnv)
    (m : Machine numCpus ρ) : Option (Machine numCpus ρ) :=
  (m.handle n E.fill (handleFill (P n))).bind fun m =>
    (m.handle n E.writeback (handleWriteback (P n))).map fun m =>
      m.set n { m.node n with readsAvailable := n.config.maxRead }

/-- A TLB that walks the page table reads once in a cycle. -/
theorem serveReads_translated {E : Nat → Env} (h : m.Translated T)
    (hwalk : n.isTlb = true → n.config.hasLower = false →
      Ready n.config (E 0) (m.node n).rq → Walks n.config (m.node n) →
        T n.config.cpu ((m.node n).rq.entry (m.node n).rq.head).address
          ((E 0).walk / 2 ^ logPageSize))
    (h' : m.serve n State.rq (readOne (P n)) E n.config.maxRead = some m') : m'.Translated T := by
  by_cases hn : n.isTlb = true ∧ n.config.hasLower = false
  · rw [Node.tlb_walks hn.1 hn.2] at h'
    unfold serve at h'
    dsimp only at h'
    rw [Node.tlb_walks hn.1 hn.2] at h'
    split at h'
    · rename_i hready
      obtain ⟨m₁, hm₁, h'⟩ := Option.bind_eq_some_iff.mp h'
      have h₁ := read_translated h (fun htlb hlower hwalks => hwalk htlb hlower hready hwalks) hm₁
      split at h'
      · cases h'
        exact h₁
      · cases h'
        exact h₁
    · cases h'
      exact h
  · exact serve_invariant (I := fun m => m.Translated T)
      (fun _ _ k h _ h' => read_translated h (fun htlb hlower => absurd ⟨htlb, hlower⟩ hn) h') _ h h'

theorem operate_translated {E : CycleEnv} (h : m.Translated T) (hm : m.Matched fun _ _ => 0)
    (hE : (Action.operate n E).Proper)
    (hwalk : n.isTlb = true → n.config.hasLower = false → ∀ m₁, beforeRead P n E m = some m₁ →
      Ready n.config (E.read 0) (m₁.node n).rq → Walks n.config (m₁.node n) →
        T n.config.cpu ((m₁.node n).rq.entry (m₁.node n).rq.head).address
          ((E.read 0).walk / 2 ^ logPageSize))
    (h' : m.operate P n E = some m') : m'.Translated T := by
  obtain ⟨hfill, -, -, -⟩ := hE
  obtain ⟨m₁, hm₁, h'⟩ := Option.bind_eq_some_iff.mp h'
  obtain ⟨m₂, hm₂, h'⟩ := Option.bind_eq_some_iff.mp h'
  obtain ⟨m₃, hm₃, h'⟩ := Option.bind_eq_some_iff.mp h'
  have h₂ := writeback_translated (fill_translated h hm hfill hm₁) hm₂
  have hset : (m₂.set n { m₂.node n with readsAvailable := n.config.maxRead }).Translated T :=
    h₂.set fun hn => { h₂ n hn with }
  have hbefore : beforeRead P n E m =
      some (m₂.set n { m₂.node n with readsAvailable := n.config.maxRead }) := by
    unfold beforeRead
    rw [hm₁, Option.bind_some, hm₂, Option.map_some]
  have h₃ := serveReads_translated hset (fun hn hlower => hwalk hn hlower _ hbefore) hm₃
  split at h'
  · rename_i hpq
    refine serve_invariant (I := fun m => m.Translated T) (fun m m' k h hready h' => ?_) _ h₃ h'
    refine handle_translated h (fun s hs _ hn => ?_) h'
    -- a TLB has nothing to prefetch
    have hempty := (h n hn).pq.1
    exact absurd hready.2.2 (by omega)
  · cases h'
    exact h₃

end Cycle

/-! ## Actions -/

section Actions

variable {P : ∀ n : Node numCpus, Policy n.config ρ} {m m' : Machine numCpus ρ}

theorem Request.packet_demand (r : Request) (cpu : Fin numCpus) :
    Demand (Node.ofCore r.level cpu).config (r.packet numCpus cpu) := by
  cases r <;> exact ⟨fun h => (nomatch h), fun _ => rfl⟩

theorem step_translated {a : Action numCpus} (h : m.Translated T) (hm : m.Matched fun _ _ => 0)
    (ha : a.Proper)
    (hwalk : ∀ n E, a = .operate n E → n.isTlb = true → n.config.hasLower = false →
      ∀ m₁, beforeRead P n E m = some m₁ →
        Ready n.config (E.read 0) (m₁.node n).rq → Walks n.config (m₁.node n) →
          T n.config.cpu ((m₁.node n).rq.entry (m₁.node n).rq.head).address
            ((E.read 0).walk / 2 ^ logPageSize))
    (h' : m.step P a = some m') : m'.Translated T := by
  cases a with
  | operate n E => exact operate_translated h hm ha (hwalk n E rfl) h'
  | request cpu env r =>
    unfold step at h'
    refine handle_translated h (fun s hs _ hn => ?_) h'
    obtain ⟨⟨r', t⟩, ht, rfl⟩ := Option.map_eq_some_iff.mp hs
    exact addRq_translates (h.fresh hn) (Request.packet_demand r cpu) ht
  | store cpu env cycle sqIndex e =>
    unfold step at h'
    refine handle_translated h (fun s hs _ hn => ?_) h'
    cases hn
  | prefetch n env k =>
    unfold step at h'
    refine handle_translated h (fun s hs _ hn => ?_) h'
    exact (runCallback_translates (h.fresh hn) hs).1
  | returnData env p =>
    unfold step at h'
    refine handle_translated h (fun s hs _ hn => ?_) h'
    cases hn
  | invalidateEntry n address =>
    cases h'
    exact h.set fun hn => invalidateEntry_translates (h n hn) address
  | complete n =>
    obtain ⟨q, hq, rfl⟩ := Option.map_eq_some_iff.mp h'
    exact h.set fun hn => complete_translates (h n hn) hq

end Actions

end Machine

end Cache
end ChampSim
