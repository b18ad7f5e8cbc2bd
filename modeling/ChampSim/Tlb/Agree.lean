import ChampSim.Tlb.Hierarchy
import ChampSim.Paging.Bijection

/-!
# ChampSim.Tlb.Agree

The hierarchy together with the page table that its STLBs walk.

* `Paged`, `Paged.Move` — a move is an action of the hierarchy, or a call of `va_to_pa` by a core.
* `asks`  — the call of `va_to_pa` that a move makes. That of `handle_read` in the STLB is made
  when the request at the head of `RQ` misses and gets an MSHR entry.
* `Maps`  — a translation agrees with the page table at the key `v`.
* `step_agrees`, `run_keeps_agreement` — every TLB agrees with the page table at the keys that lost no page.

When a page is swapped, the TLBs are told with `invalidateEntry`.
-/

namespace ChampSim
namespace Cache

open Lib

variable {numCpus : Nat} {ρ : Type}

structure Paged (numCpus : Nat) (ρ : Type) where
  machine : Machine numCpus ρ
  paging : Paging.State

/-- `draws` and `rand` are what the generators return when the move walks the page table. -/
inductive Paged.Move (numCpus : Nat) where
  | action (a : Action numCpus) (draws : List Nat) (rand : Nat)
  | translate (call : Paging.Call)

def Paged.Move.Proper : Paged.Move numCpus → Prop
  | .action a _ _ => a.Proper
  | .translate _ => True

/-- The result of `va_to_pa` in the cycle of an STLB. -/
def Action.withWalk (pa : Nat) : Action numCpus → Action numCpus
  | .operate n E => .operate n { E with read := fun k => { E.read k with walk := pa } }
  | a => a

namespace Paged

def init (P : ∀ n : Node numCpus, Policy n.config ρ) : Paged numCpus ρ where
  machine := Machine.init P
  paging := .init

/-- `va_to_pa(read_cpu, instr_id, full_addr, address, 0)` for the head of `RQ`. -/
def walkCall (env : Env) (p : Packet) (draws : List Nat) (rand : Nat) : Paging.Call where
  cpu := p.cpu
  va := p.fullAddr
  uniqueVpage := p.address
  isCode := false
  currentCoreCycle := env.currentCoreCycle p.cpu
  draws := draws
  rand := rand

/-- The request for which `handle_read` of `n` walks the page table. -/
def walking (P : ∀ n : Node numCpus, Policy n.config ρ) (m : Machine numCpus ρ) (n : Node numCpus)
    (E : CycleEnv) : Option Packet :=
  (m.beforeRead P n E).bind fun m =>
    let s := m.node n
    if n.config.cacheType = .stlb ∧ Ready n.config (E.read 0) s.rq ∧ Walks n.config s then
      some (s.rq.entry s.rq.head)
    else none

def asks (P : ∀ n : Node numCpus, Policy n.config ρ) (σ : Paged numCpus ρ) :
    Move numCpus → Option Paging.Call
  | .action (.operate n E) draws rand =>
    (walking P σ.machine n E).map fun p => walkCall (E.read 0) p draws rand
  | .action _ _ _ => none
  | .translate call => some call

def perform (P : ∀ n : Node numCpus, Policy n.config ρ) (m : Machine numCpus ρ) (pa : Nat) :
    Move numCpus → Option (Machine numCpus ρ)
  | .action a _ _ => m.step P (a.withWalk pa)
  | .translate _ => some m

def step (c : Paging.Config) (P : ∀ n : Node numCpus, Policy n.config ρ) (σ : Paged numCpus ρ)
    (x : Move numCpus) : Option (Paged numCpus ρ) :=
  match σ.asks P x with
  | some call =>
    (Paging.vaToPa c σ.paging call).bind fun (pa, paging) =>
      (perform P σ.machine pa x).map fun machine => ⟨machine, paging⟩
  | none => (perform P σ.machine 0 x).map fun machine => ⟨machine, σ.paging⟩

end Paged

/-! ## The page of a key -/

/-- The key of the page table under which the core `cpu` has `vpage`. -/
def tableKey (c : Paging.Config) (cpu vpage : Nat) : Option Nat :=
  (Paging.highBitMask c.numCpus cpu).map (vpage ||| ·)

/-- A TLB keeps the bits of a page number that are left in an address of 64 bits. -/
def Maps (c : Paging.Config) (t : Paging.State) (v cpu vpage data : Nat) : Prop :=
  tableKey c cpu vpage = some v →
    ∃ ppage, t.pageTable.lookup v = some ppage ∧ data = ppage % 2 ^ 52

/-- The page number in the address that `va_to_pa` puts together. -/
theorem page_of_address (ppage voffset : Nat) (h : voffset < 2 ^ 12) :
    (ppage * 2 ^ 12 % 2 ^ 64 ||| voffset) / 2 ^ 12 = ppage % 2 ^ 52 := by
  have hpage : ppage * 2 ^ 12 % 2 ^ 64 = ppage % 2 ^ 52 * 2 ^ 12 := by omega
  rw [hpage, Nat.mul_comm, ← Nat.two_pow_add_eq_or_of_lt h]
  omega

/-- `va_to_pa` answers from the page table that it leaves. -/
theorem vaToPa_maps {c : Paging.Config} {t t' : Paging.State} {call : Paging.Call} {pa v : Nat}
    (h : Paging.vaToPa c t call = some (pa, t')) :
    Maps c t' v call.cpu call.uniqueVpage (pa / 2 ^ logPageSize) := by
  intro hkey
  unfold Paging.vaToPa at h
  split at h
  · cases h
  · obtain ⟨mask, hmask, h⟩ := Option.bind_eq_some_iff.mp h
    obtain ⟨s, hs, h⟩ := Option.bind_eq_some_iff.mp h
    obtain ⟨ppage, hpage, heq⟩ := Option.map_eq_some_iff.mp h
    cases heq
    unfold tableKey at hkey
    rw [hmask, Option.map_some] at hkey
    cases hkey
    refine ⟨ppage, ?_, page_of_address _ _ (Nat.mod_lt _ (by decide))⟩
    rw [Paging.pay_pageTable]
    exact hpage

/-- A key that is no victim keeps its page. -/
theorem vaToPa_keeps {c : Paging.Config} {t t' : Paging.State} {call : Paging.Call} {pa v : Nat}
    (h : Paging.vaToPa c t call = some (pa, t')) (hv : Paging.victim c t call ≠ some v)
    {cpu vpage data : Nat} (hm : Maps c t v cpu vpage data) : Maps c t' v cpu vpage data := by
  intro hkey
  obtain ⟨ppage, hpage, hdata⟩ := hm hkey
  refine ⟨ppage, Paging.step_keeps ?_ hv hpage, hdata⟩
  unfold Paging.step
  rw [h, Option.map_some]

/-! ## Moves -/

namespace Machine

variable {P : ∀ n : Node numCpus, Policy n.config ρ} {m m' : Machine numCpus ρ} {n : Node numCpus}
  {E : CycleEnv}

theorem beforeRead_matched (h : m.Matched fun _ _ => 0) (hE : (Action.operate n E).Proper)
    (h' : m.beforeRead P n E = some m') : m'.Matched fun _ _ => 0 := by
  obtain ⟨hfill, hwriteback, -, -⟩ := hE
  obtain ⟨m₁, hm₁, h'⟩ := Option.bind_eq_some_iff.mp h'
  obtain ⟨m₂, hm₂, rfl⟩ := Option.map_eq_some_iff.mp h'
  have h₂ := writeback_matched (fill_matched h hfill hm₁) hwriteback hm₂
  exact h₂.set_zero ((h₂.sound.shape n).of_rings rfl rfl rfl rfl rfl) (h₂.sound.good n)
    (fun _ => le_refl _) fun _ _ _ => le_refl _

theorem beforeRead_translated {T : Nat → Nat → Nat → Prop} (h : m.Translated T)
    (hm : m.Matched fun _ _ => 0) (hE : (Action.operate n E).Proper)
    (h' : m.beforeRead P n E = some m') : m'.Translated T := by
  obtain ⟨hfill, -, -, -⟩ := hE
  obtain ⟨m₁, hm₁, h'⟩ := Option.bind_eq_some_iff.mp h'
  obtain ⟨m₂, hm₂, rfl⟩ := Option.map_eq_some_iff.mp h'
  have h₂ := writeback_translated (fill_translated h hm hfill hm₁) hm₂
  exact h₂.set fun hn => { h₂ n hn with }

theorem withWalk_proper {a : Action numCpus} (h : a.Proper) (pa : Nat) :
    (a.withWalk pa).Proper := by
  cases a with
  | operate n E =>
    obtain ⟨hfill, hwriteback, hread, hprefetch⟩ := h
    exact ⟨hfill, hwriteback, fun k => ⟨(hread k).callbacks, (hread k).clock⟩, hprefetch⟩
  | request | store | prefetch | returnData | invalidateEntry | complete => exact h

end Machine

namespace Paged

variable {c : Paging.Config} {P : ∀ n : Node numCpus, Policy n.config ρ}
  {σ σ' : Paged numCpus ρ} {v : Nat}

/-- The TLBs agree with the page table at `v`. -/
structure Agrees (c : Paging.Config) (v : Nat) (σ : Paged numCpus ρ) : Prop where
  matched : σ.machine.Matched fun _ _ => 0
  translated : σ.machine.Translated (Maps c σ.paging v)

/-- `v` does not lose its page in the move. -/
def Keeps (c : Paging.Config) (P : ∀ n : Node numCpus, Policy n.config ρ) (v : Nat)
    (σ : Paged numCpus ρ) (x : Move numCpus) : Prop :=
  ∀ call ∈ σ.asks P x, Paging.victim c σ.paging call ≠ some v

instance (σ : Paged numCpus ρ) (x : Move numCpus) : Decidable (σ.Keeps c P v x) :=
  inferInstanceAs (Decidable (∀ call ∈ σ.asks P x, _))

theorem perform_agrees {x : Move numCpus} {pa : Nat} {m' : Machine numCpus ρ}
    {T : Nat → Nat → Nat → Prop} (hm : σ.machine.Matched fun _ _ => 0) (h : σ.machine.Translated T)
    (hx : x.Proper)
    (hpa : ∀ call, σ.asks P x = some call → T call.cpu call.uniqueVpage (pa / 2 ^ logPageSize))
    (h' : perform P σ.machine pa x = some m') :
    (m'.Matched fun _ _ => 0) ∧ m'.Translated T := by
  cases x with
  | translate call =>
    cases h'
    exact ⟨hm, h⟩
  | action a draws rand =>
    have hproper := Machine.withWalk_proper hx pa
    refine ⟨Machine.step_matched hm hproper h', Machine.step_translated h hm hproper ?_ h'⟩
    rintro n E' ha hn hlower m₁ hm₁ hready hwalks
    cases a with
    | operate n' E =>
      cases ha
      have hstlb : n.config.cacheType = .stlb := by
        cases n with
        | llc => cases hn
        | ofCore level cpu =>
          cases level with
          | stlb => rfl
          | itlb | dtlb => cases hlower
          | l1i | l1d | l2c => cases hn
      have hwalking : walking P σ.machine n E = some ((m₁.node n).rq.entry (m₁.node n).rq.head) := by
        unfold walking
        rw [show σ.machine.beforeRead P n E = some m₁ from hm₁, Option.bind_some]
        exact if_pos ⟨hstlb, hready, hwalks⟩
      have hask := hpa (walkCall (E.read 0) ((m₁.node n).rq.entry (m₁.node n).rq.head) draws rand)
        (Option.map_eq_some_iff.mpr ⟨_, hwalking, rfl⟩)
      -- the head of `RQ` is a request of this core
      have hm₁' := Machine.beforeRead_matched hm hproper hm₁
      obtain ⟨rest, hrest⟩ := head_contents (hm₁'.sound.shape n).rq hready.2.2
      have h0 := (hm₁'.sound.shape n).rqLive _ (hrest ▸ List.mem_cons_self)
      have hcpu := ((Machine.beforeRead_translated h hm hproper hm₁ n hn).rq
        (m₁.node n).rq.head).2 h0
      rw [← hcpu]
      exact hask
    | request | store | prefetch | returnData | invalidateEntry | complete => cases ha

theorem step_agrees {x : Move numCpus} (h : σ.Agrees c v) (hx : x.Proper) (hv : σ.Keeps c P v x)
    (h' : step c P σ x = some σ') : σ'.Agrees c v := by
  unfold step at h'
  cases hask : σ.asks P x with
  | none =>
    rw [hask] at h'
    obtain ⟨m', hm', rfl⟩ := Option.map_eq_some_iff.mp h'
    obtain ⟨hm, ht⟩ := perform_agrees h.matched h.translated hx
      (fun call hcall => by rw [hask] at hcall; cases hcall) hm'
    exact ⟨hm, ht⟩
  | some call =>
    rw [hask] at h'
    obtain ⟨⟨pa, t⟩, ht, h'⟩ := Option.bind_eq_some_iff.mp h'
    obtain ⟨m', hm', rfl⟩ := Option.map_eq_some_iff.mp h'
    have hkept := h.translated.mono fun cpu a d hm => vaToPa_keeps ht (hv call hask) hm
    obtain ⟨hm, ht⟩ := perform_agrees h.matched hkept hx
      (fun call' hcall => by rw [hask] at hcall; cases hcall; exact vaToPa_maps ht) hm'
    exact ⟨hm, ht⟩

theorem init_agrees (c : Paging.Config) (P : ∀ n : Node numCpus, Policy n.config ρ) (v : Nat) :
    (init P).Agrees c v :=
  ⟨Machine.init_matched P, Machine.init_translated P⟩

theorem run_keeps_agreement {xs : List (Move numCpus)} (hxs : ∀ x ∈ xs, x.Proper)
    (hv : Along (step c P) (fun σ x => σ.Keeps c P v x) (init P) xs)
    (h : run (step c P) (init P) xs = some σ) : σ.Agrees c v :=
  run_invariant (I := fun σ => σ.Agrees c v) (P := fun σ x => x.Proper ∧ σ.Keeps c P v x)
    (fun _ _ _ h hx h' => step_agrees h hx.1 hx.2 h') (init_agrees c P v) (hv.and_forall hxs) h

/-- Through any moves that take no page from the key `v`, every valid block of a TLB and every
translation handed to a core is the page that the table has at `v`, whenever it is one of `v`. -/
theorem tlbs_agree_with_table {xs : List (Move numCpus)} (hxs : ∀ x ∈ xs, x.Proper)
    (hv : Along (step c P) (fun σ x => σ.Keeps c P v x) (init P) xs)
    (h : run (step c P) (init P) xs = some σ) :
    (∀ level cpu set way, Level.isTlb level = true →
      let b := (σ.machine.node (.ofCore level cpu)).block set way
      b.valid = true → tableKey c cpu b.tag = some v →
        ∃ ppage, σ.paging.pageTable.lookup v = some ppage ∧ b.data = ppage % 2 ^ 52) ∧
    (∀ cpu i,
      let p := (σ.machine.node (.ofCore .dtlb cpu)).processed.entry i
      p.address ≠ 0 → tableKey c cpu p.address = some v →
        ∃ ppage, σ.paging.pageTable.lookup v = some ppage ∧ p.dataPa = ppage % 2 ^ 52) ∧
    ∀ cpu i,
      let p := (σ.machine.node (.ofCore .itlb cpu)).processed.entry i
      p.address ≠ 0 → tableKey c cpu p.address = some v →
        ∃ ppage, σ.paging.pageTable.lookup v = some ppage ∧ p.instructionPa = ppage % 2 ^ 52 := by
  have hagrees := (run_keeps_agreement hxs hv h).translated
  refine ⟨?_, ?_, ?_⟩
  · intro level cpu set way hlevel b hb hkey
    cases level with
    | itlb => exact ((hagrees (.ofCore .itlb cpu) rfl).block set way).2 hb hkey
    | dtlb => exact ((hagrees (.ofCore .dtlb cpu) rfl).block set way).2 hb hkey
    | stlb => exact ((hagrees (.ofCore .stlb cpu) rfl).block set way).2 hb hkey
    | l1i | l1d | l2c => cases hlevel
  · intro cpu i p h0 hkey
    exact (hagrees (.ofCore .dtlb cpu) rfl).processed i h0 hkey
  · intro cpu i p h0 hkey
    exact (hagrees (.ofCore .itlb cpu) rfl).processed i h0 hkey

/-- A load misses in the DTLB and in the STLB, which walks the page table. -/
def loadWalk : List (Move 1) :=
  [.action (.request (.last 0) (Env.quiet 0)
      (.loadTranslation false 3 { Core.LsqEntry.empty with virtualAddress := 20480 })) [] 0,
    .action (.operate (.ofCore .dtlb (.last 0)) (CycleEnv.quiet 10)) [] 0,
    .action (.operate (.ofCore .stlb (.last 0)) (CycleEnv.quiet 30)) [7] 3,
    .action (.operate (.ofCore .stlb (.last 0)) (CycleEnv.quiet 60)) [] 0,
    .action (.operate (.ofCore .dtlb (.last 0)) (CycleEnv.quiet 90)) [] 0]

theorem loadWalk_proper : ∀ x ∈ loadWalk, x.Proper := by
  have hquiet : ∀ (n : Node 1) (t : Nat), t < u64Max →
      (Action.operate n (CycleEnv.quiet t)).Proper := fun n t ht =>
    ⟨Machine.quiet_proper ht, Machine.quiet_proper ht, fun _ => Machine.quiet_proper ht,
      fun _ => Machine.quiet_proper ht⟩
  intro x hx
  simp only [loadWalk, List.mem_cons, List.not_mem_nil, or_false] at hx
  rcases hx with rfl | rfl | rfl | rfl | rfl
  · trivial
  · exact hquiet _ 10 (by decide)
  · exact hquiet _ 30 (by decide)
  · exact hquiet _ 60 (by decide)
  · exact hquiet _ 90 (by decide)

theorem loadWalk_keeps : Along (step ⟨1, 1024, by decide⟩ fun n => lru n.config)
    (fun σ x => σ.Keeps ⟨1, 1024, by decide⟩ (fun n => lru n.config) 5 x)
    (init fun n => lru n.config) loadWalk := by
  decide +kernel

theorem loadWalk_delivers :
    (run (step ⟨1, 1024, by decide⟩ fun n => lru n.config) (init fun n => lru n.config)
      loadWalk).map (fun σ =>
        ((σ.machine.node (.ofCore .dtlb 0)).processed.entry 0).address) = some 5 := by
  decide +kernel

theorem loadWalk_agrees :
    ∃ σ, run (step ⟨1, 1024, by decide⟩ fun n => lru n.config) (init fun n => lru n.config)
        loadWalk = some σ ∧
      ∃ ppage, σ.paging.pageTable.lookup 5 = some ppage ∧
        ((σ.machine.node (.ofCore .dtlb 0)).processed.entry 0).dataPa = ppage % 2 ^ 52 := by
  obtain ⟨σ, hσ, haddress⟩ := Option.map_eq_some_iff.mp loadWalk_delivers
  have hagree := (tlbs_agree_with_table loadWalk_proper loadWalk_keeps hσ).2.1 0 0
  dsimp only at hagree
  rw [haddress] at hagree
  exact ⟨σ, hσ, hagree (by decide) (by decide)⟩

end Paged

end Cache
end ChampSim
