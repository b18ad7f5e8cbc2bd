import ChampSim.O3.InFlight

/-!
# ChampSim.O3.Stall

The front end stalls while a mispredicted branch is unresolved.

* `FrontStep s s'` — what a step does to the stall, to the resume cycle and to the flags in flight.
* `Clear`, `Branch`, `Penalty` — fetching; waiting for a branch; waiting for its penalty.
* `Clear.step`, `Branch.step`, `Penalty.step` — from each, where a step leads.
* `Timely s s'`    — a run in which `current_core_cycle` stays below `UINT64_MAX`.
* `stall_exact`    — the flag, in every state of such a run; nothing is read before the branch has
  executed and the penalty has passed.
* `stall_stuck`    — a branch that ends at `UINT64_MAX` leaves the front end stalled for good.
-/

namespace ChampSim
namespace O3

open Lib ChampSim.Core

variable {μ : Type}

/-- A mispredicted branch that has not completed. -/
def unresolved (x : OooModelInstr) : Bool := x.branchMispredicted && x.executed != .completed

def stallView (x : OooModelInstr) : Bool × Nat := (unresolved x, x.instrId)

theorem stable_stallView : Stable stallView := ⟨fun _ => rfl, fun _ => rfl⟩

def flags (s : Cpu μ) : List (Bool × Nat) := (inFlight s).map stallView

/-- The flagged instruction `id` completes. -/
structure Resolves (s s' : Cpu μ) (id i : Nat) : Prop where
  run : completeExecution i s = some s'
  isBranch : (s.rob.entry i).instrId = id ∧ unresolved (s.rob.entry i) = true
  executed : (s'.rob.entry i).executed = .completed

inductive FrontStep (s s' : Cpu μ) : Prop
  | same (hflags : flags s' = flags s) (hstall : s'.fetchStall = s.fetchStall)
    (hresume : s'.fetchResumeCycle = s.fetchResumeCycle)
    (hunique : s'.instrUniqueId = s.instrUniqueId)
    (hcycle : s.cycle < u64Max → s.cycle ≤ s'.cycle)
  | read {b : Bool} (hfetching : s.fetchStall = false)
    (hflags : flags s' = flags s ++ [(b, s.instrUniqueId)]) (hstall : s'.fetchStall = b)
    (hresume : s'.fetchResumeCycle = s.fetchResumeCycle)
    (hunique : s'.instrUniqueId = add64 s.instrUniqueId 1) (hcycle : s'.cycle = s.cycle)
  | resume (hdue : s.fetchResumeCycle ≠ 0 ∧ s.fetchResumeCycle ≤ s.cycle)
    (hflags : flags s' = flags s) (hstall : s'.fetchStall = false)
    (hresume : s'.fetchResumeCycle = 0) (hunique : s'.instrUniqueId = s.instrUniqueId)
    (hcycle : s'.cycle = s.cycle)
  | resolve {id i : Nat} {l₁ l₂ : List (Bool × Nat)} (hr : Resolves s s' id i)
    (hbefore : flags s = l₁ ++ (true, id) :: l₂) (hafter : flags s' = l₁ ++ (false, id) :: l₂)
    (hstall : s'.fetchStall = s.fetchStall)
    (hresume : s'.fetchResumeCycle = add64 s.cycle branchMispredictPenalty)
    (hunique : s'.instrUniqueId = s.instrUniqueId) (hcycle : s'.cycle = s.cycle)
  | retire {id : Nat} (hflags : flags s = (false, id) :: flags s')
    (hstall : s'.fetchStall = s.fetchStall)
    (hresume : s'.fetchResumeCycle = s.fetchResumeCycle)
    (hunique : s'.instrUniqueId = s.instrUniqueId) (hcycle : s'.cycle = s.cycle)

variable {M : Memory μ} {c : Config} {t : Trace} {O : μ → μ → Prop} {s s' : Cpu μ}

/-! ## The steps -/

theorem tick_cycle (h : s.cycle < u64Max) : s.tick.cycle = s.cycle + 1 :=
  Nat.mod_eq_of_lt (Nat.succ_lt_succ h)

/-- The end of the penalty does not wrap before `UINT64_MAX`. -/
theorem add64_penalty {n : Nat} (h : n < u64Max) :
    add64 n branchMispredictPenalty = n + branchMispredictPenalty :=
  Nat.mod_eq_of_lt (Nat.succ_lt_succ h)

theorem Quiet.frontStep (h : Quiet steady s s') : FrontStep s s' :=
  .same (h.inFlight stable_stallView) (congrArg Rest.fetchStall h.rest)
    (congrArg Rest.fetchResumeCycle h.rest) (congrArg Rest.instrUniqueId h.rest)
    fun _ => Nat.le_of_eq (congrArg Rest.cycle h.rest).symm

/-- The list of flags once the entry at `p` has been rewritten. -/
theorem flags_modify (h : Pipe c s) {p : Nat} (hp : s.rob.Live p)
    (f : OooModelInstr → OooModelInstr) :
    ∃ l₁ l₂, flags s = l₁ ++ stallView (s.rob.entry p) :: l₂ ∧
      ∀ s' : Cpu μ, Ring.Alike stallView (modify s.rob p f) s'.rob →
        s'.decodeBuffer = s.decodeBuffer → s'.ifetchBuffer = s.ifetchBuffer →
        flags s' = l₁ ++ stallView (f (s.rob.entry p)) :: l₂ := by
  obtain ⟨l₁, l₂, hlist, hmodify⟩ := h.split_rob hp
  refine ⟨l₁.map stallView, l₂.map stallView, ?_, fun s' ha hd hi => ?_⟩
  · unfold flags
    rw [hlist, List.map_append, List.map_cons]
  · have hmid := hmodify f { s with rob := modify s.rob p f } rfl rfl rfl
    have hsame := inFlight_rob (s := { s with rob := modify s.rob p f }) ha hd hi
    unfold flags
    rw [hsame, hmid, List.map_append, List.map_cons]

theorem Pipe.complete_frontStep (h : Pipe c s) {p : Nat} (hdone : Done p s s')
    (hrun : completeExecution p s = some s') : FrontStep s s' := by
  have hlive : s.rob.Live p := h.window.live_of (·.executed) (fun _ => rfl) (by
    rw [hdone.inflight]
    decide)
  obtain ⟨l₁, l₂, hbefore, hafter⟩ := flags_modify h hlive markCompleted
  have hrest := hdone.rest
  have hflags := hafter s' (hdone.shape.comp stallView) (by rw [hrest]) (by rw [hrest])
  have hcompleted : (s'.rob.entry p).executed = .completed := by
    have hsame := congrArg OooModelInstr.executed (hdone.freed p).same
    rw [modify_self] at hsame
    exact hsame
  have hinflight := hdone.inflight
  cases hb : (s.rob.entry p).branchMispredicted with
  | true =>
    have hun : unresolved (s.rob.entry p) = true := by simp [unresolved, hb, hinflight]
    have hview : stallView (s.rob.entry p) = (true, (s.rob.entry p).instrId) :=
      Prod.ext hun rfl
    have hview' : stallView (markCompleted (s.rob.entry p)) =
        (false, (s.rob.entry p).instrId) := by simp [stallView, unresolved, markCompleted]
    rw [hview] at hbefore
    rw [hview'] at hflags
    refine .resolve ⟨hrun, ⟨rfl, hun⟩, hcompleted⟩ hbefore hflags (by rw [hrest]) ?_ (by rw [hrest])
      (by rw [hrest])
    rw [hrest, hb]
    rfl
  | false =>
    have hview : stallView (markCompleted (s.rob.entry p)) = stallView (s.rob.entry p) := by
      simp [stallView, unresolved, markCompleted, hb]
    rw [hview, ← hbefore] at hflags
    refine .same hflags (by rw [hrest]) ?_ (by rw [hrest]) fun _ => by rw [hrest]
    rw [hrest, hb]
    rfl

theorem Pipe.frontStep (h : Pipe c s) (hm : Move c t s s') : FrontStep s s' := by
  cases hm with
  | tick => exact .same rfl rfl rfl rfl fun hclock => (tick_cycle hclock).ge.trans' (Nat.le_succ _)
  | read env b hroom hstall hrecord hsta =>
    rename_i x front sta
    have hx : x.instrId = s.instrUniqueId := readRecord_id hrecord
    have hidle := (readRecord_fresh hrecord).executed
    have hlist : inFlight { s with
        filePos := front.filePos
        nextInstr := front.nextInstr
        instrUniqueId := add64 s.instrUniqueId 1
        fetchStall := b
        ifetchBuffer := s.ifetchBuffer.push (predicted b (ifetchEntry (env.front s.cycle) x))
        sta := sta } = inFlight s ++ [predicted b (ifetchEntry (env.front s.cycle) x)] :=
      h.push_ifetch hroom _ rfl rfl rfl
    refine .read hstall ?_ rfl rfl rfl rfl
    unfold flags
    rw [hlist, List.map_append, List.map_singleton]
    congr 2
    refine Prod.ext ?_ hx
    simp [stallView, unresolved, predicted, ifetchEntry, hidle]
  | resume env =>
    unfold resumeFetch
    split
    · rename_i hdue
      exact .resume ⟨hdue.2.2, hdue.2.1⟩ rfl rfl rfl rfl rfl
    · exact .same rfl rfl rfl rfl fun _ => le_rfl
  | toDecode hip hroom =>
    exact .same (h.toDecode_inFlight stable_stallView hip hroom) rfl rfl rfl fun _ => le_rfl
  | toRob hip hroom =>
    exact .same (h.toRob_inFlight stable_stallView hip hroom) rfl rfl rfl fun _ => le_rfl
  | complete hc =>
    rcases h.flow.completes hc with rfl | hdone
    · exact .same rfl rfl rfl rfl fun _ => le_rfl
    · exact h.complete_frontStep hdone hc
  | schedule hf hidle hs =>
    have hsched := h.flow.schedules hf hidle hs
    have hrest := hsched.rest
    exact .same (inFlight_rob (hsched.rob.comp stallView) (by rw [hrest]) (by rw [hrest]))
      (by rw [hrest]) (by rw [hrest]) (by rw [hrest]) fun _ => by rw [hrest]
  | execute hi he =>
    rename_i b
    have hwait := h.flow.front_waits hi
    have hexec := hwait.executed
    refine .same (inFlight_rob (w := stallView) (alike_modify
      (f := markIssued s.cycle c.execLatency) ?_) rfl rfl) rfl rfl rfl fun _ => le_rfl
    simp only [stallView, unresolved, markIssued, addLatency, hexec]
    rfl
  | addStore hi hj hm ha hbefore hroom hsta hs =>
    obtain ⟨-, rfl⟩ := addStoreQueue_eq hs
    exact .same (inFlight_rob (w := stallView) (alike_modify rfl) rfl rfl) rfl rfl rfl fun _ => le_rfl
  | memoryScheduled hi hall =>
    rename_i i
    rw [memoryScheduled_eq]
    refine .same (inFlight_rob (w := stallView) (alike_modify ?_) rfl rfl) rfl rfl rfl fun _ => le_rfl
    by_cases hx : (s.rob.entry i).executed = .idle
    · simp only [stallView, unresolved, markMemoryScheduled, hx]
      rfl
    · simp only [stallView, unresolved, markMemoryScheduled, hx]
      rfl
  | retire hip hdone =>
    rename_i mem
    have hflags : flags s = (false, (s.rob.entry s.rob.head).instrId) ::
        flags (releaseHead c { s with mem := mem }) := by
      unfold flags
      rw [h.retire_inFlight hip mem, List.map_cons]
      congr 1
      simp [stallView, unresolved, hdone]
    exact .retire hflags rfl rfl rfl rfl

theorem Reaches.frontStep (h : Reaches M c t O s) (hop : Op M c t O s s') : FrontStep s s' :=
  hop.move.elim Quiet.frontStep (reaches_pipe h).frontStep

/-! ## Fetching, a branch, a penalty -/

def NoneOpen (l : List (Bool × Nat)) : Prop := ∀ e ∈ l, e.1 = false

structure Clear (s : Cpu μ) : Prop where
  stall : s.fetchStall = false
  resume : s.fetchResumeCycle = 0
  none : NoneOpen (flags s)

structure Branch (s : Cpu μ) (id : Nat) : Prop where
  stall : s.fetchStall = true
  resume : s.fetchResumeCycle = 0
  last : ∃ l, flags s = l ++ [(true, id)] ∧ NoneOpen l
  youngest : add64 id 1 = s.instrUniqueId

structure Penalty (s : Cpu μ) (n : Nat) : Prop where
  stall : s.fetchStall = true
  resume : s.fetchResumeCycle = n
  pos : n ≠ 0
  soon : n ≤ s.cycle + branchMispredictPenalty
  none : NoneOpen (flags s)

theorem not_noneOpen (l₁ l₂ : List (Bool × Nat)) (id : Nat) :
    ¬ NoneOpen (l₁ ++ (true, id) :: l₂) := fun h => by
  have hflag := h (true, id) (List.mem_append_right _ List.mem_cons_self)
  cases hflag

theorem NoneOpen.append {l l' : List (Bool × Nat)} (h : NoneOpen l) (h' : NoneOpen l') :
    NoneOpen (l ++ l') := fun e he => (List.mem_append.mp he).elim (h e) (h' e)

theorem noneOpen_singleton (id : Nat) : NoneOpen [(false, id)] := fun e he => by
  rw [List.mem_singleton.mp he]

theorem Clear.step (h : Clear s) (hs : FrontStep s s') : Clear s' ∨ ∃ id, Branch s' id := by
  cases hs with
  | same hflags hstall hresume hunique hcycle =>
    exact .inl ⟨hstall.trans h.stall, hresume.trans h.resume, hflags ▸ h.none⟩
  | @read b hfetching hflags hstall hresume hunique hcycle =>
    cases b with
    | false =>
      exact .inl ⟨hstall, hresume.trans h.resume, hflags ▸ h.none.append (noneOpen_singleton _)⟩
    | true =>
      exact .inr ⟨_, hstall, hresume.trans h.resume, ⟨_, hflags, h.none⟩, hunique.symm⟩
  | resume hdue hflags hstall hresume hunique hcycle => exact absurd h.resume hdue.1
  | resolve hr hbefore hafter hstall hresume hunique hcycle =>
    exact absurd (hbefore ▸ h.none) (not_noneOpen _ _ _)
  | retire hflags hstall hresume hunique hcycle =>
    refine .inl ⟨hstall.trans h.stall, hresume.trans h.resume, fun e he => h.none e ?_⟩
    rw [hflags]
    exact List.mem_cons_of_mem _ he

theorem Branch.step {id : Nat} (h : Branch s id) (hclock : s.cycle < u64Max)
    (hs : FrontStep s s') :
    Branch s' id ∨ (∃ i, Resolves s s' id i) ∧ Penalty s' (s.cycle + branchMispredictPenalty) := by
  obtain ⟨l, hl, hnone⟩ := h.last
  cases hs with
  | same hflags hstall hresume hunique hcycle =>
    exact .inl ⟨hstall.trans h.stall, hresume.trans h.resume, ⟨l, hflags.trans hl, hnone⟩,
      h.youngest.trans hunique.symm⟩
  | read hfetching hflags hstall hresume hunique hcycle =>
    exact absurd (h.stall.symm.trans hfetching) (by decide)
  | resume hdue hflags hstall hresume hunique hcycle => exact absurd h.resume hdue.1
  | @resolve id' i l₁ l₂ hr hbefore hafter hstall hresume hunique hcycle =>
    -- the only open flag is the last one
    have hsplit : l₁ ++ (true, id') :: l₂ = l ++ [(true, id)] := hbefore.symm.trans hl
    rcases List.eq_nil_or_concat l₂ with rfl | ⟨l₃, e, rfl⟩
    rotate_left
    · rw [List.concat_eq_append, ← List.cons_append, ← List.append_assoc] at hsplit
      exact absurd ((List.append_inj' hsplit rfl).1 ▸ hnone) (not_noneOpen _ _ _)
    obtain ⟨rfl, hlast⟩ := List.append_inj' hsplit rfl
    obtain ⟨rfl⟩ : id' = id := congrArg (·.2) (List.cons.inj hlast).1
    exact .inr ⟨⟨i, hr⟩, hstall.trans h.stall, hresume.trans (add64_penalty hclock),
      Nat.succ_ne_zero _, by rw [hcycle], hafter ▸ hnone.append (noneOpen_singleton _)⟩
  | retire hflags hstall hresume hunique hcycle =>
    refine .inl ⟨hstall.trans h.stall, hresume.trans h.resume, ?_, h.youngest.trans hunique.symm⟩
    rw [hl] at hflags
    cases l with
    | nil => cases (List.cons.inj hflags).1
    | cons e l =>
      exact ⟨l, (List.cons.inj hflags).2.symm, fun e he => hnone e (List.mem_cons_of_mem _ he)⟩

theorem Penalty.step {n : Nat} (h : Penalty s n) (hclock : s.cycle < u64Max)
    (hs : FrontStep s s') :
    Penalty s' n ∨ Clear s' ∧ n ≤ s'.cycle := by
  cases hs with
  | same hflags hstall hresume hunique hcycle =>
    exact .inl ⟨hstall.trans h.stall, hresume.trans h.resume, h.pos,
      h.soon.trans (Nat.add_le_add_right (hcycle hclock) _), hflags ▸ h.none⟩
  | read hfetching hflags hstall hresume hunique hcycle =>
    exact absurd (h.stall.symm.trans hfetching) (by decide)
  | resume hdue hflags hstall hresume hunique hcycle =>
    refine .inr ⟨⟨hstall, hresume, hflags ▸ h.none⟩, ?_⟩
    rw [hcycle, ← h.resume]
    exact hdue.2
  | resolve hr hbefore hafter hstall hresume hunique hcycle =>
    exact absurd (hbefore ▸ h.none) (not_noneOpen _ _ _)
  | retire hflags hstall hresume hunique hcycle =>
    refine .inl ⟨hstall.trans h.stall, hresume.trans h.resume, h.pos, hcycle.symm ▸ h.soon,
      fun e he => h.none e ?_⟩
    rw [hflags]
    exact List.mem_cons_of_mem _ he

theorem FrontStep.cycle_le (hclock : s.cycle < u64Max) (hs : FrontStep s s') :
    s.cycle ≤ s'.cycle := by
  cases hs with
  | same hflags hstall hresume hunique hcycle => exact hcycle hclock
  | read hfetching hflags hstall hresume hunique hcycle => exact hcycle.ge
  | resume hdue hflags hstall hresume hunique hcycle => exact hcycle.ge
  | resolve hr hbefore hafter hstall hresume hunique hcycle => exact hcycle.ge
  | retire hflags hstall hresume hunique hcycle => exact hcycle.ge

/-! ## Runs below `UINT64_MAX` -/

section Runs

variable (M : Memory μ) (c : Config) (t : Trace) (O : μ → μ → Prop)

/-- A run in which `current_core_cycle` stays below `UINT64_MAX`. -/
def Timely : Cpu μ → Cpu μ → Prop :=
  Relation.ReflTransGen fun s s' => Op M c t O s s' ∧ s'.cycle < u64Max

def InTime (s : Cpu μ) : Prop := ∃ mem, Timely M c t O (.init mem) s

end Runs

theorem Timely.refl (s : Cpu μ) : Timely M c t O s s := Relation.ReflTransGen.refl

theorem Timely.trans {s'' : Cpu μ} (h : Timely M c t O s s') (h' : Timely M c t O s' s'') :
    Timely M c t O s s'' := Relation.ReflTransGen.trans h h'

theorem Timely.ops (h : Timely M c t O s s') : Ops M c t O s s' :=
  Relation.ReflTransGen.mono (fun _ _ hop => hop.1) _ _ h

theorem InTime.timely (h : InTime M c t O s) (h' : Timely M c t O s s') : InTime M c t O s' :=
  h.imp fun _ hm => hm.trans h'

theorem InTime.reaches (h : InTime M c t O s) : Reaches M c t O s := h.imp fun _ hm => hm.ops

theorem InTime.clock (h : InTime M c t O s) : s.cycle < u64Max := by
  obtain ⟨mem, h⟩ := h
  cases h with
  | refl => exact Nat.pos_of_ne_zero (by decide)
  | tail _ hop => exact hop.2

/-- Every state reached is one of the three. -/
theorem InTime.front (h : InTime M c t O s) :
    Clear s ∨ (∃ id, Branch s id) ∨ ∃ n, Penalty s n := by
  obtain ⟨mem, h⟩ := h
  induction h with
  | refl => exact .inl ⟨rfl, rfl, fun _ he => absurd he List.not_mem_nil⟩
  | @tail s₁ s₂ hrun hop ih =>
    have hin : InTime M c t O s₁ := ⟨mem, hrun⟩
    have hstep := hin.reaches.frontStep hop.1
    rcases ih with hclear | ⟨id, hbranch⟩ | ⟨n, hpenalty⟩
    · exact (hclear.step hstep).imp_right .inl
    · rcases hbranch.step hin.clock hstep with hb | ⟨-, hp⟩
      · exact .inr (.inl ⟨id, hb⟩)
      · exact .inr (.inr ⟨_, hp⟩)
    · rcases hpenalty.step hin.clock hstep with hp | ⟨hc, -⟩
      · exact .inr (.inr ⟨n, hp⟩)
      · exact .inl hc

/-- A call does not change the clock. -/
theorem Call.clock (h : Call M c t O s s') (hf : Flow c s) : s'.cycle = s.cycle := by
  cases h with
  | askItlb hs => exact congrArg Rest.cycle (requestTranslation_quiet (π := steady) hs).rest
  | askL1i hs => exact congrArg Rest.cycle (requestLine_quiet (π := steady) hs).rest
  | answerInstr hp hs => exact congrArg Rest.cycle (completeInstrFetch_quiet (π := steady) hs).rest
  | answerData hp hserver hs => exact congrArg Rest.cycle (quiet_loadSide.completeDataFetch hs).rest
  | complete hs =>
    rcases hf.completes hs with rfl | hdone
    · rfl
    · rw [hdone.rest]
  | schedule hfetched hidle hs => rw [(hf.schedules hfetched hidle hs).rest]
  | addLoad hi hj hm ha hroom hs => exact congrArg Rest.cycle (addLoadQueue_quiet hs).rest
  | addStore hi hj hm ha hbefore hroom hsta hs =>
    obtain ⟨-, rfl⟩ := addStoreQueue_eq hs
    rfl
  | executeStore hi hs => exact congrArg Rest.cycle (quiet_loadSide.executeStore hs).rest
  | retire hip hdone hs =>
    rw [writeStores_mem _ hs]
    rfl
  | _ => rfl

theorem Calls.timely (h : Calls M c t O s s') (hs : InTime M c t O s) :
    Timely M c t O s s' ∧ s'.cycle = s.cycle := by
  induction h with
  | refl => exact ⟨.refl s, rfl⟩
  | tail _ hcall ih =>
    obtain ⟨hrun, hcycle⟩ := ih
    have hmid := hs.timely hrun
    have hkeep := hcall.clock (reaches_pipe hmid.reaches).flow
    exact ⟨hrun.tail ⟨.call hcall, hkeep ▸ hmid.clock⟩, hkeep.trans hcycle⟩

theorem cycle_timely {turn : Turn μ} (hO : turn.Within O) (hs : InTime M c t O s)
    (hclock : s.cycle + 1 < u64Max) (h : cycle M c t s turn = some s') :
    InTime M c t O s' ∧ s'.cycle = s.cycle + 1 := by
  obtain ⟨mem, hmem, h⟩ := Option.bind_eq_some_iff.mp h
  obtain ⟨houtside, hkeep⟩ := (Call.outside (M := M) (c := c) (t := t) (hO _ _ hmem)).calls.timely hs
  have htick : (Cpu.tick { s with mem := mem }).cycle = s.cycle + 1 := tick_cycle hs.clock
  have hin : InTime M c t O (Cpu.tick { s with mem := mem }) :=
    (hs.timely houtside).timely (.single ⟨.tick _, htick ▸ hclock⟩)
  dsimp only at h
  split at h
  · cases h
    exact ⟨hin, htick⟩
  · obtain ⟨hphases, hsame⟩ := (phases_calls phases _ h).timely hin
    exact ⟨hin.timely hphases, hsame.trans htick⟩

/-- So a run of fewer than `UINT64_MAX` cycles is in time. -/
theorem run_inTime {turns : List (Turn μ)} (hO : ∀ turn ∈ turns, turn.Within O) :
    ∀ {s : Cpu μ}, InTime M c t O s → s.cycle + turns.length < u64Max →
      run (cycle M c t) s turns = some s' → InTime M c t O s' := by
  induction turns with
  | nil =>
    intro s hs _ h
    cases h
    exact hs
  | cons turn turns ih =>
    intro s hs hclock h
    rw [List.length_cons] at hclock
    obtain ⟨s₁, hcycle, h⟩ := run_cons_inv h
    obtain ⟨hs₁, hnext⟩ := cycle_timely (hO turn List.mem_cons_self) hs (by omega) hcycle
    exact ih (fun turn hturn => hO turn (List.mem_cons_of_mem _ hturn)) hs₁ (by omega) h

/-! ## What a stall means -/

/-- How many mispredicted branches in flight have not completed. -/
def openBranches (s : Cpu μ) : Nat := ((inFlight s).filter unresolved).length

theorem openBranches_eq (s : Cpu μ) : openBranches s = (flags s).countP (·.1) := by
  unfold openBranches flags
  rw [List.countP_map, List.countP_eq_length_filter]
  rfl

theorem NoneOpen.countP {l : List (Bool × Nat)} (h : NoneOpen l) : l.countP (·.1) = 0 :=
  List.countP_eq_zero.mpr fun e he => by rw [h e he]; decide

theorem Branch.openBranches {id : Nat} (h : Branch s id) : openBranches s = 1 := by
  obtain ⟨l, hl, hnone⟩ := h.last
  rw [openBranches_eq, hl, List.countP_append, hnone.countP]
  rfl

theorem Branch.getLast {id : Nat} (h : Branch s id) : ∃ x, (inFlight s).getLast? = some x ∧
    unresolved x = true ∧ x.instrId = id := by
  obtain ⟨l, hl, -⟩ := h.last
  have hlast : (flags s).getLast? = some (true, id) := by
    rw [hl]
    exact List.getLast?_concat ..
  unfold flags at hlast
  rw [List.getLast?_map] at hlast
  obtain ⟨x, hx, hview⟩ := Option.map_eq_some_iff.mp hlast
  exact ⟨x, hx, congrArg (·.1) hview, congrArg (·.2) hview⟩

structure StallExact (s : Cpu μ) : Prop where
  iff : s.fetchStall = true ↔ openBranches s = 1 ∨ s.fetchResumeCycle ≠ 0
  exclusive : ¬ (openBranches s = 1 ∧ s.fetchResumeCycle ≠ 0)
  youngest : ∀ x ∈ inFlight s, unresolved x = true →
    (inFlight s).getLast? = some x ∧ add64 x.instrId 1 = s.instrUniqueId
  /-- The end of the branch starts the penalty. -/
  resolves : ∀ s' id i, Resolves s s' id i →
    s'.fetchResumeCycle = s.cycle + branchMispredictPenalty
  /-- The end of the penalty is at most `BRANCH_MISPREDICT_PENALTY` cycles away, and clears. -/
  clears : s.fetchResumeCycle ≠ 0 → s.fetchResumeCycle ≤ s.cycle + branchMispredictPenalty ∧
    ∀ (env : Env) (n : Nat), s.fetchResumeCycle ≤ n →
      (resumeFetch (env.front n) s.toState).fetchStall = false

theorem mem_flags {x : OooModelInstr} (hx : x ∈ inFlight s) (hun : unresolved x = true) :
    (true, x.instrId) ∈ flags s := List.mem_map.mpr ⟨x, hx, Prod.ext hun rfl⟩

theorem NoneOpen.not_unresolved {x : OooModelInstr} (h : NoneOpen (flags s)) (hx : x ∈ inFlight s) :
    ¬ unresolved x = true := fun hun => by
  have hflag := h _ (mem_flags hx hun)
  cases hflag

/-- The only open branch is the last instruction. -/
theorem Branch.unique {id : Nat} (h : Branch s id) {x : OooModelInstr} (hx : x ∈ inFlight s)
    (hun : unresolved x = true) :
    (inFlight s).getLast? = some x ∧ x.instrId = id := by
  obtain ⟨y, hy, hyun, hyid⟩ := h.getLast
  obtain ⟨l, hl⟩ := List.getLast?_eq_some_iff.mp hy
  have hone := h.openBranches
  unfold O3.openBranches at hone
  rw [hl, List.filter_append, List.filter_singleton, hyun, cond_true, List.length_append,
    List.length_singleton] at hone
  rw [hl] at hx
  rcases List.mem_append.mp hx with hx | hx
  · have hpos := List.length_pos_of_mem (List.mem_filter.mpr ⟨hx, hun⟩)
    omega
  · rw [List.mem_singleton] at hx
    subst hx
    exact ⟨hy, hyid⟩

theorem Pipe.resolves (h : Pipe c s) (hclock : s.cycle < u64Max) {id i : Nat}
    (hr : Resolves s s' id i) :
    s'.fetchResumeCycle = s.cycle + branchMispredictPenalty := by
  obtain ⟨hflag, hopen⟩ : (s.rob.entry i).branchMispredicted = true ∧
      (s.rob.entry i).executed ≠ .completed := by
    simpa [unresolved] using hr.isBranch.2
  rcases h.flow.completes hr.run with rfl | hdone
  · exact absurd hr.executed hopen
  · rw [hdone.rest, hflag]
    exact add64_penalty hclock

theorem InTime.stallExact (h : InTime M c t O s) : StallExact s := by
  have hresolves := fun s' id i (hr : Resolves s s' id i) =>
    (reaches_pipe h.reaches).resolves h.clock hr
  rcases h.front with hclear | ⟨id, hbranch⟩ | ⟨n, hpenalty⟩
  · have hcount : openBranches s = 0 := by rw [openBranches_eq, hclear.none.countP]
    refine ⟨?_, ?_, fun x hx hun => absurd hun (hclear.none.not_unresolved hx), hresolves,
      fun hne => absurd hclear.resume hne⟩
    · simp [hclear.stall, hclear.resume, hcount]
    · simp [hcount]
  · have hcount := hbranch.openBranches
    refine ⟨?_, ?_, fun x hx hun => ?_, hresolves, fun hne => absurd hbranch.resume hne⟩
    · simp [hbranch.stall, hcount]
    · simp [hbranch.resume]
    · obtain ⟨hlast, hid⟩ := hbranch.unique hx hun
      exact ⟨hlast, hid ▸ hbranch.youngest⟩
  · have hcount : openBranches s = 0 := by rw [openBranches_eq, hpenalty.none.countP]
    have hresume := hpenalty.resume
    have hpos := hpenalty.pos
    refine ⟨?_, ?_, fun x hx hun => absurd hun (hpenalty.none.not_unresolved hx), hresolves,
      fun hne => ⟨hresume ▸ hpenalty.soon, fun env k hk => ?_⟩⟩
    · simp [hpenalty.stall, hresume, hpos]
    · simp [hcount]
    · unfold resumeFetch
      rw [if_pos ⟨hpenalty.stall, hk, hne⟩]

/-- Reading is the step that takes an id. -/
theorem FrontStep.fetching (hs : FrontStep s s') (hread : s'.instrUniqueId ≠ s.instrUniqueId) :
    s.fetchStall = false := by
  cases hs with
  | same hflags hstall hresume hunique hcycle => exact absurd hunique hread
  | read hfetching hflags hstall hresume hunique hcycle => exact hfetching
  | resume hdue hflags hstall hresume hunique hcycle => exact absurd hunique hread
  | resolve hr hbefore hafter hstall hresume hunique hcycle => exact absurd hunique hread
  | retire hflags hstall hresume hunique hcycle => exact absurd hunique hread

/-- The branch `id` of `s` has completed on the way to `s'`, and the penalty has passed. -/
def Elapsed (M : Memory μ) (c : Config) (t : Trace) (O : μ → μ → Prop) (s s' : Cpu μ) (id n : Nat) :
    Prop :=
  ∃ s₁ s₂ i, Timely M c t O s s₁ ∧ Resolves s₁ s₂ id i ∧ Timely M c t O s₂ s' ∧
    s₁.cycle + branchMispredictPenalty = n

theorem Elapsed.timely {s'' : Cpu μ} {id n : Nat} (h : Elapsed M c t O s s' id n)
    (hrun : Timely M c t O s' s'') : Elapsed M c t O s s'' id n := by
  obtain ⟨s₁, s₂, i, hbefore, hr, hafter, hn⟩ := h
  exact ⟨s₁, s₂, i, hbefore, hr, hafter.trans hrun, hn⟩

/-- From an open branch: it is still open, or its penalty runs, or its penalty has passed. -/
theorem Branch.timely {id : Nat} (h : InTime M c t O s) (hb : Branch s id)
    (hrun : Timely M c t O s s') :
    Branch s' id ∨ ∃ n, Elapsed M c t O s s' id n ∧ (Penalty s' n ∨ n ≤ s'.cycle) := by
  induction hrun with
  | refl => exact .inl hb
  | tail hrun hop ih =>
    have hin := h.timely hrun
    have hstep := hin.reaches.frontStep hop.1
    rcases ih with hb | ⟨n, helapsed, hpenalty | hpassed⟩
    · rcases hb.step hin.clock hstep with hb | ⟨⟨i, hr⟩, hp⟩
      · exact .inl hb
      · exact .inr ⟨_, ⟨_, _, i, hrun, hr, .refl _, rfl⟩, .inl hp⟩
    · rcases hpenalty.step hin.clock hstep with hp | ⟨-, hle⟩
      · exact .inr ⟨n, helapsed.timely (.single hop), .inl hp⟩
      · exact .inr ⟨n, helapsed.timely (.single hop), .inr hle⟩
    · exact .inr ⟨n, helapsed.timely (.single hop), .inr (hpassed.trans (hstep.cycle_le hin.clock))⟩

/-- While `current_core_cycle` stays below `UINT64_MAX`. -/
theorem stall_exact (h : InTime M c t O s) : StallExact s ∧
    ∀ x ∈ inFlight s, unresolved x = true → ∀ s₁ s₂, Timely M c t O s s₁ → Op M c t O s₁ s₂ →
      s₂.instrUniqueId ≠ s₁.instrUniqueId →
      ∃ n, Elapsed M c t O s s₁ x.instrId n ∧ n ≤ s₁.cycle := by
  refine ⟨h.stallExact, fun x hx hun s₁ s₂ hrun hop hread => ?_⟩
  have hfetching := ((h.timely hrun).reaches.frontStep hop).fetching hread
  rcases h.front with hclear | ⟨id, hbranch⟩ | ⟨n, hpenalty⟩
  · exact absurd hun (hclear.none.not_unresolved hx)
  · obtain ⟨-, rfl⟩ := hbranch.unique hx hun
    rcases hbranch.timely h hrun with hb | ⟨n, helapsed, hpenalty | hpassed⟩
    · exact absurd (hb.stall.symm.trans hfetching) (by decide)
    · exact absurd (hpenalty.stall.symm.trans hfetching) (by decide)
    · exact ⟨n, helapsed, hpassed⟩
  · exact absurd hun (hpenalty.none.not_unresolved hx)

/-- A taken branch, which `echoTurn` predicts not taken. -/
def takenBranch : InputInstr := { InputInstr.empty with ip := 64, isBranch := 1, branchTaken := 1 }

theorem stall_exact_takenBranch : ∃ s, echoRun takenBranch 7 = some s ∧ s.fetchStall = true ∧
    openBranches s = 1 ∧ s.rob.occupancy = 1 ∧ StallExact s := by
  have hrun : (echoRun takenBranch 7).map (fun s => (s.fetchStall, openBranches s,
      s.rob.occupancy)) = some (true, 1, 1) := by decide +kernel
  obtain ⟨s, hs, heq⟩ := Option.map_eq_some_iff.mp hrun
  obtain ⟨hstall, hopen, hocc⟩ : s.fetchStall = true ∧ openBranches s = 1 ∧
      s.rob.occupancy = 1 := by simpa using heq
  have hin : InTime echo echoConfig ⟨[takenBranch], by simp⟩ Eq s := by
    refine run_inTime (fun turn hturn => ?_) ⟨fun _ => [], .refl _⟩ ?_ hs
    · exact echoTurn_within hturn
    · rw [List.length_replicate]
      exact Nat.lt_of_sub_pos (by decide)
  exact ⟨s, hs, hstall, hopen, hocc, (stall_exact hin).1⟩

/-! ## The last cycle -/

/-- Stalled, with nothing left that could clear it. -/
structure Stuck (s : Cpu μ) : Prop where
  stall : s.fetchStall = true
  resume : s.fetchResumeCycle = 0
  none : NoneOpen (flags s)

theorem Stuck.step (h : Stuck s) (hs : FrontStep s s') : Stuck s' := by
  cases hs with
  | same hflags hstall hresume hunique hcycle =>
    exact ⟨hstall.trans h.stall, hresume.trans h.resume, hflags ▸ h.none⟩
  | read hfetching hflags hstall hresume hunique hcycle =>
    exact absurd (h.stall.symm.trans hfetching) (by decide)
  | resume hdue hflags hstall hresume hunique hcycle => exact absurd h.resume hdue.1
  | resolve hr hbefore hafter hstall hresume hunique hcycle =>
    exact absurd (hbefore ▸ h.none) (not_noneOpen _ _ _)
  | retire hflags hstall hresume hunique hcycle =>
    refine ⟨hstall.trans h.stall, hresume.trans h.resume, fun e he => h.none e ?_⟩
    rw [hflags]
    exact List.mem_cons_of_mem _ he

theorem Stuck.ops (h : Stuck s) (hs : Reaches M c t O s) (hops : Ops M c t O s s') : Stuck s' := by
  induction hops with
  | refl => exact h
  | tail hops hop ih => exact ih.step ((hs.ops hops).frontStep hop)

def stalledTurn : Turn (Server → List Packet) := { echoTurn with stalled := true }

/-- `stall_cycle` lies `n` cycles ahead. -/
theorem run_stalled (n : Nat) : ∀ s : Cpu (Server → List Packet), s.cycle + n < 2 ^ 64 →
    run (cycle echo echoConfig t) s (List.replicate n stalledTurn) =
      some { s with cycle := s.cycle + n } := by
  induction n with
  | zero => exact fun _ _ => rfl
  | succ n ih =>
    intro s hn
    have hstep : cycle echo echoConfig t s stalledTurn = some { s with cycle := s.cycle + 1 } := by
      have htick : add64 s.cycle 1 = s.cycle + 1 := Nat.mod_eq_of_lt (by omega)
      show some { s with cycle := add64 s.cycle 1 } = _
      rw [htick]
    have hrest := ih { s with cycle := s.cycle + 1 } (by show s.cycle + 1 + n < 2 ^ 64; omega)
    rw [List.replicate_succ, run_cons_some hstep, hrest]
    exact congrArg (fun k => some { s with cycle := k }) (Nat.succ_add_eq_add_succ s.cycle n)

/-- The branch has been issued when the core stalls until the last cycle. -/
def lastCycle : List (Turn (Server → List Packet)) :=
  List.replicate 7 echoTurn ++ List.replicate (u64Max - 8) stalledTurn ++ [echoTurn]

theorem lastCycle_within {turn : Turn (Server → List Packet)} (h : turn ∈ lastCycle) :
    turn.Within Eq := by
  intro mem mem' hmem
  have hsame : turn.outside = some := by
    rcases List.mem_append.mp h with h | h
    · rcases List.mem_append.mp h with h | h
      · rw [List.eq_of_mem_replicate h]
        rfl
      · rw [List.eq_of_mem_replicate h]
        rfl
    · rw [List.mem_singleton.mp h]
      rfl
  rw [hsame] at hmem
  exact Option.some.inj hmem

theorem run_lastCycle {r : InputInstr} {s s' : Cpu (Server → List Packet)} (h : echoRun r 7 = some s)
    (hseven : s.cycle = 7)
    (hlast : cycle echo echoConfig ⟨[r], by simp⟩ { s with cycle := u64Max - 1 } echoTurn = some s') :
    run (cycle echo echoConfig ⟨[r], by simp⟩) (.init fun _ => []) lastCycle = some s' := by
  have hwait := run_stalled (t := ⟨[r], by simp⟩) (u64Max - 8) s (by rw [hseven]; decide)
  rw [hseven] at hwait
  rw [lastCycle, run_append, run_append, show run _ _ _ = some s from h, Option.bind_some, hwait,
    Option.bind_some, run_singleton]
  exact hlast

/-- It completes at `UINT64_MAX`: the end of the penalty wraps to 0, and fetching never goes on. -/
theorem stall_stuck :
    ∃ s, run (cycle echo echoConfig ⟨[takenBranch], by simp⟩) (.init fun _ => []) lastCycle = some s ∧
      s.cycle = u64Max ∧ s.fetchStall = true ∧ openBranches s = 0 ∧ s.fetchResumeCycle = 0 ∧
      ¬ StallExact s ∧
      ∀ s', Ops echo echoConfig ⟨[takenBranch], by simp⟩ Eq s s' → s'.fetchStall = true := by
  have hrun : ((echoRun takenBranch 7).map fun s => (s.cycle,
      (cycle echo echoConfig ⟨[takenBranch], by simp⟩ { s with cycle := u64Max - 1 } echoTurn).map
        fun s => (s.cycle, s.fetchStall, openBranches s, s.fetchResumeCycle))) =
      some (7, some (u64Max, true, 0, 0)) := by decide +kernel
  obtain ⟨s₁, hs₁, heq⟩ := Option.map_eq_some_iff.mp hrun
  obtain ⟨hseven, hlast⟩ := Prod.mk.inj heq
  obtain ⟨s, hs, hvalues⟩ := Option.map_eq_some_iff.mp hlast
  obtain ⟨hcycle, hstall, hopen, hresume⟩ : s.cycle = u64Max ∧ s.fetchStall = true ∧
      openBranches s = 0 ∧ s.fetchResumeCycle = 0 := by simpa using hvalues
  have hwhole := run_lastCycle hs₁ hseven hs
  have hreaches : Reaches echo echoConfig ⟨[takenBranch], by simp⟩ Eq s :=
    run_reaches (fun _ => lastCycle_within) hwhole
  have hstuck : Stuck s := by
    refine ⟨hstall, hresume, fun e he => ?_⟩
    rw [openBranches_eq] at hopen
    exact Bool.eq_false_of_not_eq_true (List.countP_eq_zero.mp hopen e he)
  refine ⟨s, hwhole, hcycle, hstall, hopen, hresume, fun hexact => ?_,
    fun s' hops => (hstuck.ops hreaches hops).stall⟩
  rcases hexact.iff.mp hstall with hone | hne
  · rw [hopen] at hone
    exact absurd hone (by decide)
  · exact hne hresume

end O3
end ChampSim
