import ChampSim.Core.Pipeline
import ChampSim.Lib.Run

/-!
# ChampSim.Core.Order

Program order from the trace to retirement.

* `Sound`     — a ring in shape: its live entries carry a non-zero `ip`, every other slot is empty.
* `history`   — the retired ids, then those in the ROB, the decode buffer and the fetch buffer.
* `Keeps`     — what every stage but the reader does: the rings stay sound, the history stays.
* `handedRun`, `handedStages` — the arguments of `add_to_ifetch_buffer` in a run, in order.
* `InOrder`   — the invariant; the history is what has been read, and counts up from 0.
* `cycle_inOrder`, `run_programOrder` — one cycle and every run keep it, and no check fails.
-/

namespace ChampSim
namespace Core

open Lib

/-! ## Sound rings -/

structure Sound (r : Lib.Ring OooModelInstr) : Prop where
  wf : Ring.Wf OooModelInstr.Empty r
  pos : 0 < r.size
  live : ∀ x ∈ r.contents, x.ip ≠ 0

def ids (r : Lib.Ring OooModelInstr) : List Nat := r.contents.map OooModelInstr.instrId

/-- `r'` is `r` with marks changed. -/
structure Marked (r r' : Lib.Ring OooModelInstr) : Prop where
  size : r'.size = r.size
  head : r'.head = r.head
  tail : r'.tail = r.tail
  occupancy : r'.occupancy = r.occupancy
  key : ∀ i, (r'.entry i).key = (r.entry i).key

theorem Marked.refl (r : Lib.Ring OooModelInstr) : Marked r r := ⟨rfl, rfl, rfl, rfl, fun _ => rfl⟩

theorem Marked.trans {r r' r'' : Lib.Ring OooModelInstr} (h : Marked r r') (h' : Marked r' r'') :
    Marked r r'' where
  size := h'.size.trans h.size
  head := h'.head.trans h.head
  tail := h'.tail.trans h.tail
  occupancy := h'.occupancy.trans h.occupancy
  key := fun i => (h'.key i).trans (h.key i)

theorem Marked.of_entry (r : Lib.Ring OooModelInstr) {f : Nat → OooModelInstr}
    (hf : ∀ i, (f i).key = (r.entry i).key) : Marked r { r with entry := f } :=
  ⟨rfl, rfl, rfl, rfl, hf⟩

theorem modify_marked (r : Lib.Ring OooModelInstr) (i : Nat) {f : OooModelInstr → OooModelInstr}
    (hf : ∀ x, (f x).key = x.key) : Marked r (modify r i f) := by
  refine Marked.of_entry r fun j => ?_
  by_cases hj : j = i
  · rw [hj, Function.update_self, hf]
  · rw [Function.update_of_ne hj]

@[simp] theorem key_setEventCycle (n : Nat) (x : OooModelInstr) :
    (setEventCycle n x).key = x.key := rfl

theorem instrId_of_key {x y : OooModelInstr} (h : x.key = y.key) : x.instrId = y.instrId :=
  congrArg Prod.fst h

theorem ip_of_key {x y : OooModelInstr} (h : x.key = y.key) : x.ip = y.ip := congrArg Prod.snd h

section Rings

variable {r r' : Lib.Ring OooModelInstr}

theorem Sound.marked (h : Sound r) (hm : Marked r r') : Sound r' where
  wf :=
    { head_lt := by rw [hm.size, hm.head]; exact h.wf.head_lt
      head_zero := by rw [hm.size, hm.head]; exact h.wf.head_zero
      occ_le := by rw [hm.size, hm.occupancy]; exact h.wf.occ_le
      tail_eq := by rw [hm.tail, hm.size, hm.head, hm.occupancy]; exact h.wf.tail_eq
      outside := by
        intro i hi hl
        simp only [Ring.Live, hm.size, hm.head, hm.occupancy] at hi hl
        exact Empty.of_key (hm.key i).symm (h.wf.outside i hi hl) }
  pos := hm.size ▸ h.pos
  live := by
    intro x hx
    obtain ⟨k, hk, rfl⟩ := Ring.mem_contents.mp hx
    rw [hm.size, hm.head, ip_of_key (hm.key _)]
    exact h.live _ (Ring.mem_contents.mpr ⟨k, hm.occupancy ▸ hk, rfl⟩)

theorem ids_marked (hm : Marked r r') : ids r' = ids r := by
  simp only [ids, Ring.contents, List.map_map, hm.size, hm.head, hm.occupancy]
  exact List.map_congr_left fun k _ => instrId_of_key (hm.key _)

theorem Sound.push (h : Sound r) (ho : r.occupancy < r.size) {x : OooModelInstr} (hx : x.ip ≠ 0) :
    Sound (r.push x) where
  wf := h.wf.push ho x
  pos := h.pos
  live := by
    intro y hy
    rw [Ring.push_contents h.wf ho] at hy
    rcases List.mem_append.mp hy with hy | hy
    · exact h.live y hy
    · rw [List.mem_singleton.mp hy]; exact hx

theorem ids_push (h : Sound r) (ho : r.occupancy < r.size) (x : OooModelInstr) :
    ids (r.push x) = ids r ++ [x.instrId] := by
  simp [ids, Ring.push_contents h.wf ho]

/-- A head slot with a non-zero `ip` is live. -/
theorem Sound.occupancy_pos (h : Sound r) (hx : (r.entry r.head).ip ≠ 0) : 0 < r.occupancy :=
  h.wf.occ_pos_of_head h.pos fun he => hx he.2

theorem Sound.pop (h : Sound r) (hx : (r.entry r.head).ip ≠ 0) : Sound (r.pop .empty) where
  wf := h.wf.pop (h.occupancy_pos hx) empty_empty
  pos := h.pos
  live := by
    intro y hy
    refine h.live y ?_
    rw [Ring.pop_contents h.wf (h.occupancy_pos hx) .empty]
    exact List.mem_cons_of_mem _ hy

theorem ids_pop (h : Sound r) (hx : (r.entry r.head).ip ≠ 0) :
    ids r = (r.entry r.head).instrId :: ids (r.pop .empty) := by
  simp [ids, Ring.pop_contents h.wf (h.occupancy_pos hx) .empty]

/-- The 'is not empty index' check passes while there is room. -/
theorem Sound.addToRing (h : Sound r) (ho : r.occupancy < r.size) (x : OooModelInstr) :
    addToRing r x = some (r.push x) := by
  simp [Core.addToRing, (h.wf.tail_empty ho).1]

/-- Writing at the tail and marking the entry written. -/
theorem Sound.enter (h : Sound r) (ho : r.occupancy < r.size)
    {f : OooModelInstr → OooModelInstr} (hf : ∀ x, (f x).key = x.key) {x : OooModelInstr}
    (hx : x.ip ≠ 0) :
    Sound (modify (r.push x) r.tail f) ∧ ids (modify (r.push x) r.tail f) = ids r ++ [x.instrId] := by
  have hm := modify_marked (r.push x) r.tail hf
  exact ⟨(h.push ho hx).marked hm, by rw [ids_marked hm, ids_push h ho]⟩

end Rings

/-! ## Stages -/

structure Pipes (s : State) : Prop where
  ifetch : Sound s.ifetchBuffer
  decode : Sound s.decodeBuffer
  rob : Sound s.rob

def history (s : State) : List Nat :=
  s.retired ++ (ids s.rob ++ (ids s.decodeBuffer ++ ids s.ifetchBuffer))

structure Keeps (s s' : State) : Prop where
  pipes : Pipes s'
  history : history s' = history s
  uniqueId : s'.instrUniqueId = s.instrUniqueId
  nextInstr : s'.nextInstr = s.nextInstr

theorem Keeps.refl {s : State} (h : Pipes s) : Keeps s s := ⟨h, rfl, rfl, rfl⟩

theorem Keeps.trans {s s' s'' : State} (h : Keeps s s') (h' : Keeps s' s'') : Keeps s s'' where
  pipes := h'.pipes
  history := h'.history.trans h.history
  uniqueId := h'.uniqueId.trans h.uniqueId
  nextInstr := h'.nextInstr.trans h.nextInstr

/-- Marks on the fetch buffer. -/
theorem keeps_ifetch {s : State} {r : Lib.Ring OooModelInstr} (h : Pipes s)
    (hm : Marked s.ifetchBuffer r) : Keeps s { s with ifetchBuffer := r } where
  pipes := ⟨h.ifetch.marked hm, h.decode, h.rob⟩
  history := by simp [Core.history, ids_marked hm]
  uniqueId := rfl
  nextInstr := rfl

theorem requestTranslation_marked (env : CycleEnv) (i index : Nat) (r : Lib.Ring OooModelInstr) :
    Marked r (requestTranslation env i index r) := by
  unfold requestTranslation
  split
  · exact Marked.of_entry r fun j => by dsimp only; split <;> rfl
  · exact Marked.refl r

theorem requestLine_marked (env : CycleEnv) (i index : Nat) (r : Lib.Ring OooModelInstr) :
    Marked r (requestLine env i index r) := by
  unfold requestLine
  split
  · exact Marked.of_entry r fun j => by dsimp only; split <;> rfl
  · exact Marked.refl r

theorem requestLoop_marked (env : CycleEnv) (k : Nat) :
    ∀ (index : Nat) (r : Lib.Ring OooModelInstr), Marked r (requestLoop env k index r) := by
  induction k with
  | zero => exact fun _ r => Marked.refl r
  | succ k ih =>
    intro index r
    have h := (requestTranslation_marked env (r.size - (k + 1)) index r).trans
      (requestLine_marked env (r.size - (k + 1)) index _)
    simp only [requestLoop]
    split
    · exact Marked.refl r
    · split
      · exact h
      · exact h.trans (ih _ _)

/-- An instruction that leaves the fetch buffer enters the decode buffer behind all others. -/
theorem sendToDecode_keeps (env : CycleEnv) (n : Nat) :
    ∀ s : State, Pipes s → Ends True (Keeps s) (sendToDecode env n s) := by
  induction n with
  | zero => exact fun s h => Keeps.refl h
  | succ n ih =>
    intro s h
    simp only [sendToDecode]
    split
    · exact Keeps.refl h
    · rename_i hip
      split
      · split
        · rename_i hroom
          simp only [addToDecodeBuffer, h.decode.addToRing hroom, Option.bind_some]
          obtain ⟨hsound, hids⟩ := h.decode.enter hroom (key_setEventCycle 0)
            (x := setEventCycle env.currentCoreCycle (s.ifetchBuffer.entry s.ifetchBuffer.head)) hip
          have hstep : Keeps s { s with
              decodeBuffer := modify (s.decodeBuffer.push (setEventCycle env.currentCoreCycle
                (s.ifetchBuffer.entry s.ifetchBuffer.head))) s.decodeBuffer.tail (setEventCycle 0)
              ifetchBuffer := s.ifetchBuffer.pop .empty } := by
            refine ⟨⟨h.ifetch.pop hip, hsound, h.rob⟩, ?_, rfl, rfl⟩
            rw [history, history, hids, ids_pop h.ifetch hip, List.append_assoc]
            rfl
          exact (ih _ hstep.pipes).mono fun _ h' => hstep.trans h'
        · exact Keeps.refl h
      · exact ih s h

theorem resumeFetch_keeps (env : CycleEnv) {s : State} (h : Pipes s) :
    Keeps s (resumeFetch env s) := by
  unfold resumeFetch
  split
  · exact ⟨⟨h.ifetch, h.decode, h.rob⟩, rfl, rfl, rfl⟩
  · exact Keeps.refl h

theorem fetchInstruction_keeps (env : CycleEnv) {s : State} (h : Pipes s) :
    Ends True (Keeps s) (fetchInstruction env s) := by
  have hresume := resumeFetch_keeps env h
  simp only [fetchInstruction]
  split
  · exact hresume
  · have hmark := hresume.trans (keeps_ifetch hresume.pipes
      (requestLoop_marked env (resumeFetch env s).ifetchBuffer.size
        (resumeFetch env s).ifetchBuffer.head (resumeFetch env s).ifetchBuffer))
    exact (sendToDecode_keeps env decodeWidth _ hmark.pipes).mono fun _ h' => hmark.trans h'

theorem dispatchLoop_keeps (env : CycleEnv) (k : Nat) :
    ∀ (count : Nat) (s : State), Pipes s → Ends True (Keeps s) (dispatchLoop env k count s) := by
  induction k with
  | zero => exact fun _ s h => Keeps.refl h
  | succ k ih =>
    intro count s h
    simp only [dispatchLoop]
    split
    · exact Keeps.refl h
    · rename_i hip
      split
      · rename_i hc
        have hroom : s.rob.occupancy < s.rob.size := by
          rcases hc with hc | hc
          · exact hc.2
          · exact hc.2.2
        simp only [addToRob, h.rob.addToRing hroom, Option.bind_some, if_neg hip]
        obtain ⟨hsound, hids⟩ := h.rob.enter hroom (key_setEventCycle env.currentCoreCycle)
          (x := setEventCycle env.currentCoreCycle (s.decodeBuffer.entry s.decodeBuffer.head)) hip
        have hstep : Keeps s { s with
            rob := modify (s.rob.push (setEventCycle env.currentCoreCycle
              (s.decodeBuffer.entry s.decodeBuffer.head))) s.rob.tail
              (setEventCycle env.currentCoreCycle)
            decodeBuffer := s.decodeBuffer.pop .empty } := by
          refine ⟨⟨h.ifetch, h.decode.pop hip, hsound⟩, ?_, rfl, rfl⟩
          rw [history, history, hids, ids_pop h.decode hip, List.append_assoc]
          rfl
        split
        · exact hstep
        · exact (ih _ _ hstep.pipes).mono fun _ h' => hstep.trans h'
      · exact Keeps.refl h

theorem decodeLoop_marked (c : Config) (env : CycleEnv) (k : Nat) :
    ∀ (count index : Nat) (r : Lib.Ring OooModelInstr),
      Marked r (decodeLoop c env k count index r) := by
  induction k with
  | zero => exact fun _ _ r => Marked.refl r
  | succ k ih =>
    intro count index r
    have hm : Marked r (if (r.entry index).eventCycle = 0 then
        modify r index (setEventCycle (add64 env.currentCoreCycle c.decodeLatency)) else r) := by
      split
      · exact modify_marked r index (key_setEventCycle _)
      · exact Marked.refl r
    simp only [decodeLoop]
    split
    · exact Marked.refl r
    · generalize (if (r.entry index).eventCycle = 0 then
        modify r index (setEventCycle (add64 env.currentCoreCycle c.decodeLatency)) else r) = r' at *
      generalize (if (r.entry index).eventCycle = 0 then count + 1 else count) = count'
      split
      · exact hm
      · split
        · exact hm
        · exact hm.trans (ih _ _ _)

theorem decodeAndDispatch_keeps (c : Config) (env : CycleEnv) {s : State} (h : Pipes s) :
    Ends True (Keeps s) (decodeAndDispatch c env s) := by
  refine (dispatchLoop_keeps env _ 0 s h).map fun s' hs' => ?_
  have hm := decodeLoop_marked c env s'.decodeBuffer.size 0 s'.decodeBuffer.head s'.decodeBuffer
  refine hs'.trans ⟨⟨hs'.pipes.ifetch, hs'.pipes.decode.marked hm, hs'.pipes.rob⟩, ?_, rfl, rfl⟩
  simp [history, ids_marked hm]

/-- Retirement moves the head of the ROB to the end of the retired ids. -/
theorem retireLoop_keeps (c : Config) (env : CycleEnv) (n : Nat) :
    ∀ s : State, Pipes s → Keeps s (retireLoop c env n s) := by
  induction n with
  | zero => exact fun s h => Keeps.refl h
  | succ n ih =>
    intro s h
    simp only [retireLoop]
    split
    · exact Keeps.refl h
    · rename_i hip
      split
      · exact Keeps.refl h
      · split
        · exact Keeps.refl h
        · have hstep : Keeps s { s with
              rob := s.rob.pop .empty
              retired := s.retired ++ [(s.rob.entry s.rob.head).instrId] } := by
            refine ⟨⟨h.ifetch, h.decode, h.rob.pop hip⟩, ?_, rfl, rfl⟩
            simp [history, ids_pop h.rob hip]
          exact hstep.trans (ih _ hstep.pipes)

theorem outOfOrder_keeps (env : CycleEnv) {s : State} (h : Pipes s) :
    Keeps s (outOfOrder env s) := by
  have hi := Marked.of_entry s.ifetchBuffer fun i => env.ifetchMarks.key_mark i _
  have hr := Marked.of_entry s.rob fun i => env.robMarks.key_mark i _
  refine ⟨⟨h.ifetch.marked hi, h.decode, h.rob.marked hr⟩, ?_, rfl, rfl⟩
  exact congrArg₂ (fun a b => s.retired ++ (a ++ (ids s.decodeBuffer ++ b)))
    (ids_marked hr) (ids_marked hi)

/-! ## What is handed over -/

/-- The calls of `add_to_ifetch_buffer` that `readLoop` makes. -/
def handedLoop (c : Config) (t : Trace) (env : CycleEnv) :
    Nat → Nat → Nat → State → List OooModelInstr
  | 0, _, _, _ => []
  | fuel + 1, numReads, instrsToRead, s =>
    match readRecord c t s with
    | none => handedLoop c t env fuel numReads instrsToRead { s with filePos := 0 }
    | some (x, s) =>
      if s.ifetchBuffer.occupancy < s.ifetchBuffer.size then
        match addToIfetchBuffer env s.ifetchBuffer x with
        | none => []
        | some r =>
          let (instrsToRead, s') :=
            predict env s.ifetchBuffer.tail instrsToRead { s with ifetchBuffer := r }
          let s' := { s' with instrUniqueId := add64 s'.instrUniqueId 1 }
          x :: (if numReads + 1 ≥ instrsToRead ∨ s'.ifetchBuffer.occupancy = s'.ifetchBuffer.size
            then [] else handedLoop c t env fuel (numReads + 1) instrsToRead s')
      else
        handedLoop c t env fuel numReads instrsToRead
          { s with instrUniqueId := add64 s.instrUniqueId 1 }

/-- The stages of a cycle before the reader. -/
def beforeRead : List Stage := [.retire, .outOfOrder, .decode, .fetch]

def handedCycle (c : Config) (t : Trace) (s : State) (env : CycleEnv) : List OooModelInstr :=
  if env.stalled then []
  else
    match run (Stage.perform c t env) s beforeRead with
    | none => []
    | some s =>
      if s.ifetchBuffer.occupancy < s.ifetchBuffer.size ∧ ¬ s.fetchStall then
        handedLoop c t env (2 * fetchWidth) 0 fetchWidth s
      else []

def handedRun (c : Config) (t : Trace) : State → List CycleEnv → List OooModelInstr
  | _, [] => []
  | s, env :: envs =>
    handedCycle c t s env ++
      match cycle c t s env with
      | none => []
      | some s' => handedRun c t s' envs

def handedStage (c : Config) (t : Trace) (env : CycleEnv) (s : State) :
    Stage → List OooModelInstr
  | .read =>
    if s.ifetchBuffer.occupancy < s.ifetchBuffer.size ∧ ¬ s.fetchStall then
      handedLoop c t env (2 * fetchWidth) 0 fetchWidth s
    else []
  | _ => []

def handedStages (c : Config) (t : Trace) (env : CycleEnv) :
    State → List Stage → List OooModelInstr :=
  outputs (Stage.perform c t env) (handedStage c t env)

/-- Only the reader hands over. -/
theorem handedStages_before {c : Config} {t : Trace} {env : CycleEnv} (s : State) :
    handedStages c t env s beforeRead = [] := by
  refine outputs_eq_nil (fun stage hstage s => ?_) s
  cases stage with
  | read => exact absurd hstage (by decide)
  | retire => rfl
  | outOfOrder => rfl
  | decode => rfl
  | fetch => rfl

/-- A cycle hands over what its stages do. -/
theorem handedCycle_eq (c : Config) (t : Trace) (s : State) (env : CycleEnv) :
    handedCycle c t s env = if env.stalled then [] else handedStages c t env s stages := by
  unfold handedCycle
  split
  · rfl
  · rw [handedStages, show stages = beforeRead ++ [.read] from rfl, outputs_append]
    rw [← handedStages, handedStages_before, List.nil_append]
    cases run (Stage.perform c t env) s beforeRead with
    | none => rfl
    | some s' =>
      dsimp only
      rw [handedStages, outputs_singleton]
      rfl

theorem handedRun_eq (c : Config) (t : Trace) (envs : List CycleEnv) :
    ∀ s : State, handedRun c t s envs = outputs (cycle c t) (handedCycle c t) s envs := by
  induction envs with
  | nil => exact fun _ => rfl
  | cons env envs ih =>
    intro s
    unfold handedRun outputs
    cases cycle c t s env with
    | none => rfl
    | some s' => exact congrArg (handedCycle c t s env ++ ·) (ih s')

/-! ## Reading -/

def counting (n : Nat) : List Nat := (List.range n).map (· % 2 ^ 64)

theorem counting_succ (n : Nat) : counting (n + 1) = counting n ++ [n % 2 ^ 64] := by
  simp [counting, List.range_succ]

/-- The instructions read so far have the ids `read`. -/
structure InOrder (c : Config) (read : List Nat) (s : State) : Prop where
  pipes : Pipes s
  history : history s = read
  counting : read = Core.counting read.length
  uniqueId : s.instrUniqueId = read.length % 2 ^ 64
  nextInstr : c.knobCloudsuite = false → s.instrUniqueId ≠ 0 → s.nextInstr.ip ≠ 0

theorem InOrder.keeps {c : Config} {read : List Nat} {s s' : State} (h : InOrder c read s)
    (hk : Keeps s s') : InOrder c read s' where
  pipes := hk.pipes
  history := hk.history.trans h.history
  counting := h.counting
  uniqueId := hk.uniqueId.trans h.uniqueId
  nextInstr := by rw [hk.uniqueId, hk.nextInstr]; exact h.nextInstr

/-- A record gives the instruction of the next id, with a non-zero `ip`. -/
theorem readRecord_spec {c : Config} {t : Trace} {read : List Nat} {s s' : State} {x : OooModelInstr}
    (h : InOrder c read s) (hip : ∀ r ∈ t.records, r.ip ≠ 0)
    (hr : readRecord c t s = some (x, s')) :
    x.instrId = read.length % 2 ^ 64 ∧ x.ip ≠ 0 ∧ s'.ifetchBuffer = s.ifetchBuffer ∧
      s.filePos < t.records.length ∧ InOrder c read s' ∧
      (c.knobCloudsuite = false → s'.nextInstr.ip ≠ 0) := by
  obtain ⟨r, hget, hx⟩ := Option.map_eq_some_iff.mp hr
  obtain ⟨hpos, hmem⟩ := List.getElem?_eq_some_iff.mp hget
  have hr0 : r.ip ≠ 0 := hip r (hmem ▸ List.getElem_mem hpos)
  cases hk : c.knobCloudsuite with
  | true =>
    rw [hk, if_pos rfl] at hx
    obtain ⟨rfl, rfl⟩ := Prod.mk.inj hx
    refine ⟨h.uniqueId, hr0, rfl, hpos, ?_, by simp⟩
    exact ⟨⟨h.pipes.ifetch, h.pipes.decode, h.pipes.rob⟩, h.history, h.counting, h.uniqueId,
      h.nextInstr⟩
  | false =>
    rw [hk, if_neg (by simp)] at hx
    obtain ⟨rfl, rfl⟩ := Prod.mk.inj hx
    have hcur : (if s.instrUniqueId = 0 then r else s.nextInstr).ip ≠ 0 := by
      split
      · exact hr0
      · rename_i h0; exact h.nextInstr hk h0
    refine ⟨h.uniqueId, hcur, rfl, hpos, ?_, fun _ => hr0⟩
    exact ⟨⟨h.pipes.ifetch, h.pipes.decode, h.pipes.rob⟩, h.history, h.counting, h.uniqueId,
      fun _ _ => hr0⟩

theorem predict_keeps {env : CycleEnv} {index instrsToRead : Nat} {s : State} {p : Nat × State}
    (h : Pipes s) (hp : predict env index instrsToRead s = p) :
    p.1 ≤ instrsToRead ∧ Keeps s p.2 := by
  simp only [predict] at hp
  split at hp
  · exact hp ▸ ⟨le_rfl, Keeps.refl h⟩
  · split at hp
    · split at hp
      · have hm := modify_marked s.ifetchBuffer index
          (f := fun x => { x with branchMispredicted := true }) fun _ => rfl
        refine hp ▸ ⟨Nat.zero_le _, ⟨h.ifetch.marked hm, h.decode, h.rob⟩, ?_, rfl, rfl⟩
        simp [history, ids_marked hm]
      · exact hp ▸ ⟨le_rfl, Keeps.refl h⟩
    · split at hp
      · exact hp ▸ ⟨Nat.zero_le _, Keeps.refl h⟩
      · exact hp ▸ ⟨le_rfl, Keeps.refl h⟩

/-- Every successful read appends the next id. -/
theorem InOrder.read {c : Config} {read : List Nat} {env : CycleEnv} {s s' : State}
    {x : OooModelInstr} (h : InOrder c read s)
    (hroom : s.ifetchBuffer.occupancy < s.ifetchBuffer.size)
    (hid : x.instrId = read.length % 2 ^ 64)
    (hnext : c.knobCloudsuite = false → s.nextInstr.ip ≠ 0)
    (hk : Keeps { s with ifetchBuffer := s.ifetchBuffer.push (ifetchEntry env x) } s') :
    InOrder c (read ++ [x.instrId]) { s' with instrUniqueId := add64 s'.instrUniqueId 1 } where
  pipes := ⟨hk.pipes.ifetch, hk.pipes.decode, hk.pipes.rob⟩
  history := by
    have hold := h.history
    have hpush := ids_push h.pipes.ifetch hroom (ifetchEntry env x)
    have hnew := hk.history
    simp only [Core.history, hpush] at hold hnew ⊢
    rw [hnew, ← hold]
    simp [ifetchEntry]
  counting := by
    rw [List.length_append, List.length_singleton, counting_succ, ← h.counting, hid]
  uniqueId := by
    show add64 s'.instrUniqueId 1 = _
    rw [hk.uniqueId, h.uniqueId, add64, List.length_append, List.length_singleton]
    omega
  nextInstr := fun hc _ => by
    show s'.nextInstr.ip ≠ 0
    rw [hk.nextInstr]
    exact hnext hc

theorem push_pipes {env : CycleEnv} {s : State} {x : OooModelInstr} (h : Pipes s)
    (hroom : s.ifetchBuffer.occupancy < s.ifetchBuffer.size) (hx : x.ip ≠ 0) :
    Pipes { s with ifetchBuffer := s.ifetchBuffer.push (ifetchEntry env x) } :=
  ⟨h.ifetch.push hroom hx, h.decode, h.rob⟩

/-- Two rounds of fuel a read are enough. -/
theorem readLoop_inOrder {c : Config} {t : Trace} {env : CycleEnv}
    (hip : ∀ r ∈ t.records, r.ip ≠ 0) (fuel : Nat) :
    ∀ (numReads instrsToRead : Nat) (read : List Nat) (s : State), InOrder c read s →
      s.ifetchBuffer.occupancy < s.ifetchBuffer.size → numReads < fetchWidth →
      instrsToRead ≤ fetchWidth →
      2 * (fetchWidth - numReads) ≤ fuel + (if s.filePos < t.records.length then 1 else 0) →
      Ends True
        (InOrder c (read ++
          (handedLoop c t env fuel numReads instrsToRead s).map OooModelInstr.instrId))
        (readLoop c t env fuel numReads instrsToRead s) := by
  induction fuel with
  | zero =>
    intro numReads instrsToRead read s _ _ hreads _ hfuel
    split at hfuel <;> omega
  | succ fuel ih =>
    intro numReads instrsToRead read s h hroom hreads hwidth hfuel
    simp only [readLoop, handedLoop]
    cases hr : readRecord c t s with
    | none =>
      -- at the end of the file: the next round reads the first record
      have hend : ¬ s.filePos < t.records.length := by
        intro hlt
        simp [readRecord, hlt] at hr
      rw [if_neg hend] at hfuel
      have hlen : 0 < t.records.length := List.length_pos_of_ne_nil t.nonempty
      refine ih numReads instrsToRead read { s with filePos := 0 } ?_ hroom hreads hwidth ?_
      · exact ⟨⟨h.pipes.ifetch, h.pipes.decode, h.pipes.rob⟩, h.history, h.counting, h.uniqueId,
          h.nextInstr⟩
      · rw [if_pos hlen]; omega
    | some xs =>
      obtain ⟨x, s₁⟩ := xs
      obtain ⟨hid, hx, hbuf, hpos, h₁, hnext⟩ := readRecord_spec h hip hr
      rw [if_pos hpos] at hfuel
      have hroom₁ : s₁.ifetchBuffer.occupancy < s₁.ifetchBuffer.size := hbuf ▸ hroom
      simp only [addToIfetchBuffer, h₁.pipes.ifetch.addToRing hroom₁, Option.bind_some, if_pos hroom₁]
      generalize hp : predict env s₁.ifetchBuffer.tail instrsToRead _ = p
      obtain ⟨hle, hkeeps⟩ := predict_keeps (push_pipes h₁.pipes hroom₁ hx) hp
      have h₂ := h₁.read hroom₁ hid hnext hkeeps
      rw [List.map_cons, List.append_cons]
      split
      · rw [List.map_nil, List.append_nil]
        exact h₂
      · rename_i hgo
        have hocc := h₂.pipes.ifetch.wf.occ_le
        refine ih (numReads + 1) p.1 (read ++ [x.instrId]) _ h₂ ?_ (by omega) (by omega) (by omega)
        exact Nat.lt_of_le_of_ne hocc fun he => hgo (.inr he)

/-! ## Runs -/

theorem perform_inOrder {c : Config} {t : Trace} {env : CycleEnv} {read : List Nat} {s : State}
    (hip : ∀ r ∈ t.records, r.ip ≠ 0) (h : InOrder c read s) (stage : Stage) :
    Ends True (InOrder c (read ++ (handedStage c t env s stage).map OooModelInstr.instrId))
      (stage.perform c t env s) := by
  have hnone : InOrder c (read ++ List.map OooModelInstr.instrId []) s := by
    rwa [List.map_nil, List.append_nil]
  cases stage with
  | retire =>
    refine hnone.keeps ?_
    split
    · exact retireLoop_keeps c env retireWidth s h.pipes
    · exact Keeps.refl h.pipes
  | outOfOrder => exact hnone.keeps (outOfOrder_keeps env h.pipes)
  | decode =>
    simp only [Stage.perform]
    split
    · exact (decodeAndDispatch_keeps c env h.pipes).mono fun _ hk => hnone.keeps hk
    · exact hnone
  | fetch => exact (fetchInstruction_keeps env h.pipes).mono fun _ hk => hnone.keeps hk
  | read =>
    simp only [Stage.perform, handedStage]
    split
    · rename_i hread
      exact readLoop_inOrder hip (2 * fetchWidth) 0 fetchWidth read s h hread.1 (by decide) le_rfl
        (by omega)
    · exact hnone

theorem stages_inOrder {c : Config} {t : Trace} {log : List OooModelInstr} {s : State}
    (hip : ∀ r ∈ t.records, r.ip ≠ 0) (env : CycleEnv) (l : List Stage)
    (h : InOrder c (log.map OooModelInstr.instrId) s) :
    ∃ s', run (Stage.perform c t env) s l = some s' ∧
      InOrder c ((log ++ handedStages c t env s l).map OooModelInstr.instrId) s' := by
  refine run_outputs (I := fun log => InOrder c (log.map OooModelInstr.instrId)) ?_ l h
  intro log s stage hI
  rw [List.map_append]
  exact (perform_inOrder hip hI stage).exists trivial

theorem cycle_inOrder {c : Config} {t : Trace} {log : List OooModelInstr} {s : State}
    (hip : ∀ r ∈ t.records, r.ip ≠ 0) (env : CycleEnv)
    (h : InOrder c (log.map OooModelInstr.instrId) s) :
    ∃ s', cycle c t s env = some s' ∧
      InOrder c ((log ++ handedCycle c t s env).map OooModelInstr.instrId) s' := by
  rw [handedCycle_eq]
  unfold cycle
  split
  · exact ⟨s, rfl, by rwa [List.append_nil]⟩
  · exact stages_inOrder hip env stages h

theorem sound_init {size : Nat} (h : 0 < size) : Sound ⟨size, 0, 0, 0, fun _ => .empty⟩ where
  wf := Ring.wf_init size _ fun _ _ => empty_empty
  pos := h
  live := by simp [Ring.contents_init]

theorem init_inOrder (c : Config) : InOrder c [] State.init where
  pipes := ⟨sound_init (by decide), sound_init (by decide), sound_init (by decide)⟩
  history := rfl
  counting := rfl
  uniqueId := rfl
  nextInstr := fun _ h => absurd rfl h

theorem run_inOrder {c : Config} {t : Trace} (hip : ∀ r ∈ t.records, r.ip ≠ 0)
    (envs : List CycleEnv) :
    ∃ s, run (cycle c t) State.init envs = some s ∧
      InOrder c ((handedRun c t State.init envs).map OooModelInstr.instrId) s := by
  rw [handedRun_eq]
  exact run_outputs (I := fun log => InOrder c (log.map OooModelInstr.instrId)) (l := [])
    (fun _ _ env hI => cycle_inOrder hip env hI) envs (init_inOrder c)

/-- The live region of a ring and its occupancy are those of its non-empty slots. -/
structure Slots (r : Lib.Ring OooModelInstr) : Prop where
  live_iff : ∀ i < r.size, r.Live i ↔ ¬ (r.entry i).Empty
  occupancy : Nat.count (fun i => ¬ (r.entry i).Empty) r.size = r.occupancy

theorem Sound.slots {r : Lib.Ring OooModelInstr} (h : Sound r) : Slots r := by
  have hlive : ∀ x ∈ r.contents, ¬ x.Empty := fun x hx he => h.live x hx he.2
  exact ⟨fun i hi => h.wf.live_iff hlive hi, h.wf.count_eq hlive⟩

/-- The ids `read` have been read, the first of them are retired and the rings hold the others.
Ids are 64-bit numbers, so they count modulo `2 ^ 64`. -/
structure ProgramOrder (read : List Nat) (s : State) : Prop where
  ifetch : Slots s.ifetchBuffer
  decode : Slots s.decodeBuffer
  rob : Slots s.rob
  counting : read = Core.counting read.length
  uniqueId : s.instrUniqueId = read.length % 2 ^ 64
  retired : s.retired = Core.counting s.retired.length
  retired_le : s.retired.length ≤ read.length
  inFlight : ids s.rob ++ ids s.decodeBuffer ++ ids s.ifetchBuffer =
    (List.range' s.retired.length (read.length - s.retired.length)).map (· % 2 ^ 64)

theorem counting_split {m n : Nat} (h : m ≤ n) :
    counting n = counting m ++ (List.range' m (n - m)).map (· % 2 ^ 64) := by
  have hrange : List.range' 0 m ++ List.range' m (n - m) = List.range' 0 n := by
    have happend := List.range'_append_1 (s := 0) (m := m) (n := n - m)
    rwa [Nat.zero_add, Nat.add_sub_cancel' h] at happend
  simp only [counting, List.range_eq_range', ← hrange, List.map_append]

theorem InOrder.programOrder {c : Config} {read : List Nat} {s : State} (h : InOrder c read s) :
    ProgramOrder read s := by
  have hlen : s.retired.length ≤ read.length := by
    rw [← h.history, Core.history, List.length_append]
    exact Nat.le_add_right _ _
  have hhist := h.history.trans h.counting
  rw [counting_split hlen, Core.history] at hhist
  obtain ⟨hretired, hrest⟩ := List.append_inj hhist (by simp [Core.counting])
  refine ⟨h.pipes.ifetch.slots, h.pipes.decode.slots, h.pipes.rob.slots, h.counting, h.uniqueId,
    hretired, hlen, ?_⟩
  rw [← hrest, List.append_assoc]

/-- In every run of the core loop no 'is not empty index' check fails. After any number of cycles
and any number of stages of the next one, the ids read count up from 0, the first of them have been
retired in that order and the rings hold the rest. -/
theorem run_programOrder (c : Config) (t : Trace) (hip : ∀ r ∈ t.records, r.ip ≠ 0)
    (envs : List CycleEnv) (env : CycleEnv) (k : Nat) :
    ∃ s s', run (cycle c t) State.init envs = some s ∧
      run (Stage.perform c t env) s (stages.take k) = some s' ∧
      ProgramOrder ((handedRun c t State.init envs ++
        handedStages c t env s (stages.take k)).map OooModelInstr.instrId) s' := by
  obtain ⟨s, hs, hI⟩ := run_inOrder (c := c) hip envs
  obtain ⟨s', hs', hI'⟩ := stages_inOrder hip env (stages.take k) hI
  exact ⟨s, s', hs, hs', hI'.programOrder⟩

/-- A trace of one record. -/
def oneRecord : Trace := ⟨[{ InputInstr.empty with ip := 4096 }], by simp⟩

/-- A cycle in which every request is accepted and nothing is marked. -/
def quietCycle : CycleEnv where
  currentCoreCycle := 1
  stalled := false
  warmupComplete := false
  wqOccupancy := fun _ => 0
  wqSize := 64
  ifetchMarks := .unmarked
  robMarks := .unmarked
  fetchResume := none
  itlbAccepts := fun _ => true
  l1iAccepts := fun _ => true
  vaToPa := fun x => x.ip
  predictBranch := fun _ => 0

/-- Every fetch is answered at once. -/
def fetchedAtOnce : Marking :=
  ⟨fun _ x => { x with fetched := .completed }, fun _ _ => rfl⟩

/-- A cycle in which all that is in flight has been fetched and executed. -/
def flowingCycle (n : Nat) : CycleEnv :=
  { quietCycle with
    currentCoreCycle := n
    ifetchMarks := fetchedAtOnce
    robMarks := ⟨fun _ x => { x with executed := .completed }, fun _ _ => rfl⟩ }

/-- Five cycles and three stages: 30 instructions read, of them eight retired. -/
theorem run_programOrder_oneRecord :
    ∃ s s', run (cycle ⟨false, 0, 0, 2⟩ oneRecord) State.init ((List.range 5).map flowingCycle) =
        some s ∧
      run (Stage.perform ⟨false, 0, 0, 2⟩ oneRecord (flowingCycle 5)) s (stages.take 3) = some s' ∧
      s'.retired = List.range 8 ∧ ProgramOrder (List.range 30) s' := by
  obtain ⟨s, s', hs, hs', hread⟩ := run_programOrder ⟨false, 0, 0, 2⟩ oneRecord (by simp [oneRecord])
    ((List.range 5).map flowingCycle) (flowingCycle 5) 3
  have hrun : (run (cycle ⟨false, 0, 0, 2⟩ oneRecord) State.init
      ((List.range 5).map flowingCycle)).map (fun s =>
        ((handedRun ⟨false, 0, 0, 2⟩ oneRecord State.init ((List.range 5).map flowingCycle) ++
            handedStages ⟨false, 0, 0, 2⟩ oneRecord (flowingCycle 5) s (stages.take 3)).map
          OooModelInstr.instrId,
        (run (Stage.perform ⟨false, 0, 0, 2⟩ oneRecord (flowingCycle 5)) s (stages.take 3)).map
          State.retired)) = some (List.range 30, some (List.range 8)) := by decide +kernel
  rw [hs, Option.map_some, hs', Option.map_some] at hrun
  obtain ⟨hids, hretired⟩ := Prod.mk.inj (Option.some.inj hrun)
  exact ⟨s, s', hs, hs', Option.some.inj hretired, hids ▸ hread⟩

end Core
end ChampSim
