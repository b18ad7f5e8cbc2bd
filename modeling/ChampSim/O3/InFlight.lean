import ChampSim.O3.Exact

/-!
# ChampSim.O3.InFlight

The instructions between the trace and retirement, in program order.

* `inFlight s`    — the ROB, then the decode buffer, then the fetch buffer.
* `Stable v`      — a view of an instruction that the fetch stage and the load side do not change.
* `Pipe c s`      — `Flow`, the two front rings in shape, and consecutive ids.
* `Pipe.read_inFlight`, `Pipe.dispatch_inFlight`, `Pipe.retire_inFlight` — what the steps do to the
  list.
* `reaches_pipe`  — it holds in every state reached.
* `original x`    — the part of an instruction that no stage changes.
* `inFlight_all`  — what holds of every record read holds of every instruction in flight.
-/

namespace ChampSim
namespace O3

open Lib ChampSim.Core

variable {μ : Type}

def inFlight (s : Cpu μ) : List OooModelInstr :=
  s.rob.contents ++ (s.decodeBuffer.contents ++ s.ifetchBuffer.contents)

structure Stable {β : Type} (v : OooModelInstr → β) : Prop where
  steady : ∀ x, v (steady x) = v x
  unfetched : ∀ x, v (unfetched x) = v x

theorem Stable.undated {β : Type} {v : OooModelInstr → β} (h : Stable v) (x : OooModelInstr) :
    v (undated x) = v x := by
  rw [← h.steady, ← h.steady x]
  rfl

theorem Stable.setEventCycle {β : Type} {v : OooModelInstr → β} (h : Stable v) (n : Nat)
    (x : OooModelInstr) : v (setEventCycle n x) = v x := by
  rw [← h.steady, ← h.steady x]
  rfl

theorem stable_instrId : Stable OooModelInstr.instrId := ⟨fun _ => rfl, fun _ => rfl⟩

/-- A slot of a front ring that no instruction occupies. -/
def Vacant (x : OooModelInstr) : Prop := early x = .empty

theorem Vacant.ip {x : OooModelInstr} (h : Vacant x) : x.ip = 0 := congrArg OooModelInstr.ip h

theorem vacant_alike {r r' : Lib.Ring OooModelInstr} {π : OooModelInstr → OooModelInstr}
    (hπ : ∀ x, early (π x) = early x) (ha : Ring.Alike π r r') (h : Ring.Wf Vacant r) :
    Ring.Wf Vacant r' :=
  ha.wf (fun x y hxy hy => by
    unfold Vacant
    rw [← hπ, hxy, hπ]
    exact hy) h

/-- Ids count up from the number of retired instructions. -/
def consecutive (first n : Nat) : List Nat := (List.range' first n).map (· % 2 ^ 64)

structure Pipe (c : Config) (s : Cpu μ) : Prop where
  flow : Flow c s
  ifetchSize : s.ifetchBuffer.size = fetchWidth * 2
  decodeSize : s.decodeBuffer.size = decodeWidth * 3
  ifetch : Ring.Wf Vacant s.ifetchBuffer
  decode : Ring.Wf Vacant s.decodeBuffer
  ids : (inFlight s).map OooModelInstr.instrId =
    consecutive s.retired.length (inFlight s).length
  unique : s.instrUniqueId = (s.retired.length + (inFlight s).length) % 2 ^ 64

variable {M : Memory μ} {c : Config} {t : Trace} {O : μ → μ → Prop} {s s' : Cpu μ}

/-! ## The steps on the list -/

section Steps

variable {β : Type} {v : OooModelInstr → β}

theorem Pipe.window (h : Pipe c s) : Window s.rob := h.flow.dep.linked.window

theorem Pipe.length_le (h : Pipe c s) : (inFlight s).length ≤ 382 := by
  have hrob := h.window.wf.occ_le
  have hdecode := h.decode.occ_le
  have hifetch := h.ifetch.occ_le
  rw [h.window.size] at hrob
  rw [h.decodeSize] at hdecode
  rw [h.ifetchSize] at hifetch
  simp only [inFlight, List.length_append, Ring.contents_length]
  simp only [robSize, decodeWidth, fetchWidth] at hrob hdecode hifetch
  omega

theorem Quiet.inFlight (hv : Stable v) (h : Quiet steady s s') :
    (inFlight s').map v = (inFlight s).map v := by
  have hrob : s'.rob.contents.map v = s.rob.contents.map v := by
    have hmap := congrArg (List.map v) h.rob.contents
    simp only [List.map_map] at hmap
    rwa [show v ∘ O3.steady = v from funext hv.steady] at hmap
  have hdecode : s'.decodeBuffer.contents.map v = s.decodeBuffer.contents.map v := by
    have hmap := congrArg (List.map v) h.decode.contents
    simp only [List.map_map] at hmap
    rwa [show v ∘ O3.undated = v from funext hv.undated] at hmap
  have hifetch : s'.ifetchBuffer.contents.map v = s.ifetchBuffer.contents.map v := by
    have hmap := congrArg (List.map v) h.ifetch.contents
    simp only [List.map_map] at hmap
    rwa [show v ∘ O3.unfetched = v from funext hv.unfetched] at hmap
  simp only [O3.inFlight, List.map_append, hrob, hdecode, hifetch]

theorem Pipe.push_ifetch (h : Pipe c s) (hroom : s.ifetchBuffer.occupancy < s.ifetchBuffer.size)
    (x : OooModelInstr) (hrob : s'.rob = s.rob) (hdecode : s'.decodeBuffer = s.decodeBuffer)
    (hifetch : s'.ifetchBuffer = s.ifetchBuffer.push x) : inFlight s' = inFlight s ++ [x] := by
  simp only [inFlight, hrob, hdecode, hifetch, Ring.push_contents h.ifetch hroom,
    List.append_assoc]

theorem Pipe.read_inFlight (h : Pipe c s) (hroom : s.ifetchBuffer.occupancy < s.ifetchBuffer.size)
    (env : Env) (b : Bool) (front : State) (x : OooModelInstr) (sta : Feed) :
    inFlight { s with
      filePos := front.filePos
      nextInstr := front.nextInstr
      instrUniqueId := add64 s.instrUniqueId 1
      fetchStall := b
      ifetchBuffer := s.ifetchBuffer.push (predicted b (ifetchEntry (env.front s.cycle) x))
      sta := sta } = inFlight s ++ [predicted b (ifetchEntry (env.front s.cycle) x)] :=
  h.push_ifetch hroom _ rfl rfl rfl

theorem Pipe.ifetch_pos (h : Pipe c s)
    (hip : (s.ifetchBuffer.entry s.ifetchBuffer.head).ip ≠ 0) : 0 < s.ifetchBuffer.occupancy :=
  h.ifetch.occ_pos_of_head (by rw [h.ifetchSize]; decide) fun hv => hip hv.ip

theorem Pipe.decode_pos (h : Pipe c s)
    (hip : (s.decodeBuffer.entry s.decodeBuffer.head).ip ≠ 0) : 0 < s.decodeBuffer.occupancy :=
  h.decode.occ_pos_of_head (by rw [h.decodeSize]; decide) fun hv => hip hv.ip

theorem Pipe.toDecode_inFlight (h : Pipe c s) (hv : Stable v)
    (hip : (s.ifetchBuffer.entry s.ifetchBuffer.head).ip ≠ 0)
    (hroom : s.decodeBuffer.occupancy < s.decodeBuffer.size) :
    (inFlight { s with
      decodeBuffer :=
        s.decodeBuffer.push (setEventCycle 0 (s.ifetchBuffer.entry s.ifetchBuffer.head))
      ifetchBuffer := s.ifetchBuffer.pop .empty }).map v = (inFlight s).map v := by
  have hpop := Ring.pop_contents h.ifetch (h.ifetch_pos hip) OooModelInstr.empty
  simp only [inFlight, Ring.push_contents h.decode hroom, hpop, List.map_append, List.map_cons,
    List.map_nil, hv.setEventCycle, List.append_assoc]
  rfl

theorem Pipe.toRob_inFlight (h : Pipe c s) (hv : Stable v)
    (hip : (s.decodeBuffer.entry s.decodeBuffer.head).ip ≠ 0)
    (hroom : s.rob.occupancy < s.rob.size) :
    (inFlight { s with
      rob := s.rob.push (setEventCycle s.cycle (s.decodeBuffer.entry s.decodeBuffer.head))
      decodeBuffer := s.decodeBuffer.pop .empty }).map v = (inFlight s).map v := by
  have hpop := Ring.pop_contents h.decode (h.decode_pos hip) OooModelInstr.empty
  simp only [inFlight, Ring.push_contents h.window.wf hroom, hpop, List.map_append, List.map_cons,
    List.map_nil, hv.setEventCycle, List.append_assoc]
  rfl

/-- The steps that rewrite entries of the ROB in place. -/
theorem inFlight_rob {w : OooModelInstr → β} (ha : Ring.Alike w s.rob s'.rob)
    (hdecode : s'.decodeBuffer = s.decodeBuffer) (hifetch : s'.ifetchBuffer = s.ifetchBuffer) :
    (inFlight s').map w = (inFlight s).map w := by
  simp only [inFlight, List.map_append, hdecode, hifetch, ha.contents]

/-- An instruction of the ROB, between the older ones and the younger ones. -/
theorem Pipe.split_rob (h : Pipe c s) {p : Nat} (hp : s.rob.Live p) :
    ∃ l₁ l₂, inFlight s = l₁ ++ s.rob.entry p :: l₂ ∧
      ∀ (f : OooModelInstr → OooModelInstr) (s' : Cpu μ), s'.rob = modify s.rob p f →
        s'.decodeBuffer = s.decodeBuffer → s'.ifetchBuffer = s.ifetchBuffer →
        inFlight s' = l₁ ++ f (s.rob.entry p) :: l₂ := by
  obtain ⟨k, hk, rfl⟩ := hp
  have hlen : k < s.rob.contents.length := by
    rw [Ring.contents_length]
    exact hk
  have hget : s.rob.contents[k] = s.rob.entry (Ring.idx s.rob.size s.rob.head k) := by
    have hsome := Ring.getElem?_contents hk
    rw [List.getElem?_eq_getElem hlen] at hsome
    exact Option.some.inj hsome
  refine ⟨s.rob.contents.take k,
    s.rob.contents.drop (k + 1) ++ (s.decodeBuffer.contents ++ s.ifetchBuffer.contents), ?_, ?_⟩
  · have hsplit : s.rob.contents = s.rob.contents.take k ++
        s.rob.entry (Ring.idx s.rob.size s.rob.head k) :: s.rob.contents.drop (k + 1) := by
      rw [← hget, List.getElem_cons_drop, List.take_append_drop]
    unfold inFlight
    conv_lhs => rw [hsplit]
    simp
  · intro f s' hr hd hi
    have hcontents : s'.rob.contents =
        s.rob.contents.set k (f (s.rob.entry (Ring.idx s.rob.size s.rob.head k))) := by
      rw [hr]
      exact Ring.update_contents h.window.wf hk _
    have hset : s.rob.contents.set k (f (s.rob.entry (Ring.idx s.rob.size s.rob.head k))) =
        s.rob.contents.take k ++ f (s.rob.entry (Ring.idx s.rob.size s.rob.head k)) ::
          s.rob.contents.drop (k + 1) := List.set_eq_take_append_cons_drop .. |>.trans (if_pos hlen)
    unfold inFlight
    rw [hcontents, hset, hd, hi]
    simp

theorem Pipe.retire_inFlight (h : Pipe c s) (hip : (s.rob.entry s.rob.head).ip ≠ 0) (mem : μ) :
    inFlight s = s.rob.entry s.rob.head :: inFlight (releaseHead c { s with mem := mem }) := by
  have hpos := h.window.occupancy_pos (h.window.live_head hip)
  have hpop := Ring.pop_contents h.window.wf hpos OooModelInstr.empty
  show s.rob.contents ++ _ = _ :: ((s.rob.pop .empty).contents ++ _)
  rw [hpop]
  rfl

end Steps

/-! ## Consecutive ids -/

theorem consecutive_succ (first n : Nat) :
    consecutive first (n + 1) = consecutive first n ++ [(first + n) % 2 ^ 64] := by
  simp [consecutive, List.range'_1_concat]

theorem consecutive_cons (first n : Nat) :
    consecutive first (n + 1) = first % 2 ^ 64 :: consecutive (first + 1) n := by
  simp [consecutive, List.range'_succ]

/-- Fewer than `2 ^ 64` of them are distinct. -/
theorem consecutive_nodup (first : Nat) {n : Nat} (h : n < 2 ^ 64) :
    (consecutive first n).Nodup := by
  refine (List.nodup_range' 1).map_on fun x hx y hy hxy => ?_
  obtain ⟨hx₁, hx₂⟩ := List.mem_range'_1.mp hx
  obtain ⟨hy₁, hy₂⟩ := List.mem_range'_1.mp hy
  obtain ⟨a, rfl⟩ := Nat.exists_eq_add_of_le hx₁
  obtain ⟨b, rfl⟩ := Nat.exists_eq_add_of_le hy₁
  have hxy : (first + a) % 2 ^ 64 = (first + b) % 2 ^ 64 := hxy
  omega

theorem Pipe.nodup (h : Pipe c s) : ((inFlight s).map OooModelInstr.instrId).Nodup := by
  rw [h.ids]
  have hle := h.length_le
  exact consecutive_nodup _ (by omega)

theorem pipe_init (mem : μ) : Pipe c (.init mem) where
  flow := flow_init mem
  ifetchSize := rfl
  decodeSize := rfl
  ifetch := Ring.wf_init _ _ fun _ _ => rfl
  decode := Ring.wf_init _ _ fun _ _ => rfl
  ids := rfl
  unique := rfl

theorem length_of_map {β : Type} {v : OooModelInstr → β} {l l' : List OooModelInstr}
    (h : l'.map v = l.map v) : l'.length = l.length := by
  simpa using congrArg List.length h

/-- The steps after which the list holds the same ids. -/
theorem Pipe.of_ids (h : Pipe c s) (hflow : Flow c s')
    (hifetch : Ring.Wf Vacant s'.ifetchBuffer) (hdecode : Ring.Wf Vacant s'.decodeBuffer)
    (hsizes : s'.ifetchBuffer.size = s.ifetchBuffer.size ∧
      s'.decodeBuffer.size = s.decodeBuffer.size)
    (hids : (inFlight s').map OooModelInstr.instrId = (inFlight s).map OooModelInstr.instrId)
    (hretired : s'.retired = s.retired) (hunique : s'.instrUniqueId = s.instrUniqueId) :
    Pipe c s' where
  flow := hflow
  ifetchSize := hsizes.1.trans h.ifetchSize
  decodeSize := hsizes.2.trans h.decodeSize
  ifetch := hifetch
  decode := hdecode
  ids := by rw [hids, hretired, length_of_map hids, h.ids]
  unique := by rw [hunique, hretired, length_of_map hids, h.unique]

theorem Pipe.quiet (h : Pipe c s) (hq : Quiet steady s s') : Pipe c s' :=
  h.of_ids (h.flow.quiet hq) (vacant_alike (π := unfetched) (fun _ => rfl) hq.ifetch h.ifetch)
    (vacant_alike (π := undated) (fun _ => rfl) hq.decode h.decode)
    ⟨hq.ifetch.size, hq.decode.size⟩ (hq.inFlight stable_instrId)
    (congrArg Rest.retired hq.rest) (congrArg Rest.instrUniqueId hq.rest)

/-- The steps that rewrite entries of the ROB in place. -/
theorem Pipe.of_rob (h : Pipe c s) (hflow : Flow c s')
    (ha : Ring.Alike OooModelInstr.instrId s.rob s'.rob)
    (hdecode : s'.decodeBuffer = s.decodeBuffer) (hifetch : s'.ifetchBuffer = s.ifetchBuffer)
    (hretired : s'.retired = s.retired) (hunique : s'.instrUniqueId = s.instrUniqueId) :
    Pipe c s' :=
  h.of_ids hflow (hifetch ▸ h.ifetch) (hdecode ▸ h.decode)
    (by rw [hifetch, hdecode]; exact ⟨rfl, rfl⟩)
    (inFlight_rob ha hdecode hifetch) hretired hunique

theorem add64_mod (a b : Nat) : add64 (a % 2 ^ 64) b = (a + b) % 2 ^ 64 := by
  simp [add64]

theorem readRecord_id {x : OooModelInstr} {front front' : State}
    (h : readRecord c.toConfig t front = some (x, front')) : x.instrId = front.instrUniqueId := by
  obtain ⟨r, -, hr⟩ := Option.map_eq_some_iff.mp h
  split at hr
  · cases hr
    rfl
  · cases hr
    rfl

theorem Pipe.move (h : Pipe c s) (hm : Move c t s s') : Pipe c s' := by
  have hflow := h.flow.move hm
  cases hm with
  | tick => exact h.of_rob hflow (.refl ..) rfl rfl rfl rfl
  | read env b hroom hstall hrecord hsta =>
    rename_i x front sta
    have hlist := h.read_inFlight hroom env b front x sta
    have hx : x.instrId = s.instrUniqueId := readRecord_id hrecord
    have hid : (predicted b (ifetchEntry (env.front s.cycle) x)).instrId = s.instrUniqueId := hx
    refine ⟨hflow, h.ifetchSize, h.decodeSize, h.ifetch.push hroom _, h.decode, ?_, ?_⟩
    · rw [hlist, List.map_append, List.length_append, h.ids, List.map_singleton, hid, h.unique]
      exact (consecutive_succ _ _).symm
    · rw [hlist, List.length_append, List.length_singleton]
      show add64 s.instrUniqueId 1 = _
      rw [h.unique, add64_mod, Nat.add_assoc]
  | resume env =>
    have hsame : (resumeFetch (env.front s.cycle) s.toState) = { s.toState with
        fetchStall := (resumeFetch (env.front s.cycle) s.toState).fetchStall
        fetchResumeCycle := (resumeFetch (env.front s.cycle) s.toState).fetchResumeCycle } := by
      unfold resumeFetch
      split <;> rfl
    rw [hsame] at hflow ⊢
    exact h.of_rob hflow (.refl ..) rfl rfl rfl rfl
  | toDecode hip hroom =>
    exact h.of_ids hflow (h.ifetch.pop (h.ifetch_pos hip) rfl) (h.decode.push hroom _)
      ⟨rfl, rfl⟩ (h.toDecode_inFlight stable_instrId hip hroom) rfl rfl
  | toRob hip hroom =>
    exact h.of_ids hflow h.ifetch (h.decode.pop (h.decode_pos hip) rfl) ⟨rfl, rfl⟩
      (h.toRob_inFlight stable_instrId hip hroom) rfl rfl
  | complete hc =>
    rcases h.flow.completes hc with rfl | hdone
    · exact h
    · have hrest := hdone.rest
      refine h.of_rob hflow ?_ (by rw [hrest]) (by rw [hrest]) (by rw [hrest]) (by rw [hrest])
      exact (alike_modify (π := OooModelInstr.instrId) rfl).trans
        (hdone.shape.comp OooModelInstr.instrId)
  | schedule hf hidle hs =>
    have hsched := h.flow.schedules hf hidle hs
    have hrest := hsched.rest
    exact h.of_rob hflow (hsched.rob.comp OooModelInstr.instrId) (by rw [hrest]) (by rw [hrest])
      (by rw [hrest]) (by rw [hrest])
  | execute hi he =>
    exact h.of_rob hflow (alike_modify (π := OooModelInstr.instrId)
      (f := markIssued s.cycle c.execLatency) rfl) rfl rfl rfl rfl
  | addStore hi hj hm ha hbefore hroom hsta hs =>
    obtain ⟨-, rfl⟩ := addStoreQueue_eq hs
    exact h.of_rob hflow (alike_modify (π := OooModelInstr.instrId) rfl) rfl rfl rfl rfl
  | memoryScheduled hi hall =>
    rw [memoryScheduled_eq] at hflow ⊢
    exact h.of_rob hflow (alike_modify (π := OooModelInstr.instrId) rfl) rfl rfl rfl rfl
  | retire hip hdone =>
    rename_i mem
    have hlist := h.retire_inFlight hip mem
    have hids := h.ids
    have hunique := h.unique
    have hretired : (releaseHead c { s with mem := mem }).retired.length = s.retired.length + 1 := by
      show (s.retired ++ [_]).length = _
      simp
    rw [hlist, List.map_cons, List.length_cons, consecutive_cons] at hids
    rw [hlist, List.length_cons] at hunique
    refine ⟨hflow, h.ifetchSize, h.decodeSize, h.ifetch, h.decode, ?_, ?_⟩
    · rw [hretired]
      exact (List.cons.inj hids).2
    · rw [hretired, Nat.add_right_comm, Nat.add_assoc]
      exact hunique

theorem reaches_pipe (h : Reaches M c t O s) : Pipe c s :=
  h.invariant pipe_init fun _ _ hI hop => hop.move.elim hI.quiet hI.move

/-! ## The instructions as they were read -/

def original (x : OooModelInstr) : OooModelInstr :=
  { OooModelInstr.empty with
    instrId := x.instrId
    ip := x.ip
    isBranch := x.isBranch
    isMemory := x.isMemory
    branchTaken := x.branchTaken
    asid := x.asid
    branchType := x.branchType
    branchTarget := x.branchTarget
    numRegOps := x.numRegOps
    destinationRegisters := x.destinationRegisters
    sourceRegisters := x.sourceRegisters
    destinationMemory := x.destinationMemory
    sourceMemory := x.sourceMemory }

theorem stable_original : Stable original := ⟨fun _ => rfl, fun _ => rfl⟩

/-- A step reads an instruction, retires one, or keeps them all. -/
theorem Pipe.move_original (h : Pipe c s) (hm : Move c t s s') :
    (inFlight s').map original = (inFlight s).map original ∨
      (∃ x front, readRecord c.toConfig t s.toState = some (x, front) ∧
        (inFlight s').map original = (inFlight s).map original ++ [original x]) ∨
      ∃ x, inFlight s = x :: inFlight s' ∧ s'.retired.length = s.retired.length + 1 := by
  cases hm with
  | tick => exact .inl rfl
  | read env b hroom hstall hrecord hsta =>
    rename_i x front sta
    refine .inr (.inl ⟨x, front, hrecord, ?_⟩)
    rw [h.read_inFlight hroom, List.map_append, List.map_singleton]
    rfl
  | resume env =>
    refine .inl ?_
    unfold resumeFetch
    split <;> rfl
  | toDecode hip hroom => exact .inl (h.toDecode_inFlight stable_original hip hroom)
  | toRob hip hroom => exact .inl (h.toRob_inFlight stable_original hip hroom)
  | complete hc =>
    rcases h.flow.completes hc with rfl | hdone
    · exact .inl rfl
    · have hrest := hdone.rest
      refine .inl (inFlight_rob ?_ (by rw [hrest]) (by rw [hrest]))
      exact (alike_modify (π := original) (f := markCompleted) rfl).trans
        (hdone.shape.comp original)
  | schedule hf hidle hs =>
    have hsched := h.flow.schedules hf hidle hs
    have hrest := hsched.rest
    exact .inl (inFlight_rob (hsched.rob.comp original) (by rw [hrest]) (by rw [hrest]))
  | execute hi he =>
    exact .inl (inFlight_rob (alike_modify (π := original)
      (f := markIssued s.cycle c.execLatency) rfl) rfl rfl)
  | addStore hi hj hm ha hbefore hroom hsta hs =>
    obtain ⟨-, rfl⟩ := addStoreQueue_eq hs
    exact .inl (inFlight_rob (alike_modify (π := original) rfl) rfl rfl)
  | memoryScheduled hi hall =>
    rw [memoryScheduled_eq]
    exact .inl (inFlight_rob (alike_modify (π := original) rfl) rfl rfl)
  | retire hip hdone => exact .inr (.inr ⟨_, h.retire_inFlight hip _, List.length_append⟩)

/-- The invariant rule for the instructions in flight. -/
theorem Reaches.inFlight_all {P : OooModelInstr → Prop}
    (hread : ∀ (front front' : State) (x : OooModelInstr),
      readRecord c.toConfig t front = some (x, front') → P (original x))
    (h : Reaches M c t O s) : ∀ x ∈ inFlight s, P (original x) := by
  have hall : Pipe c s ∧ ∀ y ∈ (inFlight s).map original, P y := by
    refine h.invariant (I := fun s => Pipe c s ∧ ∀ y ∈ (inFlight s).map original, P y)
      (fun mem => ⟨pipe_init mem, fun _ hy => absurd hy List.not_mem_nil⟩) ?_
    rintro s s' ⟨hp, hs⟩ hop
    rcases hop.move with hq | hm
    · refine ⟨hp.quiet hq, ?_⟩
      rw [hq.inFlight stable_original]
      exact hs
    · refine ⟨hp.move hm, ?_⟩
      rcases hp.move_original hm with heq | ⟨x, front, hrecord, heq⟩ | ⟨x, heq, -⟩
      · rw [heq]
        exact hs
      · rw [heq]
        intro y hy
        rcases List.mem_append.mp hy with hy | hy
        · exact hs y hy
        · rw [List.mem_singleton.mp hy]
          exact hread _ _ x hrecord
      · intro y hy
        refine hs y ?_
        rw [heq, List.map_cons]
        exact List.mem_cons_of_mem _ hy
  exact fun x hx => hall.2 _ (List.mem_map_of_mem hx)

end O3
end ChampSim
