import ChampSim.O3.Behind

/-!
# ChampSim.O3.Supply

The front stages in that run, as queues of instructions.

* `Held.decode`     — what the decode buffer holds enters the ROB.
* `Held.fetch_send` — fetched instructions go to the decode buffer.
* `Held.fetch_ask`  — an instruction that has not been fetched asks for its line.
* `Reading n s`     — `n` instructions have been read, and `STA` holds four stores for each but the
  first.
* `Held.read`       — one more is read while `STA` has room for its stores.
-/

namespace ChampSim
namespace O3

open Lib ChampSim.Core

/-! ## The front -/

section Front

variable {s s' : Cpu (Server → List Packet)} {l : List OooModelInstr} {x : OooModelInstr}

theorem Held.pipe (h : Held s) : Pipe lateConfig s := reaches_pipe h.reached

theorem Held.tail (h : Held s) (hroom : s.rob.occupancy < s.rob.size) :
    s.rob.tail = s.rob.occupancy := by
  rw [h.window.wf.tail_eq, h.head]
  unfold Ring.idx
  rw [if_pos (by omega), Nat.zero_add]

/-- A front ring as a queue. -/
theorem head_cons {r : Lib.Ring OooModelInstr} (h : Ring.Wf Vacant r)
    (hl : r.contents = x :: l) : r.entry r.head = x ∧ (r.pop .empty).contents = l := by
  have hpos : 0 < r.occupancy := by
    rw [← Ring.contents_length, hl]
    exact Nat.succ_pos _
  have hpop := Ring.pop_contents h hpos OooModelInstr.empty
  rw [hl] at hpop
  exact ⟨(List.cons.inj hpop).1.symm, (List.cons.inj hpop).2.symm⟩

theorem head_nil {r : Lib.Ring OooModelInstr} (h : Ring.Wf Vacant r) (hs : 0 < r.size)
    (hl : r.contents = []) : (r.entry r.head).ip = 0 := by
  by_contra hip
  have hpos := h.occ_pos_of_head hs fun hv => hip hv.ip
  rw [← Ring.contents_length, hl] at hpos
  exact absurd hpos (lt_irrefl 0)

theorem Held.ifetch_pos (h : Held s) : 0 < s.ifetchBuffer.size := by
  rw [h.pipe.ifetchSize]
  decide

theorem Held.decode_pos (h : Held s) : 0 < s.decodeBuffer.size := by
  rw [h.pipe.decodeSize]
  decide

/-- An instruction enters the ROB. -/
def dispatched (s : Cpu (Server → List Packet)) : Cpu (Server → List Packet) :=
  { s with
    rob := s.rob.push (setEventCycle s.cycle (s.decodeBuffer.entry s.decodeBuffer.head))
    decodeBuffer := s.decodeBuffer.pop .empty }

theorem Held.addToRob (h : Held s) (hroom : s.rob.occupancy < s.rob.size) (hip : x.ip ≠ 0) :
    addToRob (lateTurn.toEnv.front s.cycle) s.rob x =
      some (s.rob.push (setEventCycle s.cycle x)) := by
  have hid : (s.rob.entry s.rob.tail).instrId = 0 :=
    (congrArg OooModelInstr.instrId (h.window.wf.tail_empty hroom) :)
  unfold Core.addToRob addToRing
  rw [if_neg (not_not.mpr hid), Option.bind_some, if_neg hip]
  rfl

theorem Held.dispatched (h : Held s) (hroom : s.rob.occupancy < s.rob.size)
    (hx : Follows (s.decodeBuffer.entry s.decodeBuffer.head)) : Held (dispatched s) := by
  have hip : (s.decodeBuffer.entry s.decodeBuffer.head).ip ≠ 0 := by
    rw [hx.1]
    decide
  have htail := h.tail hroom
  have hold : ∀ i < s.rob.occupancy, (O3.dispatched s).rob.entry i = s.rob.entry i := by
    intro i hi
    exact Ring.push_entry_ne _ _ (by omega)
  have hreached := h.reached.call (.toRob hip hroom (h.addToRob hroom hip))
  rw [modify_push] at hreached
  have hpos := h.pos
  refine ⟨hreached, h.head, Nat.succ_pos _, ?_, ?_, h.next, h.rte, h.rtl, h.rts, h.itlb, h.dtlb⟩
  · rw [hold 0 hpos]
    exact h.leads
  · intro i hi hlt
    rcases Nat.lt_succ_iff_lt_or_eq.mp hlt with hlt | rfl
    · rw [hold i hlt]
      exact h.waits i hi hlt
    · have hentry : (O3.dispatched s).rob.entry s.rob.occupancy =
          setEventCycle s.cycle (s.decodeBuffer.entry s.decodeBuffer.head) := by
        rw [← htail]
        exact Ring.push_entry_tail _ _
      have hfresh := h.pipe.flow.decode s.decodeBuffer.head
      rw [hentry]
      exact ⟨hx, .inl ⟨hfresh.scheduled, congrFun hfresh.regRawChecked 0⟩⟩

/-- The instructions of the decode buffer enter the ROB, by induction on their number. -/
theorem Held.dispatchLoop (l : List OooModelInstr) :
    ∀ (k count : Nat) {s : Cpu (Server → List Packet)}, Held s → s.decodeBuffer.contents = l →
      (∀ x ∈ l, Follows x) → l.length ≤ k → count + l.length < decodeWidth →
      s.rob.occupancy + l.length ≤ robSize →
      ∃ front, dispatchLoop (lateTurn.toEnv.front s.cycle) k count s.toState = some front ∧
        Held { s with toState := front } ∧
        front = { s.toState with rob := front.rob, decodeBuffer := front.decodeBuffer } ∧
        front.decodeBuffer.contents = [] ∧ front.rob.occupancy = s.rob.occupancy + l.length := by
  induction l with
  | nil =>
    intro k count s h hl _ _ _ _
    refine ⟨s.toState, ?_, h, rfl, hl, rfl⟩
    cases k with
    | zero => rfl
    | succ k => exact if_pos (head_nil h.pipe.decode h.decode_pos hl)
  | cons x l ih =>
    intro k count s h hl hall hk hcount hroom
    obtain ⟨hhead, hrest⟩ := head_cons h.pipe.decode hl
    have hx := hall x List.mem_cons_self
    have hfree : s.rob.occupancy < s.rob.size := by
      rw [h.window.size]
      rw [List.length_cons] at hroom
      omega
    obtain ⟨k, rfl⟩ : ∃ n, k = n + 1 := ⟨k - 1, by rw [List.length_cons] at hk; omega⟩
    have hip : (s.decodeBuffer.entry s.decodeBuffer.head).ip ≠ 0 := by
      rw [hhead, hx.1]
      decide
    rw [List.length_cons] at hk hcount hroom
    obtain ⟨front, hrun, hheld, hsame, hempty, hocc⟩ := ih k (count + 1)
      (h.dispatched hfree (hhead ▸ hx)) hrest (fun y hy => hall y (List.mem_cons_of_mem x hy))
      (by omega) (by omega) (by show s.rob.occupancy + 1 + l.length ≤ robSize; omega)
    refine ⟨front, ?_, hheld, ?_, hempty, ?_⟩
    · simp only [Core.dispatchLoop, if_neg hip]
      rw [if_pos (.inl ⟨Bool.false_ne_true, hfree⟩), h.addToRob hfree hip, Option.bind_some,
        if_neg (by omega), modify_push]
      exact hrun
    · rw [hsame]
      rfl
    · rw [hocc, List.length_cons]
      show s.rob.occupancy + 1 + l.length = _
      omega

theorem decodeLoop_empty {r : Lib.Ring OooModelInstr} (h : (r.entry r.head).ip = 0)
    (c : Core.Config) (env : CycleEnv) (k count index : Nat) :
    decodeLoop c env k count index r = r := by
  cases k with
  | zero => rfl
  | succ k => exact if_pos h

/-- Decoding: at most five instructions all enter the ROB. -/
theorem Held.decode (h : Held s) (hl : s.decodeBuffer.contents = l) (hall : ∀ x ∈ l, Follows x)
    (hlen : l.length < decodeWidth) (hroom : s.rob.occupancy + l.length ≤ robSize) :
    ∃ s', latePhase s .decode = some s' ∧ Held s' ∧
      s' = { s with rob := s'.rob, decodeBuffer := s'.decodeBuffer } ∧
      s'.decodeBuffer.contents = [] ∧ s'.rob.occupancy = s.rob.occupancy + l.length := by
  have hsize := h.pipe.decodeSize
  by_cases hocc : s.decodeBuffer.occupancy > 0
  · obtain ⟨front, hrun, hheld, hsame, hempty, hcount⟩ := h.dispatchLoop l s.decodeBuffer.size 0 hl
      hall (by rw [hsize]; exact hlen.le.trans (by decide)) (by omega) hroom
    have hip := head_nil hheld.pipe.decode hheld.decode_pos hempty
    refine ⟨{ s with toState := front }, ?_, hheld, by rw [hsame], hempty, hcount⟩
    show (if s.decodeBuffer.occupancy > 0 then _ else _) = _
    rw [if_pos hocc]
    unfold onFront decodeAndDispatch
    rw [hrun, Option.map_some, Option.map_some, decodeLoop_empty hip]
  · have hnil : l = [] := by
      rw [← hl, ← List.length_eq_zero_iff, Ring.contents_length]
      omega
    subst hnil
    exact ⟨s, if_neg hocc, h, rfl, hl, rfl⟩

/-- An instruction is sent to the decode stage. -/
def sent (s : Cpu (Server → List Packet)) : Cpu (Server → List Packet) :=
  { s with
    decodeBuffer :=
      s.decodeBuffer.push (setEventCycle 0 (s.ifetchBuffer.entry s.ifetchBuffer.head))
    ifetchBuffer := s.ifetchBuffer.pop .empty }

theorem Held.addToDecode (h : Held s)
    (hroom : s.decodeBuffer.occupancy < s.decodeBuffer.size) :
    addToDecodeBuffer (lateTurn.toEnv.front s.cycle) s.decodeBuffer x =
      some (s.decodeBuffer.push (setEventCycle s.cycle x)) := by
  have hid : (s.decodeBuffer.entry s.decodeBuffer.tail).instrId = 0 :=
    (congrArg OooModelInstr.instrId (h.pipe.decode.tail_empty hroom) :)
  unfold addToDecodeBuffer addToRing
  exact if_neg (not_not.mpr hid)

theorem Held.sent (h : Held s) (hroom : s.decodeBuffer.occupancy < s.decodeBuffer.size)
    (hip : (s.ifetchBuffer.entry s.ifetchBuffer.head).ip ≠ 0) : Held (sent s) := by
  have hreached := h.reached.call (.toDecode hip hroom (h.addToDecode hroom))
  rw [modify_push] at hreached
  exact h.congr hreached rfl rfl rfl rfl rfl h.itlb h.dtlb

/-- Fetched instructions are sent to the decode stage, by induction on their number. -/
theorem Held.sendToDecode (l : List OooModelInstr) :
    ∀ (n : Nat) {s : Cpu (Server → List Packet)}, Held s → s.ifetchBuffer.contents = l →
      (∀ x ∈ l, Follows x ∧ x.translated = .completed ∧ x.fetched = .completed) →
      l.length ≤ n → s.decodeBuffer.occupancy + l.length ≤ s.decodeBuffer.size →
      ∃ front, sendToDecode (lateTurn.toEnv.front s.cycle) n s.toState = some front ∧
        Held { s with toState := front } ∧
        front = { s.toState with
          ifetchBuffer := front.ifetchBuffer
          decodeBuffer := front.decodeBuffer } ∧
        front.ifetchBuffer.contents = [] ∧
        front.decodeBuffer.contents = s.decodeBuffer.contents ++ l.map (setEventCycle 0) := by
  induction l with
  | nil =>
    intro n s h hl _ _ _
    refine ⟨s.toState, ?_, h, rfl, hl, (List.append_nil _).symm⟩
    cases n with
    | zero => rfl
    | succ n => exact if_pos (head_nil h.pipe.ifetch h.ifetch_pos hl)
  | cons x l ih =>
    intro n s h hl hall hn hroom
    obtain ⟨hhead, hrest⟩ := head_cons h.pipe.ifetch hl
    obtain ⟨hx, htranslated, hfetched⟩ := hall x List.mem_cons_self
    rw [List.length_cons] at hn hroom
    have hfree : s.decodeBuffer.occupancy < s.decodeBuffer.size := by omega
    obtain ⟨n, rfl⟩ : ∃ m, n = m + 1 := ⟨n - 1, by omega⟩
    have hip : (s.ifetchBuffer.entry s.ifetchBuffer.head).ip ≠ 0 := by
      rw [hhead, hx.1]
      decide
    obtain ⟨front, hrun, hheld, hsame, hempty, hcontents⟩ := ih n (h.sent hfree hip) hrest
      (fun y hy => hall y (List.mem_cons_of_mem x hy)) (by omega)
      (by show s.decodeBuffer.occupancy + 1 + l.length ≤ s.decodeBuffer.size; omega)
    refine ⟨front, ?_, hheld, ?_, hempty, ?_⟩
    · simp only [Core.sendToDecode, if_neg hip]
      rw [if_pos (hhead ▸ ⟨htranslated, hfetched⟩), if_pos hfree, h.addToDecode hfree,
        Option.bind_some, modify_push]
      exact hrun
    · rw [hsame]
      rfl
    · rw [hcontents]
      show (s.decodeBuffer.push _).contents ++ _ = _
      rw [Ring.push_contents h.pipe.decode hfree, hhead, List.append_assoc]
      rfl

/-- An instruction that is not fetched keeps those behind it. -/
theorem sendToDecode_waits {env : CycleEnv} {front : State}
    (hfetched : (front.ifetchBuffer.entry front.ifetchBuffer.head).fetched ≠ .completed) (n : Nat) :
    Core.sendToDecode env n front = some front := by
  induction n with
  | zero => rfl
  | succ n ih =>
    simp only [Core.sendToDecode, if_neg fun hx => hfetched (And.right hx), ih, ite_self]

theorem Held.perform (h : Held s) {phase : Phase} (hs : latePhase s phase = some s') :
    Reaches late lateConfig lateTrace Eq s' := h.reached.ops (perform_calls hs).ops

/-- A rewriting of all entries. -/
theorem contents_mapped (r : Lib.Ring OooModelInstr) (f : OooModelInstr → OooModelInstr) :
    ({ r with entry := fun j => f (r.entry j) } : Lib.Ring OooModelInstr).contents =
      r.contents.map f := by
  simp only [Ring.contents, List.map_map]
  rfl

/-- The scan asks for nothing when nothing is idle. -/
theorem requestLoop_idle (hwf : Ring.Wf Vacant s.ifetchBuffer)
    (hall : ∀ x ∈ s.ifetchBuffer.contents, x.translated = .completed ∧ x.fetched ≠ .idle)
    (k : Nat) :
    ∀ index < s.ifetchBuffer.size, requestLoop late lateConfig k index s = some s := by
  induction k with
  | zero => exact fun _ _ => rfl
  | succ k ih =>
    intro index hindex
    simp only [O3.requestLoop]
    split
    · rfl
    · rename_i hip
      have hlive : s.ifetchBuffer.Live index := by
        by_contra hdead
        exact hip (hwf.outside index hindex hdead).ip
      obtain ⟨j, hj, rfl⟩ := hlive
      obtain ⟨htranslated, hfetched⟩ := hall _ (Ring.mem_contents.mpr ⟨j, hj, rfl⟩)
      have htranslation : ∀ i, requestTranslation late lateConfig i
          (Ring.idx s.ifetchBuffer.size s.ifetchBuffer.head j) s = some s := fun i =>
        if_neg (by rw [htranslated]; decide)
      have hline : requestLine late lateConfig
          (Ring.idx s.ifetchBuffer.size s.ifetchBuffer.head j) s = some s :=
        if_neg fun hx => hfetched hx.2
      rw [htranslation, Option.bind_some, hline, Option.bind_some]
      split
      · rfl
      · exact ih _ (Ring.next_lt (by omega))

/-- What an answer of the L1I writes. -/
def fetchDone (x : OooModelInstr) : OooModelInstr :=
  { x with translated := .completed, fetched := .completed }

/-- The line of the instructions is asked for. -/
def askedLine (x : OooModelInstr) : OooModelInstr :=
  if x.ip / 64 = 64 / 64 then { x with translated := .completed, fetched := .inflight } else x

def lineAsked (s : Cpu (Server → List Packet)) (p : Packet) : Cpu (Server → List Packet) :=
  { s with
    mem := Function.update s.mem .l1i (s.mem .l1i ++ [p])
    ifetchBuffer := { s.ifetchBuffer with entry := fun j => askedLine (s.ifetchBuffer.entry j) } }

theorem requestLine_asked (s : Cpu (Server → List Packet)) (index : Nat)
    (hip : (s.ifetchBuffer.entry index).ip = 64)
    (htranslated : (s.ifetchBuffer.entry index).translated = .completed)
    (hfetched : (s.ifetchBuffer.entry index).fetched = .idle) :
    ∃ p : Packet, p.ip = 64 ∧ requestLine late lateConfig index s = some (lineAsked s p) := by
  refine ⟨fetchLine lateConfig.numCpus lateConfig.cpu 64
    (s.ifetchBuffer.entry index).instructionPa s.cycle, rfl, ?_⟩
  simp only [O3.requestLine, if_pos (And.intro htranslated hfetched), hip]
  rfl

theorem fetch_eq (hstall : s.fetchStall = false) (hpos : 0 < s.ifetchBuffer.occupancy) :
    latePhase s .fetch =
      (requestLoop late lateConfig s.ifetchBuffer.size s.ifetchBuffer.head s).bind
        (onFront (sendToDecode (lateTurn.toEnv.front s.cycle) decodeWidth)) := by
  have hsame : resumeFetch (lateTurn.toEnv.front s.cycle) s.toState = s.toState :=
    if_neg fun hx => by
      have hstalled : s.fetchStall = true := hx.1
      rw [hstall] at hstalled
      cases hstalled
  show fetchInstruction late lateConfig lateTurn.toEnv s = _
  simp only [fetchInstruction, hsame, if_neg hpos.ne']

/-- Fetching, with all instructions fetched. -/
theorem Held.fetch_send (h : Held s) (hstall : s.fetchStall = false)
    (hl : s.ifetchBuffer.contents = l) (hpos : 0 < l.length) (hlen : l.length ≤ decodeWidth)
    (hall : ∀ x ∈ l, Follows x ∧ x.translated = .completed ∧ x.fetched = .completed)
    (hdecode : s.decodeBuffer.contents = []) :
    ∃ s', latePhase s .fetch = some s' ∧ Held s' ∧
      s' = { s with ifetchBuffer := s'.ifetchBuffer, decodeBuffer := s'.decodeBuffer } ∧
      s'.ifetchBuffer.contents = [] ∧ s'.decodeBuffer.contents = l.map (setEventCycle 0) := by
  have hocc : s.ifetchBuffer.occupancy = l.length := by rw [← hl, Ring.contents_length]
  have hempty : s.decodeBuffer.occupancy = 0 := by rw [← Ring.contents_length, hdecode]; rfl
  obtain ⟨front, hrun, hheld, hsame, hsent, hcontents⟩ := h.sendToDecode l decodeWidth hl hall hlen
    (by rw [hempty, h.pipe.decodeSize, Nat.zero_add]; exact hlen.trans (by decide))
  have hidle := requestLoop_idle h.pipe.ifetch
    (fun x hx => ⟨(hall x (hl ▸ hx)).2.1, by rw [(hall x (hl ▸ hx)).2.2]; decide⟩)
    s.ifetchBuffer.size s.ifetchBuffer.head (h.pipe.ifetch.head_lt h.ifetch_pos)
  refine ⟨{ s with toState := front }, ?_, hheld, by rw [hsame], hsent, ?_⟩
  · rw [fetch_eq hstall (by omega), hidle, Option.bind_some]
    unfold onFront
    rw [hrun, Option.map_some]
  · rw [hcontents, hdecode, List.nil_append]

/-- Fetching, with an idle instruction. -/
theorem Held.fetch_ask (h : Held s) (hstall : s.fetchStall = false)
    (hl : s.ifetchBuffer.contents = [x]) (hx : Follows x) (htranslated : x.translated = .completed)
    (hfetched : x.fetched = .idle) (hl1i : s.mem .l1i = []) :
    ∃ s', latePhase s .fetch = some s' ∧ Held s' ∧
      s' = { s with mem := s'.mem, ifetchBuffer := s'.ifetchBuffer } ∧
      (∃ p : Packet, p.ip = 64 ∧ s'.mem .l1i = [p]) ∧ ∃ y, s'.ifetchBuffer.contents = [y] ∧
        Follows y := by
  obtain ⟨hhead, -⟩ := head_cons h.pipe.ifetch hl
  have hocc : s.ifetchBuffer.occupancy = 1 := by
    rw [← Ring.contents_length, hl]
    rfl
  obtain ⟨p, hp, hasked⟩ := requestLine_asked s s.ifetchBuffer.head
    (by rw [hhead]; exact hx.1) (by rw [hhead]; exact htranslated) (by rw [hhead]; exact hfetched)
  have hreached : Reaches late lateConfig lateTrace Eq (lineAsked s p) :=
    h.reached.call (.askL1i hasked)
  have hheld : Held (lineAsked s p) := h.congr hreached rfl rfl rfl rfl rfl h.itlb h.dtlb
  have hask : askedLine x = { x with translated := .completed, fetched := .inflight } :=
    if_pos (by rw [hx.1])
  have hcontents : (lineAsked s p).ifetchBuffer.contents = [askedLine x] := by
    show ({ s.ifetchBuffer with entry := _ } : Lib.Ring OooModelInstr).contents = _
    rw [contents_mapped, hl]
    rfl
  have hloop : requestLoop late lateConfig s.ifetchBuffer.size s.ifetchBuffer.head s =
      some (lineAsked s p) := by
    have hsize := h.pipe.ifetchSize
    have hlt := h.pipe.ifetch.head_lt h.ifetch_pos
    have hip : (s.ifetchBuffer.entry s.ifetchBuffer.head).ip ≠ 0 := by
      rw [hhead, hx.1]
      decide
    have htranslation : ∀ i, requestTranslation late lateConfig i s.ifetchBuffer.head s = some s :=
      fun i => if_neg (by rw [hhead, htranslated]; decide)
    have hrest := requestLoop_idle hheld.pipe.ifetch (fun y hy => by
      rw [hcontents, List.mem_singleton] at hy
      rw [hy, hask]
      exact ⟨rfl, fun hidle => by cases hidle⟩)
    obtain ⟨k, hk⟩ : ∃ k, s.ifetchBuffer.size = k + 1 := ⟨11, hsize⟩
    rw [hk]
    simp only [O3.requestLoop, if_neg hip]
    rw [htranslation, Option.bind_some, hasked, Option.bind_some]
    split
    · rfl
    · exact hrest k _ (Ring.next_lt h.ifetch_pos)
  have hwaits : ((lineAsked s p).ifetchBuffer.entry (lineAsked s p).ifetchBuffer.head).fetched ≠
      .completed := by
    rw [(head_cons hheld.pipe.ifetch hcontents).1, hask]
    exact fun hdone => by cases hdone
  refine ⟨lineAsked s p, ?_, hheld, rfl, ⟨p, hp, ?_⟩, askedLine x, hcontents, ?_⟩
  · rw [fetch_eq hstall (by omega), hloop, Option.bind_some]
    unfold onFront
    rw [sendToDecode_waits hwaits, Option.map_some]
  · show Function.update s.mem .l1i (s.mem .l1i ++ [p]) .l1i = [p]
    rw [Function.update_self, hl1i]
    rfl
  · rw [hask]
    exact hx

/-- `n` instructions have been read, all but the first with four stores. -/
structure Reading (n : Nat) (s : Cpu (Server → List Packet)) : Prop where
  filePos : s.filePos = n
  unique : s.instrUniqueId = n
  stall : s.fetchStall = false
  staSize : s.sta.size = staSize
  staMark : s.sta.mark = u64Max
  sta : ∃ l, s.sta.Holds l ∧ l.length = 4 * (n - 1) ∧ u64Max ∉ l

theorem Reading.congr {n : Nat} (h : Reading n s) (hfile : s'.filePos = s.filePos)
    (hunique : s'.instrUniqueId = s.instrUniqueId) (hstall : s'.fetchStall = s.fetchStall)
    (hsta : s'.sta = s.sta) : Reading n s' :=
  ⟨hfile.trans h.filePos, hunique.trans h.unique, hstall.trans h.stall, hsta ▸ h.staSize,
    hsta ▸ h.staMark, hsta ▸ h.sta⟩

theorem Reading.record {n : Nat} (h : Reading n s) (hpos : 1 ≤ n) (hlt : n ≤ 400) :
    readRecord lateConfig.toConfig lateTrace s.toState =
      some (ofCloudsuite 4 n fourStores, { s.toState with filePos := n + 1 }) := by
  obtain ⟨k, rfl⟩ : ∃ k, n = k + 1 := ⟨n - 1, by omega⟩
  have hget : lateTrace.records[k + 1]? = some fourStores := by
    show (lateLoad :: List.replicate 400 fourStores)[k + 1]? = _
    rw [List.getElem?_cons_succ, List.getElem?_replicate, if_pos (by omega)]
  unfold readRecord
  rw [h.filePos, hget, Option.map_some, if_pos (show lateConfig.knobCloudsuite = true from rfl)]
  exact congrArg (fun id => some (ofCloudsuite 4 id fourStores,
    { s.toState with filePos := k + 1 + 1 })) h.unique

/-- The instruction that is read. -/
theorem follows_fourStores (n : Nat) : Follows (ofCloudsuite 4 n fourStores) := by
  refine ⟨rfl, ?_, ?_, ?_, ?_⟩
  · show decide (countNonzero 4 (fun i => fourStores.destinationMemory i != 0) +
      countNonzero numInstrSources (fun i => fourStores.sourceMemory i != 0) > 0) = true
    decide
  · show countNonzero 4 (fun i => fourStores.destinationMemory i != 0) +
      countNonzero numInstrSources (fun i => fourStores.sourceMemory i != 0) ≠ 0
    decide
  · show ∀ j < 4, (if j < 4 then fourStores.destinationRegisters j else 0) = 0
    decide
  · show ∀ j < 4, (if j < numInstrSources then fourStores.sourceRegisters j else 0) =
      if j = 0 then 1 else 0
    decide

theorem storeIndices_fourStores (n : Nat) :
    storeIndices lateConfig (ofCloudsuite 4 n fourStores) = [0, 1, 2, 3] := by
  show (List.range 4).filter (fun i =>
    decide ((if i < 4 then fourStores.destinationMemory i else 0) ≠ 0)) = _
  decide

/-- One instruction is read, a taken branch. -/
theorem Held.read {n : Nat} (h : Held s) (hr : Reading n s) (hpos : 1 ≤ n) (hn : n ≤ 352)
    (hroom : s.ifetchBuffer.occupancy < s.ifetchBuffer.size) :
    ∃ s' y, latePhase s .read = some s' ∧ Held s' ∧ Reading (n + 1) s' ∧
      s'.ifetchBuffer.contents = s.ifetchBuffer.contents ++ [y] ∧ Follows y ∧
      y.translated = .completed ∧ y.fetched = .idle ∧ s'.rob = s.rob ∧
      s'.decodeBuffer = s.decodeBuffer ∧ s'.mem = s.mem := by
  obtain ⟨l, hl, hlen, hmark⟩ := hr.sta
  have hsta : O3.staSize = 1408 := by decide
  obtain ⟨sta, hupdate, hholds, hsize, hsame⟩ := updateSta_holds n 4 hl hr.staMark
    (by rw [hr.staSize, hlen]; omega)
  let x := ofCloudsuite 4 n fourStores
  let y := ifetchEntry (lateTurn.toEnv.front s.cycle) x
  have hid : (s.ifetchBuffer.entry s.ifetchBuffer.tail).instrId = 0 :=
    (congrArg OooModelInstr.instrId (h.pipe.ifetch.tail_empty hroom) :)
  have hadd : addToIfetchBuffer (lateTurn.toEnv.front s.cycle) s.ifetchBuffer x =
      some (s.ifetchBuffer.push y) := by
    unfold addToIfetchBuffer addToRing
    exact if_neg (not_not.mpr hid)
  have hpredict : ∀ front : State, predict (lateTurn.toEnv.front s.cycle) s.ifetchBuffer.tail
      fetchWidth { front with ifetchBuffer := s.ifetchBuffer.push y } =
        (0, { front with ifetchBuffer := s.ifetchBuffer.push y }) := by
    intro front
    unfold predict
    dsimp only
    rw [Ring.push_entry_tail]
    rfl
  have hnext : add64 n 1 = n + 1 := by
    unfold add64
    omega
  have hentered : entered lateTurn.toEnv fetchWidth (s.ifetchBuffer.push y)
      { s with filePos := n + 1, sta := sta } = (0, { s with
        filePos := n + 1
        instrUniqueId := n + 1
        ifetchBuffer := s.ifetchBuffer.push y
        sta := sta }) := by
    have htaken := hpredict { s.toState with filePos := n + 1 }
    unfold entered
    dsimp only at htaken ⊢
    rw [htaken]
    dsimp only
    rw [hr.unique, hnext]
  have hrun : latePhase s .read = some { s with
      filePos := n + 1
      instrUniqueId := n + 1
      ifetchBuffer := s.ifetchBuffer.push y
      sta := sta } := by
    show (if s.ifetchBuffer.occupancy < s.ifetchBuffer.size ∧ ¬ s.fetchStall then _ else _) = _
    rw [if_pos ⟨hroom, by rw [hr.stall]; exact Bool.false_ne_true⟩]
    obtain ⟨fuel, hfuel⟩ : ∃ fuel, 2 * fetchWidth = fuel + 1 := ⟨11, rfl⟩
    unfold readFromTrace
    rw [hfuel]
    simp only [O3.readLoop, hr.record hpos (show n ≤ 400 by omega), storeIndices_fourStores]
    show (updateSta n 4 s.sta).bind _ = _
    rw [hupdate, Option.bind_some, if_pos hroom]
    show (addToIfetchBuffer (lateTurn.toEnv.front s.cycle) s.ifetchBuffer x).bind _ = _
    rw [hadd, Option.bind_some, hentered]
    exact if_pos (.inl (Nat.zero_le _))
  refine ⟨_, y, hrun, h.congr (h.perform hrun) rfl rfl rfl rfl rfl h.itlb h.dtlb,
    ⟨rfl, rfl, hr.stall, hsize.trans hr.staSize, hsame.trans hr.staMark, _, hholds, ?_, ?_⟩,
    Ring.push_contents h.pipe.ifetch hroom y, follows_fourStores n, rfl, rfl, rfl, rfl, rfl⟩
  · rw [List.length_append, List.length_replicate, hlen]
    omega
  · rw [List.mem_append, not_or]
    refine ⟨hmark, fun hmem => ?_⟩
    have heq := (List.mem_replicate.mp hmem).2
    unfold u64Max at heq
    omega

end Front

end O3
end ChampSim
