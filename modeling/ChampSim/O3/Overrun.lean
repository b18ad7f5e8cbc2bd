import ChampSim.O3.Supply

/-!
# ChampSim.O3.Overrun

How the store array runs full.

* `EvenCycles n s`, `OddCycles n s` — the state after an even and after an odd number of cycles,
  with `n` instructions read. Every second cycle two of them enter the ROB.
* `EvenCycles.cycle`, `OddCycles.cycle` — one cycle takes one to the other.
* `lateRun_even`  — so the run goes on until 353 instructions are read.
* `late_overrun`  — then the next write of `STA` meets a pending store.
-/

namespace ChampSim
namespace O3

open Lib ChampSim.Core

/-! ## Two cycles -/

/-- The stages of a cycle before `read_from_trace`. -/
def beforeRead : List Phase := [.retire, .update] ++ backPhases ++ [.decode, .fetch]

/-- After an even number of cycles: the line is asked for. -/
structure EvenCycles (n : Nat) (s : Cpu (Server → List Packet)) : Prop
    extends Held s, Reading n s where
  ifetch : ∃ x y, s.ifetchBuffer.contents = [x, y] ∧ Follows x ∧ Follows y
  decode : s.decodeBuffer.contents = []
  asked : ∃ p : Packet, p.ip = 64 ∧ s.mem .l1i = [p]
  count : s.rob.occupancy + 2 = n

/-- After an odd number of cycles: two instructions have been fetched. -/
structure OddCycles (n : Nat) (s : Cpu (Server → List Packet)) : Prop
    extends Held s, Reading n s where
  ifetch : ∃ x, s.ifetchBuffer.contents = [x] ∧ Follows x ∧ x.translated = .completed ∧
    x.fetched = .idle
  decode : ∃ x y, s.decodeBuffer.contents = [x, y] ∧ Follows x ∧ Follows y
  answered : s.mem .l1i = []
  count : s.rob.occupancy + 3 = n

section Cycles

variable {s s' : Cpu (Server → List Packet)} {n : Nat}

theorem Held.tick (h : Held s) : Held s.tick :=
  h.congr (h.reached.op (.tick s)) rfl rfl rfl rfl rfl h.itlb h.dtlb

theorem Rescheduled.reading (h : Rescheduled s s') (hr : Reading n s) : Reading n s' := by
  rw [h.rest]
  exact hr.congr rfl rfl rfl rfl

/-- The stages up to the memory operations, when the L1I has nothing to answer. -/
theorem Held.back (h : Held s) (hl1i : s.mem .l1i = []) :
    ∃ s', run latePhase s ([.retire, .update] ++ backPhases) = some s' ∧ Held s' ∧
      Rescheduled s s' := by
  obtain ⟨s', hrun, h', hsame⟩ := h.outOfOrder hl1i
  refine ⟨s', ?_, h', hsame⟩
  show run latePhase s (.retire :: .update :: backPhases) = _
  rw [run_cons_some h.retire, run_cons_some (h.update hl1i), hrun]

/-- When it answers. -/
theorem Held.back_line (h : Held s) {p : Packet} (hl1i : s.mem .l1i = [p]) :
    ∃ s', run latePhase s ([.retire, .update] ++ backPhases) = some s' ∧ Held s' ∧
      Rescheduled (lineFetched p s) s' := by
  have hupdate := h.update_line hl1i
  have hfetched : Held (lineFetched p s) :=
    h.congr (h.perform hupdate) rfl rfl rfl rfl rfl h.itlb h.dtlb
  have hanswered : (lineFetched p s).mem .l1i = [] := rfl
  obtain ⟨s', hrun, h', hsame⟩ := hfetched.outOfOrder hanswered
  refine ⟨s', ?_, h', hsame⟩
  show run latePhase s (.retire :: .update :: backPhases) = _
  rw [run_cons_some h.retire, run_cons_some hupdate, hrun]

theorem run_beforeRead {s₁ s₂ s₃ : Cpu (Server → List Packet)}
    (h : run latePhase s ([.retire, .update] ++ backPhases) = some s₁)
    (hdecode : latePhase s₁ .decode = some s₂) (hfetch : latePhase s₂ .fetch = some s₃) :
    run latePhase s beforeRead = some s₃ := by
  unfold beforeRead
  rw [run_append, h, Option.bind_some, run_cons_some hdecode, run_cons_some hfetch, run_nil]

/-- Up to the read, two instructions go to the decode buffer. -/
theorem EvenCycles.before (h : EvenCycles n s) (hn : n ≤ 354) :
    ∃ s', run latePhase s.tick beforeRead = some s' ∧ Held s' ∧ Reading n s' ∧
      s'.ifetchBuffer.contents = [] ∧
      (∃ x y, s'.decodeBuffer.contents = [x, y] ∧ Follows x ∧ Follows y) ∧
      s'.mem .l1i = [] ∧ s'.rob.occupancy + 2 = n := by
  obtain ⟨p, hip, hl1i⟩ := h.asked
  obtain ⟨x, y, hcontents, hx, hy⟩ := h.ifetch
  have hcount := h.count
  have hrob : robSize = 352 := rfl
  obtain ⟨s₁, hrun₁, h₁, hsame₁⟩ := h.toHeld.tick.back_line hl1i
  have hr₁ : Reading n s₁ := hsame₁.reading (h.toReading.congr rfl rfl rfl rfl)
  have hocc₁ : s₁.rob.occupancy = s.rob.occupancy := hsame₁.occupancy
  have hifetch₁ : s₁.ifetchBuffer = completeInstrLine p s.ifetchBuffer := by
    rw [hsame₁.rest]
    rfl
  have hdecode₁ : s₁.decodeBuffer.contents = [] := by
    rw [hsame₁.rest]
    exact h.decode
  have hmem₁ : s₁.mem .l1i = [] := by
    rw [hsame₁.rest]
    rfl
  obtain ⟨s₂, hrun₂, h₂, hsame₂, hdecode₂, hocc₂⟩ := h₁.decode hdecode₁
    (fun _ hmem => absurd hmem List.not_mem_nil) (Nat.succ_pos _) (by rw [List.length_nil]; omega)
  rw [List.length_nil] at hocc₂
  have hr₂ : Reading n s₂ := by
    rw [hsame₂]
    exact hr₁.congr rfl rfl rfl rfl
  have hdone : ∀ z, Follows z →
      (if z.ip / 64 = p.ip / 64 then fetchDone z else z) = fetchDone z := fun z hz =>
    if_pos (by rw [hz.1, hip])
  have hifetch₂ : s₂.ifetchBuffer.contents = [fetchDone x, fetchDone y] := by
    rw [hsame₂, ← hdone x hx, ← hdone y hy]
    show s₁.ifetchBuffer.contents = _
    rw [hifetch₁]
    have hmapped := contents_mapped s.ifetchBuffer fun z =>
      if z.ip / 64 = p.ip / 64 then fetchDone z else z
    rw [hcontents] at hmapped
    exact hmapped
  obtain ⟨s₃, hrun₃, h₃, hsame₃, hifetch₃, hdecode₃⟩ := h₂.fetch_send hr₂.stall hifetch₂
    (Nat.succ_pos _) (Nat.le_of_ble_eq_true rfl) (by
      intro z hz
      rcases List.mem_pair.mp hz with rfl | rfl
      · exact ⟨hx, rfl, rfl⟩
      · exact ⟨hy, rfl, rfl⟩) hdecode₂
  refine ⟨s₃, run_beforeRead hrun₁ hrun₂ hrun₃, h₃, ?_, hifetch₃, ⟨_, _, hdecode₃, hx, hy⟩, ?_, ?_⟩
  · rw [hsame₃]
    exact hr₂.congr rfl rfl rfl rfl
  · rw [hsame₃, hsame₂]
    exact hmem₁
  · rw [hsame₃]
    show s₂.rob.occupancy + 2 = n
    omega

/-- Up to the read, two instructions enter the ROB, and the line is asked for. -/
theorem OddCycles.before (h : OddCycles n s) (hn : n ≤ 353) :
    ∃ s', run latePhase s.tick beforeRead = some s' ∧ Held s' ∧ Reading n s' ∧
      (∃ x, s'.ifetchBuffer.contents = [x] ∧ Follows x) ∧ s'.decodeBuffer.contents = [] ∧
      (∃ p : Packet, p.ip = 64 ∧ s'.mem .l1i = [p]) ∧ s'.rob.occupancy + 1 = n := by
  obtain ⟨x, hcontents, hx, htranslated, hfetched⟩ := h.ifetch
  obtain ⟨y, z, hdecode, hy, hz⟩ := h.decode
  have hcount := h.count
  have hrob : robSize = 352 := rfl
  obtain ⟨s₁, hrun₁, h₁, hsame₁⟩ := h.toHeld.tick.back h.answered
  have hr₁ : Reading n s₁ := hsame₁.reading (h.toReading.congr rfl rfl rfl rfl)
  have hocc₁ : s₁.rob.occupancy = s.rob.occupancy := hsame₁.occupancy
  have hdecode₁ : s₁.decodeBuffer.contents = [y, z] := by
    rw [hsame₁.rest]
    exact hdecode
  obtain ⟨s₂, hrun₂, h₂, hsame₂, hdecode₂, hocc₂⟩ := h₁.decode hdecode₁ (by
      intro w hw
      rcases List.mem_pair.mp hw with rfl | rfl
      · exact hy
      · exact hz) (Nat.le_of_ble_eq_true rfl) (by show s₁.rob.occupancy + 2 ≤ robSize; omega)
  have hocc₂ : s₂.rob.occupancy = s₁.rob.occupancy + 2 := hocc₂
  have hr₂ : Reading n s₂ := by
    rw [hsame₂]
    exact hr₁.congr rfl rfl rfl rfl
  have hifetch₂ : s₂.ifetchBuffer.contents = [x] := by
    rw [hsame₂, hsame₁.rest]
    exact hcontents
  have hmem₂ : s₂.mem .l1i = [] := by
    rw [hsame₂, hsame₁.rest]
    exact h.answered
  obtain ⟨s₃, hrun₃, h₃, hsame₃, hasked, y', hifetch₃, hy'⟩ := h₂.fetch_ask hr₂.stall hifetch₂ hx
    htranslated hfetched hmem₂
  refine ⟨s₃, run_beforeRead hrun₁ hrun₂ hrun₃, h₃, ?_, ⟨y', hifetch₃, hy'⟩, ?_, hasked, ?_⟩
  · rw [hsame₃]
    exact hr₂.congr rfl rfl rfl rfl
  · rw [hsame₃]
    exact hdecode₂
  · rw [hsame₃]
    show s₂.rob.occupancy + 1 = n
    omega

/-- A cycle is the stages before the read, and the read. -/
theorem cycle_of_before {s₁ s₂ : Cpu (Server → List Packet)}
    (h : run latePhase s.tick beforeRead = some s₁) (hread : latePhase s₁ .read = some s₂) :
    cycle late lateConfig lateTrace s lateTurn = some s₂ := by
  show run latePhase s.tick (beforeRead ++ [.read]) = _
  rw [run_append, h, Option.bind_some, run_singleton]
  exact hread

theorem EvenCycles.cycle (h : EvenCycles n s) (hn : n ≤ 352) :
    ∃ s', cycle late lateConfig lateTrace s lateTurn = some s' ∧ OddCycles (n + 1) s' := by
  have hcount := h.count
  obtain ⟨s₁, hrun, h₁, hr, hifetch, hdecode, hl1i, hocc⟩ := h.before (by omega)
  have hempty : s₁.ifetchBuffer.occupancy = 0 := by rw [← Ring.contents_length, hifetch]; rfl
  obtain ⟨s₂, y, hread, h₂, hr₂, hcontents, hy, htranslated, hfetched, hrob, hsame, hmem⟩ :=
    h₁.read hr (by omega) hn (by rw [hempty]; exact h₁.ifetch_pos)
  rw [hifetch, List.nil_append] at hcontents
  exact ⟨s₂, cycle_of_before hrun hread, h₂, hr₂, ⟨y, hcontents, hy, htranslated, hfetched⟩,
    hsame ▸ hdecode, hmem ▸ hl1i, by rw [hrob]; omega⟩

theorem OddCycles.cycle (h : OddCycles n s) (hn : n ≤ 352) :
    ∃ s', cycle late lateConfig lateTrace s lateTurn = some s' ∧ EvenCycles (n + 1) s' := by
  have hcount := h.count
  obtain ⟨s₁, hrun, h₁, hr, ⟨x, hifetch, hx⟩, hdecode, hl1i, hocc⟩ := h.before (by omega)
  have hone : s₁.ifetchBuffer.occupancy = 1 := by rw [← Ring.contents_length, hifetch]; rfl
  obtain ⟨s₂, y, hread, h₂, hr₂, hcontents, hy, -, -, hrob, hsame, hmem⟩ :=
    h₁.read hr (by omega) hn (by rw [hone, h₁.pipe.ifetchSize]; decide)
  rw [hifetch] at hcontents
  exact ⟨s₂, cycle_of_before hrun hread, h₂, hr₂, ⟨x, y, hcontents, hx, hy⟩, hsame ▸ hdecode,
    hmem ▸ hl1i, by rw [hrob]; omega⟩

end Cycles

/-! ## The run goes on -/

/-- What the state after six cycles is checked for. -/
structure Checked (s : Cpu (Server → List Packet)) : Prop where
  rob : (s.rob.head = 0 ∧ s.rob.occupancy = 5 ∧ Leads (s.rob.entry 0)) ∧
    ∀ i < 5, 0 < i → Follows (s.rob.entry i) ∧ Waits (s.rob.entry i)
  lists : s.nextSchedule < robSize ∧
    ((s.rte .zero).front = robSize ∧ (s.rte .one).front = robSize) ∧
    ((s.rtl .zero).front = lqSize ∧ (s.rtl .one).front = lqSize) ∧
    (s.rts .zero).front = sqSize ∧ (s.rts .one).front = sqSize
  mem : (s.mem .itlb).length = 0 ∧ (s.mem .dtlb).length = 0 ∧
    (s.mem .l1i).map Packet.ip = [64]
  front : (s.filePos = 7 ∧ s.instrUniqueId = 7 ∧ s.fetchStall = false) ∧
    (s.ifetchBuffer.contents.length = 2 ∧ ∀ x ∈ s.ifetchBuffer.contents, Follows x) ∧
    s.decodeBuffer.contents.length = 0
  sta : (s.sta.size = staSize ∧ s.sta.mark = u64Max ∧ s.sta.head = 0 ∧ s.sta.tail = 24) ∧
    (∀ i < staSize, 24 ≤ i → s.sta.slot i = u64Max) ∧ ∀ i < 24, s.sta.slot i ≠ u64Max

instance Checked.decidable (s : Cpu (Server → List Packet)) : Decidable (Checked s) :=
  decidable_of_iff (_ ∧ _ ∧ _ ∧ _ ∧ _)
    ⟨fun h => ⟨h.1, h.2.1, h.2.2.1, h.2.2.2.1, h.2.2.2.2⟩,
      fun h => ⟨h.rob, h.lists, h.mem, h.front, h.sta⟩⟩

theorem Checked.even {s : Cpu (Server → List Packet)} (h : Checked s)
    (hreached : Reaches late lateConfig lateTrace Eq s) : EvenCycles 7 s := by
  obtain ⟨⟨hhead, hocc, hleads⟩, hwaits⟩ := h.rob
  obtain ⟨hnext, hrte, hrtl, hrts⟩ := h.lists
  obtain ⟨hitlb, hdtlb, hl1i⟩ := h.mem
  obtain ⟨⟨hfile, hunique, hstall⟩, ⟨htwo, hfollows⟩, hdecode⟩ := h.front
  obtain ⟨⟨hsize, hmark, hstart, htail⟩, hfree, hused⟩ := h.sta
  have hheld : Held s :=
    { reached := hreached
      head := hhead
      pos := by omega
      leads := hleads
      waits := fun i hi hlt => hwaits i (by omega) hi
      next := hnext
      rte := fun b => b.casesOn hrte.1 hrte.2
      rtl := fun b => b.casesOn hrtl.1 hrtl.2
      rts := fun b => b.casesOn hrts.1 hrts.2
      itlb := List.length_eq_zero_iff.mp hitlb
      dtlb := List.length_eq_zero_iff.mp hdtlb }
  have hholds := Feed.holds_of_slots hstart htail (by rw [hsize]; decide) fun i hi hle => by
    rw [hmark]
    exact hfree i (hsize ▸ hi) hle
  have hreading : Reading 7 s :=
    { filePos := hfile
      unique := hunique
      stall := hstall
      staSize := hsize
      staMark := hmark
      sta := ⟨_, hholds, by rw [List.length_map, List.length_range], fun hmem => by
        obtain ⟨i, hi, heq⟩ := List.mem_map.mp hmem
        exact hused i (List.mem_range.mp hi) heq⟩ }
  obtain ⟨x, y, hxy⟩ := List.length_eq_two.mp htwo
  obtain ⟨p, hp, hip⟩ := List.map_eq_singleton_iff.mp hl1i
  exact ⟨hheld, hreading, ⟨x, y, hxy, hfollows x (by simp [hxy]), hfollows y (by simp [hxy])⟩,
    List.length_eq_zero_iff.mp hdecode, ⟨p, hip, hp⟩, by omega⟩

theorem lateRun_reaches {n : Nat} {s : Cpu (Server → List Packet)} (h : lateRun n = some s) :
    Reaches late lateConfig lateTrace Eq s := by
  refine run_reaches (fun turn hturn => ?_) h
  obtain rfl := List.eq_of_mem_replicate hturn
  exact lateTurn_within

theorem lateRun_six : ∃ s, lateRun 6 = some s ∧ EvenCycles 7 s := by
  have hrun : (lateRun 6).map (fun s => decide (Checked s)) = some true := by decide +kernel
  obtain ⟨s, hs, hchecked⟩ := Option.map_eq_some_iff.mp hrun
  exact ⟨s, hs, (of_decide_eq_true hchecked).even (lateRun_reaches hs)⟩

theorem lateRun_succ {n : Nat} {s s' : Cpu (Server → List Packet)} (h : lateRun n = some s)
    (hcycle : cycle late lateConfig lateTrace s lateTurn = some s') :
    lateRun (n + 1) = some s' := by
  have h : run (cycle late lateConfig lateTrace) (.init fun _ => []) (List.replicate n lateTurn) =
      some s := h
  unfold lateRun
  rw [List.replicate_succ', run_append, h, Option.bind_some, run_singleton]
  exact hcycle

/-- Two cycles at a time. -/
theorem lateRun_even (k : Nat) : 2 * k + 7 ≤ 353 →
    ∃ s, lateRun (2 * k + 6) = some s ∧ EvenCycles (2 * k + 7) s := by
  induction k with
  | zero => exact fun _ => lateRun_six
  | succ k ih =>
    intro hk
    obtain ⟨s, hs, heven⟩ := ih (by omega)
    obtain ⟨s₁, hs₁, hodd⟩ := heven.cycle (by omega)
    obtain ⟨s₂, hs₂, heven₂⟩ := hodd.cycle (by omega)
    exact ⟨s₂, lateRun_succ (lateRun_succ hs hs₁) hs₂, heven₂⟩

/-- Before the next instruction is read, `STA` holds 1408 pending stores and its tail has met its
head: the first of the four writes is over the oldest of them. -/
theorem late_overrun : ∃ s s' : Cpu (Server → List Packet), lateRun 352 = some s ∧
    run latePhase s.tick beforeRead = some s' ∧
    (s'.ifetchBuffer.occupancy < s'.ifetchBuffer.size ∧ s'.fetchStall = false) ∧
    ∃ x front, readRecord lateConfig.toConfig lateTrace s'.toState = some (x, front) ∧
      (storeIndices lateConfig x).length = 4 ∧ s'.sta.slot s'.sta.tail ≠ u64Max ∧
      ¬ WritesFree x.instrId 4 s'.sta := by
  obtain ⟨s, hs, heven⟩ := lateRun_even 173 (by decide)
  obtain ⟨s', hrun, h', hr, hifetch, -⟩ := heven.before (by decide)
  obtain ⟨l, hl, hlen, hmark⟩ := hr.sta
  have hempty : s'.ifetchBuffer.occupancy = 0 := by rw [← Ring.contents_length, hifetch]; rfl
  have hfull : s'.sta.slot s'.sta.tail ≠ u64Max := by
    have hsize : l.length = s'.sta.size := by rw [hlen, hr.staSize]; decide
    rw [← hr.staMark]
    exact hl.not_free hsize (hr.staMark ▸ hmark)
  refine ⟨s, s', hs, hrun, ⟨by rw [hempty]; exact h'.ifetch_pos, hr.stall⟩, _, _,
    hr.record (by decide) (by decide), ?_, hfull, fun hfree => hfull hfree.1⟩
  rw [storeIndices_fourStores]
  rfl

end O3
end ChampSim
