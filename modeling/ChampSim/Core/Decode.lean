import ChampSim.Core.Order

/-!
# ChampSim.Core.Decode

The second loop of `decode_and_dispatch`, which starts the decoding of the oldest entries.

* `freshFrom r j`     — the ages, from `j` on, of the live entries that are not stamped yet.
* `Served`            — the oldest `DECODE_WIDTH` of them are stamped, and nothing else is changed.
* `decodeLoop_entry`  — the loop over a buffer that is not full.
* `startDecodes_full` — in a full buffer the tail is the head, and the loop ends there.
* `decode_served_iff` — the loop serves its width unless the buffer is full.
-/

namespace ChampSim
namespace Core

open Lib

variable {c : Config} {env : CycleEnv} {r : Lib.Ring OooModelInstr}

/-- The entry `k` places after the head. -/
def aged (r : Lib.Ring OooModelInstr) (k : Nat) : OooModelInstr :=
  r.entry (Ring.idx r.size r.head k)

def freshFrom (r : Lib.Ring OooModelInstr) (j : Nat) : List Nat :=
  (List.range' j (r.occupancy - j)).filter fun k => (aged r k).eventCycle = 0

/-- The oldest entries that wait for their stamp, at most `DECODE_WIDTH`. -/
def decodable (r : Lib.Ring OooModelInstr) : List Nat := (freshFrom r 0).take decodeWidth

def stamp (c : Config) (env : CycleEnv) : Nat := add64 env.currentCoreCycle c.decodeLatency

def Config.startDecodes (c : Config) (env : CycleEnv) (r : Lib.Ring OooModelInstr) :
    Lib.Ring OooModelInstr :=
  decodeLoop c env r.size 0 r.head r

structure Served (c : Config) (env : CycleEnv) (r r' : Lib.Ring OooModelInstr) : Prop where
  stamped : ∀ k ∈ decodable r, (aged r' k).eventCycle = stamp c env
  unchanged : ∀ k < r.occupancy, k ∉ decodable r → aged r' k = aged r k

/-! ## One round -/

theorem aged_modify {f : OooModelInstr → OooModelInstr} {j k : Nat} (hj : j < r.size)
    (hk : k < r.size) :
    aged (modify r (Ring.idx r.size r.head j) f) k = if k = j then f (aged r j) else aged r k := by
  show Function.update r.entry (Ring.idx r.size r.head j) _ (Ring.idx r.size r.head k) = _
  split
  · rename_i heq
    subst heq
    exact Function.update_self ..
  · rename_i hne
    exact Function.update_of_ne (fun heq => hne (Ring.idx_inj hk hj heq)) ..

theorem freshFrom_end : freshFrom r r.occupancy = [] := by
  simp [freshFrom]

theorem freshFrom_step {j : Nat} (hj : j < r.occupancy) :
    freshFrom r j =
      if (aged r j).eventCycle = 0 then j :: freshFrom r (j + 1) else freshFrom r (j + 1) := by
  unfold freshFrom
  rw [show r.occupancy - j = (r.occupancy - (j + 1)) + 1 by omega, List.range'_succ,
    List.filter_cons]
  simp only [decide_eq_true_eq]

theorem mem_freshFrom {j k : Nat} :
    k ∈ freshFrom r j ↔ (j ≤ k ∧ k < r.occupancy) ∧ (aged r k).eventCycle = 0 := by
  simp only [freshFrom, List.mem_filter, List.mem_range'_1, decide_eq_true_eq]
  constructor
  · rintro ⟨⟨hj, hk⟩, h0⟩
    exact ⟨⟨hj, by omega⟩, h0⟩
  · rintro ⟨⟨hj, hk⟩, h0⟩
    exact ⟨⟨hj, by omega⟩, h0⟩

/-- A stamp before age `j` does not change the ages that are fresh from `j` on. -/
theorem freshFrom_modify {f : OooModelInstr → OooModelInstr} {i j : Nat} (hi : i < j)
    (hsize : r.occupancy ≤ r.size) (hlt : i < r.size) :
    freshFrom (modify r (Ring.idx r.size r.head i) f) j = freshFrom r j := by
  show (List.range' j (r.occupancy - j)).filter _ = _
  refine List.filter_congr fun k hk => ?_
  have hk := List.mem_range'_1.mp hk
  rw [aged_modify hlt (by omega), if_neg (by omega)]

theorem decodeLoop_fresh {n count index : Nat} (hip : (r.entry r.head).ip ≠ 0)
    (hne : index ≠ r.tail) (hfresh : (r.entry index).eventCycle = 0) :
    decodeLoop c env (n + 1) count index r =
      if count + 1 ≥ decodeWidth then modify r index (setEventCycle (stamp c env))
      else decodeLoop c env n (count + 1) (Ring.next r.size index)
        (modify r index (setEventCycle (stamp c env))) := by
  simp only [decodeLoop, if_neg hip, hfresh, if_true]
  exact if_neg hne

theorem decodeLoop_stamped {n count index : Nat} (hip : (r.entry r.head).ip ≠ 0)
    (hne : index ≠ r.tail) (hcount : count < decodeWidth)
    (hstamped : (r.entry index).eventCycle ≠ 0) :
    decodeLoop c env (n + 1) count index r =
      decodeLoop c env n count (Ring.next r.size index) r := by
  simp only [decodeLoop, if_neg hip, hstamped, if_false]
  rw [if_neg hne, if_neg (Nat.not_le.mpr hcount)]

/-- The loop ends at the tail, whatever stands there. -/
theorem decodeLoop_tail {n count : Nat} (hip : (r.entry r.head).ip ≠ 0) :
    decodeLoop c env (n + 1) count r.tail r =
      if (r.entry r.tail).eventCycle = 0 then modify r r.tail (setEventCycle (stamp c env))
      else r := by
  simp only [decodeLoop, if_neg hip]
  by_cases hfresh : (r.entry r.tail).eventCycle = 0
  · simp only [hfresh, if_true]
    exact if_pos rfl
  · simp only [hfresh, if_false, if_true]

/-! ## A buffer that is not full -/

theorem ip_modify_setEventCycle (i j n : Nat) :
    ((modify r i (setEventCycle n)).entry j).ip = (r.entry j).ip :=
  ip_of_key ((modify_marked r i (key_setEventCycle n)).key j)

/-- `count` decodes have been started before the entry of age `j`. -/
theorem decodeLoop_entry (n : Nat) : ∀ (r : Lib.Ring OooModelInstr) (j count : Nat),
    (r.entry r.head).ip ≠ 0 → r.head < r.size → r.occupancy < r.size →
    r.tail = Ring.idx r.size r.head r.occupancy → j ≤ r.occupancy → r.occupancy < j + n →
    count < decodeWidth → ∀ k < r.occupancy,
      aged (decodeLoop c env n count (Ring.idx r.size r.head j) r) k =
        if k ∈ (freshFrom r j).take (decodeWidth - count)
        then setEventCycle (stamp c env) (aged r k) else aged r k := by
  induction n with
  | zero =>
    intro r j count _ _ _ _ hj hn
    omega
  | succ n ih =>
    intro r j count hip hhead hroom htail hj hn hcount k hk
    have hjs : j < r.size := by omega
    have hks : k < r.size := by omega
    rcases Nat.lt_or_eq_of_le hj with hlt | rfl
    · have hne : Ring.idx r.size r.head j ≠ r.tail := by
        rw [htail]
        exact fun heq => absurd (Ring.idx_inj hjs hroom heq) (Nat.ne_of_lt hlt)
      rw [freshFrom_step hlt]
      by_cases hfresh : (aged r j).eventCycle = 0
      · rw [decodeLoop_fresh hip hne hfresh, if_pos hfresh,
          show decodeWidth - count = decodeWidth - (count + 1) + 1 by omega, List.take_succ_cons]
        have hentry := aged_modify (f := setEventCycle (stamp c env)) hjs hks
        split
        · -- the width is used up
          rename_i hwidth
          rw [Nat.sub_eq_zero_of_le hwidth, List.take_zero, hentry]
          by_cases hkj : k = j
          · subst hkj
            simp
          · simp [hkj]
        · rename_i hwidth
          have hrest := ih (modify r (Ring.idx r.size r.head j) (setEventCycle (stamp c env)))
            (j + 1) (count + 1) (by rwa [ip_modify_setEventCycle]) hhead hroom htail
            hlt (by show r.occupancy < _; omega) (Nat.not_le.mp hwidth) k hk
          rw [freshFrom_modify (Nat.lt_succ_self j) (Nat.le_of_lt hroom) hjs, hentry] at hrest
          rw [Ring.next_idx hhead hjs]
          refine hrest.trans ?_
          by_cases hkj : k = j
          · subst hkj
            have hpast : k ∉ (freshFrom r (k + 1)).take (decodeWidth - (count + 1)) :=
              fun hmem => absurd (mem_freshFrom.mp (List.mem_of_mem_take hmem)).1.1 (by omega)
            simp [hpast]
          · simp [hkj]
      · rw [decodeLoop_stamped hip hne hcount hfresh, if_neg hfresh, Ring.next_idx hhead hjs]
        exact ih r (j + 1) count hip hhead hroom htail hlt (by omega) hcount k hk
    · -- no live entry stands at the tail
      rw [freshFrom_end, List.take_nil, if_neg List.not_mem_nil, ← htail, decodeLoop_tail hip]
      split
      · rw [htail, aged_modify hjs hks, if_neg (Nat.ne_of_lt hk)]
      · rfl

/-! ## A full buffer -/

theorem Sound.head_ip (h : Sound r) (hocc : 1 ≤ r.occupancy) : (r.entry r.head).ip ≠ 0 := by
  refine h.live _ (Ring.mem_contents.mpr ⟨0, hocc, ?_⟩)
  rw [Ring.idx_zero (h.wf.head_lt h.pos)]

theorem Sound.tail_full (h : Sound r) (hfull : r.occupancy = r.size) : r.tail = r.head := by
  have hhead := h.wf.head_lt h.pos
  rw [h.wf.tail_eq, hfull]
  unfold Ring.idx
  split
  · omega
  · omega

/-- Only the head is looked at. -/
theorem startDecodes_full (h : Sound r) (hfull : r.occupancy = r.size) :
    c.startDecodes env r =
      if (aged r 0).eventCycle = 0 then
        modify r (Ring.idx r.size r.head 0) (setEventCycle (stamp c env))
      else r := by
  have hidx : Ring.idx r.size r.head 0 = r.tail := by
    rw [Ring.idx_zero (h.wf.head_lt h.pos), h.tail_full hfull]
  have hip : (r.entry r.head).ip ≠ 0 := h.head_ip (hfull ▸ h.pos)
  obtain ⟨n, hn⟩ : ∃ n, r.size = n + 1 := ⟨r.size - 1, by have := h.pos; omega⟩
  rw [Config.startDecodes, aged, hidx, hn, ← h.tail_full hfull]
  exact decodeLoop_tail hip

theorem aged_full (h : Sound r) (hfull : r.occupancy = r.size) {k : Nat} (hk : k < r.occupancy) :
    aged (c.startDecodes env r) k =
      if k = 0 ∧ (aged r 0).eventCycle = 0 then setEventCycle (stamp c env) (aged r 0)
      else aged r k := by
  rw [startDecodes_full h hfull]
  split
  · rename_i hfresh
    rw [aged_modify h.pos (hfull ▸ hk)]
    simp [hfresh]
  · rename_i hstamped
    rw [if_neg fun hboth => hstamped hboth.2]

/-- The head is the first to be stamped. -/
theorem zero_mem_decodable (hocc : 1 ≤ r.occupancy) (hfresh : (aged r 0).eventCycle = 0) :
    0 ∈ decodable r := by
  rw [decodable, freshFrom_step hocc, if_pos hfresh]
  exact List.mem_cons_self

/-- If any entry behind the head is fresh, one of them is to be stamped. -/
theorem exists_mem_decodable {k : Nat} (hk : k < r.occupancy) (hk0 : 0 < k)
    (hfresh : (aged r k).eventCycle = 0) :
    ∃ k' ∈ decodable r, 0 < k' ∧ k' < r.occupancy ∧ (aged r k').eventCycle = 0 := by
  have hmem : k ∈ freshFrom r 1 := mem_freshFrom.mpr ⟨⟨hk0, hk⟩, hfresh⟩
  rw [decodable, freshFrom_step (by omega)]
  cases hrest : freshFrom r 1 with
  | nil => simp [hrest] at hmem
  | cons k' rest =>
    have hk' : k' ∈ freshFrom r 1 := by simp [hrest]
    obtain ⟨⟨hpos, hlt⟩, hfresh'⟩ := mem_freshFrom.mp hk'
    refine ⟨k', ?_, hpos, hlt, hfresh'⟩
    split
    · simp [decodeWidth]
    · simp [decodeWidth]

/-! ## The width of the stage -/

theorem served_of_room (h : Sound r) (hocc : 1 ≤ r.occupancy) (hroom : r.occupancy < r.size) :
    Served c env r (c.startDecodes env r) := by
  have hhead := h.wf.head_lt h.pos
  have hentry : ∀ k < r.occupancy, aged (c.startDecodes env r) k =
      if k ∈ decodable r then setEventCycle (stamp c env) (aged r k) else aged r k := by
    have hloop : ∀ k < r.occupancy,
        aged (decodeLoop c env r.size 0 (Ring.idx r.size r.head 0) r) k = _ :=
      decodeLoop_entry r.size r 0 0 (h.head_ip hocc) hhead hroom h.wf.tail_eq (Nat.zero_le _)
        (by omega) (by decide)
    rwa [Ring.idx_zero hhead] at hloop
  constructor
  · intro k hk
    rw [hentry k (mem_freshFrom.mp (List.mem_of_mem_take hk)).1.2, if_pos hk]
    rfl
  · intro k hlt hk
    rw [hentry k hlt, if_neg hk]

/-- What the second loop meets in a run is in shape. -/
theorem dispatched_sound {t : Trace} {envs : List CycleEnv} {k n : Nat} {s s' : State}
    (hip : ∀ r ∈ t.records, r.ip ≠ 0) (hs : run (cycle c t) State.init envs = some s)
    (hs' : dispatchLoop env k n s = some s') : Sound s'.decodeBuffer := by
  obtain ⟨s₁, hs₁, hI⟩ := run_inOrder (c := c) hip envs
  obtain rfl : s₁ = s := Option.some.inj (hs₁.symm.trans hs)
  exact ((dispatchLoop_keeps env k n _ hI.pipes).of_eq hs').pipes.decode

theorem decode_served_iff (h : Sound r) (hocc : 1 ≤ r.occupancy) :
    Served c env r (c.startDecodes env r) ↔
      r.occupancy < r.size ∨
        (∀ k, 0 < k → k < r.occupancy → (aged r k).eventCycle ≠ 0) ∨ stamp c env = 0 := by
  rcases Nat.lt_or_eq_of_le h.wf.occ_le with hroom | hfull
  · exact ⟨fun _ => .inl hroom, fun _ => served_of_room h hocc hroom⟩
  constructor
  · intro hserved
    refine .inr (or_iff_not_imp_right.mpr fun hstamp k hk0 hk hfresh => ?_)
    obtain ⟨k', hmem, hpos, hlt, hfresh'⟩ := exists_mem_decodable hk hk0 hfresh
    have hstamped := hserved.stamped k' hmem
    rw [aged_full h hfull hlt, if_neg fun hboth => absurd hboth.1 (Nat.ne_of_gt hpos),
      hfresh'] at hstamped
    exact hstamp hstamped.symm
  · intro hcond
    constructor
    · intro k hmem
      obtain ⟨⟨-, hlt⟩, hfresh⟩ := mem_freshFrom.mp (List.mem_of_mem_take hmem)
      rw [aged_full h hfull hlt]
      split
      · rfl
      · rename_i hnot
        have hk0 : k ≠ 0 := by
          rintro rfl
          exact hnot ⟨rfl, hfresh⟩
        rcases hcond with hroom | hstamped | hzero
        · omega
        · exact absurd hfresh (hstamped k (Nat.pos_of_ne_zero hk0) hlt)
        · rw [hfresh, hzero]
    · intro k hlt hmem
      rw [aged_full h hfull hlt]
      refine if_neg fun ⟨hk0, hfresh⟩ => hmem ?_
      subst hk0
      exact zero_mem_decodable hocc hfresh

/-! ## A run -/

/-- A cycle after the warm-up in which every request is answered at once. -/
def servedCycle (n : Nat) : CycleEnv :=
  { quietCycle with
    currentCoreCycle := n
    warmupComplete := true
    ifetchMarks := fetchedAtOnce }

def servedConfig : Config := ⟨false, 0, 0, 2⟩

/-- The state between the two loops of `decode_and_dispatch`, after `n` whole cycles. -/
def dispatched (n : Nat) : Option State :=
  (run (cycle servedConfig oneRecord) State.init
      ((List.range n).map fun i => servedCycle (i + 1))).bind fun s =>
    dispatchLoop (servedCycle (n + 1)) s.decodeBuffer.size 0 s

theorem dispatched_decode {n : Nat} {s : State} (h : dispatched n = some s) :
    Sound s.decodeBuffer := by
  obtain ⟨s₀, hrun, hs⟩ := Option.bind_eq_some_iff.mp h
  exact dispatched_sound (by simp [oneRecord]) hrun hs

/-- In the fifth cycle the buffer is full, and the six youngest entries are left without a stamp. -/
theorem decode_unserved : ∃ s, dispatched 4 = some s ∧ Sound s.decodeBuffer ∧
    s.decodeBuffer.occupancy = 18 ∧
    ¬ Served servedConfig (servedCycle 5) s.decodeBuffer
      (servedConfig.startDecodes (servedCycle 5) s.decodeBuffer) := by
  have hrun : (dispatched 4).map (fun s => (s.decodeBuffer.occupancy,
      decodable s.decodeBuffer,
      (aged (servedConfig.startDecodes (servedCycle 5) s.decodeBuffer) 12).eventCycle)) =
      some (18, [12, 13, 14, 15, 16, 17], 0) := by decide +kernel
  obtain ⟨s, hs, heq⟩ := Option.map_eq_some_iff.mp hrun
  obtain ⟨hocc, hmem, hcycle⟩ : _ ∧ _ ∧ _ := by simpa using heq
  refine ⟨s, hs, dispatched_decode hs, hocc, fun hserved => ?_⟩
  have hstamped := hserved.stamped 12 (by simp [hmem])
  rw [hcycle] at hstamped
  exact absurd hstamped (by decide)

/-- In the fourth cycle there is room, and the second group of six is stamped. -/
theorem decode_served_iff_room : ∃ s, dispatched 3 = some s ∧
    decodable s.decodeBuffer = [6, 7, 8, 9, 10, 11] ∧
    Served servedConfig (servedCycle 4) s.decodeBuffer
      (servedConfig.startDecodes (servedCycle 4) s.decodeBuffer) := by
  have hrun : (dispatched 3).map (fun s => (s.decodeBuffer.occupancy, s.decodeBuffer.size,
      decodable s.decodeBuffer)) = some (12, 18, [6, 7, 8, 9, 10, 11]) := by decide +kernel
  obtain ⟨s, hs, heq⟩ := Option.map_eq_some_iff.mp hrun
  obtain ⟨hocc, hsize, hmem⟩ : _ ∧ _ ∧ _ := by simpa using heq
  exact ⟨s, hs, hmem, (decode_served_iff (dispatched_decode hs) (by omega)).mpr (.inl (by omega))⟩

end Core
end ChampSim
