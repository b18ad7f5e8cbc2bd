import ChampSim.O3.Loads

/-!
# ChampSim.O3.Books

The producers that the load queue names, and the instructions that the store queue names.

* `FreshIds s`    — no id has come twice.
* `LoadBooks s`   — a load whose producer is in the ROB stands in the producer's set.
* `StoreBooks s`  — an entry of the store queue names the slot of its instruction.
* `reaches_books` — both hold in every state reached, as long as no id has come twice.
-/

namespace ChampSim
namespace O3

open Lib ChampSim.Core

variable {μ : Type}

/-! ## Ids -/

/-- So far no id has come twice, and none is `UINT64_MAX`. -/
def FreshIds (s : Cpu μ) : Prop := s.retired.length + (inFlight s).length < 2 ^ 64

section Ids

variable {c : Config} {s : Cpu μ}

theorem getElem?_consecutive {first n k : Nat} (hk : k < n) :
    (consecutive first n)[k]? = some ((first + k) % 2 ^ 64) := by
  simp [consecutive, hk]

theorem Pipe.id_of_getElem? (h : Pipe c s) (hf : FreshIds s) {k : Nat} {x : OooModelInstr}
    (hx : (inFlight s)[k]? = some x) : x.instrId = s.retired.length + k ∧ x.instrId < u64Max := by
  obtain ⟨hk, -⟩ := List.getElem?_eq_some_iff.mp hx
  have hid : ((inFlight s).map OooModelInstr.instrId)[k]? = some x.instrId := by
    rw [List.getElem?_map, hx, Option.map_some]
  rw [h.ids, getElem?_consecutive hk, Option.some.injEq] at hid
  unfold FreshIds at hf
  rw [← hid, u64Max]
  omega

theorem Pipe.id_rob (h : Pipe c s) (hf : FreshIds s) {p : Nat} (hp : s.rob.Live p) :
    (s.rob.entry p).instrId = s.retired.length + s.rob.age p ∧
      (s.rob.entry p).instrId < u64Max := by
  obtain ⟨k, hk, rfl⟩ := hp
  rw [Ring.age_idx h.window.head_lt (by have := h.window.wf.occ_le; omega)]
  refine h.id_of_getElem? hf (k := k) ?_
  unfold inFlight
  rw [List.getElem?_append_left (by rw [Ring.contents_length]; exact hk)]
  exact Ring.getElem?_contents hk

/-- The next instruction of the ROB. -/
theorem Pipe.id_decode (h : Pipe c s) (hf : FreshIds s)
    (hip : (s.decodeBuffer.entry s.decodeBuffer.head).ip ≠ 0) :
    (s.decodeBuffer.entry s.decodeBuffer.head).instrId =
        s.retired.length + s.rob.occupancy ∧
      (s.decodeBuffer.entry s.decodeBuffer.head).instrId < u64Max := by
  have hpos := h.decode_pos hip
  refine h.id_of_getElem? hf (k := s.rob.occupancy) ?_
  unfold inFlight
  rw [List.getElem?_append_right (by rw [Ring.contents_length]), Ring.contents_length,
    Nat.sub_self, List.getElem?_append_left (by rw [Ring.contents_length]; exact hpos),
    Ring.getElem?_contents hpos, Ring.idx_zero (h.decode.head_lt (h.decode.size_pos hpos))]

end Ids

/-! ## The books of the load queue -/

/-- The producer at `p` has recorded the load in slot `l`, and its instruction names the slot. -/
structure Recorded (s : Cpu μ) (l p : Nat) : Prop where
  live : s.rob.Live (s.lq.entry l).robIndex
  younger : s.rob.age p < s.rob.age (s.lq.entry l).robIndex
  operand : (s.lq.entry l).dataIndex < numInstrSources
  added : (s.rob.entry (s.lq.entry l).robIndex).sourceAdded (s.lq.entry l).dataIndex = true
  slot : (s.rob.entry (s.lq.entry l).robIndex).lqIndex (s.lq.entry l).dataIndex = l
  address : (s.rob.entry (s.lq.entry l).robIndex).sourceMemory (s.lq.entry l).dataIndex =
    (s.lq.entry l).virtualAddress
  dependent : (s.lq.entry l).robIndex ∈ (s.rob.entry p).memoryInstrsDependOnMe
  producer : (s.rob.entry p).isProducer = true

structure Booked (s : Cpu μ) (l : Nat) : Prop where
  vacant : (s.lq.entry l).virtualAddress = 0 → (s.lq.entry l).producerId = u64Max
  inside : (s.lq.entry l).virtualAddress ≠ 0 → l < lqSize
  past : (s.lq.entry l).producerId ≠ u64Max →
    (s.lq.entry l).producerId < s.retired.length + s.rob.occupancy
  recorded : ∀ p, s.rob.Live p → (s.rob.entry p).instrId = (s.lq.entry l).producerId →
    Recorded s l p

structure LoadBooks (s : Cpu μ) : Prop where
  size : s.lq.size = lqSize
  slots : ∀ l, Booked s l

section Books

variable {c : Config} {s s' : Cpu μ}

/-- Two entries with one key are the same load. -/
theorem key_inj {e e' : LsqEntry} (h : loadKey e' = loadKey e) :
    e'.virtualAddress = e.virtualAddress ∧ e'.producerId = e.producerId ∧
      e'.robIndex = e.robIndex ∧ e'.dataIndex = e.dataIndex := by
  simpa only [loadKey, Prod.mk.injEq] using h

theorem Recorded.marks {l p : Nat} (h : Recorded s l p) (hm : Marks s s')
    (hkey : loadKey (s'.lq.entry l) = loadKey (s.lq.entry l)) : Recorded s' l p := by
  obtain ⟨haddress, -, hrob, hdata⟩ := key_inj hkey
  have hat := hm.entry (s.lq.entry l).robIndex
  obtain ⟨hadded, hslot⟩ := hat.added _ h.added
  constructor
  · rw [hrob]
    exact hm.shape.live.mpr h.live
  · rw [hrob, hm.shape.age, hm.shape.age]
    exact h.younger
  · rw [hdata]
    exact h.operand
  · rw [hrob, hdata]
    exact hadded
  · rw [hrob, hdata, hslot]
    exact h.slot
  · rw [hrob, hdata, haddress, hat.sourceMemory]
    exact h.address
  · rw [hrob]
    exact (hm.entry p).dependents h.dependent
  · exact (hm.entry p).producer h.producer

theorem loadBooks_init (mem : μ) : LoadBooks (.init mem) := by
  refine ⟨rfl, fun l => ⟨fun _ => rfl, fun h => absurd rfl h, fun h => absurd rfl h, ?_⟩⟩
  rintro p ⟨k, hk, -⟩
  exact absurd hk (Nat.not_lt_zero k)

/-- A slot that is free, or holds the same load as before. -/
theorem Booked.kept {l : Nat} (h : Booked s l) (hm : Marks s s')
    (hids : ∀ p, s.rob.Live p → (s.rob.entry p).instrId < u64Max)
    (hretired : s'.retired = s.retired)
    (hkey : loadKey (s'.lq.entry l) = loadKey (s.lq.entry l) ∨
      loadKey (s'.lq.entry l) = loadKey .empty) : Booked s' l := by
  rcases hkey with hkey | hkey
  · obtain ⟨haddress, hproducer, -, -⟩ := key_inj hkey
    constructor
    · rw [haddress, hproducer]
      exact h.vacant
    · rw [haddress]
      exact h.inside
    · rw [hproducer, hretired, hm.shape.occupancy]
      exact h.past
    · intro p hp hid
      rw [hproducer, (hm.entry p).instrId] at hid
      exact (h.recorded p (hm.shape.live.mp hp) hid).marks hm hkey
  · obtain ⟨haddress, hproducer, -, -⟩ := key_inj hkey
    refine ⟨fun _ => hproducer, fun hne => absurd haddress hne, fun hne => absurd hproducer hne,
      fun p hp hid => ?_⟩
    have hlt := hids p (hm.shape.live.mp hp)
    rw [hproducer, (hm.entry p).instrId] at hid
    exact absurd hid (Nat.ne_of_lt hlt)

theorem LoadBooks.served (h : LoadBooks s) (hs : Served s s')
    (hids : ∀ p, s.rob.Live p → (s.rob.entry p).instrId < u64Max)
    (hretired : s'.retired = s.retired) : LoadBooks s' where
  size := hs.size.trans h.size
  slots := fun l => (h.slots l).kept hs.toMarks hids hretired (hs.loads l)

/-- Of the live slots one has the id. -/
theorem Pipe.id_inj (hp : Pipe c s) (hf : FreshIds s) {p q : Nat} (hlive : s.rob.Live p)
    (hlive' : s.rob.Live q) (hid : (s.rob.entry p).instrId = (s.rob.entry q).instrId) : p = q := by
  rw [(hp.id_rob hf hlive).1, (hp.id_rob hf hlive').1] at hid
  have hsize := hp.window.size
  have hp₁ := hp.window.lt_size hlive
  have hq₁ := hp.window.lt_size hlive'
  rw [← Ring.idx_age hp.window.head_lt (i := p) (by omega),
    ← Ring.idx_age hp.window.head_lt (i := q) (by omega), Nat.add_left_cancel hid]

theorem LoadBooks.entered {i j l : Nat} (h : LoadBooks s) (hp : Pipe c s) (hf : FreshIds s)
    (hi : s.rob.Live i) (hj : j < numInstrSources) (hm : (s.rob.entry i).sourceMemory j ≠ 0)
    (he : Entered i j l s s') (hretired : s'.retired = s.retired) : LoadBooks s' := by
  have hids : ∀ p, s.rob.Live p → (s.rob.entry p).instrId < u64Max := fun p hp' =>
    (hp.id_rob hf hp').2
  refine ⟨he.size.trans h.size, fun k => ?_⟩
  by_cases hk : k = l
  · subst hk
    rcases he.this with hkey | ⟨id, hkey, hproducer⟩
    · exact (h.slots k).kept he.toMarks hids hretired (.inr hkey)
    · simp only [loadKey, Prod.mk.injEq] at hkey
      obtain ⟨haddress, hid, hrob, hdata⟩ := hkey
      rw [(h.slots k).vacant he.vacant] at hproducer
      refine ⟨fun hzero => absurd (haddress.symm.trans hzero) hm, fun _ => h.size ▸ he.inside,
        fun hne => ?_, fun q hq hqid => ?_⟩
      · rw [hid] at hne ⊢
        obtain ⟨p, hprior, hpid, -⟩ := hproducer.resolve_left hne
        obtain ⟨hlive, -⟩ := mem_priors hp.window hi hprior
        have hage := hp.window.age_lt hlive
        rw [← hpid, (hp.id_rob hf hlive).1, hretired, he.shape.occupancy]
        omega
      · have hq := he.shape.live.mp hq
        rw [hid, (he.entry q).instrId] at hqid
        obtain ⟨p, hprior, hpid, hdependent, hflag⟩ := hproducer.resolve_left fun heq =>
          Nat.ne_of_lt (hids q hq) (hqid.trans heq)
        obtain ⟨hlive, hage⟩ := mem_priors hp.window hi hprior
        obtain rfl := hp.id_inj hf hlive hq (hpid.trans hqid.symm)
        constructor
        · rw [hrob]
          exact he.shape.live.mpr hi
        · rw [hrob, he.shape.age, he.shape.age]
          exact hage
        · rw [hdata]
          exact hj
        · rw [hrob, hdata]
          exact he.added
        · rw [hrob, hdata]
          exact he.slot
        · rw [hrob, hdata, haddress, (he.entry i).sourceMemory]
        · rw [hrob]
          exact hdependent
        · exact hflag
  · exact (h.slots k).kept he.toMarks hids hretired (he.others k hk)

theorem Recorded.congr {l p : Nat} (h : Recorded s l p) (hlq : s'.lq = s.lq)
    (hlive : s'.rob.Live (s.lq.entry l).robIndex)
    (hyounger : s'.rob.age p < s'.rob.age (s.lq.entry l).robIndex)
    (hat : s'.rob.entry (s.lq.entry l).robIndex = s.rob.entry (s.lq.entry l).robIndex)
    (hproducer : s'.rob.entry p = s.rob.entry p) : Recorded s' l p := by
  constructor
  · rw [hlq]
    exact hlive
  · rw [hlq]
    exact hyounger
  · rw [hlq]
    exact h.operand
  · rw [hlq, hat]
    exact h.added
  · rw [hlq, hat]
    exact h.slot
  · rw [hlq, hat]
    exact h.address
  · rw [hlq, hproducer]
    exact h.dependent
  · rw [hproducer]
    exact h.producer

/-- An instruction enters the ROB. No load names it yet. -/
theorem LoadBooks.push {x : OooModelInstr} (h : LoadBooks s) (hp : Pipe c s)
    (hroom : s.rob.occupancy < s.rob.size) (hid : x.instrId = s.retired.length + s.rob.occupancy)
    (hmax : x.instrId < u64Max) (hrob : s'.rob = s.rob.push x) (hlq : s'.lq = s.lq)
    (hretired : s'.retired = s.retired) : LoadBooks s' := by
  have hlive : ∀ k, s'.rob.Live k ↔ s.rob.Live k ∨ k = s.rob.tail := fun k => by
    rw [hrob]
    exact Ring.live_push _ hp.window.wf.tail_eq
  have hold : ∀ k, s.rob.Live k → s'.rob.entry k = s.rob.entry k := by
    intro k hk
    rw [hrob]
    refine Ring.push_entry_ne s.rob _ ?_
    rintro rfl
    exact hp.window.wf.not_live_tail hroom hk
  have hage : ∀ k, s'.rob.age k = s.rob.age k := fun k => by
    rw [hrob]
    rfl
  have hocc : s'.rob.occupancy = s.rob.occupancy + 1 := by
    rw [hrob]
    rfl
  refine ⟨hlq ▸ h.size, fun l => ?_⟩
  have hl := h.slots l
  constructor
  · rw [hlq]
    exact hl.vacant
  · rw [hlq]
    exact hl.inside
  · intro hne
    rw [hlq] at hne ⊢
    have hpast := hl.past hne
    rw [hretired, hocc]
    omega
  · intro q hq hqid
    rw [hlq] at hqid
    rcases (hlive q).mp hq with hq | rfl
    · rw [hold q hq] at hqid
      have hr := hl.recorded q hq hqid
      refine hr.congr hlq ((hlive _).mpr (.inl hr.live)) ?_ (hold _ hr.live) (hold q hq)
      rw [hage, hage]
      exact hr.younger
    · rw [hrob, Ring.push_entry_tail] at hqid
      have hpast := hl.past (hqid ▸ Nat.ne_of_lt hmax)
      rw [← hqid, hid] at hpast
      exact absurd hpast (Nat.lt_irrefl _)

/-- The oldest instruction leaves the ROB; no load in the queue that has a producer there is its. -/
theorem LoadBooks.pop {id : Nat} (h : LoadBooks s) (hp : Pipe c s)
    (hip : (s.rob.entry s.rob.head).ip ≠ 0) (hrob : s'.rob = s.rob.pop .empty)
    (hlq : s'.lq = s.lq) (hretired : s'.retired = s.retired ++ [id]) : LoadBooks s' := by
  have hw := hp.window
  have hpos := hw.occupancy_pos (hw.live_head hip)
  have hlive : ∀ k, s'.rob.Live k ↔ s.rob.Live k ∧ k ≠ s.rob.head := fun k => by
    rw [hrob]
    exact Ring.live_pop _ hw.head_lt hw.wf.occ_le hpos
  have hold : ∀ k ≠ s.rob.head, s'.rob.entry k = s.rob.entry k := fun k hk => by
    rw [hrob]
    exact Ring.pop_entry_ne s.rob _ hk
  have hage : ∀ k, s.rob.Live k → k ≠ s.rob.head → s'.rob.age k + 1 = s.rob.age k := by
    intro k hk hne
    rw [hrob]
    exact Ring.age_pop (r := s.rob) _ hw.head_lt (hk.lt_size hw.head_lt hw.wf.occ_le) hne
  have hocc : s'.rob.occupancy = s.rob.occupancy - 1 := by
    rw [hrob]
    rfl
  refine ⟨hlq ▸ h.size, fun l => ?_⟩
  have hl := h.slots l
  constructor
  · rw [hlq]
    exact hl.vacant
  · rw [hlq]
    exact hl.inside
  · intro hne
    rw [hlq] at hne ⊢
    have hpast := hl.past hne
    rw [hretired, hocc, List.length_append, List.length_singleton]
    omega
  · intro q hq hqid
    obtain ⟨hq, hqhead⟩ := (hlive q).mp hq
    rw [hlq, hold q hqhead] at hqid
    have hr := hl.recorded q hq hqid
    -- the load is younger than its producer, so it is not the head
    have hlhead : (s.lq.entry l).robIndex ≠ s.rob.head := by
      intro heq
      have hzero : s.rob.age s.rob.head = 0 := by
        unfold Ring.age
        rw [if_pos le_rfl, Nat.sub_self]
      have hyounger := hr.younger
      rw [heq, hzero] at hyounger
      exact absurd hyounger (Nat.not_lt_zero _)
    have hage₁ := hage q hq hqhead
    have hage₂ := hage _ hr.live hlhead
    have hyounger := hr.younger
    exact hr.congr hlq ((hlive _).mpr ⟨hr.live, hlhead⟩) (by omega) (hold _ hlhead) (hold q hqhead)

end Books

section Run

variable {M : Memory μ} {c : Config} {t : Trace} {O : μ → μ → Prop} {s s' : Cpu μ}

theorem requestTranslation_served {i index : Nat}
    (h : requestTranslation M c i index s = some s') : Served s s' := by
  simp only [requestTranslation] at h
  split at h
  · obtain ⟨⟨accepted, mem⟩, -, rfl⟩ := Option.map_eq_some_iff.mp h
    split
    · exact .of_eq rfl rfl
    · exact .of_eq rfl rfl
  · cases h
    exact .refl s

theorem requestLine_served {index : Nat} (h : requestLine M c index s = some s') :
    Served s s' := by
  simp only [requestLine] at h
  split at h
  · obtain ⟨⟨accepted, mem⟩, -, rfl⟩ := Option.map_eq_some_iff.mp h
    split
    · exact .of_eq rfl rfl
    · exact .of_eq rfl rfl
  · cases h
    exact .refl s

theorem completeInstrFetch_served {server : Server} {p : Packet}
    (h : completeInstrFetch M server p s = some s') : Served s s' := by
  obtain ⟨mem, -, rfl⟩ := Option.map_eq_some_iff.mp h
  exact .of_eq rfl rfl

/-- A call moves an instruction, enters a load, or does neither. -/
theorem Call.served (h : Call M c t O s s') :
    (Served s s' ∧ s'.retired = s.retired) ∨ Move c t s s' ∨
      ∃ i j, Candidate s i ∧ j < numInstrSources ∧ (s.rob.entry i).sourceMemory j ≠ 0 ∧
        (s.rob.entry i).sourceAdded j = false ∧ addLoadQueue c i j s = some s' := by
  cases h with
  | outside => exact .inl ⟨.of_eq rfl rfl, rfl⟩
  | operate => exact .inl ⟨.of_eq rfl rfl, rfl⟩
  | rewind => exact .inl ⟨.of_eq rfl rfl, rfl⟩
  | read hroom hstall hrecord hsta hr =>
    exact .inr (.inl (read_move hroom hstall hrecord hsta hr))
  | resume env => exact .inr (.inl (.resume s env))
  | askItlb hs => exact .inl ⟨requestTranslation_served hs,
      congrArg Rest.retired (requestTranslation_quiet (π := steady) hs).rest⟩
  | askL1i hs => exact .inl ⟨requestLine_served hs,
      congrArg Rest.retired (requestLine_quiet (π := steady) hs).rest⟩
  | toDecode hip hroom hr =>
    rw [addToRing_some hr, modify_push]
    exact .inr (.inl (.toDecode hip hroom))
  | toRob hip hroom hr =>
    rw [(addToRob_some hr).1, modify_push]
    exact .inr (.inl (.toRob hip hroom))
  | dateDecode => exact .inl ⟨.of_eq rfl rfl, rfl⟩
  | answerInstr _ hs => exact .inl ⟨completeInstrFetch_served hs,
      congrArg Rest.retired (completeInstrFetch_quiet (π := steady) hs).rest⟩
  | answerData _ _ hs => exact .inl ⟨served_loadSide.completeDataFetch hs,
      congrArg Rest.retired (quiet_loadSide.completeDataFetch hs).rest⟩
  | complete hs => exact .inr (.inl (.complete hs))
  | schedule hf hidle hs => exact .inr (.inl (.schedule hf hidle hs))
  | execute hi he => exact .inr (.inl (.execute hi he))
  | addLoad hi hj hm ha hroom hs => exact .inr (.inr ⟨_, _, hi, hj, hm, ha, hs⟩)
  | addStore hi hj hm ha hbefore hroom hsta hs =>
    exact .inr (.inl (.addStore hi hj hm ha hbefore hroom hsta hs))
  | memoryScheduled hi hall => exact .inr (.inl (.memoryScheduled hi hall))
  | refused => exact .inl ⟨.of_eq rfl rfl, rfl⟩
  | translateStore => exact .inl ⟨.of_eq rfl rfl, rfl⟩
  | executeStore hi hs => exact .inl ⟨(served_loadSide.executeStore hs).trans (.of_eq rfl rfl),
      congrArg Rest.retired (quiet_loadSide.executeStore hs).rest⟩
  | translateLoad => exact .inl ⟨served_modifyLsq rfl rfl rfl fun _ => .inl rfl, rfl⟩
  | executeLoad => exact .inl ⟨served_modifyLsq rfl rfl rfl fun _ => .inl rfl, rfl⟩
  | retire hip hdone hs =>
    rw [writeStores_mem _ hs]
    exact .inr (.inl (.retire hip hdone))

theorem Op.served (h : Op M c t O s s') :
    (Served s s' ∧ s'.retired = s.retired) ∨ Move c t s s' ∨
      ∃ i j, Candidate s i ∧ j < numInstrSources ∧ (s.rob.entry i).sourceMemory j ≠ 0 ∧
        (s.rob.entry i).sourceAdded j = false ∧ addLoadQueue c i j s = some s' := by
  cases h with
  | tick => exact .inl ⟨.of_eq rfl rfl, rfl⟩
  | call h => exact h.served

theorem LoadBooks.move (h : LoadBooks s) (hp : Pipe c s) (hf : FreshIds s)
    (hm : Move c t s s') : LoadBooks s' := by
  have hids : ∀ p, s.rob.Live p → (s.rob.entry p).instrId < u64Max := fun p hp' =>
    (hp.id_rob hf hp').2
  have hsame : s'.rob = s.rob → s'.lq = s.lq → s'.retired = s.retired → LoadBooks s' :=
    fun hrob hlq hretired => h.served (.of_eq hrob hlq) hids hretired
  cases hm with
  | tick => exact hsame rfl rfl rfl
  | read => exact hsame rfl rfl rfl
  | resume env =>
    unfold resumeFetch
    split
    · exact h.served (.of_eq rfl rfl) hids rfl
    · exact h
  | toDecode => exact hsame rfl rfl rfl
  | toRob hip hroom =>
    have hid := hp.id_decode hf hip
    exact h.push (x := setEventCycle s.cycle _) hp hroom hid.1 hid.2 rfl rfl rfl
  | complete hc =>
    rcases hp.flow.completes hc with rfl | hdone
    · exact h
    · have hrest := hdone.rest
      refine h.served (.of_alike ?_ (by rw [hrest])) hids (by rw [hrest])
      exact (alike_modify (π := loadSide) (f := markCompleted) rfl).trans
        (hdone.shape.comp loadSide)
  | schedule hf' hidle hs =>
    have hsched := hp.flow.schedules hf' hidle hs
    have hrest := hsched.rest
    exact h.served (.of_alike (hsched.rob.comp loadSide) (by rw [hrest])) hids (by rw [hrest])
  | execute hi he =>
    exact h.served (.of_alike (alike_modify (π := loadSide)
      (f := markIssued s.cycle c.execLatency) rfl) rfl) hids rfl
  | addStore hi hj hm ha hbefore hroom hsta hs =>
    obtain ⟨-, rfl⟩ := addStoreQueue_eq hs
    exact h.served (.of_alike (alike_modify (π := loadSide) rfl) rfl) hids rfl
  | memoryScheduled hi hall =>
    rw [memoryScheduled_eq]
    exact h.served (.of_alike (alike_modify (π := loadSide) (f := markMemoryScheduled) rfl) rfl)
      hids rfl
  | retire hip hdone => exact h.pop hp hip rfl rfl rfl

theorem LoadBooks.op (h : LoadBooks s) (hp : Pipe c s) (hf : FreshIds s)
    (hop : Op M c t O s s') : LoadBooks s' := by
  rcases hop.served with ⟨hs, hretired⟩ | hm | ⟨i, j, hi, hj, hm, ha, hs⟩
  · exact h.served hs (fun p hlive => (hp.id_rob hf hlive).2) hretired
  · exact h.move hp hf hm
  · obtain ⟨l, he⟩ := addLoadQueue_entered ha hs
    exact h.entered hp hf (hp.flow.live_candidate hi) hj hm he
      (congrArg Rest.retired (addLoadQueue_quiet hs).rest)

end Run

/-! ## The books of the store queue -/

/-- The entry in slot `k` names its instruction, and that its slot. -/
structure Placed (s : Cpu μ) (k : Nat) : Prop where
  live : s.rob.Live (s.sq.entry k).robIndex
  id : (s.rob.entry (s.sq.entry k).robIndex).instrId = (s.sq.entry k).instrId
  added : (s.rob.entry (s.sq.entry k).robIndex).destinationAdded (s.sq.entry k).dataIndex = true
  slot : (s.rob.entry (s.sq.entry k).robIndex).sqIndex (s.sq.entry k).dataIndex = k

def StoreBooks (s : Cpu μ) : Prop :=
  ∀ k, (s.sq.entry k).virtualAddress ≠ 0 → Placed s k

/-- The part of an instruction that `Placed` is about. -/
def storeSide (x : OooModelInstr) : Nat × (Nat → Bool) × (Nat → Nat) :=
  (x.instrId, x.destinationAdded, x.sqIndex)

section StoreBooks

variable {M : Memory μ} {c : Config} {t : Trace} {O : μ → μ → Prop} {s s' : Cpu μ}

/-- Two entries that differ in their progress name the same instruction. -/
theorem entry_inj {e e' : LsqEntry} (h : untranslated e' = untranslated e) :
    e'.instrId = e.instrId ∧ e'.robIndex = e.robIndex ∧ e'.dataIndex = e.dataIndex ∧
      e'.virtualAddress = e.virtualAddress := by
  have h := h
  simp only [untranslated, LsqEntry.mk.injEq] at h
  simp [h]

theorem Placed.congr {k : Nat} (h : Placed s k)
    (he : untranslated (s'.sq.entry k) = untranslated (s.sq.entry k))
    (hlive : s'.rob.Live (s.sq.entry k).robIndex)
    (hat : storeSide (s'.rob.entry (s.sq.entry k).robIndex) =
      storeSide (s.rob.entry (s.sq.entry k).robIndex)) : Placed s' k := by
  obtain ⟨hid, hrob, hdata, -⟩ := entry_inj he
  simp only [storeSide, Prod.mk.injEq] at hat
  obtain ⟨hinstr, hadded, hslot⟩ := hat
  constructor
  · rw [hrob]
    exact hlive
  · rw [hrob, hid, hinstr]
    exact h.id
  · rw [hrob, hdata, hadded]
    exact h.added
  · rw [hrob, hdata, hslot]
    exact h.slot

theorem StoreBooks.congr (h : StoreBooks s) (hrob : Ring.Alike storeSide s.rob s'.rob)
    (hsq : Ring.Alike untranslated s.sq s'.sq) : StoreBooks s' := by
  intro k hk
  rw [(entry_inj (hsq.entry k)).2.2.2] at hk
  have hplaced := h k hk
  exact hplaced.congr (hsq.entry k) (hrob.live.mpr hplaced.live) (hrob.entry _)

theorem storeBooks_init (mem : μ) : StoreBooks (.init mem) := fun _ hk => absurd rfl hk

theorem StoreBooks.addStore {i j : Nat} (h : StoreBooks s) (hi : s.rob.Live i)
    (ha : (s.rob.entry i).destinationAdded j = false) (hs : addStoreQueue c i j s = some s') :
    StoreBooks s' := by
  obtain ⟨-, rfl⟩ := addStoreQueue_eq hs
  have halike : Ring.Alike (fun _ => ()) s.rob (modify s.rob i (storeAdded j s.sq.tail)) :=
    .of_update rfl
  intro k hk
  by_cases htail : k = s.sq.tail
  · subst htail
    have hentry : (s.sq.push (storeEntry c i j s.cycle (s.rob.entry i)
        (s.sq.entry s.sq.tail))).entry s.sq.tail = _ := Ring.push_entry_tail ..
    constructor
    · simp only [hentry]
      exact halike.live.mpr hi
    · simp only [hentry]
      show ((modify s.rob i _).entry i).instrId = _
      rw [modify_self]
      rfl
    · simp only [hentry]
      show ((modify s.rob i _).entry i).destinationAdded j = true
      rw [modify_self]
      exact Function.update_self ..
    · simp only [hentry]
      show ((modify s.rob i _).entry i).sqIndex j = _
      rw [modify_self]
      exact Function.update_self ..
  · have hentry : (s.sq.push (storeEntry c i j s.cycle (s.rob.entry i)
        (s.sq.entry s.sq.tail))).entry k = s.sq.entry k := Ring.push_entry_ne s.sq _ htail
    simp only [hentry] at hk
    have hplaced := h k hk
    by_cases hother : (s.sq.entry k).robIndex = i
    · -- another store of the same instruction
      have hdata : (s.sq.entry k).dataIndex ≠ j := by
        intro hdata
        have hadded := hplaced.added
        rw [hother, hdata, ha] at hadded
        cases hadded
      have hadded := hplaced.added
      have hslot := hplaced.slot
      have hid := hplaced.id
      rw [hother] at hadded hslot hid
      constructor
      · simp only [hentry]
        exact halike.live.mpr hplaced.live
      · simp only [hentry]
        rw [hother, modify_self]
        exact hid
      · simp only [hentry]
        rw [hother, modify_self]
        exact (Function.update_of_ne hdata ..).trans hadded
      · simp only [hentry]
        rw [hother, modify_self]
        exact (Function.update_of_ne hdata ..).trans hslot
    · refine hplaced.congr (congrArg untranslated hentry) (halike.live.mpr hplaced.live) ?_
      show storeSide ((modify s.rob i _).entry _) = _
      rw [modify_ne hother]

/-- The stores of the instruction that leaves have left with it. -/
theorem StoreBooks.retire (h : StoreBooks s) (hp : Pipe c s) (ho : Occupied c s)
    (hip : (s.rob.entry s.rob.head).ip ≠ 0)
    (hdone : (s.rob.entry s.rob.head).executed = .completed) (mem : μ) :
    StoreBooks (releaseHead c { s with mem := mem }) := by
  have hsplit := ho.retire_stored hp hip hdone mem
  have hnoted := (ho.settled s.rob.head).notedBelow fun a ha =>
    (ho.entries a (hsplit ▸ List.mem_append_left _ ha)).1
  have hpos := hp.window.occupancy_pos (hp.window.live_head hip)
  intro k hk
  have hentry : (releaseHead c { s with mem := mem }).sq.entry k =
      if k ∈ (notedBelow (s.rob.entry s.rob.head) c.maxInstrDestinations).map
        (s.rob.entry s.rob.head).sqIndex then .empty else s.sq.entry k :=
    releaseUpTo_entry ..
  split at hentry
  · rw [hentry] at hk
    exact absurd rfl hk
  · rename_i hnot
    rw [hentry] at hk
    have hplaced := h k hk
    have hhead : (s.sq.entry k).robIndex ≠ s.rob.head := by
      intro hhead
      have hadded := hplaced.added
      have hslot := hplaced.slot
      rw [hhead] at hadded hslot
      have hmem := (ho.settled s.rob.head).added _ hadded
      exact hnot (List.mem_map.mpr ⟨_, hnoted ▸ hmem, hslot⟩)
    refine hplaced.congr (congrArg untranslated hentry) ?_ ?_
    · exact (Ring.live_pop _ hp.window.head_lt hp.window.wf.occ_le hpos).mpr
        ⟨hplaced.live, hhead⟩
    · show storeSide ((s.rob.pop .empty).entry _) = _
      rw [Ring.pop_entry_ne s.rob _ hhead]

theorem StoreBooks.move (h : StoreBooks s) (hp : Pipe c s) (ho : Occupied c s)
    (hm : Move c t s s') : StoreBooks s' := by
  cases hm with
  | tick => exact h.congr (.refl ..) (.refl ..)
  | read => exact h.congr (.refl ..) (.refl ..)
  | resume env =>
    unfold resumeFetch
    split
    · exact h.congr (.refl ..) (.refl ..)
    · exact h
  | toDecode => exact h.congr (.refl ..) (.refl ..)
  | toRob hip hroom =>
    intro k hk
    have hplaced := h k hk
    refine hplaced.congr rfl ((Ring.live_push _ hp.window.wf.tail_eq).mpr (.inl hplaced.live)) ?_
    show storeSide ((s.rob.push _).entry _) = _
    rw [Ring.push_entry_ne s.rob]
    intro htail
    exact hp.window.wf.not_live_tail hroom (htail ▸ hplaced.live)
  | complete hc =>
    rcases hp.flow.completes hc with rfl | hdone
    · exact h
    · have hrest := hdone.rest
      refine h.congr ?_ (by rw [hrest]; exact .refl ..)
      exact (alike_modify (π := storeSide) (f := markCompleted) rfl).trans
        (hdone.shape.comp storeSide)
  | schedule hf hidle hs =>
    have hsched := hp.flow.schedules hf hidle hs
    have hrest := hsched.rest
    exact h.congr (hsched.rob.comp storeSide) (by rw [hrest]; exact .refl ..)
  | execute hi he =>
    exact h.congr (alike_modify (π := storeSide) (f := markIssued s.cycle c.execLatency) rfl)
      (.refl ..)
  | addStore hi hj hm ha hbefore hroom hsta hs =>
    exact h.addStore (hp.flow.live_candidate hi) ha hs
  | memoryScheduled hi hall =>
    rw [memoryScheduled_eq]
    exact h.congr (alike_modify (π := storeSide) (f := markMemoryScheduled) rfl) (.refl ..)
  | retire hip hdone => exact h.retire hp ho hip hdone _

end StoreBooks

/-! ## In every state reached -/

section Reached

variable {M : Memory μ} {c : Config} {t : Trace} {O : μ → μ → Prop} {s s' : Cpu μ}

/-- No step takes back a retired instruction. -/
theorem Move.retired_le (hp : Pipe c s) (hm : Move c t s s') :
    s.retired.length ≤ s'.retired.length := by
  cases hm with
  | tick => exact le_rfl
  | read => exact le_rfl
  | resume env =>
    unfold resumeFetch
    split <;> exact le_rfl
  | toDecode => exact le_rfl
  | toRob => exact le_rfl
  | complete hc =>
    rcases hp.flow.completes hc with rfl | hdone
    · exact le_rfl
    · rw [hdone.rest]
  | schedule hf hidle hs =>
    have hsched := hp.flow.schedules hf hidle hs
    rw [hsched.rest]
  | execute => exact le_rfl
  | addStore hi hj hm ha hbefore hroom hsta hs =>
    obtain ⟨-, rfl⟩ := addStoreQueue_eq hs
    exact le_rfl
  | memoryScheduled => exact le_rfl
  | retire hip hdone =>
    show _ ≤ (s.retired ++ [_]).length
    rw [List.length_append]
    exact Nat.le_add_right ..

/-- The instructions read so far only become more. -/
theorem FreshIds.before (h : FreshIds s') (hp : Pipe c s) (hop : Op M c t O s s') :
    FreshIds s := by
  unfold FreshIds at h ⊢
  rcases hop.move with hq | hm
  · have hlen := congrArg List.length (hq.inFlight stable_original)
    have hretired : s'.retired = s.retired := congrArg Rest.retired hq.rest
    rw [List.length_map, List.length_map] at hlen
    rw [hretired, hlen] at h
    exact h
  · have hle := hm.retired_le hp
    rcases hp.move_original hm with heq | ⟨x, front, -, heq⟩ | ⟨x, heq, hretired⟩
    · have hlen := congrArg List.length heq
      rw [List.length_map, List.length_map] at hlen
      omega
    · have hlen := congrArg List.length heq
      rw [List.length_append, List.length_map, List.length_map, List.length_singleton] at hlen
      omega
    · rw [heq, List.length_cons]
      omega

theorem reaches_books (h : Reaches M c t O s) (hf : FreshIds s) :
    Pipe c s ∧ LoadBooks s ∧ StoreBooks s := by
  have hall : (Pipe c s ∧ Occupied c s) ∧ (FreshIds s → LoadBooks s) ∧ StoreBooks s := by
    refine h.invariant
      (I := fun s => (Pipe c s ∧ Occupied c s) ∧ (FreshIds s → LoadBooks s) ∧ StoreBooks s)
      (fun mem => ⟨⟨pipe_init mem, .init mem⟩, fun _ => loadBooks_init mem, storeBooks_init mem⟩) ?_
    rintro s s' ⟨⟨hp, ho⟩, hloads, hstores⟩ hop
    have hnext : FreshIds s' → LoadBooks s' := fun hf' =>
      have hf := hf'.before hp hop
      (hloads hf).op hp hf hop
    rcases hop.move with hq | hm
    · exact ⟨⟨hp.quiet hq, ho.quiet hq⟩, hnext, hstores.congr (hq.rob.comp storeSide) hq.sq⟩
    · exact ⟨⟨hp.move hm, ho.move hp hm⟩, hnext, hstores.move hp ho hm⟩
  exact ⟨hall.1.1, hall.2.1 hf, hall.2.2⟩

end Reached

end O3
end ChampSim
