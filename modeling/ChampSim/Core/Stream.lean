import ChampSim.Core.Order

/-!
# ChampSim.Core.Stream

The instructions that `read_from_trace` hands to the fetch buffer, against the records of the trace.

* `stream t k`    — the trace, repeated without end.
* `readLoop_contents` — what a run hands over is what the buffer gains.
* `Cursor t k s`  — the lookahead after `k` of them.
* `delivered`     — the `k`-th: the record before the one read last, but for the first.
* `HandsOver`     — the instructions are the records, and a taken branch goes to the next one.
* `handed_over_iff` — that holds of a run only while the records do not differ.
-/

namespace ChampSim
namespace Core

open Lib

variable {c : Config} {t : Trace} {env : CycleEnv} {s s' : State} {k : Nat}

def stream (t : Trace) (k : Nat) : InputInstr := t.records.getD (k % t.records.length) .empty

/-! ## The fetch buffer -/

/-- An instruction without the marks that it gets on entering the buffer. -/
def unentered (x : OooModelInstr) : OooModelInstr :=
  { x with
    eventCycle := 0
    instructionPa := 0
    translated := .idle
    fetched := .idle
    branchMispredicted := false }

theorem predict_contents (env : CycleEnv) (index instrsToRead : Nat) (s : State) :
    Ring.Alike unentered s.ifetchBuffer (predict env index instrsToRead s).2.ifetchBuffer := by
  unfold predict
  dsimp only
  split
  · exact .refl ..
  · split
    · split
      · exact .of_update rfl
      · exact .refl ..
    · split
      · exact .refl ..
      · exact .refl ..

theorem readRecord_ifetch {x : OooModelInstr} (h : readRecord c t s = some (x, s')) :
    s'.ifetchBuffer = s.ifetchBuffer := by
  obtain ⟨r, -, hx⟩ := Option.map_eq_some_iff.mp h
  split at hx
  · rw [← (Prod.mk.inj hx).2]
  · rw [← (Prod.mk.inj hx).2]

theorem addToIfetchBuffer_eq {r r' : Lib.Ring OooModelInstr} {x : OooModelInstr}
    (h : addToIfetchBuffer env r x = some r') : r' = r.push (ifetchEntry env x) := by
  unfold addToIfetchBuffer addToRing at h
  split at h
  · cases h
  · exact (Option.some.inj h).symm

/-- The instructions handed over are those that the buffer gains. -/
theorem readLoop_contents (fuel : Nat) :
    ∀ (numReads instrsToRead : Nat) (s : State), Ring.Wf OooModelInstr.Empty s.ifetchBuffer →
      readLoop c t env fuel numReads instrsToRead s = some s' →
      s'.ifetchBuffer.contents.map unentered = s.ifetchBuffer.contents.map unentered ++
        (handedLoop c t env fuel numReads instrsToRead s).map unentered := by
  induction fuel with
  | zero =>
    intro numReads instrsToRead s _ hs
    cases hs
  | succ fuel ih =>
    intro numReads instrsToRead s hwf hs
    unfold readLoop at hs
    unfold handedLoop
    cases hr : readRecord c t s with
    | none =>
      rw [hr] at hs
      exact ih numReads instrsToRead { s with filePos := 0 } hwf hs
    | some xs =>
      obtain ⟨x, s₁⟩ := xs
      have hbuf := readRecord_ifetch hr
      rw [hr] at hs
      simp only at hs ⊢
      rw [← hbuf] at hwf ⊢
      by_cases hroom : s₁.ifetchBuffer.occupancy < s₁.ifetchBuffer.size
      · simp only [hroom, if_true] at hs ⊢
        cases hadd : addToIfetchBuffer env s₁.ifetchBuffer x with
        | none =>
          rw [hadd] at hs
          cases hs
        | some r =>
          have hr := addToIfetchBuffer_eq hadd
          have hp := predict_contents env s₁.ifetchBuffer.tail instrsToRead
            { s₁ with ifetchBuffer := r }
          rw [hadd, Option.bind_some] at hs
          simp only at hs ⊢
          generalize predict env s₁.ifetchBuffer.tail instrsToRead
            { s₁ with ifetchBuffer := r } = p at hp hs ⊢
          have hgain : p.2.ifetchBuffer.contents.map unentered =
              s₁.ifetchBuffer.contents.map unentered ++ [unentered x] := by
            rw [hp.contents]
            show r.contents.map unentered = _
            rw [hr, Ring.push_contents hwf hroom, List.map_append]
            rfl
          have hwf' : Ring.Wf OooModelInstr.Empty p.2.ifetchBuffer := by
            refine hp.wf (fun y z hyz hz => ?_) (show Ring.Wf _ r from hr ▸ hwf.push hroom _)
            obtain ⟨hid, hip⟩ := hz
            exact ⟨(congrArg OooModelInstr.instrId hyz).trans hid,
              (congrArg OooModelInstr.ip hyz).trans hip⟩
          rw [List.map_cons]
          split at hs
          · cases hs
            rename_i hstop
            rw [if_pos hstop]
            exact hgain
          · rename_i hgo
            rw [if_neg hgo, ih (numReads + 1) p.1
              { p.2 with instrUniqueId := add64 p.2.instrUniqueId 1 } hwf' hs]
            show p.2.ifetchBuffer.contents.map unentered ++ _ = _
            rw [hgain, List.append_assoc]
            rfl
      · simp only [hroom, if_false] at hs ⊢
        exact ih numReads instrsToRead { s₁ with instrUniqueId := add64 s₁.instrUniqueId 1 } hwf hs

/-! ## Records and instructions -/

/-- What an instruction takes from its own record. -/
def OooModelInstr.body (x : OooModelInstr) : OooModelInstr :=
  { x with instrId := 0, branchTarget := 0 }

def recordBody (c : Config) (r : InputInstr) : OooModelInstr :=
  (ofStandard c.maxInstrDestinations c.cpu 0 r r).body

def TakenBranch (x : OooModelInstr) : Prop := x.isBranch = 1 ∧ x.branchTaken = 1

instance TakenBranch.decidable (x : OooModelInstr) : Decidable (TakenBranch x) :=
  inferInstanceAs (Decidable (_ ∧ _))

structure HandsOver (c : Config) (t : Trace) (log : List OooModelInstr) : Prop where
  record : ∀ k x, log[k]? = some x → x.body = recordBody c (stream t k)
  target : ∀ k x, log[k]? = some x → TakenBranch x → x.branchTarget = (stream t (k + 1)).ip

/-- The first `n` records are the same, but where the ids start over, and a taken branch among them
is followed by a record at its own address. -/
def Uniform (c : Config) (t : Trace) (n : Nat) : Prop :=
  ∀ k < n, (k % 2 ^ 64 ≠ 0 → recordBody c (stream t (k - 1)) = recordBody c (stream t k)) ∧
    (TakenBranch (recordBody c (stream t k)) → (stream t k).ip = (stream t (k + 1)).ip)

/-! ## The lookahead -/

structure Cursor (t : Trace) (k : Nat) (s : State) : Prop where
  uniqueId : s.instrUniqueId = k % 2 ^ 64
  pos_le : s.filePos ≤ t.records.length
  pos : s.filePos % t.records.length = k % t.records.length
  next : k ≠ 0 → s.nextInstr = stream t (k - 1)

def delivered (c : Config) (t : Trace) (k : Nat) : OooModelInstr :=
  ofStandard c.maxInstrDestinations c.cpu (k % 2 ^ 64)
    (if k % 2 ^ 64 = 0 then stream t k else stream t (k - 1)) (stream t k)

def cursor (s : State) : Nat × Nat × InputInstr := (s.instrUniqueId, s.filePos, s.nextInstr)

theorem Cursor.congr (h : Cursor t k s) (hs : cursor s' = cursor s) : Cursor t k s' := by
  obtain ⟨hid, hpos, hnext⟩ : _ ∧ _ ∧ _ := by simpa [cursor] using hs
  exact ⟨hid ▸ h.uniqueId, hpos ▸ h.pos_le, hpos ▸ h.pos, hnext ▸ h.next⟩

theorem Cursor.restart (h : Cursor t k s) (hend : readRecord c t s = none) :
    Cursor t k { s with filePos := 0 } := by
  have hfull : s.filePos = t.records.length := by
    have hle : t.records.length ≤ s.filePos := by simpa [readRecord] using hend
    exact Nat.le_antisymm h.pos_le hle
  refine ⟨h.uniqueId, Nat.zero_le _, ?_, h.next⟩
  rw [← h.pos, hfull, Nat.mod_self, Nat.zero_mod]

theorem Cursor.read {x : OooModelInstr} (h : Cursor t k s) (hstandard : c.knobCloudsuite = false)
    (hr : readRecord c t s = some (x, s')) :
    x = delivered c t k ∧ s'.ifetchBuffer = s.ifetchBuffer ∧
      Cursor t (k + 1) { s' with instrUniqueId := add64 s'.instrUniqueId 1 } := by
  obtain ⟨r, hget, hx⟩ := Option.map_eq_some_iff.mp hr
  obtain ⟨hlt, hrec⟩ := List.getElem?_eq_some_iff.mp hget
  rw [hstandard, if_neg Bool.false_ne_true] at hx
  obtain ⟨rfl, rfl⟩ := Prod.mk.inj hx
  have hpos := h.pos
  rw [Nat.mod_eq_of_lt hlt] at hpos
  have hstream : stream t k = r := by
    rw [stream, ← hpos, List.getD_eq_getElem?_getD, hget]
    rfl
  refine ⟨?_, rfl, ?_, hlt, ?_, fun _ => hstream.symm⟩
  · rw [delivered, hstream, h.uniqueId]
    by_cases h0 : k % 2 ^ 64 = 0
    · simp only [h0, if_true]
    · simp only [h0, if_false]
      rw [h.next fun hk => h0 (by rw [hk, Nat.zero_mod])]
  · show add64 s.instrUniqueId 1 = _
    rw [h.uniqueId, add64]
    omega
  · show (s.filePos + 1) % _ = _
    rw [hpos, Nat.mod_add_mod]

theorem predict_cursor (env : CycleEnv) (index instrsToRead : Nat) (s : State) :
    cursor (predict env index instrsToRead s).2 = cursor s ∧
      (predict env index instrsToRead s).2.ifetchBuffer.occupancy = s.ifetchBuffer.occupancy ∧
      (predict env index instrsToRead s).2.ifetchBuffer.size = s.ifetchBuffer.size := by
  unfold predict
  dsimp only
  split
  · exact ⟨rfl, rfl, rfl⟩
  · split
    · split
      · exact ⟨rfl, rfl, rfl⟩
      · exact ⟨rfl, rfl, rfl⟩
    · split
      · exact ⟨rfl, rfl, rfl⟩
      · exact ⟨rfl, rfl, rfl⟩

/-- `log` is the next part of the stream, and leads to the result `o`. -/
structure Streams (c : Config) (t : Trace) (k : Nat) (log : List OooModelInstr)
    (o : Option State) : Prop where
  entries : log = (List.range' k log.length).map (delivered c t)
  cursor : ∀ s', o = some s' → Cursor t (k + log.length) s'

theorem Streams.cons {log : List OooModelInstr} {o : Option State}
    (h : Streams c t (k + 1) log o) : Streams c t k (delivered c t k :: log) o where
  entries := by
    rw [List.length_cons, List.range'_succ, List.map_cons, ← h.entries]
  cursor := by
    intro s' hs'
    have hc := h.cursor s' hs'
    rwa [Nat.add_right_comm] at hc

/-- The next part of the stream follows. -/
theorem Streams.append {log log' : List OooModelInstr} {o : Option State}
    (h : Streams c t k log (some s)) (h' : Streams c t (k + log.length) log' o) :
    Streams c t k (log ++ log') o where
  entries := by
    rw [List.length_append, ← List.range'_append_1, List.map_append, ← h.entries, ← h'.entries]
  cursor := by
    intro s' hs'
    rw [List.length_append, ← Nat.add_assoc]
    exact h'.cursor s' hs'

theorem readLoop_streams (hstandard : c.knobCloudsuite = false) (fuel : Nat) :
    ∀ (numReads instrsToRead k : Nat) (s : State), Cursor t k s →
      s.ifetchBuffer.occupancy < s.ifetchBuffer.size →
      Streams c t k (handedLoop c t env fuel numReads instrsToRead s)
        (readLoop c t env fuel numReads instrsToRead s) := by
  induction fuel with
  | zero =>
    intro numReads instrsToRead k s _ _
    exact ⟨rfl, fun s' hs' => by cases hs'⟩
  | succ fuel ih =>
    intro numReads instrsToRead k s h hroom
    unfold handedLoop readLoop
    cases hr : readRecord c t s with
    | none => exact ih numReads instrsToRead k _ (h.restart hr) hroom
    | some xs =>
      obtain ⟨x, s₁⟩ := xs
      obtain ⟨rfl, hbuf, h₁⟩ := h.read hstandard hr
      have hroom₁ : s₁.ifetchBuffer.occupancy < s₁.ifetchBuffer.size := hbuf ▸ hroom
      simp only [hroom₁, if_true]
      cases hadd : addToIfetchBuffer env s₁.ifetchBuffer (delivered c t k) with
      | none => exact ⟨rfl, fun s' hs' => by cases hs'⟩
      | some r =>
        obtain ⟨hocc, hsize⟩ : r.occupancy = s₁.ifetchBuffer.occupancy + 1 ∧
            r.size = s₁.ifetchBuffer.size := by
          rw [addToIfetchBuffer_eq hadd]
          exact ⟨rfl, rfl⟩
        have hp := predict_cursor env s₁.ifetchBuffer.tail instrsToRead
          { s₁ with ifetchBuffer := r }
        simp only [Option.bind_some]
        generalize predict env s₁.ifetchBuffer.tail instrsToRead
          { s₁ with ifetchBuffer := r } = p at hp
        obtain ⟨hcursor, hocc', hsize'⟩ := hp
        have h₂ : Cursor t (k + 1) { p.2 with instrUniqueId := add64 p.2.instrUniqueId 1 } := by
          obtain ⟨hid, hpos, hnext⟩ : _ ∧ _ ∧ _ := by simpa [cursor] using hcursor
          refine h₁.congr ?_
          simp only [cursor, hid, hpos, hnext]
        refine Streams.cons ?_
        split
        · exact ⟨rfl, fun s' hs' => by cases hs'; exact h₂⟩
        · rename_i hgo
          refine ih (numReads + 1) p.1 (k + 1) _ h₂ ?_
          obtain ⟨-, hnot⟩ := not_or.mp hgo
          have hnot : p.2.ifetchBuffer.occupancy ≠ p.2.ifetchBuffer.size := hnot
          show p.2.ifetchBuffer.occupancy < p.2.ifetchBuffer.size
          rw [hocc', hsize'] at hnot ⊢
          have hle : r.occupancy ≤ r.size := by omega
          exact Nat.lt_of_le_of_ne hle hnot

/-! ## The other stages -/

theorem retireLoop_cursor (n : Nat) : ∀ s, cursor (retireLoop c env n s) = cursor s := by
  induction n with
  | zero => exact fun _ => rfl
  | succ n ih =>
    intro s
    simp only [retireLoop]
    split
    · rfl
    · split
      · rfl
      · split
        · rfl
        · exact ih _

theorem dispatchLoop_cursor (n : Nat) :
    ∀ (count : Nat) (s : State), Ends False (fun s' => cursor s' = cursor s)
      (dispatchLoop env n count s) := by
  induction n with
  | zero => exact fun _ _ => rfl
  | succ n ih =>
    intro count s
    simp only [dispatchLoop]
    split
    · rfl
    · split
      · refine (Ends.intro (Q := fun _ => True) fun _ _ => trivial).bind fun r _ => ?_
        split
        · rfl
        · exact ih _ _
      · rfl

theorem sendToDecode_cursor (n : Nat) :
    ∀ s : State, Ends False (fun s' => cursor s' = cursor s) (sendToDecode env n s) := by
  induction n with
  | zero => exact fun _ => rfl
  | succ n ih =>
    intro s
    simp only [sendToDecode]
    split
    · rfl
    · split
      · split
        · refine (Ends.intro (Q := fun _ => True) fun _ _ => trivial).bind fun r _ => ?_
          exact ih _
        · rfl
      · exact ih s

theorem resumeFetch_cursor (env : CycleEnv) (s : State) :
    cursor (resumeFetch env s) = cursor s := by
  unfold resumeFetch
  split
  · rfl
  · rfl

theorem perform_cursor {stage : Stage} (hstage : stage ≠ .read) (s : State) :
    Ends False (fun s' => cursor s' = cursor s) (stage.perform c t env s) := by
  cases stage with
  | retire =>
    simp only [Stage.perform]
    split
    · exact retireLoop_cursor retireWidth s
    · rfl
  | outOfOrder => rfl
  | decode =>
    simp only [Stage.perform]
    split
    · exact (dispatchLoop_cursor _ 0 s).map fun s' hs' => hs'
    · rfl
  | fetch =>
    simp only [Stage.perform, fetchInstruction]
    split
    · exact resumeFetch_cursor env s
    · exact (sendToDecode_cursor decodeWidth _).mono fun s' hs' =>
        hs'.trans (resumeFetch_cursor env s)
  | read => exact absurd rfl hstage

theorem beforeRead_cursor (h : Cursor t k s)
    (hs : run (Stage.perform c t env) s beforeRead = some s') : Cursor t k s' := by
  refine run_invariant (I := Cursor t k) (P := fun _ stage => stage ≠ .read)
    (fun s stage s' hI hstage hs => hI.congr ((perform_cursor hstage s).of_eq hs)) h ?_ hs
  exact along_of_forall (A := fun stage => stage ≠ Stage.read) (by decide) s

/-! ## Runs -/

theorem handedCycle_streams (env : CycleEnv) (hstandard : c.knobCloudsuite = false)
    (h : Cursor t k s) :
    Streams c t k (handedCycle c t s env) (cycle c t s env) := by
  unfold handedCycle cycle
  split
  · exact ⟨rfl, fun s' hs' => by cases hs'; exact h⟩
  · rw [show stages = beforeRead ++ [.read] from rfl, run_append]
    cases hs : run (Stage.perform c t env) s beforeRead with
    | none => exact ⟨rfl, fun s' hs' => by cases hs'⟩
    | some s₁ =>
      have h₁ := beforeRead_cursor h hs
      simp only [Option.bind_some, run_singleton, Stage.perform]
      split
      · rename_i hread
        exact readLoop_streams hstandard _ 0 fetchWidth k s₁ h₁ hread.1
      · exact ⟨rfl, fun s' hs' => by cases hs'; exact h₁⟩

theorem handedRun_streams (hstandard : c.knobCloudsuite = false) (envs : List CycleEnv) :
    ∀ {k : Nat} {s : State}, Cursor t k s →
      Streams c t k (handedRun c t s envs) (run (cycle c t) s envs) := by
  induction envs with
  | nil => exact fun h => ⟨rfl, fun s' hs' => by cases hs'; exact h⟩
  | cons env envs ih =>
    intro k s h
    have hcycle := handedCycle_streams env hstandard h
    unfold handedRun
    cases hs : cycle c t s env with
    | none =>
      rw [run_cons_none hs, List.append_nil]
      exact ⟨hcycle.entries, fun s' hs' => by cases hs'⟩
    | some s₁ =>
      rw [hs] at hcycle
      rw [run_cons_some hs]
      exact hcycle.append (ih (hcycle.cursor s₁ rfl))

theorem init_cursor (t : Trace) : Cursor t 0 State.init where
  uniqueId := rfl
  pos_le := Nat.zero_le _
  pos := rfl
  next := fun h => absurd rfl h

/-- The run hands over the stream with a delay of one. -/
theorem getElem?_handedRun {x : OooModelInstr} (hstandard : c.knobCloudsuite = false)
    (envs : List CycleEnv) :
    (handedRun c t State.init envs)[k]? = some x ↔
      k < (handedRun c t State.init envs).length ∧ x = delivered c t k := by
  have hentries := (handedRun_streams (c := c) hstandard envs (init_cursor t)).entries
  generalize handedRun c t State.init envs = log at hentries
  have hget : log[k]? = ((List.range' 0 log.length).map (delivered c t))[k]? :=
    congrArg (·[k]?) hentries
  rw [hget, List.getElem?_map, Option.map_eq_some_iff]
  constructor
  · rintro ⟨m, hm, rfl⟩
    obtain ⟨hlt, hm⟩ := List.getElem?_eq_some_iff.mp hm
    rw [List.getElem_range', Nat.zero_add, Nat.one_mul] at hm
    rw [List.length_range'] at hlt
    exact ⟨hlt, by rw [hm]⟩
  · rintro ⟨hlt, rfl⟩
    exact ⟨k, by simp [hlt], rfl⟩

theorem body_delivered (k : Nat) : (delivered c t k).body =
    recordBody c (if k % 2 ^ 64 = 0 then stream t k else stream t (k - 1)) := rfl

theorem target_delivered (hk : TakenBranch (delivered c t k)) :
    (delivered c t k).branchTarget = (stream t k).ip := if_pos hk

theorem handed_over_iff (hstandard : c.knobCloudsuite = false) (envs : List CycleEnv) :
    HandsOver c t (handedRun c t State.init envs) ↔
      Uniform c t (handedRun c t State.init envs).length := by
  have hget : ∀ {k x}, (handedRun c t State.init envs)[k]? = some x ↔
      k < (handedRun c t State.init envs).length ∧ x = delivered c t k :=
    getElem?_handedRun hstandard envs
  constructor
  · intro h k hk
    have hrecord := h.record k _ (hget.mpr ⟨hk, rfl⟩)
    refine ⟨fun h0 => ?_, fun htaken => ?_⟩
    · rw [body_delivered, if_neg h0] at hrecord
      exact hrecord
    · have htaken' : TakenBranch (delivered c t k) := by
        rw [← hrecord] at htaken
        exact htaken
      rw [← target_delivered htaken']
      exact h.target k _ (hget.mpr ⟨hk, rfl⟩) htaken'
  · intro h
    have hrecord : ∀ k < (handedRun c t State.init envs).length,
        (delivered c t k).body = recordBody c (stream t k) := by
      intro k hk
      rw [body_delivered]
      split
      · rfl
      · rename_i h0
        exact (h k hk).1 h0
    refine ⟨fun k x hx => ?_, fun k x hx htaken => ?_⟩
    · obtain ⟨hk, rfl⟩ := hget.mp hx
      exact hrecord k hk
    · obtain ⟨hk, rfl⟩ := hget.mp hx
      have htaken' : TakenBranch (recordBody c (stream t k)) := by
        rw [← hrecord k hk]
        exact htaken
      rw [target_delivered htaken]
      exact (h k hk).2 htaken'

/-! ## Two records -/

/-- A run of `n` cycles in which all goes well. -/
def plainRun (t : Trace) (n : Nat) : List OooModelInstr :=
  handedRun ⟨false, 0, 0, 2⟩ t State.init (List.replicate n quietCycle)

def twoRecords (ip : Nat) : Trace :=
  ⟨[{ InputInstr.empty with ip := 4096 }, { InputInstr.empty with ip := ip }], by simp⟩

/-- The second instruction is the first record again. -/
theorem record_repeated : (plainRun (twoRecords 4100) 1).map (·.ip) =
      [4096, 4096, 4100, 4096, 4100, 4096] ∧
    ¬ HandsOver ⟨false, 0, 0, 2⟩ (twoRecords 4100) (plainRun (twoRecords 4100) 1) := by
  have hlog : (plainRun (twoRecords 4100) 1).map (·.ip) =
      [4096, 4096, 4100, 4096, 4100, 4096] := by decide +kernel
  refine ⟨hlog, fun h => ?_⟩
  have hip : ((plainRun (twoRecords 4100) 1)[1]?).map (·.ip) = some 4096 := by
    rw [← List.getElem?_map, hlog]
    rfl
  obtain ⟨x, hx, hip⟩ := Option.map_eq_some_iff.mp hip
  have hbody := congrArg OooModelInstr.ip (h.record 1 x hx)
  rw [show x.body.ip = 4096 from hip] at hbody
  exact absurd hbody (by decide)

/-- Two records alike, neither of them a branch. -/
theorem handed_over_alike : (plainRun (twoRecords 4096) 1).length = 6 ∧
    HandsOver ⟨false, 0, 0, 2⟩ (twoRecords 4096) (plainRun (twoRecords 4096) 1) := by
  have hstream : ∀ k, stream (twoRecords 4096) k = { InputInstr.empty with ip := 4096 } := by
    intro k
    have hk : k % (twoRecords 4096).records.length < 2 := Nat.mod_lt _ (by decide)
    unfold stream
    rcases Nat.lt_succ_iff_lt_or_eq.mp hk with h0 | h1
    · rw [Nat.lt_one_iff.mp h0]
      rfl
    · rw [h1]
      rfl
  refine ⟨by decide +kernel, (handed_over_iff (c := ⟨false, 0, 0, 2⟩) rfl _).mpr fun k _ => ?_⟩
  rw [hstream, hstream, hstream]
  exact ⟨fun _ => rfl, fun _ => rfl⟩

end Core
end ChampSim
