import ChampSim.CodeInfo.Past
import Mathlib.Data.List.ReduceOption

/-!
# ChampSim.CodeInfo.Informer

The query interface of `src/codeinfo/code_informer.cc`: one `code_info` for each information type,
the result buffers that all queries share, and the queries that wait for their trigger to retire.

* `iseqRun`       — the recursive template `iseq_run`, a call for each place of a tuple.
* `Informer`      — `acceptQuery` and `handleRetire`, which returns the callback it runs.
* `Ledger`        — what should be delivered: every query ever accepted, every retired instruction.

A callback may submit queries of its own; `submits` says which. `deliveries_eq` shows that the two
deliver the same.
-/

namespace ChampSim
namespace CodeInfo

section Informer

/-! ## Tuples -/

/-- The constructor of `iseq_run<F, k>` runs that of `iseq_run<F, k - 1>` first. -/
def iseqRun {n : Nat} {S : Type*} (F : Fin n → S → S) : (k : Nat) → k ≤ n → S → S
  | 0, _, s => s
  | k + 1, h, s => F ⟨k, h⟩ (iseqRun F k (Nat.le_of_succ_le h) s)

/-- Calls that each change one place of a tuple change every place once. -/
theorem iseqRun_view {n : Nat} {S : Type*} {γ : Fin n → Type*} (F : Fin n → S → S)
    (view : S → ∀ i, γ i) (g : ∀ i, γ i → γ i)
    (hF : ∀ i s, view (F i s) = Function.update (view s) i (g i (view s i)))
    (k : Nat) (h : k ≤ n) (s : S) (i : Fin n) :
    view (iseqRun F k h s) i = if i.val < k then g i (view s i) else view s i := by
  induction k with
  | zero => simp [iseqRun]
  | succ k ih =>
    rw [iseqRun, hF]
    by_cases hi : i = ⟨k, h⟩
    · have hlt : i.val < k + 1 := by simp [hi]
      have hk : ¬i.val < k := by simp [hi]
      rw [if_pos hlt, hi, Function.update_self, ← hi, ih (Nat.le_of_succ_le h), if_neg hk]
    · have hval : i.val ≠ k := fun heq => hi (Fin.ext heq)
      rw [Function.update_of_ne hi, ih (Nat.le_of_succ_le h)]
      have hiff : i.val < k + 1 ↔ i.val < k := by omega
      simp only [hiff]

theorem iseqRun_all {n : Nat} {S : Type*} {γ : Fin n → Type*} (F : Fin n → S → S)
    (view : S → ∀ i, γ i) (g : ∀ i, γ i → γ i)
    (hF : ∀ i s, view (F i s) = Function.update (view s) i (g i (view s i))) (s : S) :
    view (iseqRun F n le_rfl s) = fun i => g i (view s i) := by
  funext i
  rw [iseqRun_view F view g hF, if_pos i.isLt]

variable {φ α κ : Type*} {n : Nat} {ρ σ : Fin n → Type*}

/-! ## The informer -/

/-- A query; `cb` names the callback. -/
structure Query (κ : Type*) where
  trigger : UInt64
  iids : List UInt64
  cb : κ
deriving DecidableEq

structure Informer (κ : Type*) (ρ σ : Fin n → Type*) where
  results : ∀ i, List (ρ i)
  infos : ∀ i, Info (ρ i) (σ i)
  todo : UInt64 → Option (Query κ)

/-- A callback that has run: at which retirement, and on what. -/
structure Delivery (κ : Type*) (ρ : Fin n → Type*) where
  trigger : UInt64
  cb : κ
  results : ∀ i, List (ρ i)

variable (I : ∀ i, Impl φ α (ρ i) (σ i)) (getLlvmInstrs : UInt64 → InstRange φ)
  (submits : κ → (∀ i, List (ρ i)) → List (Query κ))

/-- `code_informer` as constructed; the buffers are empty. -/
def Informer.new : Informer κ ρ σ := ⟨fun _ => [], fun i => .new (I i), fun _ => none⟩

def Informer.acceptQuery (s : Informer κ ρ σ) (q : Query κ) : Informer κ ρ σ :=
  { s with todo := Function.update s.todo q.trigger (some q) }

def updateInfos (x : Retired α) (i : Fin n) (infos : ∀ i, Info (ρ i) (σ i)) :
    ∀ i, Info (ρ i) (σ i) :=
  Function.update infos i ((infos i).update (I i) (getLlvmInstrs x.ip) x)

/-- `std::vector::resize`. -/
def resize {β : Type*} (len : Nat) (d : β) (l : List β) : List β :=
  l.take len ++ List.replicate (len - l.length) d

section Buffer

variable {ρ σ : Type*} (I : Impl φ α ρ σ)

/-- The loop over `iids`, from `loop_ctr` on. -/
def fillFrom (loopCtr : Nat) : List UInt64 → Info ρ σ × List ρ → Info ρ σ × List ρ
  | [], s => s
  | iid :: iids, (ci, buf) =>
    let (r, ci) := ci.queryPast I iid
    fillFrom (loopCtr + 1) iids (ci, buf.set (1 + loopCtr) r)

def fillBuffer (iids : List UInt64) (instrId : UInt64) (ci : Info ρ σ) (buf : List ρ) :
    Info ρ σ × List ρ :=
  let buf := resize (1 + iids.length) I.default buf
  let (r, ci) := ci.queryPast I instrId
  fillFrom I 0 iids (ci, buf.set 0 r)

end Buffer

def updateResults (iids : List UInt64) (x : Retired α) (i : Fin n)
    (s : (∀ i, Info (ρ i) (σ i)) × (∀ i, List (ρ i))) :
    (∀ i, Info (ρ i) (σ i)) × (∀ i, List (ρ i)) :=
  let (ci, buf) := fillBuffer (I i) iids x.instrId (s.1 i) (s.2 i)
  (Function.update s.1 i ci, Function.update s.2 i buf)

/-- `handle_retire`, and the callback it runs. -/
def Informer.handleRetire (s : Informer κ ρ σ) (x : Retired α) :
    Option (Delivery κ ρ) × Informer κ ρ σ :=
  let infos := iseqRun (updateInfos I getLlvmInstrs x) n le_rfl s.infos
  match s.todo x.instrId with
  | none => (none, { s with infos := infos })
  | some q =>
    let (infos, results) := iseqRun (updateResults I q.iids x) n le_rfl (infos, s.results)
    let called := (submits q.cb results).foldl Informer.acceptQuery ⟨results, infos, s.todo⟩
    (some ⟨x.instrId, q.cb, results⟩,
      { called with todo := Function.update called.todo x.instrId none })

inductive Event (α κ : Type*) where
  | accept (q : Query κ)
  | retire (x : Retired α)

def Informer.step (s : Informer κ ρ σ) : Event α κ → Option (Delivery κ ρ) × Informer κ ρ σ
  | .accept q => (none, s.acceptQuery q)
  | .retire x => s.handleRetire I getLlvmInstrs submits x

/-- The callbacks run along a sequence of events, one place for each event. -/
def Informer.deliveries (s : Informer κ ρ σ) : List (Event α κ) → List (Option (Delivery κ ρ))
  | [] => []
  | ev :: evs =>
    (s.step I getLlvmInstrs submits ev).1 ::
      (s.step I getLlvmInstrs submits ev).2.deliveries evs

def retiredIds : List (Event α κ) → List UInt64
  | [] => []
  | .accept _ :: evs => retiredIds evs
  | .retire x :: evs => x.instrId :: retiredIds evs

/-! ## What should be delivered -/

/-- Everything accepted so far and everything retired so far, in order. -/
structure Ledger (α κ : Type*) where
  accepted : List (Query κ)
  retired : List (Retired α)

def Ledger.new : Ledger α κ := ⟨[], []⟩

/-- The last query accepted for `t`. -/
def Ledger.lastFor (l : Ledger α κ) (t : UInt64) : Option (Query κ) :=
  (l.accepted.filter fun q => q.trigger = t).getLast?

/-- What `query_past` says of `ids` once the instructions `xs` have been given to `update`. -/
def answers (xs : List (Retired α)) (ids : List UInt64) (i : Fin n) : List (ρ i) :=
  ids.map fun iid =>
    (((Info.new (I i)).run (I i) getLlvmInstrs (xs.map .update)).queryPast (I i) iid).1

/-- At the retirement of `x` the last query accepted for it is answered, after the update of `x`,
with one result for `x` and one for each of its ids. -/
def Ledger.step (l : Ledger α κ) : Event α κ → Option (Delivery κ ρ) × Ledger α κ
  | .accept q => (none, { l with accepted := l.accepted ++ [q] })
  | .retire x =>
    let retired := l.retired ++ [x]
    match l.lastFor x.instrId with
    | none => (none, ⟨l.accepted, retired⟩)
    | some q =>
      let results := answers I getLlvmInstrs retired (x.instrId :: q.iids)
      (some ⟨x.instrId, q.cb, results⟩, ⟨l.accepted ++ submits q.cb results, retired⟩)

def Ledger.deliveries (l : Ledger α κ) : List (Event α κ) → List (Option (Delivery κ ρ))
  | [] => []
  | ev :: evs =>
    (l.step I getLlvmInstrs submits ev).1 ::
      (l.step I getLlvmInstrs submits ev).2.deliveries evs

/-! ## Buffers -/

section Buffer

variable {ρ σ : Type*} (I : Impl φ α ρ σ)

/-- Two infos that answer every lookup alike, now and after the same updates. -/
structure Info.Same (ci ci' : Info ρ σ) : Prop where
  lookup : ci.lookup I = ci'.lookup I
  pastIp : ci.pastIp = ci'.pastIp
  impl : ci.impl = ci'.impl

variable {I}

theorem Info.Same.queryPast {ci ci' : Info ρ σ} (h : ci.Same I ci') (iid : UInt64) :
    (ci.queryPast I iid).2.Same I ci' := by
  obtain ⟨hlookup, hip, himpl⟩ := queryPast_snd I ci iid
  exact ⟨hlookup.trans h.lookup, hip.trans h.pastIp, himpl.trans h.impl⟩

theorem Info.Same.update {ci ci' : Info ρ σ} (h : ci.Same I ci') (r : InstRange φ)
    (x : Retired α) : (ci.update I r x).Same I (ci'.update I r x) := by
  by_cases hne : x.ip = ci.pastIp
  · rw [update_repeat I hne, update_repeat I (hne.trans h.pastIp)]
    exact h
  · have hne' : x.ip ≠ ci'.pastIp := by rwa [← h.pastIp]
    refine ⟨?_, ?_, ?_⟩
    · rw [lookup_update I hne, lookup_update I hne', h.lookup, h.impl]
    · rw [update_pastIp I hne, update_pastIp I hne']
    · rw [update_impl I hne, update_impl I hne', h.impl]

theorem length_resize {β : Type*} (len : Nat) (d : β) (l : List β) :
    (resize len d l).length = len := by
  simp only [resize, List.length_append, List.length_take, List.length_replicate]
  omega

/-- The loop leaves what it has passed and writes an answer at each place after it. -/
theorem fillFrom_eq {ci ci' : Info ρ σ} (h : ci.Same I ci') (k : Nat) (iids : List UInt64)
    (buf : List ρ) (hlen : buf.length = 1 + k + iids.length) :
    (fillFrom I k iids (ci, buf)).1.Same I ci' ∧
      (fillFrom I k iids (ci, buf)).2 = buf.take (1 + k) ++ iids.map (ci'.lookup I) := by
  induction iids generalizing ci k buf with
  | nil =>
    refine ⟨h, ?_⟩
    rw [fillFrom, List.map_nil, List.append_nil, List.take_of_length_le]
    simp at hlen
    omega
  | cons iid iids ih =>
    have hlt : 1 + k < buf.length := by
      simp at hlen
      omega
    have hnext := ih (h.queryPast iid) (k + 1) (buf.set (1 + k) (ci.queryPast I iid).1)
      (by simp at hlen ⊢; omega)
    refine ⟨hnext.1, ?_⟩
    refine hnext.2.trans ?_
    have htake : (buf.set (1 + k) (ci.queryPast I iid).1).take (1 + (k + 1)) =
        buf.take (1 + k) ++ [ci'.lookup I iid] := by
      rw [← h.lookup, ← queryPast_fst, ← Nat.add_assoc, List.take_add_one,
        List.take_set_of_le le_rfl, List.getElem?_set_self hlt]
      rfl
    rw [htake, List.map_cons, List.append_assoc]
    rfl

theorem fillBuffer_eq {ci ci' : Info ρ σ} (h : ci.Same I ci') (iids : List UInt64)
    (instrId : UInt64) (buf : List ρ) :
    (fillBuffer I iids instrId ci buf).1.Same I ci' ∧
      (fillBuffer I iids instrId ci buf).2 = (instrId :: iids).map (ci'.lookup I) := by
  have hlen := length_resize (1 + iids.length) I.default buf
  obtain ⟨hsame, hbuf⟩ := fillFrom_eq (h.queryPast instrId) 0 iids
    ((resize (1 + iids.length) I.default buf).set 0 (ci.queryPast I instrId).1)
    (by rw [List.length_set, hlen])
  refine ⟨hsame, hbuf.trans ?_⟩
  cases hb : resize (1 + iids.length) I.default buf with
  | nil =>
    rw [hb, List.length_nil] at hlen
    omega
  | cons b bs => simp [queryPast_fst, h.lookup]

end Buffer

theorem iseqRun_updateInfos (x : Retired α) (infos : ∀ i, Info (ρ i) (σ i)) :
    iseqRun (updateInfos I getLlvmInstrs x) n le_rfl infos =
      fun i => (infos i).update (I i) (getLlvmInstrs x.ip) x :=
  iseqRun_all (updateInfos I getLlvmInstrs x) id
    (fun i ci => ci.update (I i) (getLlvmInstrs x.ip) x) (fun _ _ => rfl) infos

theorem iseqRun_updateResults (iids : List UInt64) (x : Retired α)
    (s : (∀ i, Info (ρ i) (σ i)) × (∀ i, List (ρ i))) (i : Fin n) :
    ((iseqRun (updateResults I iids x) n le_rfl s).1 i,
        (iseqRun (updateResults I iids x) n le_rfl s).2 i) =
      fillBuffer (I i) iids x.instrId (s.1 i) (s.2 i) := by
  refine congrFun (iseqRun_all (updateResults I iids x) (fun s i => (s.1 i, s.2 i))
    (fun i p => fillBuffer (I i) iids x.instrId p.1 p.2) ?_ s) i
  intro i s
  funext j
  by_cases hj : j = i
  · subst hj
    simp [updateResults]
  · simp [updateResults, hj]

/-! ## The informer delivers what the ledger says -/

/-- What `query_past` is asked of once `xs` have been given to `update`. -/
def infosAfter (xs : List (Retired α)) (i : Fin n) : Info (ρ i) (σ i) :=
  (Info.new (I i)).run (I i) getLlvmInstrs (xs.map .update)

theorem infosAfter_concat (xs : List (Retired α)) (x : Retired α) (i : Fin n) :
    infosAfter I getLlvmInstrs (xs ++ [x]) i =
      (infosAfter I getLlvmInstrs xs i).update (I i) (getLlvmInstrs x.ip) x := by
  simp [infosAfter, Info.run, Info.step]

structure Tracks (s : Informer κ ρ σ) (l : Ledger α κ) : Prop where
  infos : ∀ i, (s.infos i).Same (I i) (infosAfter I getLlvmInstrs l.retired i)
  todo : ∀ t, t ∉ l.retired.map (·.instrId) → s.todo t = l.lastFor t

variable {I getLlvmInstrs}

theorem Tracks.new : Tracks I getLlvmInstrs (Informer.new I : Informer κ ρ σ) Ledger.new :=
  ⟨fun _ => ⟨rfl, rfl, rfl⟩, fun _ _ => rfl⟩

theorem Ledger.lastFor_concat (l : Ledger α κ) (q : Query κ) (t : UInt64) :
    Ledger.lastFor { l with accepted := l.accepted ++ [q] } t =
      if t = q.trigger then some q else l.lastFor t := by
  by_cases h : t = q.trigger
  · simp [Ledger.lastFor, h]
  · simp [Ledger.lastFor, h, Ne.symm h]

theorem infos_acceptQuery (s : Informer κ ρ σ) (qs : List (Query κ)) :
    (qs.foldl Informer.acceptQuery s).infos = s.infos := by
  induction qs generalizing s with
  | nil => rfl
  | cons q qs ih => exact ih (s.acceptQuery q)

/-- Accepting queries keeps `todo` at the last one accepted for a trigger. -/
theorem todo_acceptQuery {s : Informer κ ρ σ} {l : Ledger α κ} {t : UInt64}
    (h : s.todo t = l.lastFor t) (qs : List (Query κ)) :
    (qs.foldl Informer.acceptQuery s).todo t =
      Ledger.lastFor { l with accepted := l.accepted ++ qs } t := by
  induction qs generalizing s l with
  | nil => simpa using h
  | cons q qs ih =>
    have hq : (s.acceptQuery q).todo t =
        Ledger.lastFor { l with accepted := l.accepted ++ [q] } t := by
      rw [Ledger.lastFor_concat]
      by_cases heq : t = q.trigger
      · simp [Informer.acceptQuery, heq]
      · simp [Informer.acceptQuery, heq, h]
    simpa using ih hq

theorem Tracks.acceptQuery {s : Informer κ ρ σ} {l : Ledger α κ} (h : Tracks I getLlvmInstrs s l)
    (q : Query κ) :
    Tracks I getLlvmInstrs (s.acceptQuery q) { l with accepted := l.accepted ++ [q] } :=
  ⟨h.infos, fun t ht => todo_acceptQuery (h.todo t ht) [q]⟩

/-- The retirement of an instruction that has not retired before. -/
theorem Tracks.handleRetire {s : Informer κ ρ σ} {l : Ledger α κ} (h : Tracks I getLlvmInstrs s l)
    (submits : κ → (∀ i, List (ρ i)) → List (Query κ)) {x : Retired α}
    (hx : x.instrId ∉ l.retired.map (·.instrId)) :
    (s.handleRetire I getLlvmInstrs submits x).1 =
        (l.step I getLlvmInstrs submits (.retire x)).1 ∧
      Tracks I getLlvmInstrs (s.handleRetire I getLlvmInstrs submits x).2
        (l.step I getLlvmInstrs submits (.retire x)).2 := by
  have hupd : ∀ i, ((s.infos i).update (I i) (getLlvmInstrs x.ip) x).Same (I i)
      (infosAfter I getLlvmInstrs (l.retired ++ [x]) i) := by
    intro i
    rw [infosAfter_concat]
    exact (h.infos i).update _ _
  have htodo := h.todo x.instrId hx
  cases hlast : l.lastFor x.instrId with
  | none =>
    rw [hlast] at htodo
    simp only [Informer.handleRetire, htodo, Ledger.step, hlast, iseqRun_updateInfos, true_and]
    refine ⟨hupd, ?_⟩
    intro t ht
    simp only [List.map_append, List.mem_append, not_or] at ht
    exact h.todo t ht.1
  | some q =>
    rw [hlast] at htodo
    simp only [Informer.handleRetire, htodo, Ledger.step, hlast, iseqRun_updateInfos]
    have hfill := iseqRun_updateResults I q.iids x
      (fun i => (s.infos i).update (I i) (getLlvmInstrs x.ip) x, s.results)
    generalize iseqRun (updateResults I q.iids x) n le_rfl
      (fun i => (s.infos i).update (I i) (getLlvmInstrs x.ip) x, s.results) = out at hfill
    have hbuf : out.2 = answers I getLlvmInstrs (l.retired ++ [x]) (x.instrId :: q.iids) := by
      funext i
      have h₂ := congrArg Prod.snd (hfill i)
      refine h₂.trans ((fillBuffer_eq (hupd i) _ _ _).2.trans ?_)
      refine List.map_congr_left ?_
      intro iid _
      exact (queryPast_fst (I i) _ iid).symm
    have hsame : ∀ i, (out.1 i).Same (I i) (infosAfter I getLlvmInstrs (l.retired ++ [x]) i) := by
      intro i
      have h₁ : out.1 i = _ := congrArg Prod.fst (hfill i)
      rw [h₁]
      exact (fillBuffer_eq (hupd i) _ _ _).1
    refine ⟨by rw [hbuf], ?_, ?_⟩
    · intro i
      rw [infos_acceptQuery]
      exact hsame i
    · intro t ht
      simp only [List.map_append, List.map_cons, List.map_nil, List.mem_append,
        List.mem_singleton, not_or] at ht
      refine (Function.update_of_ne ht.2 _ _).trans ?_
      rw [← hbuf]
      have hold : (Informer.mk out.2 out.1 s.todo).todo t =
          Ledger.lastFor ⟨l.accepted, l.retired ++ [x]⟩ t := h.todo t ht.1
      exact todo_acceptQuery hold _

theorem Tracks.deliveries {s : Informer κ ρ σ} {l : Ledger α κ} (h : Tracks I getLlvmInstrs s l)
    (submits : κ → (∀ i, List (ρ i)) → List (Query κ)) (evs : List (Event α κ))
    (hid : (l.retired.map (·.instrId) ++ retiredIds evs).Nodup) :
    s.deliveries I getLlvmInstrs submits evs = l.deliveries I getLlvmInstrs submits evs := by
  induction evs generalizing s l with
  | nil => rfl
  | cons ev evs ih =>
    rw [Informer.deliveries, Ledger.deliveries]
    cases ev with
    | accept q =>
      have hrest := ih (h.acceptQuery q) hid
      exact congrArg (none :: ·) hrest
    | retire x =>
      rw [retiredIds] at hid
      have hx : x.instrId ∉ l.retired.map (·.instrId) := by
        intro hmem
        have hdisj := (List.nodup_append.1 hid).2.2
        exact hdisj _ hmem _ List.mem_cons_self rfl
      obtain ⟨hout, hnext⟩ := h.handleRetire submits hx
      have hretired : (l.step I getLlvmInstrs submits (.retire x)).2.retired =
          l.retired ++ [x] := by
        cases hlast : l.lastFor x.instrId <;> simp [Ledger.step, hlast]
      have hrest := ih hnext (by rw [hretired]; simpa using hid)
      rw [Informer.step, hout, hrest]

/-- A callback only runs at the retirement of its own trigger. -/
theorem trigger_sublist (l : Ledger α κ) (submits : κ → (∀ i, List (ρ i)) → List (Query κ))
    (evs : List (Event α κ)) :
    ((l.deliveries I getLlvmInstrs submits evs).reduceOption.map (·.trigger)).Sublist
      (retiredIds evs) := by
  induction evs generalizing l with
  | nil => exact List.Sublist.refl _
  | cons ev evs ih =>
    rw [Ledger.deliveries]
    cases ev with
    | accept q => exact ih _
    | retire x =>
      cases hlast : l.lastFor x.instrId with
      | none =>
        simp only [Ledger.step, hlast, List.reduceOption_cons_of_none, retiredIds]
        exact (ih _).cons x.instrId
      | some q =>
        simp only [Ledger.step, hlast, List.reduceOption_cons_of_some, List.map_cons, retiredIds]
        exact (ih _).cons_cons x.instrId

variable (I getLlvmInstrs)

/-- For any interleaving of accepted queries and retirements, the callbacks run are those the
ledger says, on the results it says, and no trigger is answered twice. -/
theorem deliveries_eq (submits : κ → (∀ i, List (ρ i)) → List (Query κ))
    (evs : List (Event α κ)) (hid : (retiredIds evs).Nodup) :
    (Informer.new I).deliveries I getLlvmInstrs submits evs =
        Ledger.new.deliveries I getLlvmInstrs submits evs ∧
      (((Informer.new I).deliveries I getLlvmInstrs submits evs).reduceOption.map
        (·.trigger)).Nodup := by
  have htracks : Tracks I getLlvmInstrs (Informer.new I : Informer κ ρ σ) Ledger.new := Tracks.new
  have hdel := htracks.deliveries submits evs hid
  refine ⟨hdel, ?_⟩
  rw [hdel]
  exact hid.sublist (trigger_sublist _ submits evs)

theorem deliveries_eq_overwritten :
    let I : Fin 1 → Impl Nat Unit Bool Unit := fun _ => seen
    let evs := [Event.accept ⟨7, [3], 0⟩, .retire ⟨4, 3, ()⟩, .accept ⟨7, [3, 9], 1⟩,
      .retire ⟨8, 7, ()⟩, .accept ⟨7, [], 2⟩]
    (retiredIds evs).Nodup ∧
      (Informer.new I).deliveries I (fun _ => none) (fun _ _ => []) evs =
        Ledger.new.deliveries I (fun _ => none) (fun _ _ => []) evs ∧
      (((Informer.new I).deliveries I (fun _ => none) (fun _ _ => []) evs).reduceOption.map
        fun d => (d.cb, d.results 0)) = [(1, [true, true, false])] :=
  ⟨by decide, (deliveries_eq (fun _ => seen) (fun _ => none) (fun _ _ => []) _ (by decide)).1,
    by decide⟩

end Informer

end CodeInfo
end ChampSim
