import ChampSim.O3.StoreFifo

/-!
# ChampSim.O3.StoreArray

When `STA` has room for the stores read.

* `WritesFree id n sta` — each of the next `n` writes finds its slot free.
* `Roomy M c t O s`     — a run to `s` in which `STA` has room at each read.
* `Sparse c t`          — two stores an instruction, or three in the cloudsuite format.
* `StoreArray c t s`    — what `STA` lists, and which writes are safe.
* `sta_exact`           — it holds in every state of such a run.
-/

namespace ChampSim
namespace O3

open Lib ChampSim.Core

variable {μ : Type} {M : Memory μ} {c : Config} {t : Trace} {O : μ → μ → Prop} {s s' : Cpu μ}

/-! ## The writes of a read -/

/-- Each of `n` writes of `id` at the tail finds its slot free. -/
def WritesFree (id : Nat) : Nat → Feed → Prop
  | 0, _ => True
  | n + 1, sta => sta.slot sta.tail = u64Max ∧ WritesFree id n (sta.push id)

theorem writesFree_of_room {id : Nat} (n : Nat) :
    ∀ {sta : Feed} {l : List Nat}, sta.Holds l → sta.mark = u64Max → l.length + n ≤ sta.size →
      WritesFree id n sta := by
  induction n with
  | zero => exact fun _ _ _ => trivial
  | succ n ih =>
    intro sta l h hmark hroom
    refine ⟨(h.free (by omega)).trans hmark, ih (h.push (by omega) id) hmark ?_⟩
    rw [List.length_append, List.length_singleton, Feed.push_size]
    omega

/-- The write after the last free slot hits a pending store. -/
theorem room_of_writesFree {id : Nat} (hid : id ≠ u64Max) (n : Nat) :
    ∀ {sta : Feed} {l : List Nat}, sta.Holds l → sta.mark = u64Max → u64Max ∉ l →
      WritesFree id n sta → l.length + n ≤ sta.size := by
  induction n with
  | zero => exact fun h _ _ _ => h.length_le
  | succ n ih =>
    intro sta l h hmark hl hfree
    have hroom : l.length < sta.size := by
      refine Nat.lt_of_le_of_ne h.length_le fun hfull => ?_
      exact h.not_free hfull (hmark ▸ hl) (hfree.1.trans hmark.symm)
    have hl' : u64Max ∉ l ++ [id] := by
      rw [List.mem_append, List.mem_singleton]
      rintro (hmem | rfl)
      · exact hl hmem
      · exact hid rfl
    have hrest := ih (h.push hroom id) hmark hl' hfree.2
    rw [List.length_append, List.length_singleton, Feed.push_size] at hrest
    omega

/-! ## Runs with room -/

def Roomy (M : Memory μ) (c : Config) (t : Trace) (O : μ → μ → Prop) (s : Cpu μ) : Prop :=
  ∃ mem, Relation.ReflTransGen
    (fun s s' => Op M c t O s s' ∧ (s'.instrUniqueId ≠ s.instrUniqueId → Room c t s)) (.init mem) s

theorem Roomy.kept (h : Roomy M c t O s) : Pipe c s ∧ ∃ A P, Kept c s A P := by
  obtain ⟨mem, h⟩ := h
  induction h with
  | refl => exact ⟨pipe_init mem, [], [], kept_init mem⟩
  | tail _ hstep ih =>
    obtain ⟨hop, hroom⟩ := hstep
    obtain ⟨hp, A, P, hk⟩ := ih
    rcases hop.move with hq | hm
    · exact ⟨hp.quiet hq, A, P, hk.quiet hq⟩
    · exact ⟨hp.move hm, hk.move hp hm hroom⟩

theorem Roomy.of_reaches (hroom : ∀ s, Reaches M c t O s → Room c t s) (h : Reaches M c t O s) :
    Roomy M c t O s := by
  obtain ⟨mem, h⟩ := h
  refine ⟨mem, ?_⟩
  induction h with
  | refl => exact .refl
  | tail hs hop ih => exact ih.tail ⟨hop, fun _ => hroom _ ⟨mem, hs⟩⟩

/-- The records from which `STA` cannot run full, whatever the memory does. -/
def Sparse (c : Config) (t : Trace) : Prop :=
  c.knobCloudsuite = false ∨
    ∀ r ∈ t.records, ((List.range 4).filter fun i => r.destinationMemory i ≠ 0).length ≤ 3

theorem length_storeIndices_original (c : Config) (x : OooModelInstr) :
    (storeIndices c (original x)).length = (storeIndices c x).length := rfl

theorem ofCloudsuite_stores (hk : c.knobCloudsuite = true) (id : Nat) (r : InputInstr) :
    storeIndices c (ofCloudsuite c.maxInstrDestinations id r) =
      (List.range 4).filter fun i => r.destinationMemory i ≠ 0 := by
  have hd : c.maxInstrDestinations = 4 := by simp [Core.Config.maxInstrDestinations, hk]
  unfold storeIndices
  rw [hd]
  refine List.filter_congr fun i hi => ?_
  simp [ofCloudsuite, ofRecord, List.mem_range.mp hi]

/-- No record read has more than three stores. -/
theorem Sparse.read (h : Sparse c t) {front front' : State} {x : OooModelInstr}
    (hrecord : readRecord c.toConfig t front = some (x, front')) :
    (storeIndices c x).length ≤ 3 := by
  rcases h with hk | h
  · have hle := length_storeIndices_le c x
    have hd : c.maxInstrDestinations = 2 := by simp [Core.Config.maxInstrDestinations, hk]
    omega
  · obtain ⟨r, hr, hx⟩ := Option.map_eq_some_iff.mp hrecord
    have hmem := List.mem_of_getElem? hr
    split at hx
    · rename_i hk
      cases hx
      rw [ofCloudsuite_stores hk]
      exact h r hmem
    · rename_i hk
      have hle := length_storeIndices_le c x
      have hd : c.maxInstrDestinations = 2 := by simp [Core.Config.maxInstrDestinations, hk]
      omega

theorem Sparse.roomy (hsparse : Sparse c t) (h : Reaches M c t O s) : Roomy M c t O s := by
  refine .of_reaches (fun s hs x front hrecord => ?_) h
  have hall := hs.inFlight_all (P := fun x => (storeIndices c x).length ≤ 3)
    fun front front' x hread => (length_storeIndices_original c x).trans_le (hsparse.read hread)
  have hflat := length_flatMap_stores_le hall
  have hpending := length_pending_le c s
  have hx := hsparse.read hrecord
  have hlen := (reaches_pipe hs).length_le
  have hsta : staSize = 1408 := by decide
  unfold inStores at hpending
  omega

/-! ## The store array -/

structure StoreArray (c : Config) (t : Trace) (s : Cpu μ) : Prop where
  /-- From `STA_head`, the ids of the stores outside the store queue, in the order of the program
  and once for each store. -/
  listed : s.sta.Holds (pending c s)
  ordered : (inStores c s).Pairwise (Earlier s.retired.length)
  /-- With room, the writes of the next read find their slots free. -/
  free : ∀ x front, readRecord c.toConfig t s.toState = some (x, front) →
    (pending c s).length + (storeIndices c x).length ≤ staSize →
      WritesFree x.instrId (storeIndices c x).length s.sta
  /-- Without, one of them overwrites a pending store. -/
  full : ∀ x front, readRecord c.toConfig t s.toState = some (x, front) →
    u64Max ∉ pending c s → x.instrId ≠ u64Max →
      staSize < (pending c s).length + (storeIndices c x).length →
        ¬ WritesFree x.instrId (storeIndices c x).length s.sta

theorem Kept.storeArray {A P : List Store} (h : Kept c s A P) (hp : Pipe c s) :
    StoreArray c t s where
  listed := h.pending ▸ h.sta
  ordered := hp.inStores_pairwise
  free := fun x front _ hroom =>
    writesFree_of_room _ h.sta h.staMark (by rwa [← h.pending, h.staSize])
  full := by
    intro x front _ hmark hid hfull hfree
    have hroom := room_of_writesFree hid _ h.sta h.staMark (h.pending ▸ hmark) hfree
    rw [← h.pending, h.staSize] at hroom
    omega

theorem sta_exact (h : Roomy M c t O s ∨ Sparse c t ∧ Reaches M c t O s) :
    StoreArray c t s := by
  have hroomy : Roomy M c t O s := h.elim id fun hs => hs.1.roomy hs.2
  obtain ⟨hp, A, P, hk⟩ := hroomy.kept
  exact hk.storeArray hp

theorem sta_exact_twoStores : ∃ s, echoRun twoStores 8 = some s ∧ (pending echoConfig s).length = 48 ∧
    StoreArray echoConfig ⟨[twoStores], by simp⟩ s := by
  have hrun : (echoRun twoStores 8).map (fun s => (pending echoConfig s).length) = some 48 := by
    decide +kernel
  obtain ⟨s, hs, hlen⟩ := Option.map_eq_some_iff.mp hrun
  exact ⟨s, hs, hlen, sta_exact (.inr ⟨.inl rfl, echoRun_reaches hs⟩)⟩

end O3
end ChampSim
