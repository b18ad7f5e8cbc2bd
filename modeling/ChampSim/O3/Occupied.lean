import ChampSim.O3.Stores

/-!
# ChampSim.O3.Occupied

The slots of the store queue that stores occupy, in every run: also when `STA` has run full.

* `stored c s`       — the stores in flight that have entered the queue.
* `releaseUpTo_entry`, `releaseUpTo_occupancy` — the entries that retirement frees.
* `Occupied c s`     — each of them has a slot of its own, which holds its entry.
* `reaches_occupied` — it holds in every state reached.
* `reaches_ip`       — a live instruction has an `ip`.
-/

namespace ChampSim
namespace O3

open Lib ChampSim.Core

variable {μ : Type}

def stored (c : Config) (s : Cpu μ) : List Store := (inStores c s).filter Store.added

variable {M : Memory μ} {c : Config} {t : Trace} {O : μ → μ → Prop} {s s' : Cpu μ}

theorem address_ne_zero {a : Store} (ha : a ∈ inStores c s) : a.address ≠ 0 := by
  obtain ⟨x, -, hx⟩ := List.mem_flatMap.mp ha
  obtain ⟨j, hj, rfl⟩ := List.mem_map.mp hx
  exact (mem_storeIndices.mp hj).2

/-! ## Releasing the stores of an instruction -/

section Release

variable {x : OooModelInstr} {r : Lib.Ring LsqEntry}

/-- The destinations below `n` for which a slot is noted. -/
def notedBelow (x : OooModelInstr) (n : Nat) : List Nat :=
  (List.range n).filter fun j => x.sqIndex j ≠ uint32Max

theorem notedBelow_succ (x : OooModelInstr) (n : Nat) :
    notedBelow x (n + 1) =
      if x.sqIndex n ≠ uint32Max then notedBelow x n ++ [n] else notedBelow x n := by
  unfold notedBelow
  rw [List.range_succ, List.filter_append]
  by_cases hn : x.sqIndex n ≠ uint32Max
  · simp [hn]
  · simp [hn]

theorem releaseUpTo_entry (x : OooModelInstr) (r : Lib.Ring LsqEntry) (n k : Nat) :
    (releaseUpTo x n r).entry k =
      if k ∈ (notedBelow x n).map x.sqIndex then .empty else r.entry k := by
  induction n with
  | zero => rfl
  | succ n ih =>
    rw [releaseUpTo_succ, notedBelow_succ]
    by_cases hn : x.sqIndex n ≠ uint32Max
    · rw [if_pos hn, if_pos hn, List.map_append, List.map_singleton]
      show Function.update (releaseUpTo x n r).entry (x.sqIndex n) LsqEntry.empty k = _
      by_cases hk : k = x.sqIndex n
      · subst hk
        rw [Function.update_self, if_pos (List.mem_append_right _ List.mem_cons_self)]
      · rw [Function.update_of_ne hk, ih]
        simp [hk]
    · rw [if_neg hn, if_neg hn, ih]

theorem releaseUpTo_occupancy (x : OooModelInstr) (r : Lib.Ring LsqEntry) (n : Nat) :
    (releaseUpTo x n r).occupancy = r.occupancy - (notedBelow x n).length := by
  induction n with
  | zero => rfl
  | succ n ih =>
    rw [releaseUpTo_succ, notedBelow_succ]
    by_cases hn : x.sqIndex n ≠ uint32Max
    · rw [if_pos hn, if_pos hn, List.length_append, List.length_singleton]
      show (releaseUpTo x n r).occupancy - 1 = _
      omega
    · rw [if_neg hn, if_neg hn, ih]

theorem releaseUpTo_rest (x : OooModelInstr) (r : Lib.Ring LsqEntry) (n : Nat) :
    (releaseUpTo x n r).size = r.size ∧ (releaseUpTo x n r).tail = r.tail := by
  induction n with
  | zero => exact ⟨rfl, rfl⟩
  | succ n ih =>
    rw [releaseUpTo_succ]
    split
    · exact ih
    · exact ih

/-- All destinations with a store are noted, and no other. -/
theorem Settled.notedBelow (hx : Settled c x) (hslot : ∀ a ∈ stores c x, a.slot < sqSize) :
    notedBelow x c.maxInstrDestinations = storeIndices c x := by
  unfold O3.notedBelow storeIndices
  refine List.filter_congr fun j hj => ?_
  have hj := hx.noted hslot (List.mem_range.mp hj)
  simpa using not_iff_not.mp hj

theorem slots_stores (x : OooModelInstr) :
    (stores c x).map Store.slot = (storeIndices c x).map x.sqIndex := by
  unfold stores
  rw [List.map_map]
  rfl

end Release

/-! ## The invariant -/

structure Occupied (c : Config) (s : Cpu μ) : Prop where
  settled : ∀ i, Settled c (s.rob.entry i)
  slots : ((stored c s).map Store.slot).Nodup
  entries : ∀ a ∈ stored c s, a.slot < sqSize ∧ entryKey (s.sq.entry a.slot) = a.key
  occupancy : s.sq.occupancy = (stored c s).length
  size : s.sq.size = sqSize
  tail : s.sq.tail < sqSize

namespace Occupied

theorem init (mem : μ) : Occupied c (.init mem) where
  settled := fun _ => settled_empty
  slots := .nil
  entries := fun _ ha => absurd ha List.not_mem_nil
  occupancy := rfl
  size := rfl
  tail := by show 0 < sqSize; decide

theorem of_stored (h : Occupied c s) (hs : stored c s' = stored c s)
    (hq : Ring.Alike untranslated s.sq s'.sq) (hsettled : ∀ i, Settled c (s'.rob.entry i)) :
    Occupied c s' where
  settled := hsettled
  slots := hs ▸ h.slots
  entries := by
    intro a ha
    rw [hs] at ha
    obtain ⟨hlt, hkey⟩ := h.entries a ha
    exact ⟨hlt, (congrArg entryKey (hq.entry a.slot)).trans hkey⟩
  occupancy := by rw [hq.occupancy, hs, h.occupancy]
  size := hq.size.trans h.size
  tail := hq.tail ▸ h.tail

/-- The steps that leave the stores as they are. -/
theorem congr (h : Occupied c s) (hs : inStores c s' = inStores c s)
    (hq : Ring.Alike untranslated s.sq s'.sq) (hsettled : ∀ i, Settled c (s'.rob.entry i)) :
    Occupied c s' :=
  h.of_stored (congrArg (List.filter Store.added) hs) hq hsettled

theorem quiet (h : Occupied c s) (hq : Quiet steady s s') : Occupied c s' :=
  h.congr (inStores_of_map (hq.inFlight (stable_stores c))) hq.sq
    (settled_alike (hq.rob.comp settledView) h.settled)

/-- The slot of the next store is free. -/
theorem tail_free (h : Occupied c s) (hfree : (s.sq.entry s.sq.tail).virtualAddress = 0)
    {a : Store} (ha : a ∈ stored c s) : a.slot ≠ s.sq.tail := by
  intro heq
  have hkey := (h.entries a ha).2
  rw [heq] at hkey
  have haddress : (s.sq.entry s.sq.tail).virtualAddress = a.address :=
    congrArg (fun key => key.2.2) hkey
  exact address_ne_zero (List.mem_filter.mp ha).1 (haddress.symm.trans hfree)

theorem addStore {i j : Nat} (h : Occupied c s) (hp : Pipe c s) (hi : Candidate s i)
    (hj : j < c.maxInstrDestinations) (hm : (s.rob.entry i).destinationMemory j ≠ 0)
    (ha : (s.rob.entry i).destinationAdded j = false)
    (hbefore : ∀ k < j, (s.rob.entry i).destinationMemory k ≠ 0 →
      (s.rob.entry i).destinationAdded k = true)
    (hs : addStoreQueue c i j s = some s') : Occupied c s' := by
  have hmem : j ∈ storeIndices c (s.rob.entry i) := mem_storeIndices.mpr ⟨hj, hm⟩
  obtain ⟨l₁, l₂, hlist, hmodify⟩ := hp.split_rob (hp.flow.live_candidate hi)
  obtain ⟨m₁, m₂, hstores, -, hstores'⟩ := stores_storeAdded hmem hbefore s.sq.tail
  obtain ⟨hfree, hs'⟩ := addStoreQueue_eq hs
  have hlist' := hmodify (storeAdded j s.sq.tail) s' (by rw [hs']) (by rw [hs']) (by rw [hs'])
  -- the list before and after, around the store that enters
  obtain ⟨A, B, hold, hnew⟩ : ∃ A B, stored c s = A ++ B ∧
      stored c s' = A ++ addedStore (s.rob.entry i) j s.sq.tail :: B := by
    refine ⟨(l₁.flatMap (stores c) ++ m₁).filter Store.added,
      (m₂ ++ l₂.flatMap (stores c)).filter Store.added, ?_, ?_⟩
    · have hnot : (storeOf (s.rob.entry i) j).added = false := ha
      unfold stored inStores
      rw [hlist, List.flatMap_append, List.flatMap_cons, hstores]
      simp [hnot]
    · have hadded : (addedStore (s.rob.entry i) j s.sq.tail).added = true := rfl
      unfold stored inStores
      rw [hlist', List.flatMap_append, List.flatMap_cons, hstores']
      simp [hadded]
  have hperm : (stored c s').Perm (addedStore (s.rob.entry i) j s.sq.tail :: stored c s) := by
    rw [hold, hnew]
    exact List.perm_middle
  refine ⟨?_, ?_, ?_, ?_, ?_, ?_⟩
  · rw [hs']
    exact settled_modify h.settled ((h.settled i).storeAdded hi.memory hmem)
  · refine (hperm.map Store.slot).nodup_iff.mpr (List.nodup_cons.mpr ⟨?_, h.slots⟩)
    intro hin
    obtain ⟨b, hb, heq⟩ := List.mem_map.mp hin
    exact h.tail_free hfree hb heq
  · intro b hb
    rcases List.mem_cons.mp (hperm.mem_iff.mp hb) with rfl | hb
    · refine ⟨h.tail, ?_⟩
      rw [hs']
      show entryKey ((s.sq.push _).entry s.sq.tail) = _
      rw [Ring.push_entry_tail]
      rfl
    · obtain ⟨hlt, hkey⟩ := h.entries b hb
      refine ⟨hlt, ?_⟩
      rw [hs']
      show entryKey ((s.sq.push _).entry b.slot) = _
      rw [Ring.push_entry_ne s.sq _ (h.tail_free hfree hb)]
      exact hkey
  · rw [hperm.length_eq, List.length_cons, ← h.occupancy, hs']
    rfl
  · rw [hs']
    exact h.size
  · rw [hs']
    show Ring.next s.sq.size s.sq.tail < sqSize
    rw [h.size]
    exact Ring.next_lt (by decide)

/-- The stores of a completed head are all in the queue. -/
theorem retire_stored (h : Occupied c s) (hp : Pipe c s)
    (hip : (s.rob.entry s.rob.head).ip ≠ 0)
    (hdone : (s.rob.entry s.rob.head).executed = .completed) (mem : μ) :
    stored c s = stores c (s.rob.entry s.rob.head) ++
      stored c (releaseHead c { s with mem := mem }) := by
  have hall : (stores c (s.rob.entry s.rob.head)).filter Store.added =
      stores c (s.rob.entry s.rob.head) := by
    refine List.filter_eq_self.mpr fun a ha => ?_
    obtain ⟨j, hj, rfl⟩ := List.mem_map.mp ha
    exact (h.settled _).executed (by rw [hdone]; decide) j hj
  unfold stored inStores
  rw [hp.retire_inFlight hip mem, List.flatMap_cons, List.filter_append, hall]

theorem retire (h : Occupied c s) (hp : Pipe c s) (hip : (s.rob.entry s.rob.head).ip ≠ 0)
    (hdone : (s.rob.entry s.rob.head).executed = .completed) (mem : μ) :
    Occupied c (releaseHead c { s with mem := mem }) := by
  have hsplit := h.retire_stored hp hip hdone mem
  have hslot : ∀ a ∈ stores c (s.rob.entry s.rob.head), a.slot < sqSize := fun a ha =>
    (h.entries a (hsplit ▸ List.mem_append_left _ ha)).1
  have hnoted := (h.settled s.rob.head).notedBelow hslot
  have hslots := h.slots
  rw [hsplit, List.map_append, List.nodup_append] at hslots
  obtain ⟨hsize, htail⟩ := releaseUpTo_rest (s.rob.entry s.rob.head) s.sq c.maxInstrDestinations
  refine ⟨fun i => ?_, hslots.2.1, fun a ha => ?_, ?_, hsize.trans h.size, htail.trans_lt h.tail⟩
  · exact Ring.forall_pop (r := s.rob) h.settled settled_empty i
  · obtain ⟨hlt, hkey⟩ := h.entries a (hsplit ▸ List.mem_append_right _ ha)
    refine ⟨hlt, ?_⟩
    show entryKey ((releaseUpTo _ _ s.sq).entry a.slot) = _
    rw [releaseUpTo_entry, hnoted, ← slots_stores, if_neg]
    · exact hkey
    · intro hin
      exact hslots.2.2 a.slot hin a.slot (List.mem_map_of_mem ha) rfl
  · show (releaseUpTo _ _ s.sq).occupancy = _
    have hocc := h.occupancy
    rw [hsplit, List.length_append] at hocc
    have hlen : (stores c (s.rob.entry s.rob.head)).length =
        (storeIndices c (s.rob.entry s.rob.head)).length := List.length_map _
    rw [releaseUpTo_occupancy, hnoted, hocc, hlen, Nat.add_sub_cancel_left]

/-- An instruction just read has no store in the queue. -/
theorem read (h : Occupied c s) {x : OooModelInstr} {front : State} {y : OooModelInstr}
    (hrecord : readRecord c.toConfig t s.toState = some (x, front))
    (hy : stores c y = stores c x) (hlist : inFlight s' = inFlight s ++ [y])
    (hrob : s'.rob = s.rob) (hsq : s'.sq = s.sq) : Occupied c s' := by
  refine h.of_stored ?_ (hsq ▸ .refl ..) (hrob ▸ h.settled)
  have hnone : (stores c x).filter Store.added = [] := by
    refine List.filter_eq_nil_iff.mpr fun a ha => ?_
    rw [(readRecord_fresh hrecord).not_added ha]
    decide
  unfold stored inStores
  rw [hlist, List.flatMap_append, List.flatMap_singleton, hy, List.filter_append, hnone,
    List.append_nil]

theorem move (h : Occupied c s) (hp : Pipe c s) (hm : Move c t s s') : Occupied c s' := by
  cases hm with
  | tick => exact h.congr rfl (.refl ..) h.settled
  | read env b hspace hstall hrecord hsta =>
    rename_i x front sta
    exact h.read hrecord (y := predicted b (ifetchEntry (env.front s.cycle) x)) rfl
      (hp.push_ifetch hspace _ rfl rfl rfl) rfl rfl
  | resume env =>
    unfold resumeFetch
    split
    · exact h.congr rfl (.refl ..) h.settled
    · exact h
  | toDecode hip hspace =>
    exact h.congr (inStores_of_map (hp.toDecode_inFlight (stable_stores c) hip hspace))
      (.refl ..) h.settled
  | toRob hip hspace =>
    refine h.congr (inStores_of_map (hp.toRob_inFlight (stable_stores c) hip hspace))
      (.refl ..) fun i => ?_
    have hx : Settled c (setEventCycle s.cycle (s.decodeBuffer.entry s.decodeBuffer.head)) :=
      (hp.flow.decode _).settled.congr rfl
    exact Ring.forall_push (r := s.rob) h.settled hx i
  | complete hc =>
    rename_i p
    rcases hp.flow.completes hc with rfl | hdone
    · exact h
    · have hrest := hdone.rest
      refine h.congr (inStores_of_map (inFlight_rob ?_ (by rw [hrest]) (by rw [hrest])))
        (by rw [hrest]; exact .refl ..) ?_
      · exact (alike_modify (π := stores c) (f := markCompleted) rfl).trans
          (hdone.shape.comp (stores c))
      · refine settled_alike (hdone.shape.comp settledView) (settled_modify h.settled ?_)
        exact (h.settled p).markCompleted (by rw [hdone.inflight]; decide)
  | schedule hf hidle hs =>
    have hsched := hp.flow.schedules hf hidle hs
    have hrest := hsched.rest
    exact h.congr (inStores_of_map (inFlight_rob (hsched.rob.comp (stores c))
      (by rw [hrest]) (by rw [hrest]))) (by rw [hrest]; exact .refl ..)
      (settled_alike (hsched.rob.comp settledView) h.settled)
  | execute hi he =>
    rename_i b
    have hwait := hp.flow.front_waits hi
    exact h.congr (inStores_of_map (inFlight_rob (alike_modify (π := stores c)
      (f := markIssued s.cycle c.execLatency) rfl) rfl rfl)) (.refl ..)
      (settled_modify h.settled ((h.settled (s.rte b).front).markIssued hwait.memory _ _))
  | addStore hi hj hm ha hbefore hspace hsta hs => exact h.addStore hp hi hj hm ha hbefore hs
  | memoryScheduled hi hall =>
    rename_i i
    rw [memoryScheduled_eq]
    exact h.congr (inStores_of_map (inFlight_rob (alike_modify (π := stores c)
      (f := markMemoryScheduled) rfl) rfl rfl)) (.refl ..)
      (settled_modify h.settled ((h.settled i).markMemoryScheduled hall))
  | retire hip hdone => exact h.retire hp hip hdone _

end Occupied

theorem reaches_occupied (h : Reaches M c t O s) : Pipe c s ∧ Occupied c s := by
  refine h.invariant (I := fun s => Pipe c s ∧ Occupied c s)
    (fun mem => ⟨pipe_init mem, .init mem⟩) ?_
  rintro s s' ⟨hp, ho⟩ hop
  rcases hop.move with hq | hm
  · exact ⟨hp.quiet hq, ho.quiet hq⟩
  · exact ⟨hp.move hm, ho.move hp hm⟩

/-! ## The ROB holds instructions only -/

def AllIp (r : Lib.Ring OooModelInstr) : Prop := ∀ i, r.Live i → (r.entry i).ip ≠ 0

theorem AllIp.alike {r r' : Lib.Ring OooModelInstr} (h : AllIp r)
    (ha : Ring.Alike OooModelInstr.ip r r') : AllIp r' := by
  intro i hi
  rw [ha.entry i]
  exact h i (ha.live.mp hi)

theorem AllIp.move (h : AllIp s.rob) (hp : Pipe c s) (hm : Move c t s s') : AllIp s'.rob := by
  cases hm with
  | tick => exact h
  | read => exact h
  | resume env =>
    unfold resumeFetch
    split
    · exact h
    · exact h
  | toDecode => exact h
  | toRob hip hroom =>
    intro i hi
    by_cases htail : i = s.rob.tail
    · subst htail
      show ((s.rob.push _).entry s.rob.tail).ip ≠ 0
      rw [Ring.push_entry_tail]
      exact hip
    · show ((s.rob.push _).entry i).ip ≠ 0
      rw [Ring.push_entry_ne s.rob _ htail]
      exact h i (((Ring.live_push _ hp.window.wf.tail_eq).mp hi).resolve_right htail)
  | complete hc =>
    rcases hp.flow.completes hc with rfl | hdone
    · exact h
    · exact h.alike ((alike_modify (π := OooModelInstr.ip) (f := markCompleted) rfl).trans
        (hdone.shape.comp OooModelInstr.ip))
  | schedule hf hidle hs =>
    have hsched := hp.flow.schedules hf hidle hs
    exact h.alike (hsched.rob.comp OooModelInstr.ip)
  | execute hi he =>
    exact h.alike (alike_modify (π := OooModelInstr.ip) (f := markIssued s.cycle c.execLatency) rfl)
  | addStore hi hj hm ha hbefore hspace hsta hs =>
    obtain ⟨-, rfl⟩ := addStoreQueue_eq hs
    exact h.alike (alike_modify (π := OooModelInstr.ip) rfl)
  | memoryScheduled hi hall =>
    rw [memoryScheduled_eq]
    exact h.alike (alike_modify (π := OooModelInstr.ip) (f := markMemoryScheduled) rfl)
  | retire hip hdone =>
    intro i hi
    have hpos := hp.window.occupancy_pos (hp.window.live_head hip)
    obtain ⟨hlive, hne⟩ := (Ring.live_pop _ hp.window.head_lt hp.window.wf.occ_le hpos).mp hi
    show ((s.rob.pop .empty).entry i).ip ≠ 0
    rw [Ring.pop_entry_ne s.rob _ hne]
    exact h i hlive

theorem reaches_ip (h : Reaches M c t O s) : AllIp s.rob := by
  have hboth : Pipe c s ∧ AllIp s.rob := by
    refine h.invariant (I := fun s => Pipe c s ∧ AllIp s.rob)
      (fun mem => ⟨pipe_init mem, fun i hi => ?_⟩) ?_
    · obtain ⟨k, hk, -⟩ := hi
      exact absurd hk (Nat.not_lt_zero k)
    · rintro s s' ⟨hp, hip⟩ hop
      rcases hop.move with hq | hm
      · exact ⟨hp.quiet hq, hip.alike (hq.rob.comp OooModelInstr.ip)⟩
      · exact ⟨hp.move hm, hip.move hp hm⟩
  exact hboth.2

end O3
end ChampSim
