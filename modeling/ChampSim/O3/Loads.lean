import ChampSim.O3.Occupied

/-!
# ChampSim.O3.Loads

What the steps of the core do to the loads in the load queue.

* `Marked x x'`         — what the load side may do to an instruction.
* `Served s s'`         — no load is entered; some may have left the queue.
* `Entered i j l s s'`  — source `j` of `i` is entered into the free slot `l`, with its producer.
* `addLoadQueue_entered` — `add_load_queue` does that.
-/

namespace ChampSim
namespace O3

open Lib ChampSim.Core

variable {μ : Type}

/-! ## What the load side does -/

structure Marked (x x' : OooModelInstr) : Prop where
  instrId : x'.instrId = x.instrId
  sourceMemory : x'.sourceMemory = x.sourceMemory
  added : ∀ j, x.sourceAdded j = true → x'.sourceAdded j = true ∧ x'.lqIndex j = x.lqIndex j
  dependents : x.memoryInstrsDependOnMe ⊆ x'.memoryInstrsDependOnMe
  producer : x.isProducer = true → x'.isProducer = true

theorem Marked.refl (x : OooModelInstr) : Marked x x :=
  ⟨rfl, rfl, fun _ h => ⟨h, rfl⟩, subset_rfl, id⟩

theorem Marked.trans {x x' x'' : OooModelInstr} (h : Marked x x') (h' : Marked x' x'') :
    Marked x x'' where
  instrId := h'.instrId.trans h.instrId
  sourceMemory := h'.sourceMemory.trans h.sourceMemory
  added := fun j hj =>
    have ⟨hadded, hslot⟩ := h.added j hj
    have ⟨hadded', hslot'⟩ := h'.added j hadded
    ⟨hadded', hslot'.trans hslot⟩
  dependents := h.dependents.trans h'.dependents
  producer := fun hp => h'.producer (h.producer hp)

/-- The part of an instruction that the dependences of loads rest on. -/
def loadSide (x : OooModelInstr) :
    (Nat × (Nat → Nat)) × (Nat → Bool) × (Nat → Nat) × Finset Nat × Bool :=
  ((x.instrId, x.sourceMemory), x.sourceAdded, x.lqIndex, x.memoryInstrsDependOnMe, x.isProducer)

theorem Marked.of_loadSide {x x' : OooModelInstr} (h : loadSide x' = loadSide x) :
    Marked x x' := by
  simp only [loadSide, Prod.mk.injEq] at h
  obtain ⟨⟨hid, hsource⟩, hadded, hslot, hdependents, hproducer⟩ := h
  refine ⟨hid, hsource, fun j hj => ?_, hdependents.superset, fun hp => hproducer.trans hp⟩
  rw [hadded, hslot]
  exact ⟨hj, rfl⟩

structure Marks (s s' : Cpu μ) : Prop where
  shape : Ring.Alike (fun _ => ()) s.rob s'.rob
  entry : ∀ i, Marked (s.rob.entry i) (s'.rob.entry i)

/-- Each load is as it was, or has left the queue. -/
structure Served (s s' : Cpu μ) : Prop extends Marks s s' where
  size : s'.lq.size = s.lq.size
  loads : ∀ l, loadKey (s'.lq.entry l) = loadKey (s.lq.entry l) ∨
    loadKey (s'.lq.entry l) = loadKey .empty

section Basic

variable {s s' s'' : Cpu μ}

theorem Marks.trans (h : Marks s s') (h' : Marks s' s'') : Marks s s'' :=
  ⟨h.shape.trans h'.shape, fun i => (h.entry i).trans (h'.entry i)⟩

theorem marks_of_rob (hrob : s'.rob = s.rob) : Marks s s' :=
  ⟨hrob ▸ .refl .., fun _ => hrob ▸ .refl _⟩

theorem marks_modifyRob (s : Cpu μ) (i : Nat) {f : OooModelInstr → OooModelInstr}
    (hf : Marked (s.rob.entry i) (f (s.rob.entry i))) : Marks s (s.modifyRob i f) where
  shape := .of_update rfl
  entry := by
    intro k
    show Marked _ ((modify s.rob i f).entry k)
    by_cases hk : k = i
    · subst hk
      rw [modify_self]
      exact hf
    · rw [modify_ne hk]
      exact .refl _

theorem Served.of_eq (hrob : s'.rob = s.rob) (hlq : s'.lq = s.lq) : Served s s' :=
  ⟨marks_of_rob hrob, by rw [hlq], fun _ => .inl (by rw [hlq])⟩

theorem Served.refl (s : Cpu μ) : Served s s := .of_eq rfl rfl

theorem Served.trans (h : Served s s') (h' : Served s' s'') : Served s s'' where
  toMarks := h.toMarks.trans h'.toMarks
  size := h'.size.trans h.size
  loads := by
    intro l
    rcases h'.loads l with hl | hl
    · rw [hl]
      exact h.loads l
    · exact .inr hl

theorem served_modifyRob (s : Cpu μ) (i : Nat) {f : OooModelInstr → OooModelInstr}
    (hf : Marked (s.rob.entry i) (f (s.rob.entry i))) : Served s (s.modifyRob i f) :=
  ⟨marks_modifyRob s i hf, rfl, fun _ => .inl rfl⟩

theorem served_modifyLsq (hrob : s'.rob = s.rob) {i : Nat} {f : LsqEntry → LsqEntry}
    (hsize : s'.lq.size = s.lq.size) (hlq : s'.lq.entry = (modifyLsq s.lq i f).entry)
    (hf : ∀ e, loadKey (f e) = loadKey e ∨ loadKey (f e) = loadKey .empty) : Served s s' where
  toMarks := marks_of_rob hrob
  size := hsize
  loads := by
    intro l
    rw [hlq]
    show loadKey (Function.update s.lq.entry i (f (s.lq.entry i)) l) = _ ∨
      loadKey (Function.update s.lq.entry i (f (s.lq.entry i)) l) = _
    by_cases hl : l = i
    · subst hl
      rw [Function.update_self]
      exact hf _
    · rw [Function.update_of_ne hl]
      exact .inl rfl

theorem served_loadSide : LoadSide (Served (μ := μ)) where
  refl := .refl
  trans := fun _ _ _ h h' => h.trans h'
  beside := fun _ _ hstate hlq _ _ => .of_eq (congrArg State.rob hstate) hlq
  finish := fun s i _ => served_modifyRob s i (.of_loadSide rfl)
  date := fun s i _ => served_modifyRob s i (.of_loadSide rfl)
  depend := fun s i d => served_modifyRob s i
    ⟨rfl, rfl, fun _ h => ⟨h, rfl⟩, Finset.subset_insert d _, id⟩
  load := fun _ _ _ hf => served_modifyLsq rfl rfl rfl fun e => .inl (hf e)
  release := fun s i => served_modifyLsq (s := s) (i := i) (f := fun _ => .empty) rfl rfl rfl
    fun _ => .inr rfl
  store := fun _ _ _ _ => .of_eq rfl rfl

/-- The steps that rewrite the rest of an instruction. -/
theorem Served.of_alike (ha : Ring.Alike loadSide s.rob s'.rob) (hlq : s'.lq = s.lq) :
    Served s s' where
  shape := ha.comp fun _ => ()
  entry := fun i => .of_loadSide (ha.entry i)
  size := by rw [hlq]
  loads := fun _ => .inl (by rw [hlq])

end Basic

/-! ## A load enters -/

/-- What `add_load_queue` does when it has found the slot `l`, up to the test for forwarding. -/
structure Entering (i j l : Nat) (s s' : Cpu μ) : Prop extends Marks s s' where
  size : s'.lq.size = s.lq.size
  slot : (s'.rob.entry i).lqIndex j = l
  others : ∀ k ≠ l, loadKey (s'.lq.entry k) = loadKey (s.lq.entry k)
  this : ∃ id, loadKey (s'.lq.entry l) = ((s.rob.entry i).sourceMemory j, id, i, j) ∧
    (id = (s.lq.entry l).producerId ∨ ∃ p ∈ priors s.rob i, (s.rob.entry p).instrId = id ∧
      i ∈ (s'.rob.entry p).memoryInstrsDependOnMe ∧ (s'.rob.entry p).isProducer = true)

structure Entered (i j l : Nat) (s s' : Cpu μ) : Prop extends Marks s s' where
  size : s'.lq.size = s.lq.size
  inside : l < s.lq.size
  vacant : (s.lq.entry l).virtualAddress = 0
  slot : (s'.rob.entry i).lqIndex j = l
  added : (s'.rob.entry i).sourceAdded j = true
  others : ∀ k ≠ l, loadKey (s'.lq.entry k) = loadKey (s.lq.entry k) ∨
    loadKey (s'.lq.entry k) = loadKey .empty
  /-- The load may have got its data at once. -/
  this : loadKey (s'.lq.entry l) = loadKey .empty ∨
    ∃ id, loadKey (s'.lq.entry l) = ((s.rob.entry i).sourceMemory j, id, i, j) ∧
      (id = (s.lq.entry l).producerId ∨ ∃ p ∈ priors s.rob i, (s.rob.entry p).instrId = id ∧
        i ∈ (s'.rob.entry p).memoryInstrsDependOnMe ∧ (s'.rob.entry p).isProducer = true)

section Entering

variable {c : Config} {s s' : Cpu μ} {i j l : Nat}

/-- What `add_load_queue` writes into the instruction. -/
def slotNoted (j l : Nat) (x : OooModelInstr) : OooModelInstr :=
  { x with lqIndex := Function.update x.lqIndex j l }

/-- What `mem_RAW_dependency` writes into the producer. -/
def dependedOn (i : Nat) (x : OooModelInstr) : OooModelInstr :=
  { x with memoryInstrsDependOnMe := insert i x.memoryInstrsDependOnMe, isProducer := true }

theorem enterLoad_rob (c : Config) (i j l : Nat) (s : Cpu μ) :
    (enterLoad c i j l s).rob = modify s.rob i (slotNoted j l) := rfl

theorem enterLoad_lq (c : Config) (i j l : Nat) (s : Cpu μ) :
    (enterLoad c i j l s).lq.entry =
      Function.update s.lq.entry l (loadEntry c i j s.cycle (s.rob.entry i) (s.lq.entry l)) := rfl

theorem memRawDependency_eq (c : Config) (p i j l : Nat) (s : Cpu μ) :
    memRawDependency c p i j l s = s ∨
      (memRawDependency c p i j l s).rob = modify s.rob p (dependedOn i) ∧
        (memRawDependency c p i j l s).lq.size = s.lq.size ∧
        (memRawDependency c p i j l s).lq.entry = Function.update s.lq.entry l
          { s.lq.entry l with producerId := (s.rob.entry p).instrId, translated := .inflight } := by
  unfold memRawDependency
  split
  · exact .inr ⟨rfl, rfl, rfl⟩
  · exact .inl rfl

theorem enterLoad_entering (hadded : (s.rob.entry i).sourceAdded j = false) :
    Entering i j l s (enterLoad c i j l s) where
  toMarks := by
    refine (marks_modifyRob s i (f := slotNoted j l)
      ⟨rfl, rfl, fun k hk => ⟨hk, ?_⟩, subset_rfl, id⟩).trans (marks_of_rob rfl)
    refine Function.update_of_ne ?_ ..
    rintro rfl
    rw [hadded] at hk
    cases hk
  size := rfl
  slot := by
    rw [enterLoad_rob, modify_self]
    exact Function.update_self ..
  others := by
    intro k hk
    rw [enterLoad_lq, Function.update_of_ne hk]
  this := by
    rw [enterLoad_lq, Function.update_self]
    exact ⟨_, rfl, .inl rfl⟩

/-- A producer found is an older instruction, and has the load in its set. -/
theorem Entering.memRawDependency (h : Entering i j l s s') {p : Nat} (hp : p ∈ priors s.rob i) :
    Entering i j l s (memRawDependency c p i j l s') := by
  rcases memRawDependency_eq c p i j l s' with heq | ⟨hrob, hsize, hlq⟩
  · rw [heq]
    exact h
  · obtain ⟨id, hkey, -⟩ := h.this
    have hmark := marks_modifyRob s' p (f := dependedOn i)
      ⟨rfl, rfl, fun _ hk => ⟨hk, rfl⟩, Finset.subset_insert i _, fun _ => rfl⟩
    refine ⟨h.toMarks.trans (hmark.trans (marks_of_rob hrob)), hsize.trans h.size, ?_,
      fun k hk => ?_,
      (s'.rob.entry p).instrId, ?_, .inr ⟨p, hp, ((h.entry p).instrId).symm, ?_⟩⟩
    · rw [hrob]
      by_cases hip : i = p
      · subst hip
        rw [modify_self]
        exact h.slot
      · rw [modify_ne hip]
        exact h.slot
    · rw [hlq, Function.update_of_ne hk]
      exact h.others k hk
    · rw [hlq, Function.update_self]
      simp only [loadKey, Prod.mk.injEq] at hkey ⊢
      exact ⟨hkey.1, trivial, hkey.2.2⟩
    · rw [hrob, modify_self]
      exact ⟨Finset.mem_insert_self .., rfl⟩

/-- The walk to the head stops at the first producer; only what it finds is needed here. -/
theorem Entering.findProducer (h : Entering i j l s s') :
    Entering i j l s (findProducer c i j l s') := by
  have hpriors : priors s'.rob i = priors s.rob i := by
    unfold priors
    rw [h.shape.head, h.shape.size]
  unfold O3.findProducer
  rw [hpriors]
  refine List.foldlRecOn _ _ h fun t ht p hp => ?_
  split
  · exact ht
  · exact ht.memRawDependency hp

/-- The load side does not move a load. -/
theorem lqIndex_loadSide :
    LoadSide fun s s' : Cpu μ => Ring.Alike OooModelInstr.lqIndex s.rob s'.rob where
  refl := fun _ => .refl ..
  trans := fun _ _ _ h h' => h.trans h'
  beside := fun s s' hstate _ _ _ => by
    rw [show s'.rob = s.rob from congrArg State.rob hstate]
    exact .refl ..
  finish := fun _ _ _ => .of_update rfl
  date := fun _ _ _ => .of_update rfl
  depend := fun _ _ _ => .of_update rfl
  load := fun _ _ _ _ => .refl ..
  release := fun _ _ => .refl ..
  store := fun _ _ _ _ => .refl ..

/-- What the last part of `add_load_queue` writes into the instruction. -/
def operandAdded (j : Nat) (x : OooModelInstr) : OooModelInstr :=
  { x with sourceAdded := Function.update x.sourceAdded j true }

theorem marked_operandAdded (j : Nat) (x : OooModelInstr) : Marked x (operandAdded j x) := by
  refine ⟨rfl, rfl, fun k hk => ⟨?_, rfl⟩, subset_rfl, id⟩
  by_cases hkj : k = j
  · subst hkj
    exact Function.update_self ..
  · exact (Function.update_of_ne hkj ..).trans hk

theorem loadAdded_rob (i j l : Nat) (s : Cpu μ) :
    (loadAdded i j l s).rob = modify s.rob i (operandAdded j) ∧ (loadAdded i j l s).lq = s.lq := by
  unfold loadAdded
  dsimp only
  split
  · exact ⟨rfl, rfl⟩
  · exact ⟨rfl, rfl⟩

theorem Entering.served (h : Entering i j l s s') {t : Cpu μ} (ht : Served s' t)
    (hslot : Ring.Alike OooModelInstr.lqIndex s'.rob t.rob)
    (hinside : l < s.lq.size) (hvacant : (s.lq.entry l).virtualAddress = 0) :
    Entered i j l s (loadAdded i j l t) := by
  obtain ⟨hrob, hlq⟩ := loadAdded_rob i j l t
  have hadded : Served t (loadAdded i j l t) :=
    (served_modifyRob t i (marked_operandAdded j _)).trans (.of_eq hrob hlq)
  have hserved := ht.trans hadded
  refine ⟨h.toMarks.trans hserved.toMarks, hserved.size.trans h.size, hinside, hvacant, ?_, ?_,
    fun k hk => ?_, ?_⟩
  · rw [hrob, modify_self]
    have hkeep := hslot.entry i
    show (t.rob.entry i).lqIndex j = l
    rw [hkeep]
    exact h.slot
  · rw [hrob, modify_self]
    exact Function.update_self ..
  · rw [← h.others k hk]
    exact hserved.loads k
  · rcases hserved.loads l with hkey | hkey
    · obtain ⟨id, hid, hproducer⟩ := h.this
      refine .inr ⟨id, hkey.trans hid, hproducer.imp_right ?_⟩
      rintro ⟨p, hp, hpid, hdependent, hflag⟩
      exact ⟨p, hp, hpid, (hserved.entry p).dependents hdependent,
        (hserved.entry p).producer hflag⟩
    · exact .inl hkey

theorem addLoadQueue_entered (hadded : (s.rob.entry i).sourceAdded j = false)
    (h : addLoadQueue c i j s = some s') : ∃ l, Entered i j l s s' := by
  obtain ⟨l, hl, h⟩ := Option.bind_eq_some_iff.mp h
  obtain ⟨t, ht, rfl⟩ := Option.map_eq_some_iff.mp h
  obtain ⟨hzero, -, hinside, -⟩ := PacketQueue.findFrom_eq_some.mp hl
  have hvacant : (s.lq.entry l).virtualAddress = 0 := beq_iff_eq.mp hzero
  have hentering := (enterLoad_entering (c := c) (l := l) hadded).findProducer (c := c)
  generalize findProducer c i j l (enterLoad c i j l s) = s₁ at hentering ht
  refine ⟨l, ?_⟩
  have hloop := served_loadSide.forwardLoop i l (List.range s₁.sq.size) s₁
  have hslots := lqIndex_loadSide.forwardLoop i l (List.range s₁.sq.size) s₁
  split at ht
  · exact hentering.served (hloop.trans (served_loadSide.forwardFrom ht))
      (hslots.trans (lqIndex_loadSide.forwardFrom ht)) hinside hvacant
  · cases ht
    exact hentering.served hloop hslots hinside hvacant

end Entering

end O3
end ChampSim
