import ChampSim.Cache.Writes

/-!
# ChampSim.Cache.Outstanding

The MSHR array and its remembered minimum.

* `FirstReady`    — the first entry of smallest `event_cycle` among the returned ones.
* `Outstanding`   — what holds of the array in every state: lines differ, free slots are not
  returned, and `next_fill_index` is the first ready entry unless `next_fill_cycle` is the sentinel.
* `write_outstanding` — one write.
* `Piece`          — an act, or one round of the loops of `handle_read` and `handle_prefetch`.
* `Fills`           — a fill takes out the first ready entry, and only its line comes in.
* `mshr_wellFormed` — whole runs, and what a fill removes.
-/

namespace ChampSim
namespace Cache

open Lib

variable {ρ : Type} {c : Config}

structure FirstReady (c : Config) (q : PacketQueue) (i : Nat) : Prop where
  lt : i < c.mshrSize
  returned : (q.entry i).returned = .completed
  least : ∀ j < c.mshrSize, (q.entry j).returned = .completed →
    (q.entry i).eventCycle ≤ (q.entry j).eventCycle
  first : ∀ j < i, (q.entry j).returned = .completed →
    (q.entry i).eventCycle < (q.entry j).eventCycle

structure Outstanding (c : Config) (q : PacketQueue) : Prop where
  distinct : ∀ i < c.mshrSize, ∀ j < c.mshrSize, (q.entry i).address ≠ 0 →
    (q.entry i).address = (q.entry j).address → i = j
  free : ∀ i < c.mshrSize, (q.entry i).address = 0 → (q.entry i).returned ≠ .completed
  next : q.nextFillCycle < u64Max →
    FirstReady c q q.nextFillIndex ∧ (q.entry q.nextFillIndex).eventCycle = q.nextFillCycle

section Array

variable {q q' : PacketQueue} {i : Nat}

/-- The returned entries and their cycles decide. -/
theorem FirstReady.congr (h : FirstReady c q i)
    (hreturned : ∀ j < c.mshrSize,
      ((q'.entry j).returned = .completed ↔ (q.entry j).returned = .completed))
    (hcycle : ∀ j < c.mshrSize, (q.entry j).returned = .completed →
      (q'.entry j).eventCycle = (q.entry j).eventCycle) : FirstReady c q' i := by
  have hi := hcycle i h.lt h.returned
  refine ⟨h.lt, (hreturned i h.lt).mpr h.returned, fun j hj hr => ?_, fun j hj hr => ?_⟩
  · have hr := (hreturned j hj).mp hr
    rw [hi, hcycle j hj hr]
    exact h.least j hj hr
  · have hr := (hreturned j (hj.trans h.lt)).mp hr
    rw [hi, hcycle j (hj.trans h.lt) hr]
    exact h.first j hj hr

theorem updateFillCycle_next (q : PacketQueue) :
    (updateFillCycle c q).nextFillCycle < u64Max →
      FirstReady c (updateFillCycle c q) (updateFillCycle c q).nextFillIndex ∧
        (q.entry (updateFillCycle c q).nextFillIndex).eventCycle =
          (updateFillCycle c q).nextFillCycle := by
  intro hlt
  cases hr : (scanMin (fun i => (q.entry i).returned == .completed)
      (fun i => (q.entry i).eventCycle) u64Max c.mshrSize).2 with
  | none =>
    obtain ⟨htop, -⟩ := scanMin_none hr
    exact absurd htop hlt.ne
  | some i =>
    obtain ⟨hi, hp, hkey, -, hleast, hfirst⟩ := scanMin_some hr
    have hindex : (updateFillCycle c q).nextFillIndex = i := by
      unfold updateFillCycle
      dsimp only
      rw [hr]
      rfl
    rw [hindex]
    refine ⟨⟨hi, beq_iff_eq.mp hp, fun j hj hret => ?_, fun j hj hret => ?_⟩, hkey.symm⟩
    · exact hleast j hj (beq_iff_eq.mpr hret)
    · exact hfirst j hj (beq_iff_eq.mpr hret)

theorem Outstanding.update (hdistinct : ∀ i < c.mshrSize, ∀ j < c.mshrSize,
      (q.entry i).address ≠ 0 → (q.entry i).address = (q.entry j).address → i = j)
    (hfree : ∀ i < c.mshrSize, (q.entry i).address = 0 → (q.entry i).returned ≠ .completed) :
    Outstanding c (updateFillCycle c q) :=
  ⟨hdistinct, hfree, updateFillCycle_next q⟩

theorem outstanding_new (n : Nat) (l1dWq : Bool) :
    Outstanding c (PacketQueue.new n c.mshrSize l1dWq) where
  distinct := fun _ _ _ _ hne => absurd rfl hne
  free := fun _ _ _ h => nomatch h
  next := fun h => absurd h (Nat.lt_irrefl _)

/-- A free slot takes a request that is not outstanding. -/
theorem Outstanding.allocate (h : Outstanding c q) {e : Packet} (hi : i < c.mshrSize)
    (hslot : (q.entry i).address = 0) (hret : e.returned = .inflight)
    (hfresh : ∀ j < c.mshrSize, (q.entry j).address ≠ e.address) (hentry : q'.entry =
      Function.update q.entry i e) (hcycle : q'.nextFillCycle = q.nextFillCycle)
    (hindex : q'.nextFillIndex = q.nextFillIndex) : Outstanding c q' := by
  have hother : ∀ j, j ≠ i → q'.entry j = q.entry j := fun j hj => by
    rw [hentry, Function.update_of_ne hj]
  have hself : q'.entry i = e := by rw [hentry, Function.update_self]
  have hnone := h.free i hi hslot
  refine ⟨fun j hj k hk hj0 hjk => ?_, fun j hj hj0 => ?_, fun hlt => ?_⟩
  · by_cases hji : j = i
    · by_cases hki : k = i
      · rw [hji, hki]
      · rw [hji, hself, hother k hki] at hjk
        exact absurd hjk.symm (hfresh k hk)
    · by_cases hki : k = i
      · rw [hki, hself, hother j hji] at hjk
        exact absurd hjk (hfresh j hj)
      · rw [hother j hji] at hj0 hjk
        rw [hother k hki] at hjk
        exact h.distinct j hj k hk hj0 hjk
  · by_cases hji : j = i
    · rw [hji, hself, hret]
      exact nofun
    · rw [hother j hji] at hj0 ⊢
      exact h.free j hj hj0
  · obtain ⟨hready, hevent⟩ := h.next (hcycle ▸ hlt)
    rw [hindex, hcycle, hother _ fun hni => hnone (hni ▸ hready.returned)]
    refine ⟨hready.congr (fun j _ => ?_) fun j _ hr => ?_, hevent⟩
    · by_cases hji : j = i
      · rw [hji, hself, hret]
        exact ⟨nofun, fun hr => absurd hr hnone⟩
      · rw [hother j hji]
    · rw [hother j fun hji => hnone (hji ▸ hr)]

/-- An entry is rewritten by a request for its line. -/
theorem Outstanding.rewrite (h : Outstanding c q) {e : Packet}
    (ha : e.address = (q.entry i).address) (hr : e.returned = (q.entry i).returned)
    (ht : e.eventCycle = (q.entry i).eventCycle) : Outstanding c (q.setEntry i e) := by
  have haddress : ∀ j, ((q.setEntry i e).entry j).address = (q.entry j).address := fun j => by
    by_cases hj : j = i <;> simp [hj, ha]
  have hreturned : ∀ j, ((q.setEntry i e).entry j).returned = (q.entry j).returned := fun j => by
    by_cases hj : j = i <;> simp [hj, hr]
  have hcycle : ∀ j, ((q.setEntry i e).entry j).eventCycle = (q.entry j).eventCycle := fun j => by
    by_cases hj : j = i <;> simp [hj, ht]
  refine ⟨fun j hj k hk => ?_, fun j hj => ?_, fun hlt => ?_⟩
  · rw [haddress, haddress]
    exact h.distinct j hj k hk
  · rw [haddress, hreturned]
    exact h.free j hj
  · obtain ⟨hready, hevent⟩ := h.next hlt
    exact ⟨hready.congr (fun j _ => by rw [hreturned]) fun j _ _ => hcycle j,
      (hcycle _).trans hevent⟩

/-- The data of a request outstanding has come. -/
theorem Outstanding.complete (h : Outstanding c q) {e : Packet}
    (ha : e.address = (q.entry i).address) (he : e.address ≠ 0) (n : Nat) :
    Outstanding c (updateFillCycle c { q.setEntry i e with numReturned := n }) := by
  have haddress : ∀ j, ((q.setEntry i e).entry j).address = (q.entry j).address := fun j => by
    by_cases hj : j = i <;> simp [hj, ha]
  refine .update (fun j hj k hk => ?_) fun j hj hj0 => ?_
  · change ((q.setEntry i e).entry j).address ≠ 0 → ((q.setEntry i e).entry j).address =
      ((q.setEntry i e).entry k).address → j = k
    rw [haddress, haddress]
    exact h.distinct j hj k hk
  · change ((q.setEntry i e).entry j).address = 0 at hj0
    change ((q.setEntry i e).entry j).returned ≠ .completed
    by_cases hji : j = i
    · rw [hji] at hj0
      simp only [PacketQueue.setEntry_entry, Function.update_self] at hj0
      exact absurd hj0 he
    · simp only [PacketQueue.setEntry_entry, Function.update_of_ne hji] at hj0 ⊢
      exact h.free j hj hj0

/-- The slot of a fill becomes free. -/
theorem Outstanding.remove (h : Outstanding c q) {n : Nat}
    (hentry : q'.entry = Function.update q.entry i (Packet.empty n)) :
    Outstanding c (updateFillCycle c q') := by
  have hother : ∀ j, j ≠ i → q'.entry j = q.entry j := fun j hj => by
    rw [hentry, Function.update_of_ne hj]
  have hself : q'.entry i = Packet.empty n := by rw [hentry, Function.update_self]
  refine .update (fun j hj k hk hj0 hjk => ?_) fun j hj hj0 => ?_
  · by_cases hji : j = i
    · rw [hji, hself] at hj0
      exact absurd rfl hj0
    · rw [hother j hji] at hj0 hjk
      by_cases hki : k = i
      · rw [hki, hself] at hjk
        exact absurd hjk hj0
      · rw [hother k hki] at hjk
        exact h.distinct j hj k hk hj0 hjk
  · by_cases hji : j = i
    · rw [hji, hself]
      exact nofun
    · rw [hother j hji] at hj0 ⊢
      exact h.free j hj hj0

end Array

section Marks

variable {A : List Nat} {D : Prop} {s s' : State ρ}

theorem write_outstanding (h : Outstanding c s.mshr) (hw : Write c False A D s s') :
    Outstanding c s'.mshr := by
  cases hw with
  | kept hline hmshr hsent => rw [hmshr]; exact h
  | @invalidated a ha =>
    have hmshr : (invalidateEntry c s a).mshr = s.mshr := by
      unfold invalidateEntry
      split <;> rfl
    rw [hmshr]
    exact h
  | filled hfill =>
    rw [(fillCache_valid hfill).2]
    exact h
  | dirtied => exact h
  | @allocated p h0 hfresh hroom =>
    unfold addMshr
    split
    · rename_i i hi
      obtain ⟨hlt, hslot⟩ := checkMshr_some hi
      have hnone : ∀ j < c.mshrSize, (s.mshr.entry j).address ≠ p.address := by
        intro j hj
        simpa using PacketQueue.findFrom_eq_none.mp hfresh j (Nat.zero_le j) hj
      exact h.allocate hlt hslot (e := { p with returned := .inflight }) rfl hnone rfl rfl rfl
    · exact h
  | merged hi ha hr ht => exact h.rewrite ha hr ht
  | @returned _ env p h0 hs =>
    obtain ⟨i, hi, rfl⟩ := Option.map_eq_some_iff.mp hs
    obtain ⟨-, ha⟩ := checkMshr_some hi
    refine h.complete (i := i) (e := { s.mshr.entry i with
      returned := .completed
      data := p.data
      pfMetadata := p.pfMetadata
      eventCycle := env.delay c p.cpu (s.mshr.entry i).eventCycle }) rfl ?_ (s.mshr.numReturned + 1)
    exact ha.trans_ne (h0.resolve_left id)
  | removed hi h0 hs =>
    obtain ⟨q, hq, rfl⟩ := Option.map_eq_some_iff.mp hs
    unfold PacketQueue.removeQueue at hq
    split at hq
    · cases hq
    · cases hq
      exact h.remove rfl

theorem writes_outstanding (h : Outstanding c s.mshr) (hw : Writes c False A D s s') :
    Outstanding c s'.mshr := by
  induction hw with
  | refl => exact h
  | tail _ hw ih => exact write_outstanding ih hw

theorem evictWrite_outstanding (h : Outstanding c s.mshr) (hw : EvictWrite c False A s s') :
    Outstanding c s'.mshr := by
  obtain ⟨t, hevict, u, hwrites, hmarks⟩ := hw
  rw [← hevict.mshr] at h
  exact writes_outstanding (writes_outstanding h hwrites) hmarks

end Marks

/-! ## Fills -/

/-- `s'` holds no line that `s` does not hold, but for `a`. -/
def Admits (s s' : State ρ) (a : Nat) : Prop :=
  ∀ set way, (s'.block set way).valid = true → (s'.block set way).tag = a ∨
    ((s.block set way).valid = true ∧ (s'.block set way).tag = (s.block set way).tag)

/-- The entry at `i`, the first one ready, is taken out and its line comes in. -/
structure Fills (c : Config) (env : Env) (s s' : State ρ) (i : Nat) : Prop where
  ready : FirstReady c s.mshr i
  due : (s.mshr.entry i).eventCycle ≤ env.currentCoreCycle (s.mshr.entry i).cpu
  removed : s'.mshr.entry = Function.update s.mshr.entry i (Packet.empty c.numCpus)
  line : Admits s s' (s.mshr.entry i).address

section Fill

variable {P : Policy c ρ} {env : Env} {s s' : State ρ}

theorem Admits.of_line {a : Nat}
    (h : ∀ set way, (s'.block set way).line = (s.block set way).line) : Admits s s' a := by
  intro set way hv
  exact .inr ⟨(congrArg Line.valid (h set way)).symm.trans hv, congrArg Line.tag (h set way)⟩

theorem fillBlock_admits {set way : Nat} {p : Packet} {r : State ρ × Packet} (hs : Shape c s)
    (h : fillBlock P env s set way p = some r) : Admits s r.1 p.address := by
  obtain ⟨-, -, v, hcalls, hview⟩ := (fillBlock_does (I := True) hs fun _ => trivial).of_eq h
  have hkept := hcalls.undisturbed
  intro set' way' hv
  have hline : (r.1.block set' way').line =
      (v.setLine set way ⟨true, false, p.address, p.address⟩).line set' way' :=
    congrFun (congrFun (congrArg View.line hview) set') way'
  by_cases hat : set' = set ∧ way' = way
  · obtain ⟨rfl, rfl⟩ := hat
    simp only [View.setLine, Function.update_self] at hline
    exact .inl (congrArg Line.tag hline)
  · have hother : (v.setLine set way ⟨true, false, p.address, p.address⟩).line set' way' =
        v.line set' way' := by
      by_cases hset : set' = set
      · subst hset
        have hway : way' ≠ way := fun hway => hat ⟨rfl, hway⟩
        simp only [View.setLine, Function.update_self, Function.update_of_ne hway]
      · simp only [View.setLine, Function.update_of_ne hset]
    rw [hother] at hline
    have hvalid : (v.line set' way').valid = true := (congrArg Line.valid hline).symm.trans hv
    exact .inr ⟨hkept.valid set' way' hvalid,
      (congrArg Line.tag hline).trans (hkept.tag set' way')⟩

theorem Admits.markDirty {a : Nat} (h : Admits s s' a) (set way : Nat) :
    Admits s (markDirty s' set way) a := by
  have hline : ∀ i j, ((Cache.markDirty s' set way).block i j).valid = (s'.block i j).valid ∧
      ((Cache.markDirty s' set way).block i j).tag = (s'.block i j).tag := by
    intro i j
    by_cases hi : i = set
    · subst hi
      by_cases hj : j = way
      · subst hj
        simp [Cache.markDirty, State.setBlock]
      · simp [Cache.markDirty, State.setBlock, hj]
    · simp [Cache.markDirty, State.setBlock, hi]
  intro i j hv
  rw [(hline i j).1] at hv
  rw [(hline i j).2]
  exact h i j hv

theorem fill_arrays {i set way : Nat} {p : Packet} (hs : Shape c s)
    (h : fill P env s i set way p = some s') : Admits s s' p.address ∧
      s'.mshr.entry = Function.update s.mshr.entry i (Packet.empty c.numCpus) := by
  obtain ⟨⟨s₁, q⟩, hs₁, h⟩ := Option.bind_eq_some_iff.mp h
  obtain ⟨s₂, hs₂, h⟩ := Option.bind_eq_some_iff.mp h
  have hmshr₁ : s₁.mshr = s.mshr := (fillBlock_writes (Z := False) (D := False) hs₁).2.1
  have hadmits := fillBlock_admits hs hs₁
  obtain ⟨hblock₂, hmshr₂⟩ := deliver_arrays hs₂
  obtain ⟨q', rfl, hremoved, -⟩ := removeMshr_eq h
  rw [returnUpper_block] at hblock₂
  rw [returnUpper_mshr] at hmshr₂
  have hmarked : Admits s (if c.cacheType = .l1d ∧ q.type = .rfo then markDirty s₁ set way else s₁)
      p.address ∧
      (if c.cacheType = .l1d ∧ q.type = .rfo then markDirty s₁ set way else s₁).mshr = s.mshr := by
    split
    · exact ⟨hadmits.markDirty set way, hmshr₁⟩
    · exact ⟨hadmits, hmshr₁⟩
  refine ⟨fun set' way' hv => ?_, by rw [hremoved.entry, hmshr₂, hmarked.2]⟩
  change (s₂.block set' way').valid = true at hv
  change (s₂.block set' way').tag = _ ∨ _ ∧ (s₂.block set' way').tag = _
  rw [hblock₂] at hv ⊢
  exact hmarked.1 set' way' hv

/-- A fill concerns the entry at `next_fill_index` when its cycle has come. -/
theorem handleFill_arrays (hs : Shape c s) (h : handleFill P env s = some s') :
    (s'.mshr = s.mshr ∧ s'.block = s.block) ∨
      s.mshr.nextFillCycle ≤ env.currentCoreCycle (s.mshr.entry s.mshr.nextFillIndex).cpu ∧
        s'.mshr.entry =
          Function.update s.mshr.entry s.mshr.nextFillIndex (Packet.empty c.numCpus) ∧
        Admits s s' (s.mshr.entry s.mshr.nextFillIndex).address := by
  unfold handleFill at h
  dsimp only at h
  split at h
  · cases h
    exact .inl ⟨rfl, rfl⟩
  · split at h
    · rename_i hcycle
      split at h
      · cases h
      · obtain ⟨⟨way, s₀⟩, hvictim, h⟩ := Option.bind_eq_some_iff.mp h
        obtain ⟨hle, policy, rfl⟩ := findVictim_some hvictim
        split at h
        · obtain ⟨q, rfl, hremoved, -⟩ := removeMshr_eq h
          have hentry := hremoved.entry
          rw [returnUpper_mshr] at hentry
          refine .inr ⟨hcycle, hentry, .of_line fun set' way' => ?_⟩
          change ((returnUpper c _ _ _).block set' way').line = _
          rw [returnUpper_block]
          exact congrFun (congrFun (congrArg View.line (view_updateReplacement ..)) set') way'
        · rename_i hbypass
          have hlt : way < c.numWay := hle.resolve_right fun hw => hbypass hw.symm
          obtain ⟨⟨doFill, s₁⟩, hs₁, h⟩ := Option.bind_eq_some_iff.mp h
          have hevicted := evict_evicted hlt hs₁
          have hmshr : s₁.mshr = s.mshr := hevicted.mshr
          have hblock : s₁.block = s.block := hevicted.block
          cases doFill with
          | false =>
            cases h
            exact .inl ⟨hmshr, hblock⟩
          | true =>
            have hshape₀ : Shape c { s with policy := policy } :=
              hs.of_rings rfl rfl rfl rfl rfl
            have hshape : Shape c s₁ := ((evict_does hshape₀).of_eq hs₁).1
            obtain ⟨hadmits, hentry⟩ := fill_arrays hshape h
            rw [hmshr] at hentry
            refine .inr ⟨hcycle, hentry, fun set' way' hv => ?_⟩
            rw [← hblock]
            exact hadmits set' way' hv
    · cases h
      exact .inl ⟨rfl, rfl⟩

end Fill

/-! ## Runs -/

/-- An act, or a part of one: the start and a round of `handle_read`, a round of
`handle_prefetch`. -/
inductive Piece where
  | act (b : Act)
  | readStart
  | readOne (env : Env)
  | prefetchOne (env : Env)

def piece (P : Policy c ρ) (s : State ρ) : Piece → Option (State ρ)
  | .act b => act P s b
  | .readStart => some { s with readsAvailable := c.maxRead }
  | .readOne env => if Ready c env s.rq then readOne P env s else none
  | .prefetchOne env => if Ready c env s.pq then prefetchOne P env s else none

/-- An act is not a whole cycle, and its packet has another address than 0. -/
def Piece.Proper : Piece → Prop
  | .act b => b.Single ∧ b.NonZero
  | .readStart | .readOne _ | .prefetchOne _ => True

structure WellFormed (c : Config) (s : State ρ) : Prop extends Outstanding c s.mshr where
  occupancy : s.mshr.occupancy = Nat.count (fun i => (s.mshr.entry i).address ≠ 0) c.mshrSize
  le : s.mshr.occupancy ≤ c.mshrSize
  /-- `add_mshr` finds a slot: its callers check this occupancy. -/
  slot : s.mshr.occupancy < c.mshrSize → ∃ i, checkMshr c s 0 = some i

section Runs

variable {P : Policy c ρ} {s s' : State ρ}

theorem serveLoop_pieces {queue : State ρ → PacketQueue} {one : Env → State ρ → Option (State ρ)}
    {mk : Env → Piece} (hmk : ∀ env t, piece P t (mk env) =
      if Ready c env (queue t) then one env t else none) {E : Nat → Env} {n : Nat}
    (h : serveLoop queue one c E n s = some s') :
    ∃ envs : List Env, run (piece P) s (envs.map mk) = some s' := by
  induction n generalizing s with
  | zero =>
    cases h
    exact ⟨[], rfl⟩
  | succ n ih =>
    unfold serveLoop at h
    dsimp only at h
    split at h
    · rename_i hready
      obtain ⟨s₁, hs₁, h⟩ := Option.bind_eq_some_iff.mp h
      have hstep : piece P s (mk (E (c.maxRead - (n + 1)))) = some s₁ := by
        rw [hmk, if_pos hready, hs₁]
      split at h
      · cases h
        exact ⟨[_], by rw [List.map_singleton, run_cons_some hstep]; rfl⟩
      · obtain ⟨envs, henvs⟩ := ih h
        exact ⟨_ :: envs, by rw [List.map_cons, run_cons_some hstep]; exact henvs⟩
    · cases h
      exact ⟨[], rfl⟩

/-- `handle_read` is its start and its rounds. -/
theorem handleRead_pieces {E : Nat → Env} (h : act P s (.read E) = some s') :
    ∃ envs : List Env, run (piece P) s (.readStart :: envs.map .readOne) = some s' :=
  serveLoop_pieces (fun _ _ => rfl) h

theorem handlePrefetch_pieces {E : Nat → Env} (h : act P s (.prefetch E) = some s') :
    ∃ envs : List Env, run (piece P) s (envs.map .prefetchOne) = some s' :=
  serveLoop_pieces (fun _ _ => rfl) h

theorem piece_outstanding (hs : Sound c False s ∧ Outstanding c s.mshr) {t : Piece} (ht : t.Proper)
    (h : piece P s t = some s') : Sound c False s' ∧ Outstanding c s'.mshr := by
  obtain ⟨hs, ho⟩ := hs
  have hsteps : Shape c s' → Steps c Rules.any (view c s) (view c s') → Sound c False s' :=
    fun hshape hv => ⟨hshape, fun p hp => hs.wq p (wq_steps hv hp)⟩
  cases t with
  | act b =>
    exact ⟨sound_act hs ht.1 (.inr ht.2) h,
      evictWrite_outstanding ho (act_writes hs ht.1 (.inr ht.2) h)⟩
  | readStart =>
    cases h
    exact ⟨⟨hs.shape.of_rings rfl rfl rfl rfl rfl, hs.wq⟩, ho⟩
  | readOne env =>
    obtain ⟨hready, h⟩ := Option.ite_none_right_eq_some.mp h
    obtain ⟨hshape, hv⟩ :=
      (readOne_does (R := Rules.any) hs.shape (fun _ => trivial) hready).of_eq h
    exact ⟨hsteps hshape hv, writes_outstanding (D := True) ho (readOne_writes hs.shape hready h)⟩
  | prefetchOne env =>
    obtain ⟨hready, h⟩ := Option.ite_none_right_eq_some.mp h
    obtain ⟨hshape, hv⟩ :=
      (prefetchOne_does (R := Rules.any) hs.shape (fun _ => trivial) hready).of_eq h
    exact ⟨hsteps hshape hv,
      writes_outstanding (D := True) ho (prefetchOne_writes hs.shape hready h)⟩

theorem Sound.wellFormed (hs : Sound c False s) (ho : Outstanding c s.mshr) : WellFormed c s where
  toOutstanding := ho
  occupancy := hs.shape.mshr.occupancy
  le := by
    rw [hs.shape.mshr.occupancy]
    exact Nat.count_le _
  slot := fun hlt => by
    rw [hs.shape.mshr.occupancy] at hlt
    obtain ⟨i, hi, h0⟩ := exists_of_count_lt hlt
    cases hc : checkMshr c s 0 with
    | some j => exact ⟨j, rfl⟩
    | none =>
      have hnone := PacketQueue.findFrom_eq_none.mp hc i (Nat.zero_le i) hi
      exact absurd (beq_eq_false_iff_ne.mp hnone) h0

/-- In every run on addresses other than 0, stopped between any two rounds, the MSHR is well
formed, and a fill before the last cycle removes the first entry that is ready. -/
theorem mshr_wellFormed {ts : List Piece} (hts : ∀ t ∈ ts, t.Proper)
    (h : run (piece P) (State.init P) ts = some s) :
    WellFormed c s ∧ ∀ env s', (∀ cpu, env.currentCoreCycle cpu < u64Max) →
      handleFill P env s = some s' →
      (s'.mshr = s.mshr ∧ s'.block = s.block) ∨ ∃ i, Fills c env s s' i := by
  obtain ⟨hs, ho⟩ := run_invariant (I := fun s => Sound c False s ∧ Outstanding c s.mshr)
    (P := fun _ t => t.Proper) (fun _ _ _ hI ht hs => piece_outstanding hI ht hs)
    ⟨sound_init P, outstanding_new _ _⟩ (along_of_forall hts _) h
  refine ⟨hs.wellFormed ho, fun env s' hclock hfill => ?_⟩
  rcases handleFill_arrays hs.shape hfill with hsame | ⟨hcycle, hentry, hline⟩
  · exact .inl hsame
  · obtain ⟨hready, hevent⟩ := ho.next (hcycle.trans_lt (hclock _))
    exact .inr ⟨_, hready, hevent ▸ hcycle, hentry, hline⟩

/-- A load takes the place of a prefetch whose data has come, and is filled next. -/
theorem mshr_wellFormed_upgraded :
    ∃ s s' : State Unit,
      run (piece (lru (l1d 1 0))) (State.init (lru (l1d 1 0)))
        [.act (.call (.addPq (.quiet 0) (toLine5 .prefetch))), .prefetchOne (.quiet 10),
          .act (.call (.returnData (.quiet 20) (toLine5 .prefetch))),
          .act (.call (.addRq (.quiet 21) (toLine5 .load))), .readOne (.quiet 26)] = some s ∧
      (s.mshr.entry 0).address = 5 ∧ (s.mshr.entry 0).type = .load ∧ WellFormed (l1d 1 0) s ∧
      handleFill (lru (l1d 1 0)) (.quiet 30) s = some s' ∧ (s'.mshr.entry 0).address = 0 ∧
      ∃ i, Fills (l1d 1 0) (.quiet 30) s s' i := by
  have hcheck : (run (piece (lru (l1d 1 0))) (State.init (lru (l1d 1 0)))
      [.act (.call (.addPq (.quiet 0) (toLine5 .prefetch))), .prefetchOne (.quiet 10),
        .act (.call (.returnData (.quiet 20) (toLine5 .prefetch))),
        .act (.call (.addRq (.quiet 21) (toLine5 .load))), .readOne (.quiet 26)]).bind (fun s =>
      (handleFill (lru (l1d 1 0)) (.quiet 30) s).map fun s' =>
        decide ((s.mshr.entry 0).address = 5 ∧ (s.mshr.entry 0).type = .load ∧
          (s'.mshr.entry 0).address = 0)) = some true := by
    decide +kernel
  obtain ⟨s, hs, hc⟩ := Option.bind_eq_some_iff.mp hcheck
  obtain ⟨s', hs', hc⟩ := Option.map_eq_some_iff.mp hc
  obtain ⟨hline, htype, haddress⟩ := of_decide_eq_true hc
  obtain ⟨hwell, hfill⟩ := mshr_wellFormed
    (by simp [Piece.Proper, Act.Single, Act.NonZero, toLine5]) hs
  have hclock : ∀ cpu, (Env.quiet 30).currentCoreCycle cpu < u64Max := fun cpu => by
    show 30 < u64Max
    decide
  refine ⟨s, s', hs, hline, htype, hwell, hs', haddress, ?_⟩
  rcases hfill (.quiet 30) s' hclock hs' with ⟨hmshr, -⟩ | hfills
  · rw [hmshr, hline] at haddress
    cases haddress
  · exact hfills

/-- At cycle `UINT64_MAX` the mark for 'nothing has returned' is a cycle that has come: the load
of line 5 is filled while it is in flight. -/
theorem fill_inflight :
    ∃ s s' : State Unit,
      run (piece (lru (l1d 1 0))) (State.init (lru (l1d 1 0)))
        [.act (.call (.addRq (.quiet 0) (toLine5 .load))), .readOne (.quiet 10)] = some s ∧
      handleFill (lru (l1d 1 0)) (.quiet u64Max) s = some s' ∧
      (s.mshr.entry 0).address = 5 ∧ (s.mshr.entry 0).returned = .inflight ∧
      checkHit (l1d 1 0) s 5 = none ∧ (checkHit (l1d 1 0) s' 5).isSome = true ∧
      ¬ ∃ i, FirstReady (l1d 1 0) s.mshr i := by
  have hcheck : (run (piece (lru (l1d 1 0))) (State.init (lru (l1d 1 0)))
      [.act (.call (.addRq (.quiet 0) (toLine5 .load))), .readOne (.quiet 10)]).bind (fun s =>
      (handleFill (lru (l1d 1 0)) (.quiet u64Max) s).map fun s' =>
        decide ((s.mshr.entry 0).address = 5 ∧ (s.mshr.entry 0).returned = .inflight ∧
          checkHit (l1d 1 0) s 5 = none ∧ (checkHit (l1d 1 0) s' 5).isSome = true ∧
          ∀ i < (l1d 1 0).mshrSize, (s.mshr.entry i).returned ≠ .completed)) = some true := by
    decide +kernel
  obtain ⟨s, hs, hc⟩ := Option.bind_eq_some_iff.mp hcheck
  obtain ⟨s', hs', hc⟩ := Option.map_eq_some_iff.mp hc
  obtain ⟨haddress, hinflight, hmiss, hhit, hnone⟩ := of_decide_eq_true hc
  exact ⟨s, s', hs, hs', haddress, hinflight, hmiss, hhit, fun ⟨i, hi⟩ =>
    hnone i hi.lt hi.returned⟩

end Runs

end Cache
end ChampSim
