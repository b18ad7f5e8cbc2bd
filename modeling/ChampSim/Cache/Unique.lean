import ChampSim.Cache.Serve

/-!
# ChampSim.Cache.Unique

No set holds a line twice, unless a write-back is installed beside an outstanding miss.

* `Sole`  — the invariant of the view: one way per line, and no line that is also outstanding.
* `sole_step` — each abstract step keeps it when installs respect outstanding misses.
* `InstallsOutstanding` — `handle_writeback` installs a line whose miss is outstanding. It checks
  the MSHR for an RFO of the L1D, and not here.
* `run_tagsUnique` — every run without such an install keeps the tags of every set distinct.
* `install_duplicates` — with one, the fill of the outstanding miss installs the line again.
-/

namespace ChampSim
namespace Cache

open Lib

variable {c : Config}

/-! ## The invariant of the view -/

structure Sole (c : Config) (v : View) : Prop where
  inSet : ∀ set, ∀ way < c.numWay, (v.line set way).valid = true →
    c.getSet (v.line set way).tag = set
  unique : ∀ {address w₁ w₂}, v.Hit c address w₁ → v.Hit c address w₂ → w₁ = w₂
  missing : ∀ {i e}, v.mshr i = some e → v.Miss c e.address
  distinct : ∀ {i j e f}, v.mshr i = some e → v.mshr j = some f → e.address = f.address → i = j

/-- A write-back is installed only when no miss of its line is outstanding. -/
def soleRules : Rules where
  invalidate := True
  install := fun mshr p => ∀ i e, mshr i = some e → e.address ≠ p.address
  mergeStore := fun _ _ => True
  loseStore := True

section Sole

variable {v v' : View}

theorem Sole.hit (h : Sole c v) {set way : Nat} (hway : way < c.numWay)
    (hv : (v.line set way).valid = true) : v.Hit c (v.line set way).tag way := by
  have hset := h.inSet set way hway hv
  exact ⟨hway, by rw [hset]; exact hv, by rw [hset]⟩

/-- Lines may be invalidated; the tags and the addresses in the MSHR stay. -/
theorem Sole.shrink (h : Sole c v)
    (hvalid : ∀ set way, (v'.line set way).valid = true → (v.line set way).valid = true)
    (htag : ∀ set way, (v'.line set way).tag = (v.line set way).tag)
    (hmshr : ∀ i e, v'.mshr i = some e → ∃ e', v.mshr i = some e' ∧ e'.address = e.address) :
    Sole c v' := by
  have hhit : ∀ {address way}, v'.Hit c address way → v.Hit c address way := by
    rintro address way ⟨hw, hv, ht⟩
    exact ⟨hw, hvalid _ _ hv, by rw [← htag]; exact ht⟩
  refine ⟨?_, ?_, ?_, ?_⟩
  · intro set way hway hv
    rw [htag]
    exact h.inSet set way hway (hvalid set way hv)
  · intro address w₁ w₂ h₁ h₂
    exact h.unique (hhit h₁) (hhit h₂)
  · intro i e he way hway
    obtain ⟨e', he', ha⟩ := hmshr i e he
    exact h.missing he' way (ha ▸ hhit hway)
  · intro i j e f he hf haddress
    obtain ⟨e', he', ha⟩ := hmshr i e he
    obtain ⟨f', hf', hb⟩ := hmshr j f hf
    exact h.distinct he' hf' (by rw [ha, hb, haddress])

theorem Sole.undisturbed (h : Sole c v) (hu : Undisturbed v v') : Sole c v' :=
  h.shrink hu.valid hu.tag fun _ e he => ⟨e, hu.mshr ▸ he, rfl⟩

/-- The lines and the MSHR decide. -/
theorem Sole.congr (h : Sole c v) (hline : v'.line = v.line) (hmshr : v'.mshr = v.mshr) :
    Sole c v' :=
  h.shrink (fun _ _ => by rw [hline]; exact id) (fun _ _ => by rw [hline])
    fun _ e he => ⟨e, hmshr ▸ he, rfl⟩

theorem setMshr_some {i j : Nat} {e : Option Packet} {f : Packet}
    (h : (v.setMshr i e).mshr j = some f) : j = i ∧ e = some f ∨ j ≠ i ∧ v.mshr j = some f := by
  by_cases hj : j = i
  · subst hj
    exact .inl ⟨rfl, by simpa [View.setMshr] using h⟩
  · exact .inr ⟨hj, by simpa [View.setMshr, hj] using h⟩

theorem Sole.rewrite (h : Sole c v) {i : Nat} {e q : Packet} (he : v.mshr i = some e)
    (ha : q.address = e.address) : Sole c (v.setMshr i (some q)) := by
  refine h.shrink (fun _ _ => id) (fun _ _ => rfl) fun j f hf => ?_
  rcases setMshr_some hf with ⟨rfl, hq⟩ | ⟨-, hf⟩
  · cases hq
    exact ⟨e, he, ha.symm⟩
  · exact ⟨f, hf, rfl⟩

theorem Sole.free (h : Sole c v) (i : Nat) : Sole c (v.setMshr i none) := by
  refine h.shrink (fun _ _ => id) (fun _ _ => rfl) fun j f hf => ?_
  rcases setMshr_some hf with ⟨-, hq⟩ | ⟨-, hf⟩
  · cases hq
  · exact ⟨f, hf, rfl⟩

theorem Sole.allocate (h : Sole c v) {i : Nat} {q : Packet} (hmiss : v.Miss c q.address)
    (hfresh : v.Fresh q.address) : Sole c (v.setMshr i (some q)) := by
  refine ⟨h.inSet, h.unique, ?_, ?_⟩
  · intro j e he
    rcases setMshr_some he with ⟨-, hq⟩ | ⟨-, he⟩
    · cases hq
      exact hmiss
    · exact h.missing he
  · intro j k e f he hf haddress
    rcases setMshr_some he with ⟨rfl, hq⟩ | ⟨-, he'⟩
    · rcases setMshr_some hf with ⟨rfl, -⟩ | ⟨-, hf'⟩
      · rfl
      · cases hq
        exact absurd haddress.symm (hfresh _ _ hf')
    · rcases setMshr_some hf with ⟨rfl, hq⟩ | ⟨-, hf'⟩
      · cases hq
        exact absurd haddress (hfresh _ _ he')
      · exact h.distinct he' hf' haddress

/-- Writing a line that is neither cached nor outstanding. -/
theorem Sole.write (h : Sole c v) {address w : Nat} {l : Line} (hmiss : v.Miss c address)
    (hfresh : v.Fresh address) (hl : l.tag = address) :
    Sole c (v.setLine (c.getSet address) w l) := by
  have hhit : ∀ {a w'}, (v.setLine (c.getSet address) w l).Hit c a w' →
      a = address ∧ w' = w ∨ v.Hit c a w' := by
    rintro a w' ⟨hw, hv, ht⟩
    rw [setLine_line] at hv ht
    by_cases hset : c.getSet a = c.getSet address ∧ w' = w
    · rw [if_pos hset, hl] at ht
      exact .inl ⟨ht.symm, hset.2⟩
    · rw [if_neg hset] at hv ht
      exact .inr ⟨hw, hv, ht⟩
  refine ⟨?_, ?_, ?_, h.distinct⟩
  · intro set w' hw hv
    rw [setLine_line] at hv ⊢
    by_cases hset : set = c.getSet address ∧ w' = w
    · rw [if_pos hset, hl]
      exact hset.1.symm
    · rw [if_neg hset] at hv ⊢
      exact h.inSet set w' hw hv
  · intro a w₁ w₂ h₁ h₂
    rcases hhit h₁ with ⟨rfl, rfl⟩ | h₁'
    · rcases hhit h₂ with ⟨-, rfl⟩ | h₂'
      · rfl
      · exact absurd h₂' (hmiss w₂)
    · rcases hhit h₂ with ⟨rfl, rfl⟩ | h₂'
      · exact absurd h₁' (hmiss w₁)
      · exact h.unique h₁' h₂'
  · intro i e he w' hw
    rcases hhit hw with ⟨ha, -⟩ | hw
    · exact hfresh i e he ha
    · exact h.missing he w' hw

theorem deliver_line (room : Bool) (p : Packet) : (v.deliver c room p).line = v.line := by
  unfold View.deliver
  split
  · split <;> rfl
  · rfl

theorem deliver_mshr (room : Bool) (p : Packet) : (v.deliver c room p).mshr = v.mshr := by
  unfold View.deliver
  split
  · split <;> rfl
  · rfl

/-- One abstract step. -/
theorem sole_step (h : Sole c v) (hs : Step c soleRules v v') : Sole c v' := by
  cases hs with
  | callback hs => exact h.undisturbed hs.undisturbed
  | answered he hq => exact h.rewrite he hq.address
  | @filled i way e q room he hq hway =>
    -- the entry that is filled leaves the MSHR, so its line is no longer outstanding
    have hfresh : (v.setMshr i none).Fresh e.address := by
      intro j f hf ha
      rcases setMshr_some hf with ⟨-, hq⟩ | ⟨hne, hf⟩
      · cases hq
      · exact hne (h.distinct hf he ha)
    have hwrite := (h.free i).write (l := ⟨true, c.cacheType == .l1d && e.type == .rfo, e.address,
      e.address⟩) (w := way) (h.missing he) hfresh rfl
    exact hwrite.congr (deliver_line room q) (deliver_mshr room q)
  | bypassed he hc => exact h.free _
  | writeHit hp hhit =>
    refine h.shrink ?_ ?_ fun _ e he => ⟨e, he, rfl⟩
    · intro s w hv
      change ((v.setLine _ _ _).line s w).valid = true at hv
      rw [setLine_line] at hv
      split at hv
      · rename_i hsw
        rw [hsw.1, hsw.2]
        exact hv
      · exact hv
    · intro s w
      show ((v.setLine _ _ _).line s w).tag = _
      rw [setLine_line]
      split
      · rename_i hsw
        rw [hsw.1, hsw.2]
      · rfl
  | storeAllocated hp hq hc hmiss hfresh hfree h0 =>
    rw [← hq.address] at hmiss hfresh
    exact (h.allocate hmiss hfresh).congr rfl rfl
  | storeMerged hp hc he ha hR =>
    exact (h.rewrite he ((mergeWriteback_address ha).trans ha.symm)).congr rfl rfl
  | storeLost hp hc h0 hR => exact h.congr rfl rfl
  | installed hp hc hmiss hway hR => exact (h.write hmiss hR rfl).congr rfl rfl
  | readHit room hp hq =>
    exact h.congr (deliver_line room _) (deliver_mshr room _)
  | readAllocated hp hq hmiss hfresh hfree h0 =>
    rw [← hq.address] at hmiss hfresh
    exact (h.allocate hmiss hfresh).congr rfl rfl
  | readMerged hp he ha =>
    exact (h.rewrite he ((mergeRead_address ha).trans ha.symm)).congr rfl rfl
  | prefetchAllocated hp hq hmiss hfresh hfree h0 =>
    rw [← hq.address] at hmiss hfresh
    exact h.allocate hmiss hfresh
  | prefetchMerged hp he ha => exact h.rewrite he rfl
  | prefetchDone hp => exact h.congr rfl rfl

theorem sole_steps (h : Sole c v) (hs : Steps c soleRules v v') : Sole c v' := by
  induction hs with
  | refl => exact h
  | tail _ hs ih => exact sole_step ih hs

theorem sole_effect (h : Sole c v) {o : Op} (he : Effect c soleRules o v v') : Sole c v' := by
  rcases he.steps_or with hs | ⟨hline, hmshr, -⟩
  · exact sole_steps h hs
  · exact h.congr hline hmshr

end Sole

/-! ## Runs of the cache -/

variable {ρ : Type}

/-- Two valid ways of a set hold different tags, and every valid block sits in the set of its
tag. -/
def TagsUnique (c : Config) (s : State ρ) : Prop :=
  (∀ set, ∀ w₁ < c.numWay, ∀ w₂ < c.numWay, w₁ ≠ w₂ → (s.block set w₁).valid = true →
    (s.block set w₂).valid = true → (s.block set w₁).tag ≠ (s.block set w₂).tag) ∧
  ∀ set, ∀ way < c.numWay, (s.block set way).valid = true → c.getSet (s.block set way).tag = set

/-- The head of `WQ`, ready and not cached, is about to be installed while the MSHR of this cache,
which is not an L1D, holds a miss of its line. -/
def InstallsOutstanding (P : Policy c ρ) (env : Env) (s : State ρ) : Prop :=
  let p := s.wq.entry s.wq.head
  c.cacheType ≠ .l1d ∧ Ready c env s.wq ∧ checkHit c s p.address = none ∧ Evicts P env s p ∧
    p.address ≠ 0 ∧ ∃ i < c.mshrSize, (s.mshr.entry i).address = p.address

instance (P : Policy c ρ) (env : Env) (s : State ρ) : Decidable (InstallsOutstanding P env s) :=
  inferInstanceAs (Decidable (_ ∧ _ ∧ _ ∧ _ ∧ _ ∧ _))

/-- In this cycle no write-back is installed beside an outstanding miss of its line. -/
def NoInstallOutstanding (P : Policy c ρ) (s : State ρ) : Op → Prop
  | .operate E => ∀ s₁ ∈ handleFill P E.fill s, ¬ InstallsOutstanding P E.writeback s₁
  | _ => True

instance (P : Policy c ρ) (s : State ρ) (o : Op) : Decidable (NoInstallOutstanding P s o) :=
  match o with
  | .operate E => inferInstanceAs (Decidable (∀ s₁ ∈ handleFill P E.fill s, _))
  | .addRq _ _ | .addWq _ _ | .addPq _ _ | .prefetch _ _ | .returnData _ _ | .invalidateEntry _
  | .complete => inferInstanceAs (Decidable True)

theorem obeys_sole {P : Policy c ρ} {s : State ρ} {o : Op} (h : NoInstallOutstanding P s o) :
    ObeysOp P soleRules s o := by
  cases o with
  | operate E =>
    refine ⟨fun _ => trivial, fun _ => trivial, fun _ _ => trivial, fun _ _ => trivial, ?_⟩
    intro s₁ hs₁ hready hmiss
    split
    · exact fun _ _ => ⟨fun _ => trivial, trivial⟩
    · rename_i hc
      intro hevicts i e he ha
      obtain ⟨hi, h0, rfl⟩ := view_mshr.mp he
      exact h s₁ hs₁ ⟨hc, hready, hmiss, hevicts, ha ▸ h0, i, hi, ha⟩
  | prefetch env k => exact fun _ => trivial
  | _ => trivial

theorem shape_init (P : Policy c ρ) : Shape c (State.init P) where
  rq := inShape_new c.numCpus c.rqSize false
  rqLive := by simp [State.init, PacketQueue.new, Ring.contents]
  wq := inShape_new c.numCpus c.wqSize (c.cacheType == .l1d)
  pq := inShape_new c.numCpus c.pqSize false
  pqLive := by simp [State.init, PacketQueue.new, Ring.contents]
  processed := inShape_new c.numCpus c.processedSize false
  mshr := by
    refine ⟨rfl, ?_, fun _ _ _ => ⟨rfl, rfl⟩⟩
    refine (Nat.eq_zero_of_not_pos fun hpos => ?_).symm
    obtain ⟨i, -, hi⟩ := Nat.count_ne_iff_exists.mp (Nat.ne_of_gt hpos)
    exact hi rfl

theorem sole_init (P : Policy c ρ) : Sole c (view c (State.init P)) where
  inSet := by
    intro set way _ hv
    cases hv
  unique := by
    rintro address w₁ w₂ ⟨_, hv, _⟩
    cases hv
  missing := by
    intro i e he
    obtain ⟨-, h0, -⟩ := view_mshr.mp he
    exact absurd rfl h0
  distinct := by
    intro i j e f he
    obtain ⟨-, h0, -⟩ := view_mshr.mp he
    exact absurd rfl h0

theorem Sole.tagsUnique {s : State ρ} (h : Sole c (view c s)) : TagsUnique c s := by
  refine ⟨?_, h.inSet⟩
  intro set w₁ hw₁ w₂ hw₂ hne hv₁ hv₂ htag
  have h₁ : (view c s).Hit c (s.block set w₁).tag w₁ := h.hit hw₁ hv₁
  have h₂ : (view c s).Hit c (s.block set w₂).tag w₂ := h.hit hw₂ hv₂
  exact hne (h.unique h₁ (htag ▸ h₂))

theorem sole_run {P : Policy c ρ} {ops : List Op} {s : State ρ}
    (hops : Along (step P) (NoInstallOutstanding P) (State.init P) ops)
    (h : run (step P) (State.init P) ops = some s) : Shape c s ∧ Sole c (view c s) := by
  refine run_invariant (I := fun s => Shape c s ∧ Sole c (view c s)) ?_
    ⟨shape_init P, sole_init P⟩ hops h
  rintro s o s' ⟨hshape, hsole⟩ ho hs'
  obtain ⟨hshape', heffect⟩ := (step_does hshape o (obeys_sole ho)).of_eq hs'
  exact ⟨hshape', sole_effect hsole heffect⟩

/-- In every run in which no write-back is installed beside an outstanding miss of its line, the
tags of every set stay distinct. -/
theorem run_tagsUnique (P : Policy c ρ) {ops : List Op} {s : State ρ}
    (hops : Along (step P) (NoInstallOutstanding P) (State.init P) ops)
    (h : run (step P) (State.init P) ops = some s) : TagsUnique c s :=
  (sole_run hops h).2.tagsUnique

/-- A load of the L1D on its way through the L2C. -/
def loadMiss (address : Nat) : Packet :=
  { Packet.empty 1 with
    fillLevel := fillL1
    fillL1d := true
    cpu := 0
    address := address
    fullAddr := address * 64
    eventCycle := 0 }

/-- A dirty line that the L1D has evicted. -/
def evicted (address : Nat) : Packet :=
  { Packet.empty 1 with
    fillLevel := fillL2
    cpu := 0
    address := address
    fullAddr := address * 64
    type := .writeback
    eventCycle := 0 }

/-- A write-back is installed and the miss of another line filled. -/
theorem run_tagsUnique_l2c :
    ∃ s, run (step (lru (l2c 1 0))) (State.init (lru (l2c 1 0)))
      [.addWq (.quiet 0) (evicted 5), .operate (.quiet 20), .addRq (.quiet 20) (loadMiss 6),
        .operate (.quiet 40), .returnData (.quiet 50) (loadMiss 6), .operate (.quiet 60)] = some s ∧
      TagsUnique (l2c 1 0) s := by
  have hsome : (run (step (lru (l2c 1 0))) (State.init (lru (l2c 1 0)))
      [.addWq (.quiet 0) (evicted 5), .operate (.quiet 20), .addRq (.quiet 20) (loadMiss 6),
        .operate (.quiet 40), .returnData (.quiet 50) (loadMiss 6),
        .operate (.quiet 60)]).isSome = true := by decide +kernel
  obtain ⟨s, hs⟩ := Option.isSome_iff_exists.mp hsome
  exact ⟨s, hs, run_tagsUnique (lru (l2c 1 0)) (by decide +kernel) hs⟩

/-- The write-back arrives while the load of its line is outstanding: the line is installed in way
0, and the fill of the load installs it in way 1. -/
theorem install_duplicates :
    ∃ s, run (step (lru (l2c 1 0))) (State.init (lru (l2c 1 0)))
      [.addRq (.quiet 0) (loadMiss 5), .operate (.quiet 20), .addWq (.quiet 20) (evicted 5),
        .operate (.quiet 40), .returnData (.quiet 50) (loadMiss 5), .operate (.quiet 60)] = some s ∧
      ¬ TagsUnique (l2c 1 0) s := by
  have hblocks : (run (step (lru (l2c 1 0))) (State.init (lru (l2c 1 0)))
      [.addRq (.quiet 0) (loadMiss 5), .operate (.quiet 20), .addWq (.quiet 20) (evicted 5),
        .operate (.quiet 40), .returnData (.quiet 50) (loadMiss 5), .operate (.quiet 60)]).map
      (fun s => (((s.block 5 0).valid, (s.block 5 0).tag), (s.block 5 1).valid, (s.block 5 1).tag)) =
      some ((true, 5), true, 5) := by decide +kernel
  obtain ⟨s, hs, hb⟩ := Option.map_eq_some_iff.mp hblocks
  simp only [Prod.mk.injEq] at hb
  obtain ⟨⟨hv₀, ht₀⟩, hv₁, ht₁⟩ := hb
  refine ⟨s, hs, fun h => ?_⟩
  exact h.1 5 0 (by decide) 1 (by decide) (by decide) hv₀ hv₁ (ht₀.trans ht₁.symm)

end Cache
end ChampSim
