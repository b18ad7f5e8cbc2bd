import ChampSim.Cache.Unique

/-!
# ChampSim.Cache.Store

A store that leaves the `WQ` of the L1D is not lost, unless it merges into the miss of a load.

* `Held`, `Stored` — the line is dirty in the cache, or an outstanding miss will make it dirty.
* `Kept`  — it is held, or has been written back since.
* `kept_step`, `held_of_removed` — no step loses a held line, and a store that is served makes its
  line held when it merges into misses of stores and prefetches only.
* `store_kept_iff` — a store that is removed from `WQ` is kept for ever exactly when its merge was
  one of these. `handle_writeback` upgrades a prefetch to the store, but leaves a load a load.
-/

namespace ChampSim
namespace Cache

open Lib

variable {c : Config}

/-! ## Held lines -/

def Held (c : Config) (v : View) (a : Nat) : Prop :=
  (∃ way, v.Hit c a way ∧ (v.line (c.getSet a) way).dirty = true) ∨
    ∃ i e, v.mshr i = some e ∧ e.address = a ∧ e.type = .rfo

/-- Tag and address of a block are written together. -/
def Tagged (v : View) : Prop := ∀ set way, (v.line set way).address = (v.line set way).tag

/-- Stores merge into misses of stores and prefetches; no page is swapped out. -/
def storeRules : Rules where
  invalidate := False
  install := fun _ _ => True
  mergeStore := fun _ e => e.type = .rfo ∨ e.type = .prefetch
  loseStore := False

/-- No page is swapped out. -/
def keepRules : Rules where
  invalidate := False
  install := fun _ _ => True
  mergeStore := fun _ _ => True
  loseStore := True

section View

variable {v v' : View} {R : Rules} {a : Nat}

theorem setLine_tagged {set way : Nat} {l : Line} (h : Tagged v) (hl : l.address = l.tag) :
    Tagged (v.setLine set way l) := by
  intro s w
  rw [setLine_line]
  split
  · exact hl
  · exact h s w

theorem Tagged.congr (h : Tagged v) (hline : v'.line = v.line) : Tagged v' := by
  intro s w
  rw [hline]
  exact h s w

theorem tagged_step (h : Tagged v) (hs : Step c R v v') : Tagged v' := by
  cases hs with
  | callback hs =>
    intro s w
    rw [hs.undisturbed.address, hs.undisturbed.tag]
    exact h s w
  | filled room he hq hway =>
    exact (setLine_tagged h rfl).congr (deliver_line room _)
  | @writeHit p rest way hp hhit =>
    have hl := h (c.getSet p.address) way
    exact (setLine_tagged (l := { v.line (c.getSet p.address) way with dirty := true }) h hl).congr
      rfl
  | installed hp hc hmiss hway hR => exact (setLine_tagged h rfl).congr rfl
  | readHit room hp hq => exact h.congr (deliver_line room _)
  | _ => exact h.congr rfl

theorem Held.congr (h : Held c v a) (hline : v'.line = v.line) (hmshr : v'.mshr = v.mshr) :
    Held c v' a := by
  rcases h with ⟨way, ⟨hw, hv, ht⟩, hd⟩ | ⟨i, e, he⟩
  · exact .inl ⟨way, ⟨hw, by rw [hline]; exact hv, by rw [hline]; exact ht⟩, by rw [hline]; exact hd⟩
  · exact .inr ⟨i, e, by rw [hmshr]; exact he⟩

/-- The entry `i` is rewritten and stays a store if it was one. -/
theorem Held.rewrite (h : Held c v a) {i : Nat} {q : Packet}
    (hq : ∀ e, v.mshr i = some e → e.address = a → e.type = .rfo →
      q.address = a ∧ q.type = .rfo) : Held c (v.setMshr i (some q)) a := by
  rcases h with hline | ⟨j, e, he, ha, ht⟩
  · exact .inl hline
  · by_cases hj : j = i
    · subst hj
      obtain ⟨ha', ht'⟩ := hq e he ha ht
      exact .inr ⟨j, q, by simp [View.setMshr], ha', ht'⟩
    · exact .inr ⟨j, e, by simpa [View.setMshr, hj] using he, ha, ht⟩

theorem Held.allocate (h : Held c v a) {i : Nat} {q : Packet} (hfree : v.mshr i = none) :
    Held c (v.setMshr i (some q)) a :=
  h.rewrite fun e he => absurd (hfree.symm.trans he) (by simp)

/-- A merge changes the type of prefetches only. -/
theorem upgrade_type (p e : Packet) :
    (upgrade p e).type = if e.type = .prefetch then p.type else e.type := by
  unfold upgrade
  split <;> rfl

theorem mergeWriteback_type (p e : Packet) :
    (mergeWriteback p e).type = if e.type = .prefetch then p.type else e.type :=
  upgrade_type p (mergeFill p e)

theorem mergeRead_type (p e : Packet) :
    (mergeRead p e).type = if e.type = .prefetch then p.type else e.type := by
  have h := upgrade_type p (mergeFill p (mergeConsumers p e))
  rw [show (mergeFill p (mergeConsumers p e)).type = e.type from (mergeConsumers_frame p e).2.1] at h
  exact h

theorem Held.merge (h : Held c v a) {i : Nat} {t : PacketType} {e q : Packet}
    (he : v.mshr i = some e) (ha : q.address = e.address)
    (ht : q.type = if e.type = .prefetch then t else e.type) :
    Held c (v.setMshr i (some q)) a := by
  refine h.rewrite fun e' he' ha' hrfo => ?_
  rw [he] at he'
  cases he'
  refine ⟨ha.trans ha', ?_⟩
  rw [ht, hrfo]
  rfl

/-- What happens to a held line: it stays held, or is written back now. -/
def KeptNow (c : Config) (a : Nat) (v v' : View) : Prop :=
  ∃ sent, v'.sent = v.sent ++ sent ∧ (Held c v' a ∨ a ∈ sent)

theorem KeptNow.held (hsent : v'.sent = v.sent) (h : Held c v' a) : KeptNow c a v v' :=
  ⟨[], by simp [hsent], .inl h⟩

theorem deliver_sent (room : Bool) (p : Packet) : (v.deliver c room p).sent = v.sent := by
  unfold View.deliver
  split
  · split <;> rfl
  · rfl

/-- A fill of the L1D: the victim goes to the lower level if it is dirty, and the filled line is
dirty if a store waits for it. -/
theorem kept_filled (hc : c.cacheType = .l1d) (hlower : c.hasLower = true) (htag : Tagged v)
    (h : Held c v a) {i way : Nat} {e : Packet} (he : v.mshr i = some e) (hway : way < c.numWay) :
    KeptNow c a v ((v.replace c (c.getSet e.address) way (c.cacheType == .l1d && e.type == .rfo)
      e).setMshr i none) := by
  have hline : ∀ s w, ((v.replace c (c.getSet e.address) way
      (c.cacheType == .l1d && e.type == .rfo) e).setMshr i none).line s w =
      if s = c.getSet e.address ∧ w = way then
        ⟨true, c.cacheType == .l1d && e.type == .rfo, e.address, e.address⟩ else v.line s w :=
    fun s w => setLine_line v _ _ s w _
  have hsent : ((v.replace c (c.getSet e.address) way (c.cacheType == .l1d && e.type == .rfo)
      e).setMshr i none).sent = v.evicted c (c.getSet e.address) way := rfl
  have hgrow : ∃ new, v.evicted c (c.getSet e.address) way = v.sent ++ new := by
    unfold View.evicted
    split
    · exact ⟨_, rfl⟩
    · exact ⟨[], by simp⟩
  rcases h with ⟨w, ⟨hw, hv, ht⟩, hd⟩ | ⟨j, f, hf, ha, htype⟩
  · by_cases hvictim : c.getSet a = c.getSet e.address ∧ w = way
    · -- the held line is the victim
      obtain ⟨hset, rfl⟩ := hvictim
      refine ⟨[a], ?_, .inr (by simp)⟩
      rw [hsent]
      unfold View.evicted
      rw [← hset, hd, hlower, htag, ht]
      rfl
    · obtain ⟨new, hnew⟩ := hgrow
      refine ⟨new, hsent.trans hnew, .inl (.inl ⟨w, ⟨hw, ?_, ?_⟩, ?_⟩)⟩
      · rw [hline, if_neg hvictim]; exact hv
      · rw [hline, if_neg hvictim]; exact ht
      · rw [hline, if_neg hvictim]; exact hd
  · obtain ⟨new, hnew⟩ := hgrow
    refine ⟨new, hsent.trans hnew, .inl ?_⟩
    by_cases hj : j = i
    · -- the fill of the miss that a store waits for
      subst hj
      rw [he] at hf
      cases hf
      subst ha
      refine .inl ⟨way, ⟨hway, ?_, ?_⟩, ?_⟩
      · rw [hline, if_pos ⟨rfl, rfl⟩]
      · rw [hline, if_pos ⟨rfl, rfl⟩]
      · rw [hline, if_pos ⟨rfl, rfl⟩, hc, htype]
        rfl
    · refine .inr ⟨j, f, ?_, ha, htype⟩
      simpa [View.setMshr, View.replace, View.setLine, hj] using hf

/-- One abstract step of the L1D loses no held line. -/
theorem kept_step (hc : c.cacheType = .l1d) (hlower : c.hasLower = true)
    (hR : ¬ R.invalidate) (htag : Tagged v) (h : Held c v a) (hs : Step c R v v') :
    KeptNow c a v v' := by
  cases hs with
  | callback hs =>
    cases hs with
    | invalidated set way hI => exact absurd hI hR
    | added p hp => exact .held rfl (h.congr rfl rfl)
    | merged k e p he => exact .held rfl (h.congr rfl rfl)
  | answered he hq =>
    refine .held rfl (h.rewrite fun e' he' ha ht => ?_)
    rw [he] at he'
    cases he'
    exact ⟨hq.address.trans ha, hq.type.trans ht⟩
  | filled room he hq hway =>
    obtain ⟨sent, hsent, hkept⟩ := kept_filled hc hlower htag h he hway
    refine ⟨sent, (deliver_sent room _).trans hsent, hkept.imp_left fun hh => ?_⟩
    exact hh.congr (deliver_line room _) (deliver_mshr room _)
  | bypassed he hllc =>
    rw [hc] at hllc
    cases hllc
  | @writeHit p rest way hp hhit =>
    refine .held rfl ?_
    rcases h with ⟨w, ⟨hw, hv, ht⟩, hd⟩ | hmshr
    · have hline : ∀ {α : Type} (f : Line → α), (∀ l : Line, f { l with dirty := true } = f l) →
          f ((v.setLine (c.getSet p.address) way
            { v.line (c.getSet p.address) way with dirty := true }).line (c.getSet a) w) =
          f (v.line (c.getSet a) w) := by
        intro α f hf
        rw [setLine_line]
        split
        · rename_i hsw
          rw [hf, hsw.1, hsw.2]
        · rfl
      refine .inl ⟨w, ⟨hw, ?_, ?_⟩, ?_⟩
      · exact (hline Line.valid fun _ => rfl).trans hv
      · exact (hline Line.tag fun _ => rfl).trans ht
      · show ((v.setLine _ _ _).line _ _).dirty = true
        rw [setLine_line]
        split
        · rfl
        · exact hd
    · exact .inr hmshr
  | storeAllocated hp hq hl1d hmiss hfresh hfree h0 =>
    exact .held rfl ((h.allocate hfree).congr rfl rfl)
  | storeMerged hp hl1d he ha hm =>
    exact .held rfl ((h.merge he ((mergeWriteback_address ha).trans ha.symm)
      (mergeWriteback_type _ _)).congr rfl rfl)
  | storeLost hp hl1d h0 hm => exact .held rfl (h.congr rfl rfl)
  | installed hp hl1d hmiss hway hm => exact absurd hc hl1d
  | readHit room hp hq =>
    exact .held (deliver_sent room _) (h.congr (deliver_line room _) (deliver_mshr room _))
  | readAllocated hp hq hmiss hfresh hfree h0 =>
    exact .held rfl ((h.allocate hfree).congr rfl rfl)
  | readMerged hp he ha =>
    exact .held rfl ((h.merge he ((mergeRead_address ha).trans ha.symm)
      (mergeRead_type _ _)).congr rfl rfl)
  | prefetchAllocated hp hq hmiss hfresh hfree h0 => exact .held rfl (h.allocate hfree)
  | @prefetchMerged p e i hp he ha =>
    refine .held rfl (h.rewrite fun e' he' ha' ht => ?_)
    rw [he] at he'
    cases he'
    exact ⟨ha', ht⟩
  | prefetchDone hp => exact .held rfl (h.congr rfl rfl)

/-- A store that is served makes its line held. -/
theorem held_of_removed (hc : c.cacheType = .l1d) {p : Packet} (hrfo : p.type = .rfo)
    (hs : Step c storeRules v v') (hp : v.wq = p :: v'.wq) : Held c v' p.address := by
  have hsame : v'.wq = v.wq → False := fun heq => by
    rw [heq] at hp
    have := congrArg List.length hp
    simp at this
  have hhead : ∀ {p' rest}, v.wq = p' :: rest → p' = p := fun h =>
    (List.cons.inj (h.symm.trans hp)).1
  cases hs with
  | callback hs => exact (hsame hs.undisturbed.wq).elim
  | answered he hq => exact (hsame rfl).elim
  | filled room he hq hway =>
    refine (hsame ?_).elim
    unfold View.deliver
    split
    · split <;> rfl
    · rfl
  | bypassed he hllc => exact (hsame rfl).elim
  | @writeHit p' rest way hp' hhit =>
    obtain rfl := hhead hp'
    obtain ⟨hw, hv, ht⟩ := hhit
    refine .inl ⟨way, ⟨hw, ?_, ?_⟩, ?_⟩
    · show ((v.setLine _ _ _).line _ _).valid = true
      rw [setLine_get]
      exact hv
    · show ((v.setLine _ _ _).line _ _).tag = _
      rw [setLine_get]
      exact ht
    · show ((v.setLine _ _ _).line _ _).dirty = true
      rw [setLine_get]
  | @storeAllocated p' q rest i hp' hq hl1d hmiss hfresh hfree h0 =>
    obtain rfl := hhead hp'
    exact .inr ⟨i, q, by simp [View.setMshr], hq.address, hq.type.trans hrfo⟩
  | @storeMerged p' e rest i hp' hl1d he ha hm =>
    obtain rfl := hhead hp'
    refine .inr ⟨i, mergeWriteback p' e, by simp [View.setMshr], mergeWriteback_address ha, ?_⟩
    rw [mergeWriteback_type]
    rcases hm with ht | ht
    · rw [ht]
      rfl
    · rw [if_pos ht]
      exact hrfo
  | storeLost hp' hl1d h0 hm => exact hm.elim
  | installed hp' hl1d hmiss hway hm => exact absurd hc hl1d
  | readHit room hp' hq =>
    refine (hsame ?_).elim
    unfold View.deliver
    split
    · split <;> rfl
    · rfl
  | readAllocated | readMerged | prefetchAllocated | prefetchMerged | prefetchDone =>
    exact (hsame rfl).elim

theorem sent_step (hs : Step c R v v') : ∃ sent, v'.sent = v.sent ++ sent := by
  cases hs with
  | callback hs => exact ⟨[], by simp [hs.undisturbed.sent]⟩
  | @filled i way e q room he hq hway =>
    rw [deliver_sent]
    show ∃ sent, v.evicted c (c.getSet e.address) way = v.sent ++ sent
    unfold View.evicted
    split
    · exact ⟨_, rfl⟩
    · exact ⟨[], by simp⟩
  | @installed p rest way hp hc hmiss hway hR =>
    show ∃ sent, v.evicted c (c.getSet p.address) way = v.sent ++ sent
    unfold View.evicted
    split
    · exact ⟨_, rfl⟩
    · exact ⟨[], by simp⟩
  | readHit room hp hq =>
    rw [deliver_sent]
    exact ⟨[], (List.append_nil v.sent).symm⟩
  | _ => exact ⟨[], (List.append_nil v.sent).symm⟩

/-- Once held, a line is kept through every later step. -/
theorem keptNow_steps (hc : c.cacheType = .l1d) (hlower : c.hasLower = true)
    (hR : ¬ R.invalidate) {v₀ : View} (htag : Tagged v) (h : KeptNow c a v₀ v)
    (hs : Steps c R v v') : Tagged v' ∧ KeptNow c a v₀ v' := by
  induction hs with
  | refl => exact ⟨htag, h⟩
  | tail _ hs ih =>
    obtain ⟨htag', sent, hsent, hkept⟩ := ih
    refine ⟨tagged_step htag' hs, ?_⟩
    rcases hkept with hheld | ha
    · obtain ⟨new, hnew, hkept⟩ := kept_step hc hlower hR htag' hheld hs
      refine ⟨sent ++ new, by rw [hnew, hsent, List.append_assoc], ?_⟩
      exact hkept.imp_right fun ha => List.mem_append_right sent ha
    · obtain ⟨new, hnew⟩ := sent_step hs
      exact ⟨sent ++ new, by rw [hnew, hsent, List.append_assoc],
        .inr (List.mem_append_left new ha)⟩

theorem tagged_steps (htag : Tagged v) (hs : Steps c R v v') : Tagged v' := by
  induction hs with
  | refl => exact htag
  | tail _ hs ih => exact tagged_step ih hs

end View

/-! ## Runs of the L1D -/

variable {ρ : Type} {P : Policy c ρ}

/-- The line is valid and dirty, or an outstanding miss of type RFO will make it so. -/
def Stored (c : Config) (s : State ρ) (a : Nat) : Prop :=
  (∃ way < c.numWay, (s.block (c.getSet a) way).valid = true ∧
    (s.block (c.getSet a) way).tag = a ∧ (s.block (c.getSet a) way).dirty = true) ∨
  ∃ i < c.mshrSize, (s.mshr.entry i).address = a ∧ (s.mshr.entry i).type = .rfo

instance (s : State ρ) (a : Nat) : Decidable (Stored c s a) :=
  inferInstanceAs (Decidable (_ ∨ _))

/-- The addresses of the write-backs sent so far. -/
def State.sent (s : State ρ) : List Nat := s.calls.filterMap Call.writeback?

/-- Since the state `s₀`, the line has been sent to the lower level's `WQ`, or it is stored. -/
def Kept (c : Config) (a : Nat) (s₀ s : State ρ) : Prop :=
  Stored c s a ∨ a ∈ s.sent.drop s₀.sent.length

instance (a : Nat) (s₀ s : State ρ) : Decidable (Kept c a s₀ s) :=
  inferInstanceAs (Decidable (_ ∨ _))

theorem stored_iff {s : State ρ} {a : Nat} (h : Shape c s) :
    Stored c s a ↔ Held c (view c s) a := by
  constructor
  · rintro (⟨way, hw, hv, ht, hd⟩ | ⟨i, hi, ha, ht⟩)
    · exact .inl ⟨way, ⟨hw, hv, ht⟩, hd⟩
    · have h0 : (s.mshr.entry i).address ≠ 0 := fun h0 => by
        rw [(h.mshr.free i hi h0).2] at ht
        cases ht
      exact .inr ⟨i, _, view_mshr.mpr ⟨hi, h0, rfl⟩, ha, ht⟩
  · rintro (⟨way, ⟨hw, hv, ht⟩, hd⟩ | ⟨i, e, he, ha, ht⟩)
    · exact .inl ⟨way, hw, hv, ht, hd⟩
    · obtain ⟨hi, -, rfl⟩ := view_mshr.mp he
      exact .inr ⟨i, hi, ha, ht⟩

theorem KeptNow.kept {s₀ s : State ρ} {a : Nat} (hs : Shape c s)
    (h : KeptNow c a (view c s₀) (view c s)) : Kept c a s₀ s := by
  obtain ⟨sent, hsent, hkept⟩ := h
  refine hkept.imp (stored_iff hs).mpr fun ha => ?_
  have hsent : s.sent = s₀.sent ++ sent := hsent
  rw [hsent, List.drop_left]
  exact ha

/-- A page is swapped out during the act. -/
def Act.Invalidates : Act → Prop
  | .call (.operate E) => E.fill.Invalidates ∨ E.writeback.Invalidates ∨
    (∃ k, (E.read k).Invalidates) ∨ ∃ k, (E.prefetch k).Invalidates
  | .call (.prefetch _ k) => k.Invalidates
  | .call (.invalidateEntry _) => True
  | .call (.addRq ..) | .call (.addWq ..) | .call (.addPq ..) | .call (.returnData ..)
  | .call .complete => False
  | .fill env | .writeback env => env.Invalidates
  | .read E | .prefetch E => ∃ k, (E k).Invalidates

theorem obeys_l1d {R : Rules} {env : Env} {s : State ρ} (hc : c.cacheType = .l1d)
    (hlose : R.loseStore) (hmerge : ∀ p e, R.mergeStore p e) : Obeys P R env s := by
  intro hready hmiss
  rw [if_pos hc]
  exact fun i _ => ⟨fun _ => hlose, hmerge _ _⟩

theorem act_l1d {R : Rules} {s : State ρ} (h : Shape c s) (hc : c.cacheType = .l1d) {b : Act}
    (hI : b.Invalidates → R.invalidate) (hlose : R.loseStore) (hmerge : ∀ p e, R.mergeStore p e) :
    Does c (fun v v' => Steps c R v v' ∨ v'.line = v.line ∧ v'.mshr = v.mshr ∧ v'.sent = v.sent)
      s (act P s b) := by
  have hobeys : ∀ {env : Env} {s : State ρ}, Obeys P R env s := obeys_l1d hc hlose hmerge
  cases b with
  | call o =>
    refine (step_does h o ?_).mono fun s' hs' => ⟨hs'.1, hs'.2.steps_or⟩
    cases o with
    | operate E =>
      exact ⟨fun he => hI (.inl he), fun he => hI (.inr (.inl he)),
        fun k he => hI (.inr (.inr (.inl ⟨k, he⟩))), fun k he => hI (.inr (.inr (.inr ⟨k, he⟩))),
        fun _ _ => hobeys⟩
    | prefetch env k => exact hI
    | invalidateEntry a => exact hI trivial
    | _ => trivial
  | fill env => exact (handleFill_does h hI).mono fun s' hs' => ⟨hs'.1, .inl hs'.2⟩
  | writeback env => exact (handleWriteback_does h hI hobeys).mono fun s' hs' => ⟨hs'.1, .inl hs'.2⟩
  | read E =>
    have h' : Shape c { s with readsAvailable := c.maxRead } := h.of_rings rfl rfl rfl rfl rfl
    exact (handleRead_does (fun k he => hI ⟨k, he⟩) h').mono fun s' hs' => ⟨hs'.1, .inl hs'.2⟩
  | prefetch E =>
    exact (handlePrefetch_does (fun k he => hI ⟨k, he⟩) h).mono fun s' hs' => ⟨hs'.1, .inl hs'.2⟩

/-- Every state of an L1D: no line is held twice, and its blocks are tagged. -/
theorem run_l1d (hc : c.cacheType = .l1d) {as : List Act} {s : State ρ}
    (h : run (act P) (State.init P) as = some s) :
    Shape c s ∧ Sole c (view c s) ∧ Tagged (view c s) := by
  refine run_invariant (I := fun s => Shape c s ∧ Sole c (view c s) ∧ Tagged (view c s))
    (P := fun _ _ => True) ?_ ⟨shape_init P, sole_init P, fun _ _ => rfl⟩
    (along_of_forall (A := fun _ => True) (by simp) _) h
  rintro s b s' ⟨hshape, hsole, htag⟩ - hs'
  obtain ⟨hshape', heffect⟩ := (act_l1d (R := soleRules) hshape hc (fun _ => trivial) trivial
    fun _ _ => trivial).of_eq hs'
  rcases heffect with hs | ⟨hline, hmshr, -⟩
  · exact ⟨hshape', sole_steps hsole hs, tagged_steps htag hs⟩
  · exact ⟨hshape', hsole.congr hline hmshr, htag.congr hline⟩

/-- A held line is kept as long as no page is swapped out. -/
theorem run_kept (hc : c.cacheType = .l1d) (hlower : c.hasLower = true) {s s' : State ρ} {a : Nat}
    (hshape : Shape c s) (htag : Tagged (view c s)) (hheld : Held c (view c s) a) {bs : List Act}
    (hbs : ∀ b ∈ bs, ¬ b.Invalidates) (h : run (act P) s bs = some s') : Kept c a s s' := by
  have hinv : Shape c s' ∧ Tagged (view c s') ∧ KeptNow c a (view c s) (view c s') := by
    refine run_invariant
      (I := fun t => Shape c t ∧ Tagged (view c t) ∧ KeptNow c a (view c s) (view c t))
      (P := fun _ b => ¬ b.Invalidates) ?_ ⟨hshape, htag, .held rfl hheld⟩
      (along_of_forall hbs s) h
    rintro t b t' ⟨ht, htag, hkept⟩ hb hs'
    obtain ⟨ht', heffect⟩ := (act_l1d (R := keepRules) ht hc hb trivial fun _ _ => trivial).of_eq hs'
    rcases heffect with hs | ⟨hline, hmshr, hsent⟩
    · exact ⟨ht', keptNow_steps hc hlower id htag hkept hs⟩
    · obtain ⟨sent, hsent', hh⟩ := hkept
      exact ⟨ht', htag.congr hline, sent, hsent.trans hsent',
        hh.imp_left fun hh => hh.congr hline hmshr⟩
  exact hinv.2.2.kept hinv.1

/-- The store that is served misses and merges into a miss of another type than RFO or PREFETCH. -/
def MergesElsewhere (c : Config) (s : State ρ) (p : Packet) : Prop :=
  checkHit c s p.address = none ∧ ∃ i ∈ checkMshr c s p.address,
    (s.mshr.entry i).type ≠ .rfo ∧ (s.mshr.entry i).type ≠ .prefetch

/-- The merge leaves the line to the type of the entry. -/
theorem not_stored_of_merges {s s' : State ρ} {env : Env} {p : Packet} (hc : c.cacheType = .l1d)
    (hshape : Shape c s) (hsole : Sole c (view c s)) (h : handleWriteback P env s = some s')
    (hp : s.wq.contents = p :: s'.wq.contents) (hm : MergesElsewhere c s p) :
    ¬ Stored c s' p.address := by
  have hready : Ready c env s.wq := by
    by_contra hready
    unfold handleWriteback at h
    rw [if_neg hready] at h
    cases h
    have := congrArg List.length hp
    simp at this
  obtain ⟨rest, hhead⟩ := head_contents hshape.wq hready.2.2
  obtain rfl : s.wq.entry s.wq.head = p := (List.cons.inj (hhead.symm.trans hp)).1
  obtain ⟨hhit, i, hi, hrfo, hpf⟩ := hm
  obtain ⟨hlt, ha⟩ := checkMshr_some hi
  unfold handleWriteback storeMiss at h
  rw [Option.mem_def] at hi
  simp only [if_pos hready, hhit, hi, if_pos hc] at h
  obtain ⟨q, -, rfl⟩ := Option.map_eq_some_iff.mp h
  rintro (⟨way, hw, hv, ht, -⟩ | ⟨j, hj, haj, htj⟩)
  · exact checkHit_none hhit way ⟨hw, hv, ht⟩
  · change (Function.update s.mshr.entry i _ j).address = _ at haj
    change (Function.update s.mshr.entry i _ j).type = _ at htj
    by_cases hji : j = i
    · subst hji
      rw [Function.update_self, mergeWriteback_type, if_neg hpf] at htj
      exact hrfo htj
    · rw [Function.update_of_ne hji] at haj htj
      have h0 : (s.mshr.entry j).address ≠ 0 := fun h0 => by
        rw [(hshape.mshr.free j hj h0).2] at htj
        cases htj
      exact hji (hsole.distinct (view_mshr.mpr ⟨hj, h0, rfl⟩)
        (view_mshr.mpr ⟨hlt, by rw [ha, ← haj]; exact h0, rfl⟩) (haj.trans ha.symm))

/-- In every run of the L1D, a store that is removed from `WQ` is kept at every later moment, page
swaps apart, exactly when it did not merge into a miss of another type than RFO or PREFETCH. -/
theorem store_kept_iff (hc : c.cacheType = .l1d) (hlower : c.hasLower = true) {as : List Act}
    {env : Env} {s₁ s₂ : State ρ} {p : Packet} (has : run (act P) (State.init P) as = some s₁)
    (hwb : handleWriteback P env s₁ = some s₂) (henv : ¬ env.Invalidates)
    (hp : s₁.wq.contents = p :: s₂.wq.contents) (hrfo : p.type = .rfo) :
    (∀ bs s₃, (∀ b ∈ bs, ¬ b.Invalidates) → run (act P) s₂ bs = some s₃ →
      Kept c p.address s₂ s₃) ↔ ¬ MergesElsewhere c s₁ p := by
  obtain ⟨hshape, hsole, htag⟩ := run_l1d hc has
  constructor
  · intro hkept hm
    have hnow := hkept [] s₂ (by simp) rfl
    rcases hnow with hstored | hsent
    · exact not_stored_of_merges hc hshape hsole hwb hp hm hstored
    · rw [List.drop_length] at hsent
      cases hsent
  · intro hm bs s₃ hbs h
    have hobeys : Obeys P storeRules env s₁ := by
      intro hready hmiss
      obtain ⟨rest, hhead⟩ := head_contents hshape.wq hready.2.2
      obtain rfl : s₁.wq.entry s₁.wq.head = p := (List.cons.inj (hhead.symm.trans hp)).1
      rw [if_pos hc]
      intro i hi
      have htype : (s₁.mshr.entry i).type = .rfo ∨ (s₁.mshr.entry i).type = .prefetch := by
        by_contra hno
        exact hm ⟨hmiss, i, hi, not_or.mp hno⟩
      refine ⟨fun h0 => ?_, htype⟩
      -- a free slot counts as a load
      obtain ⟨hlt, ha⟩ := checkMshr_some hi
      rw [(hshape.mshr.free i hlt (ha.trans h0)).2] at htype
      rcases htype with ht | ht <;> cases ht
    obtain ⟨hshape₂, w, hw, hquiet⟩ :=
      (handleWriteback_turn hshape (fun he => absurd he henv) hobeys hc).of_eq hwb
    have hwq : (view c s₂).wq = w.wq := hquiet.queues.2.1
    have hstep : Step c storeRules (view c s₁) w := by
      refine hw.resolve_left ?_
      rintro rfl
      have hlen := congrArg List.length (hp.trans (congrArg (p :: ·) hwq))
      simp [view] at hlen
    have hheld : Held c w p.address := by
      refine held_of_removed hc hrfo hstep ?_
      rw [← hwq]
      exact hp
    obtain ⟨htag₂, sent, hsent, hnow⟩ := keptNow_steps hc hlower id (tagged_step htag hstep)
      (.held rfl hheld) (hquiet.steps (c := c) (R := storeRules))
    have hnone : sent = [] := by
      have := hquiet.queues.2.2.symm.trans hsent
      simpa using this
    subst hnone
    exact run_kept hc hlower hshape₂ htag₂ (hnow.resolve_right (by simp)) hbs h

theorem Env.not_invalidates_quiet (t : Nat) : ¬ (Env.quiet t).Invalidates := by
  rintro (⟨k, hk, -⟩ | hw)
  · cases hk
  · exact hw rfl

/-- An access to line 5 by the core: a load, or a store that has retired. -/
def toLine5 (type : PacketType) : Packet :=
  { Packet.empty 1 with
    fillL1d := true
    fillLevel := fillL1
    cpu := 0
    address := 5
    fullAddr := 5 * 64
    type := type
    eventCycle := 0 }

/-- A store that misses is kept, whatever follows. -/
theorem store_kept_iff_miss :
    ∃ s₁ s₂ : State Unit,
      run (act (lru (l1d 1 0))) (State.init (lru (l1d 1 0)))
        [.call (.addWq (.quiet 0) (toLine5 .rfo))] = some s₁ ∧
      handleWriteback (lru (l1d 1 0)) (.quiet 20) s₁ = some s₂ ∧
      ∀ bs s₃, (∀ b ∈ bs, ¬ b.Invalidates) → run (act (lru (l1d 1 0))) s₂ bs = some s₃ →
        Kept (l1d 1 0) 5 s₂ s₃ := by
  have hcheck : (run (act (lru (l1d 1 0))) (State.init (lru (l1d 1 0)))
      [.call (.addWq (.quiet 0) (toLine5 .rfo))]).bind (fun s₁ =>
      (handleWriteback (lru (l1d 1 0)) (.quiet 20) s₁).map fun s₂ =>
        decide (s₁.wq.contents = { toLine5 .rfo with eventCycle := 5 } :: s₂.wq.contents ∧
          checkMshr (l1d 1 0) s₁ 5 = none)) = some true := by decide +kernel
  obtain ⟨s₁, hs₁, hc⟩ := Option.bind_eq_some_iff.mp hcheck
  obtain ⟨s₂, hs₂, hc⟩ := Option.map_eq_some_iff.mp hc
  obtain ⟨hp, hfresh⟩ := of_decide_eq_true hc
  refine ⟨s₁, s₂, hs₁, hs₂, (store_kept_iff rfl rfl hs₁ hs₂ (Env.not_invalidates_quiet 20) hp
    rfl).mpr ?_⟩
  rintro ⟨-, i, hi, -⟩
  rw [Option.mem_def] at hi
  exact absurd (hfresh.symm.trans hi) (by simp)

/-- A store merges into the miss of a load: the fill leaves the line clean, and nothing has been
sent. -/
theorem store_lost :
    ∃ (s₁ s₂ s₃ : State Unit) (p : Packet),
      run (act (lru (l1d 1 0))) (State.init (lru (l1d 1 0)))
        [.call (.addRq (.quiet 0) (toLine5 .load)), .call (.operate (.quiet 20)),
          .call (.addWq (.quiet 20) (toLine5 .rfo))] = some s₁ ∧
      handleWriteback (lru (l1d 1 0)) (.quiet 40) s₁ = some s₂ ∧
      s₁.wq.contents = p :: s₂.wq.contents ∧ p.type = .rfo ∧
      run (act (lru (l1d 1 0))) s₂
        [.call (.returnData (.quiet 50) (toLine5 .load)), .call (.operate (.quiet 60))] = some s₃ ∧
      checkHit (l1d 1 0) s₃ p.address = some 0 ∧ ¬ Kept (l1d 1 0) p.address s₂ s₃ := by
  have hcheck : (run (act (lru (l1d 1 0))) (State.init (lru (l1d 1 0)))
      [.call (.addRq (.quiet 0) (toLine5 .load)), .call (.operate (.quiet 20)),
        .call (.addWq (.quiet 20) (toLine5 .rfo))]).bind (fun s₁ =>
      (handleWriteback (lru (l1d 1 0)) (.quiet 40) s₁).bind fun s₂ =>
        (run (act (lru (l1d 1 0))) s₂
          [.call (.returnData (.quiet 50) (toLine5 .load)), .call (.operate (.quiet 60))]).map
          fun s₃ =>
            let p := s₁.wq.entry s₁.wq.head
            decide (s₁.wq.contents = p :: s₂.wq.contents ∧ p.type = .rfo ∧
              checkHit (l1d 1 0) s₃ p.address = some 0 ∧
              ¬ Kept (l1d 1 0) p.address s₂ s₃)) = some true := by decide +kernel
  obtain ⟨s₁, hs₁, hc⟩ := Option.bind_eq_some_iff.mp hcheck
  obtain ⟨s₂, hs₂, hc⟩ := Option.bind_eq_some_iff.mp hc
  obtain ⟨s₃, hs₃, hc⟩ := Option.map_eq_some_iff.mp hc
  obtain ⟨hp, hrfo, hhit, hlost⟩ := of_decide_eq_true hc
  exact ⟨s₁, s₂, s₃, _, hs₁, hs₂, hp, hrfo, hs₃, hhit, hlost⟩

end Cache
end ChampSim
