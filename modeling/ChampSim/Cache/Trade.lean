import ChampSim.Cache.Arrive

/-!
# ChampSim.Cache.Trade

What each handler of a cache gives to the levels above and asks of the level below.

* `Trade` — a handler keeps to itself, hands the data of one entry up or sends one request down.
* `requestLower_books` — a new miss goes to the level below, which may answer at once.
* `handleFill_trades`, `handleWriteback_trades`, `readOne_trades`, `prefetchOne_trades` — the
  handlers.
-/

namespace ChampSim
namespace Cache

open Lib

variable {ρ : Type} {c : Config}

/-- `answers` are those that the level below gives while it is being called. -/
inductive Trade (c : Config) (answers : List Nat) (b b' : Books) : Prop
  | kept (out : List Call) (hcalls : b'.calls = b.calls ++ out)
    (hout : ∀ k ∈ out, Call.Evicts c k) (howes : ∀ a, b'.owes c a ≤ b.owes c a)
    (hflies : ∀ a, flies c a b.mshr ≤ flies c a b'.mshr)
  | gave (out : List Call) (cpu : Nat) (p : Packet)
    (hcalls : b'.calls = b.calls ++ (out ++ returnCalls c cpu p))
    (hout : ∀ k ∈ out, Call.Evicts c k) (hp : Fits c p) (h0 : p.address ≠ 0)
    (howes : ∀ a, b'.owes c a + weigh c a p ≤ b.owes c a)
    (hflies : ∀ a, flies c a b.mshr ≤ flies c a b'.mshr)
  | asked (k : Call) (p : Packet) (hcalls : b'.calls = b.calls ++ [k])
    (hk : k = .lowerAddRq p ∧ (c.cacheType ≠ .llc → p.fillLevel = fillL1) ∨ k = .lowerAddPq p)
    (hp : Fits c p) (h0 : p.address ≠ 0) (howes : ∀ a, b'.owes c a ≤ b.owes c a)
    (hflies : ∀ a, flies c a b.mshr +
      (if answers = [] ∧ p.address = a ∧ p.fillLevel ≤ c.fillLevel then 1 else 0) ≤
        flies c a b'.mshr)
    (hroom : ∃ i < c.mshrSize, (b.mshr.entry i).address = 0)

theorem Trade.refl {answers : List Nat} (b : Books) : Trade c answers b b :=
  .kept [] (by simp) (by simp) (fun _ => le_refl _) fun _ => le_refl _

section Requests

variable {P : Policy c ρ} {env : Env} {s s' : State ρ} {p : Packet}

/-- Answers touch the entry of their address only. -/
theorem answer_books (h : Tracked c s.mshr) (h0 : p.address ≠ 0)
    (hs' : answer c env s p = some s') :
    ∃ q, s' = { s with mshr := q } ∧ Tracked c q ∧
      (∀ a, mshrOwes c a q = mshrOwes c a s.mshr) ∧
      (∀ a, p.address ≠ a → flies c a q = flies c a s.mshr) ∧ (env.answers = [] → q = s.mshr) := by
  unfold answer at hs'
  have hkeep : ∃ q, s' = { s with mshr := q } ∧ Tracked c q ∧
      (∀ a, mshrOwes c a q = mshrOwes c a s.mshr) ∧
      ∀ a, p.address ≠ a → flies c a q = flies c a s.mshr := by
    refine run_invariant (I := fun t => ∃ q, t = { s with mshr := q } ∧ Tracked c q ∧
        (∀ a, mshrOwes c a q = mshrOwes c a s.mshr) ∧
        ∀ a, p.address ≠ a → flies c a q = flies c a s.mshr) (P := fun _ _ => True) ?_
      ⟨s.mshr, rfl, h, fun _ => rfl, fun _ _ => rfl⟩
      (along_of_forall (A := fun _ => True) (by simp) _) hs'
    rintro _ data t' ⟨q, rfl, hq, howes, hflies⟩ - ht'
    obtain ⟨q', rfl, hq', howes', hle, hge⟩ :=
      returnData_books (p := { p with data := data }) hq h0 ht'
    refine ⟨q', rfl, hq', fun a => (howes' a).trans (howes a), fun a ha => ?_⟩
    have hge := hge a
    rw [if_neg ha, Nat.add_zero] at hge
    exact (le_antisymm (hle a) hge).trans (hflies a ha)
  obtain ⟨q, rfl, hq, howes, hflies⟩ := hkeep
  refine ⟨q, rfl, hq, howes, hflies, fun hnil => ?_⟩
  rw [hnil, run_nil] at hs'
  exact (congrArg State.mshr (Option.some.inj hs')).symm

theorem requestLower_books (h : Shape c s) (hg : Good c s.books)
    (hroom : s.mshr.occupancy < c.mshrSize) (hfresh : checkMshr c s p.address = none)
    (hp : Fits c p) (h0 : p.address ≠ 0) (hs' : requestLower c env s p = some s') :
    ∃ q p', SameRequest p p' ∧ s'.books = { s.books with
        mshr := q
        calls := s.books.calls ++ if c.hasLower then [.lowerAddRq p'] else [] } ∧
      Tracked c q ∧ (∀ a, mshrOwes c a q = mshrOwes c a s.mshr + weigh c a p) ∧
      ∀ a, flies c a s.mshr + (if c.hasLower ∧ env.answers = [] ∧ p.address = a then 1 else 0) ≤
        flies c a q := by
  have hsame : SameRequest p { p with cycleEnqueued := env.currentCoreCycle p.cpu } :=
    ⟨_, _, _, _, _, _, _, rfl⟩
  obtain ⟨q, hadd, hq, howes, hflies⟩ := addMshr_books
    (p := { p with cycleEnqueued := env.currentCoreCycle p.cpu }) hg.mshr h.mshr hroom hfresh
    (hp.same hsame) h0
  have hzero := flies_fresh hfresh
  unfold requestLower at hs'
  dsimp only at hs'
  rw [hadd] at hs'
  split at hs'
  · rename_i hlower
    obtain ⟨q', rfl, hq', howes', hflies', hnil⟩ := answer_books hq h0 hs'
    change ∀ a, mshrOwes c a q' = mshrOwes c a q at howes'
    change ∀ a, p.address ≠ a → flies c a q' = flies c a q at hflies'
    change env.answers = [] → q' = q at hnil
    refine ⟨q', _, hsame, ?_, hq', fun a => ?_, fun a => ?_⟩
    · rw [if_pos hlower]
      rfl
    · rw [howes', howes, weigh_same hsame]
    · by_cases ha : p.address = a
      · subst ha
        by_cases hanswers : env.answers = []
        · rw [hnil hanswers]
          simp only [hlower, hanswers, and_self, if_true]
          have := hflies p.address
          simp only [if_true] at this
          exact this.ge
        · rw [if_neg fun hand => hanswers hand.2.1, hzero]
          exact Nat.zero_le _
      · have := hflies a
        rw [if_neg ha, Nat.add_zero] at this
        rw [if_neg fun hand => ha hand.2.2, hflies' a ha, Nat.add_zero]
        exact this.ge
  · rename_i hlower
    have hkeep : ∀ a, flies c a s.mshr +
        (if c.hasLower ∧ env.answers = [] ∧ p.address = a then 1 else 0) = flies c a s.mshr :=
      fun a => by rw [if_neg fun hand => hlower hand.1, Nat.add_zero]
    split at hs'
    · -- the page walk answers at once
      have hbooks := invalidateAll_books (c := c) env.walkInvalidates { s with mshr := q }
      generalize env.walkInvalidates.foldl (invalidateEntry c) { s with mshr := q } = t
        at hbooks hs'
      have hmshr : t.mshr = q := congrArg Books.mshr hbooks
      obtain ⟨q', rfl, hq', howes', -, hge⟩ := returnData_books (p := { p with
        cycleEnqueued := env.currentCoreCycle p.cpu
        data := env.walk / 2 ^ logPageSize
        eventCycle := env.currentCoreCycle p.cpu }) (hmshr.symm ▸ hq) h0 hs'
      rw [hmshr] at howes' hge
      refine ⟨q', p, SameRequest.refl p, ?_, hq', fun a => ?_, fun a => ?_⟩
      · rw [if_neg hlower, List.append_nil]
        show { t.books with mshr := q' } = _
        rw [hbooks]
        rfl
      · rw [howes', howes, weigh_same hsame]
      · rw [hkeep]
        have hge := hge a
        have := hflies a
        by_cases ha : p.address = a
        · subst ha
          rw [hzero]
          exact Nat.zero_le _
        · change flies c a q ≤ flies c a q' + if p.address = a then 1 else 0 at hge
          rw [if_neg ha] at this hge
          omega
    · cases hs'
      refine ⟨q, p, SameRequest.refl p, ?_, hq, fun a => ?_, fun a => ?_⟩
      · rw [if_neg hlower, List.append_nil]
        rfl
      · rw [howes, weigh_same hsame]
      · rw [hkeep, hflies]
        exact Nat.le_add_right _ _

/-- A new miss asks the level below, when there is one. -/
theorem request_trade {b' : Books} {p' : Packet} {q : PacketQueue} (h : MshrShape c s.mshr)
    (hroom : s.mshr.occupancy < c.mshrSize) (hsame : SameRequest p p') (hp : Fits c p)
    (hlevel : p.fillLevel = fillL1) (h0 : p.address ≠ 0)
    (hcalls : b'.calls = s.books.calls ++ if c.hasLower then [.lowerAddRq p'] else [])
    (hmshr : b'.mshr = q)
    (hflies : ∀ a, flies c a s.mshr +
      (if c.hasLower ∧ env.answers = [] ∧ p.address = a then 1 else 0) ≤ flies c a q)
    (howes : ∀ a, b'.owes c a ≤ s.books.owes c a) : Trade c env.answers s.books b' := by
  subst hmshr
  by_cases hlower : c.hasLower = true
  · rw [if_pos hlower] at hcalls
    refine .asked (.lowerAddRq p') p' hcalls (.inl ⟨rfl, fun _ => ?_⟩) (hp.same hsame)
      (hsame.address ▸ h0) howes (fun a => ?_) ?_
    · obtain ⟨_, _, _, _, _, _, _, rfl⟩ := hsame
      exact hlevel
    · refine le_trans ?_ (hflies a)
      rw [hsame.address]
      split
      · rename_i hand
        rw [if_pos ⟨hlower, hand.1, hand.2.1⟩]
        exact le_refl _
      · exact Nat.le_add_right _ _
    · rw [h.occupancy] at hroom
      obtain ⟨i, hi, hfree⟩ := exists_of_count_lt hroom
      exact ⟨i, hi, not_not.mp hfree⟩
  · rw [if_neg hlower, List.append_nil] at hcalls
    refine .kept [] (by rw [hcalls, List.append_nil]) (by simp) howes fun a => ?_
    exact le_trans (Nat.le_add_right _ _) (hflies a)

end Requests

/-! ## Reads -/

section Reads

variable {P : Policy c ρ} {env : Env} {s s' : State ρ} {p q : Packet} {rest : List Packet}

theorem Good.takeRq {b : Books} (h : Good c b) (hp : b.rq = p :: rest) :
    Good c { b with rq := rest } := by
  refine ⟨fun x hx => h.rq x (hp ▸ List.mem_cons_of_mem _ hx), ?_, h.wq, h.pq, h.mshr,
    h.byFullAddr⟩
  have := h.distinct
  rw [hp, List.map_cons] at this
  exact this.of_cons

theorem readHit_trades {way : Nat} (h : Shape c s) (hg : Good c s.books) (henv : env.Proper c)
    (hp : s.books.rq = p :: rest) (h0 : p.address ≠ 0) (hs' : readHit P env s way p = some s') :
    Good c s'.books ∧ Trade c env.answers s.books s'.books := by
  unfold readHit at hs'
  dsimp only at hs'
  have hsame := withData_same (c := c) p (s.block (c.getSet p.address) way).data
  generalize withData c p (s.block (c.getSet p.address) way).data = q at hsame hs'
  obtain ⟨s₁, hs₁, hs'⟩ := Option.bind_eq_some_iff.mp hs'
  obtain ⟨s₂, hs₂, hs'⟩ := Option.bind_eq_some_iff.mp hs'
  have hb₁ := deliver_books hs₁
  obtain ⟨h₂, hpre⟩ :=
    prefetcherLoad_books ((deliver_does h).of_eq hs₁).1 (hg.of_eq hb₁) henv hs₂
  rw [hb₁] at hpre
  have h₃ := updateReplacement_shape P h₂ (c.getSet p.address) way q
    (s₂.block (c.getSet p.address) way).fullAddr 0 true
  have hb₃ := updateReplacement_books (P := P) s₂ (c.getSet p.address) way q
    (s₂.block (c.getSet p.address) way).fullAddr 0 true
  generalize updateReplacement P s₂ (c.getSet p.address) way q
    (s₂.block (c.getSet p.address) way).fullAddr 0 true = s₃ at h₃ hb₃ hs'
  have h₄ := (returnUpper_does h₃ q.cpu q).1
  have hb₄ := returnUpper_books (c := c) s₃ q.cpu q
  generalize returnUpper c s₃ q.cpu q = s₄ at h₄ hb₄ hs'
  rw [hb₃] at hb₄
  have hp₂ : s₂.books.rq = p :: rest := by
    rw [hpre.rest]
    exact hp
  have hb := popRq_books hs' (h₄.of_rings rfl rfl rfl rfl rfl) hb₄ hp₂
  refine ⟨((hpre.good.takeRq hp₂).withCalls _).of_eq hb, ?_⟩
  have hfits : Fits c p := (hg.rq p (hp ▸ List.mem_cons_self)).1
  refine .gave [] q.cpu q ?_ (by simp) (hfits.same hsame) (hsame.address ▸ h0) (fun a => ?_)
    fun a => ?_
  · rw [hb, hpre.rest]
    rfl
  · have := hpre.owes a
    rw [hb, weigh_same hsame]
    unfold Books.owes
    rw [hp, tally_cons]
    show tally _ rest + tally _ s₂.books.pq + mshrOwes c a s₂.books.mshr + _ ≤ _
    rw [hpre.mshr]
    omega
  · rw [hb]
    show flies c a s.books.mshr ≤ flies c a s₂.books.mshr
    rw [hpre.mshr]

/-- The end of a handled miss: the prefetcher runs and the request leaves `RQ`. -/
theorem finishRead_books (h : Shape c s) (hg : Good c s.books) (henv : env.Proper c)
    (hp : s.books.rq = p :: rest)
    (hs' : (prefetcherLoad c env s q).bind (popRq c) = some s') :
    ∃ pq, s'.books = { s.books with rq := rest, pq := pq } ∧ Good c s'.books ∧
      ∀ a, tally (weigh c a) pq ≤ tally (weigh c a) s.books.pq := by
  obtain ⟨s₁, hs₁, hs'⟩ := Option.bind_eq_some_iff.mp hs'
  obtain ⟨h₁, hpre⟩ := prefetcherLoad_books h hg henv hs₁
  have hp₁ : s₁.books.rq = p :: rest := by
    rw [hpre.rest]
    exact hp
  have hb := popRq_books hs' h₁ rfl hp₁
  refine ⟨s₁.books.pq, ?_, (hpre.good.takeRq hp₁).of_eq hb, hpre.owes⟩
  rw [hb, hpre.rest]

theorem readOne_trades (h : Shape c s) (hg : Good c s.books) (henv : env.Proper c)
    (hready : Ready c env s.rq) (hs' : readOne P env s = some s') :
    Good c s'.books ∧ Trade c env.answers s.books s'.books := by
  obtain ⟨rest, hp⟩ := head_contents h.rq hready.2.2
  have h0 : (s.rq.entry s.rq.head).address ≠ 0 := h.rqLive _ (hp ▸ List.mem_cons_self)
  unfold readOne at hs'
  dsimp only at hs'
  generalize s.rq.entry s.rq.head = p at hp h0 hs'
  change s.books.rq = p :: rest at hp
  obtain ⟨hfits, hlevel⟩ := hg.rq p (hp ▸ List.mem_cons_self)
  have hold : ∀ a, tally (weigh c a) s.books.rq = weigh c a p + tally (weigh c a) rest := by
    intro a
    rw [hp, tally_cons]
  cases hc : checkHit c s p.address with
  | some way =>
    rw [hc] at hs'
    exact readHit_trades h hg henv hp h0 hs'
  | none =>
    rw [hc] at hs'
    dsimp only at hs'
    obtain ⟨⟨handled, s₁⟩, hs₁, hs'⟩ := Option.bind_eq_some_iff.mp hs'
    unfold readMiss at hs₁
    cases hm : checkMshr c s p.address with
    | some i =>
      rw [hm] at hs₁
      cases hs₁
      have h₁ := (mergeMshr_does mergeRead h (fun e he => mergeRead_address he) hm h0).1
      obtain ⟨q, hmerge, hq, howes, hflies⟩ := mergeMshr_books hg.mshr
        (fun e he => ⟨joins_mergeRead he, mergeRead_returned p e⟩) hm hfits h0
      rw [hmerge] at h₁ hs'
      obtain ⟨pq, hb, hgood, hpq⟩ := finishRead_books h₁ (hg.withMshr hq) henv hp hs'
      refine ⟨hgood, .kept [] ?_ (by simp) (fun a => ?_) fun a => ?_⟩
      · rw [hb, List.append_nil]
        rfl
      · have hpq := hpq a
        have howes := howes a
        rw [hb]
        unfold Books.owes
        rw [hold a]
        change _ ≤ tally (weigh c a) s.books.pq at hpq
        change tally (weigh c a) rest + tally (weigh c a) pq + mshrOwes c a q ≤
          _ + mshrOwes c a s.mshr
        omega
      · rw [hb]
        exact (hflies a).ge
    | none =>
      rw [hm] at hs₁
      dsimp only at hs₁
      split at hs₁
      · rename_i hroom
        split at hs₁
        · cases hs₁
          cases hs'
          exact ⟨hg, .refl _⟩
        · obtain ⟨s₂, hs₂, heq⟩ := Option.map_eq_some_iff.mp hs₁
          cases heq
          have h₁ := ((requestLower_does (I := True) h (fun _ => trivial) hroom h0).of_eq hs₂).1
          obtain ⟨q, p', hsame, hb₁, hq, howes, hflies⟩ :=
            requestLower_books h hg hroom hm hfits h0 hs₂
          have hg₁ : Good c s₁.books := ((hg.withMshr hq).withCalls _).of_eq hb₁
          have hp₁ : s₁.books.rq = p :: rest := by
            rw [hb₁]
            exact hp
          obtain ⟨pq, hb, hgood, hpq⟩ := finishRead_books h₁ hg₁ henv hp₁ hs'
          rw [hb₁] at hb hpq
          have howes' : ∀ a, s'.books.owes c a ≤ s.books.owes c a := by
            intro a
            have hpq := hpq a
            have howes := howes a
            rw [hb]
            unfold Books.owes
            rw [hold a]
            change _ ≤ tally (weigh c a) s.books.pq at hpq
            change tally (weigh c a) rest + tally (weigh c a) pq + mshrOwes c a q ≤
              _ + mshrOwes c a s.mshr
            omega
          refine ⟨hgood, request_trade h.mshr hroom hsame hfits hlevel h0 ?_ ?_ hflies howes'⟩
          · rw [hb]
          · rw [hb]
      · split at hs₁
        · cases hs₁
          cases hs'
          exact ⟨hg, .refl _⟩
        · cases hs₁

end Reads

/-! ## Prefetches -/

section Prefetches

variable {P : Policy c ρ} {env : Env} {s s' : State ρ} {p : Packet} {rest : List Packet}

theorem Good.takePq {b : Books} (h : Good c b) (hp : b.pq = p :: rest) :
    Good c { b with pq := rest } :=
  ⟨h.rq, h.distinct, h.wq, fun x hx => h.pq x (hp ▸ List.mem_cons_of_mem _ hx), h.mshr,
    h.byFullAddr⟩

theorem prefetchHit_trades {way : Nat} (h : Shape c s) (hg : Good c s.books) (henv : env.Proper c)
    (hp : s.books.pq = p :: rest) (h0 : p.address ≠ 0)
    (hs' : prefetchHit P env s way p = some s') :
    Good c s'.books ∧ Trade c env.answers s.books s'.books := by
  unfold prefetchHit at hs'
  dsimp only at hs'
  have h₁ := updateReplacement_shape P h (c.getSet p.address) way p
    (s.block (c.getSet p.address) way).fullAddr 0 true
  have hb₁ := updateReplacement_books (P := P) s (c.getSet p.address) way p
    (s.block (c.getSet p.address) way).fullAddr 0 true
  generalize updateReplacement P s (c.getSet p.address) way p
    (s.block (c.getSet p.address) way).fullAddr 0 true = s₁ at h₁ hb₁ hs'
  obtain ⟨⟨s₂, q⟩, hs₂, hs'⟩ := Option.bind_eq_some_iff.mp hs'
  rw [← hb₁] at hp
  obtain ⟨h₂, hpre, p', rest', hp', hsame, ha⟩ :=
    prefetcherPrefetch_books h₁ (hg.of_eq hb₁) henv hp hs₂
  rw [hb₁] at hpre
  dsimp only at h₂ hpre hp' hsame hs'
  have hb := popPq_books hs' (returnUpper_does h₂ q.cpu q).1 (returnUpper_books s₂ q.cpu q) hp'
  refine ⟨((hpre.good.takePq hp').withCalls _).of_eq hb, ?_⟩
  have hfits : Fits c p' := hpre.good.pq p' (hp' ▸ List.mem_cons_self)
  refine .gave [] q.cpu q ?_ (by simp) (hfits.same hsame) ?_ (fun a => ?_) fun a => ?_
  · rw [hb, hpre.rest]
    rfl
  · rw [hsame.address, ha]
    exact h0
  · have hpq := hpre.owes a
    rw [hp', tally_cons] at hpq
    rw [hb, weigh_same hsame, hpre.rest]
    change tally _ s.books.rq + tally _ rest' + mshrOwes c a s.books.mshr + _ ≤
      tally _ s.books.rq + tally _ s.books.pq + mshrOwes c a s.books.mshr
    omega
  · rw [hb]
    show flies c a s.books.mshr ≤ flies c a s₂.books.mshr
    rw [hpre.mshr]

/-- What a prefetch that misses sends down, and the MSHR with the answers. -/
theorem sendPrefetch_books (h : Shape c s) (hg : Good c s.books) (hfits : Fits c p)
    (h0 : p.address ≠ 0) (hfresh : checkMshr c s p.address = none)
    (hroom : s.mshr.occupancy < c.mshrSize)
    (hs' : (let q := if p.fillLevel ≤ c.fillLevel then
        { p with cycleEnqueued := env.currentCoreCycle p.cpu } else p
      answer c env ((if p.fillLevel ≤ c.fillLevel then addMshr c s q else s).call
        (if c.cacheType = .llc then .lowerAddRq q else .lowerAddPq q)) q) = some s') :
    ∃ q k m, SameRequest p q ∧
      (k = .lowerAddRq q ∧ c.cacheType = .llc ∨ k = .lowerAddPq q) ∧ Shape c s' ∧
      s'.books = { s.books with mshr := m, calls := s.books.calls ++ [k] } ∧ Tracked c m ∧
      (∀ a, mshrOwes c a m ≤ mshrOwes c a s.mshr + weigh c a p) ∧
      ∀ a, flies c a s.mshr +
        (if env.answers = [] ∧ p.address = a ∧ p.fillLevel ≤ c.fillLevel then 1 else 0) ≤
          flies c a m := by
  have hkind : ∀ x : Packet, (if c.cacheType = .llc then Call.lowerAddRq x else .lowerAddPq x) =
      .lowerAddRq x ∧ c.cacheType = .llc ∨
        (if c.cacheType = .llc then Call.lowerAddRq x else .lowerAddPq x) = .lowerAddPq x := by
    intro x
    split
    · rename_i hllc
      exact .inl ⟨rfl, hllc⟩
    · exact .inr rfl
  by_cases hfills : p.fillLevel ≤ c.fillLevel
  · simp only [hfills, if_true] at hs'
    have hsame₁ : SameRequest p { p with cycleEnqueued := env.currentCoreCycle p.cpu } :=
      ⟨_, _, _, _, _, _, _, rfl⟩
    obtain ⟨h₂, -⟩ := addMshr_does
      (p := { p with cycleEnqueued := env.currentCoreCycle p.cpu }) h hroom h0
    obtain ⟨m, hadd, hm, howes, hflies⟩ := addMshr_books
      (p := { p with cycleEnqueued := env.currentCoreCycle p.cpu }) hg.mshr h.mshr hroom
      hfresh (hfits.same hsame₁) h0
    rw [hadd] at hs' h₂
    obtain ⟨m', rfl, hm', howes', hflies', hnil⟩ := answer_books hm h0 hs'
    refine ⟨_, _, m', hsame₁, hkind _, ?_, rfl, hm', fun a => ?_, fun a => ?_⟩
    · exact ((answer_does (I := True) (call_shape h₂ _)).of_eq hs').1
    · have howes' : mshrOwes c a m' = mshrOwes c a m := howes' a
      rw [howes', howes, weigh_same hsame₁]
    · by_cases hpa : p.address = a
      · subst hpa
        have hzero := flies_fresh hfresh
        split
        · rename_i hand
          have hm : m' = m := hnil hand.1
          rw [hm, hflies, if_pos rfl]
        · rw [hzero]
          exact Nat.zero_le _
      · have hflies' : flies c a m' = flies c a m := hflies' a hpa
        rw [if_neg fun hand => hpa hand.2.1, hflies', hflies]
        exact Nat.add_le_add_left (Nat.zero_le _) _
  · simp only [hfills, if_false] at hs'
    obtain ⟨m', rfl, hm', howes', hflies', hnil⟩ :=
      answer_books (s := s.call _) hg.mshr h0 hs'
    refine ⟨_, _, m', SameRequest.refl p, hkind p, ?_, rfl, hm', fun a => ?_, fun a => ?_⟩
    · exact ((answer_does (I := True) (call_shape h _)).of_eq hs').1
    · have howes' : mshrOwes c a m' = mshrOwes c a s.mshr := howes' a
      rw [howes']
      exact Nat.le_add_right _ _
    · rw [if_neg fun hand => hfills hand.2.2, Nat.add_zero]
      by_cases hpa : p.address = a
      · subst hpa
        rw [flies_fresh hfresh]
        exact Nat.zero_le _
      · have hflies' : flies c a m' = flies c a s.mshr := hflies' a hpa
        exact hflies'.ge

/-- A prefetch that misses goes to the level below. It takes an MSHR entry when it fills this
level. -/
theorem forwardPrefetch_trades (h : Shape c s) (hg : Good c s.books) (henv : env.Proper c)
    (hp : s.books.pq = p :: rest) (h0 : p.address ≠ 0)
    (hfresh : checkMshr c s p.address = none) (hroom : s.mshr.occupancy < c.mshrSize)
    (hs' : (forwardPrefetch c env s).bind (popPq c) = some s') :
    Good c s'.books ∧ Trade c env.answers s.books s'.books := by
  unfold forwardPrefetch at hs'
  obtain ⟨s₄, hs₄, hs'⟩ := Option.bind_eq_some_iff.mp hs'
  obtain ⟨⟨s₁, q⟩, hs₁, hs₄⟩ := Option.bind_eq_some_iff.mp hs₄
  obtain ⟨h₁, hpre, p', rest', hp', hsame, ha⟩ := prefetcherPrefetch_books h hg henv hp hs₁
  dsimp only at h₁ hpre hp' hsame hs₄
  have hmshr : s₁.mshr = s.mshr := hpre.mshr
  have hfresh₁ : checkMshr c s₁ q.address = none := by
    rw [hsame.address, ha]
    unfold checkMshr at hfresh ⊢
    rw [hmshr]
    exact hfresh
  have hq0 : q.address ≠ 0 := by
    rw [hsame.address, ha]
    exact h0
  have hfits : Fits c q := (hpre.good.pq p' (hp' ▸ List.mem_cons_self)).same hsame
  have hfree : ∃ i < c.mshrSize, (s.books.mshr.entry i).address = 0 := by
    have hroom' := hroom
    rw [h.mshr.occupancy] at hroom'
    obtain ⟨i, hi, hfree⟩ := exists_of_count_lt hroom'
    exact ⟨i, hi, not_not.mp hfree⟩
  have hpq : ∀ a, weigh c a q + tally (weigh c a) rest' ≤ tally (weigh c a) s.books.pq := by
    intro a
    have := hpre.owes a
    rw [hp', tally_cons, ← weigh_same hsame] at this
    exact this
  obtain ⟨q', k, m, hsame', hk, h₄, hb₄, hm, howes, hflies⟩ :=
    sendPrefetch_books h₁ hpre.good hfits hq0 hfresh₁ (hmshr ▸ hroom) hs₄
  have hp₄ : ({ s₁.books with mshr := m, calls := s₁.books.calls ++ [k] } : Books).pq =
      p' :: rest' := hp'
  have hb := popPq_books hs' h₄ hb₄ hp₄
  refine ⟨(((hpre.good.takePq hp').withMshr hm).withCalls _).of_eq hb, ?_⟩
  refine .asked k q' ?_ ?_ (hfits.same hsame') (hsame'.address ▸ hq0) (fun a => ?_) (fun a => ?_)
    hfree
  · rw [hb, hpre.rest]
  · rcases hk with ⟨hk, hllc⟩ | hk
    · exact .inl ⟨hk, fun hne => absurd hllc hne⟩
    · exact .inr hk
  · have hpq := hpq a
    have howes := howes a
    rw [hb, hpre.rest]
    rw [hmshr] at howes
    change tally _ s.books.rq + tally _ rest' + mshrOwes c a m ≤
      tally _ s.books.rq + tally _ s.books.pq + mshrOwes c a s.mshr
    omega
  · have hflies := hflies a
    rw [hmshr] at hflies
    obtain ⟨_, _, _, _, _, _, _, rfl⟩ := hsame'
    rw [hb]
    exact hflies

theorem prefetchOne_trades (h : Shape c s) (hg : Good c s.books) (henv : env.Proper c)
    (hready : Ready c env s.pq) (hs' : prefetchOne P env s = some s') :
    Good c s'.books ∧ Trade c env.answers s.books s'.books := by
  obtain ⟨rest, hp⟩ := head_contents h.pq hready.2.2
  have h0 : (s.pq.entry s.pq.head).address ≠ 0 := h.pqLive _ (hp ▸ List.mem_cons_self)
  unfold prefetchOne at hs'
  dsimp only at hs'
  generalize s.pq.entry s.pq.head = p at hp h0 hs'
  change s.books.pq = p :: rest at hp
  have hfits := hg.pq p (hp ▸ List.mem_cons_self)
  cases hc : checkHit c s p.address with
  | some way =>
    rw [hc] at hs'
    exact prefetchHit_trades h hg henv hp h0 hs'
  | none =>
    rw [hc] at hs'
    dsimp only at hs'
    obtain ⟨⟨handled, s₁⟩, hs₁, hs'⟩ := Option.bind_eq_some_iff.mp hs'
    unfold prefetchMiss at hs₁
    cases hm : checkMshr c s p.address with
    | some i =>
      rw [hm] at hs₁
      cases hs₁
      have h₁ := (mergeMshr_does mergePrefetch h (fun e he => he) hm h0).1
      obtain ⟨q, hmerge, hq, howes, hflies⟩ := mergeMshr_books hg.mshr
        (fun e he => ⟨joins_mergePrefetch p e, rfl⟩) hm hfits h0
      rw [hmerge] at h₁ hs'
      have hb := popPq_books hs' h₁ rfl hp
      refine ⟨((hg.withMshr hq).takePq hp).of_eq hb, .kept [] ?_ (by simp) (fun a => ?_)
        fun a => ?_⟩
      · rw [hb, List.append_nil]
        rfl
      · have howes := howes a
        rw [hb]
        unfold Books.owes
        rw [hp, tally_cons]
        change tally _ s.books.rq + tally _ rest + mshrOwes c a q ≤ _ + mshrOwes c a s.mshr
        omega
      · rw [hb]
        exact (hflies a).ge
    | none =>
      rw [hm] at hs₁
      dsimp only at hs₁
      generalize (if c.cacheType = .llc then env.lowerRqFull p.address
        else env.lowerPqFull p.address) = full at hs₁
      split at hs₁
      · rename_i hroom
        split at hs₁
        · cases full with
          | true =>
            cases hs₁
            cases hs'
            exact ⟨hg, .refl _⟩
          | false =>
            obtain ⟨s₂, hs₂, heq⟩ := Option.map_eq_some_iff.mp hs₁
            cases heq
            have hpop : (forwardPrefetch c env s).bind (popPq c) = some s' := by
              rw [hs₂]
              exact hs'
            exact forwardPrefetch_trades h hg henv hp h0 hm hroom hpop
        · cases hs₁
          have hb := popPq_books hs' h rfl hp
          refine ⟨(hg.takePq hp).of_eq hb, .kept [] ?_ (by simp) (fun a => ?_) fun a => ?_⟩
          · rw [hb, List.append_nil]
          · rw [hb]
            unfold Books.owes
            rw [hp, tally_cons]
            change tally _ s.books.rq + tally _ rest + mshrOwes c a s.mshr ≤
              _ + mshrOwes c a s.mshr
            omega
          · rw [hb]
      · split at hs₁
        · cases hs₁
          cases hs'
          exact ⟨hg, .refl _⟩
        · cases hs₁

end Prefetches

/-! ## Fills -/

section Fills

variable {P : Policy c ρ} {env : Env} {s s' : State ρ} {p : Packet} {i way : Nat}

theorem fillBlock_books {set : Nat} {r : State ρ × Packet} (h : Shape c s) (hg : Good c s.books)
    (henv : env.Proper c) (hr : fillBlock P env s set way p = some r) :
    Shape c r.1 ∧ Prefetches c s.books r.1.books ∧ SameRequest p r.2 := by
  obtain ⟨hshape, hsame, -⟩ := (fillBlock_does (I := True) h fun _ => trivial).of_eq hr
  refine ⟨hshape, ?_, hsame⟩
  unfold fillBlock at hr
  obtain ⟨⟨s₁, q⟩, hs₁, hr⟩ := Option.bind_eq_some_iff.mp hr
  obtain ⟨s₂, hs₂, rfl⟩ := Option.map_eq_some_iff.mp hr
  have hb := fillCache_books hs₂
  rw [updateReplacement_books] at hb
  rw [hb]
  exact (prefetcherFill_books h hg henv hs₁).2.1

/-- Removing a returned entry whose data goes up. -/
theorem remove_trades {out : List Call} {q : Packet} {b : Books} (hg : Good c b)
    (hout : ∀ k ∈ out, Call.Evicts c k) (hi : i < c.mshrSize)
    (h0 : (b.mshr.entry i).address ≠ 0) (hdone : (b.mshr.entry i).returned = .completed)
    (hsame : SameRequest (b.mshr.entry i) q) {b₁ : Books} (hpre : Prefetches c b b₁)
    (hb : s.books = { b₁ with calls := b.calls ++ (out ++ returnCalls c q.cpu q) })
    (hs' : removeMshr c s i = some s') :
    Good c s'.books ∧ Trade c env.answers b s'.books := by
  have hmshr : s.mshr = b.mshr := (congrArg Books.mshr hb).trans hpre.mshr
  rw [← hmshr] at h0 hdone hsame
  obtain ⟨m, rfl, hm, howes, hflies⟩ := removeMshr_books (hmshr ▸ hg.mshr) hi h0 hdone hs'
  have hb' : ({ s with mshr := m } : State ρ).books =
      { b₁ with mshr := m, calls := b.calls ++ (out ++ returnCalls c q.cpu q) } := by
    show { s.books with mshr := m } = _
    rw [hb]
  have hfits : Fits c (s.mshr.entry i) :=
    (hmshr ▸ hg.mshr).fits i _ (slotsOf_some.mpr ⟨hi, h0, rfl⟩)
  refine ⟨((hpre.good.withMshr hm).withCalls _).of_eq hb', .gave out q.cpu q ?_ hout
    (hfits.same hsame) (hsame.address ▸ h0) (fun a => ?_) fun a => ?_⟩
  · rw [hb']
  · have howes := howes a
    have hpq := hpre.owes a
    rw [hmshr] at howes
    rw [hb', weigh_same hsame, hpre.rest, hmshr]
    change tally _ b.rq + tally _ b₁.pq + mshrOwes c a m + _ ≤
      tally _ b.rq + tally _ b.pq + mshrOwes c a b.mshr
    omega
  · rw [hb', ← hmshr]
    exact (hflies a).ge

theorem fill_trades {out : List Call} {s₀ : State ρ} (h : Shape c s) (hg : Good c s₀.books)
    (henv : env.Proper c) (hout : ∀ k ∈ out, Call.Evicts c k)
    (hb : s.books = { s₀.books with calls := s₀.books.calls ++ out }) (hi : i < c.mshrSize)
    (h0 : (s₀.mshr.entry i).address ≠ 0) (hdone : (s₀.mshr.entry i).returned = .completed)
    (hs' : fill P env s i (c.getSet (s₀.mshr.entry i).address) way (s₀.mshr.entry i) = some s') :
    Good c s'.books ∧ Trade c env.answers s₀.books s'.books := by
  unfold fill at hs'
  obtain ⟨⟨s₁, q⟩, hs₁, hs'⟩ := Option.bind_eq_some_iff.mp hs'
  obtain ⟨h₁, hpre, hsame⟩ := fillBlock_books h ((hg.withCalls _).of_eq hb) henv hs₁
  dsimp only at h₁ hpre hsame hs'
  generalize hs₂ : (if c.cacheType = .l1d ∧ q.type = .rfo then
    markDirty s₁ (c.getSet (s₀.mshr.entry i).address) way else s₁) = s₂ at hs'
  have hb₂ : s₂.books = s₁.books := by
    subst hs₂
    split <;> rfl
  obtain ⟨s₃, hs₃, hs'⟩ := Option.bind_eq_some_iff.mp hs'
  have hb₃ := (deliver_books hs₃).trans (returnUpper_books s₂ q.cpu q)
  rw [hb₂] at hb₃
  have hpre₀ : Prefetches c s₀.books { s₁.books with calls := s₀.books.calls } := by
    refine ⟨?_, hpre.good.withCalls _, fun a => ?_, ?_⟩
    · rw [hpre.rest, hb]
    · have := hpre.owes a
      rw [hb] at this
      exact this
    · have := hpre.length
      rw [hb] at this
      exact this
  refine remove_trades hg hout hi h0 hdone hsame hpre₀ ?_ hs'
  rw [hb₃, hpre.rest, hb]
  simp only [List.append_assoc]

theorem handleFill_trades (h : Shape c s) (hg : Good c s.books) (henv : env.Proper c)
    (hs' : handleFill P env s = some s') :
    Good c s'.books ∧ Trade c env.answers s.books s'.books := by
  unfold handleFill at hs'
  dsimp only at hs'
  split at hs'
  · cases hs'
    exact ⟨hg, .refl _⟩
  · rename_i hready
    obtain ⟨hindex, -⟩ := not_or.mp hready
    split at hs'
    · rename_i hcycle
      -- the pointer stands at an entry that has been answered
      have hdone : s.mshr.nextFillIndex < c.mshrSize ∧
          (s.mshr.entry s.mshr.nextFillIndex).returned = .completed := by
        rcases hg.mshr.pointer with hnever | hnone | hdone
        · have := henv.clock (s.mshr.entry s.mshr.nextFillIndex).cpu
          change s.mshr.nextFillCycle = u64Max at hnever
          omega
        · exact absurd hnone hindex
        · exact hdone
      generalize s.mshr.nextFillIndex = i at hs' hdone hindex
      obtain ⟨hi, hdone⟩ := hdone
      have h0 := hg.mshr.completed i hi hdone
      split at hs'
      · cases hs'
      · obtain ⟨⟨way, s₀⟩, hvictim, hs'⟩ := Option.bind_eq_some_iff.mp hs'
        obtain ⟨-, policy, rfl⟩ := findVictim_some hvictim
        replace h : Shape c { s with policy := policy } := h.of_rings rfl rfl rfl rfl rfl
        split at hs'
        · refine remove_trades hg (fun k hk => absurd hk List.not_mem_nil) hi h0 hdone
            (SameRequest.refl _) (.refl hg) ?_ hs'
          rw [returnUpper_books, updateReplacement_books]
          rfl
        · obtain ⟨⟨doFill, s₁⟩, hs₁, hs'⟩ := Option.bind_eq_some_iff.mp hs'
          obtain ⟨out, hout, hb⟩ := evict_books hs₁
          replace hb : s₁.books = { s.books with calls := s.books.calls ++ out } := hb
          have h₁ := ((evict_does h).of_eq hs₁).1
          cases doFill with
          | true => exact fill_trades h₁ hg henv hout hb hi h0 hdone hs'
          | false =>
            cases hs'
            refine ⟨(hg.withCalls _).of_eq hb, .kept out (by rw [hb]) hout (fun a => ?_)
              fun a => ?_⟩
            · rw [hb]
              exact le_refl _
            · rw [hb]
    · cases hs'
      exact ⟨hg, .refl _⟩

end Fills

/-! ## Write-backs -/

section Writebacks

variable {P : Policy c ρ} {env : Env} {s s' : State ρ} {p : Packet} {rest : List Packet}

theorem Good.takeWq {b : Books} (h : Good c b) (hp : b.wq = p :: rest) :
    Good c { b with wq := rest } :=
  ⟨h.rq, h.distinct, fun x hx => h.wq x (hp ▸ List.mem_cons_of_mem _ hx), h.pq, h.mshr,
    h.byFullAddr⟩

theorem writeHit_trades {way : Nat} (h : Shape c s) (hg : Good c s.books)
    (hp : s.books.wq = p :: rest) (hs' : writeHit P s way p = some s') :
    Good c s'.books ∧ Trade c env.answers s.books s'.books := by
  unfold writeHit at hs'
  dsimp only at hs'
  have h₁ := updateReplacement_shape P h (c.getSet p.address) way p
    (s.block (c.getSet p.address) way).fullAddr 0 true
  have hb₁ := updateReplacement_books (P := P) s (c.getSet p.address) way p
    (s.block (c.getSet p.address) way).fullAddr 0 true
  generalize updateReplacement P s (c.getSet p.address) way p
    (s.block (c.getSet p.address) way).fullAddr 0 true = s₁ at h₁ hb₁ hs'
  have hsame := withData_same (c := c) p
    ((markDirty s₁ (c.getSet p.address) way).block (c.getSet p.address) way).data
  generalize withData c p
    ((markDirty s₁ (c.getSet p.address) way).block (c.getSet p.address) way).data = q at hsame hs'
  have hlevel : c.fillLevel ≤ q.fillLevel := by
    obtain ⟨_, _, _, _, _, _, _, rfl⟩ := hsame
    exact (hg.wq p (hp ▸ List.mem_cons_self)).1
  have h₂ := (returnUpper_does (markDirty_shape h₁ (c.getSet p.address) way) p.cpu q).1
  have hb₂ : (returnUpper c (markDirty s₁ (c.getSet p.address) way) p.cpu q).books = s.books := by
    rw [returnUpper_books, returnCalls_of_level hlevel, List.append_nil]
    exact hb₁
  have hb := popWq_books hs' h₂ hb₂ hp
  refine ⟨(hg.takeWq hp).of_eq hb, .kept [] ?_ (by simp) (fun a => ?_) fun a => ?_⟩
  · rw [hb, List.append_nil]
  · rw [hb]
    exact le_refl _
  · rw [hb]

/-- A store of address 0 is merged into a free slot, which stays free. -/
theorem mergeZero_books {i : Nat} (h : Shape c s) (hg : Tracked c s.mshr)
    (hi : checkMshr c s p.address = some i) (hp : p.address = 0) :
    ∃ q, mergeMshr s i mergeWriteback p = { s with mshr := q } ∧ Tracked c q ∧
      slotsOf c q = slotsOf c s.mshr := by
  obtain ⟨hlt, ha⟩ := checkMshr_some hi
  rw [hp] at ha
  have hload : (mergeFill p (s.mshr.entry i)).type = .load := (h.mshr.free i hlt ha).2
  have hmerge : mergeWriteback p (s.mshr.entry i) = mergeFill p (s.mshr.entry i) := by
    unfold mergeWriteback upgrade
    rw [hload]
    rfl
  have h0 : (mergeFill p (s.mshr.entry i)).address = 0 := ha
  have hnone : slotsOf c s.mshr i = none := by simp [slotsOf, ha]
  unfold mergeMshr
  rw [hmerge]
  refine ⟨_, rfl, hg.write hlt rfl (fun hne => absurd h0 hne) (fun hne => absurd h0 hne) ?_ ?_, ?_⟩
  · exact fun hdone => absurd ha (hg.completed i hlt hdone)
  · exact hg.pointer_write rfl rfl rfl fun _ hdone => hdone
  · rw [slotsOf_write hlt rfl, if_neg (not_not_intro h0), ← hnone, Function.update_eq_self]

theorem storeMiss_trades (h : Shape c s) (hg : Good c s.books) (hc : c.cacheType = .l1d)
    (hp : s.books.wq = p :: rest) (hs' : storeMiss c env s p = some s') :
    Good c s'.books ∧ Trade c env.answers s.books s'.books := by
  obtain ⟨hfits, hlevel⟩ := (hg.wq p (hp ▸ List.mem_cons_self)).2 hc
  -- a store owes nothing: the L1D is the first level
  have howed : c.fillLevel ≤ p.fillLevel := (hg.wq p (hp ▸ List.mem_cons_self)).1
  unfold storeMiss at hs'
  cases hm : checkMshr c s p.address with
  | none =>
    rw [hm] at hs'
    dsimp only at hs'
    split at hs'
    · rename_i hroom
      have h0 := address_ne_zero h hm hroom
      obtain ⟨s₁, hs₁, hs'⟩ := Option.bind_eq_some_iff.mp hs'
      have h₁ := ((requestLower_does (I := True) h (fun _ => trivial) hroom h0).of_eq hs₁).1
      obtain ⟨q, p', hsame, hb₁, hq, howes, hflies⟩ :=
        requestLower_books h hg hroom hm hfits h0 hs₁
      have hb := popWq_books hs' h₁ hb₁ hp
      refine ⟨(((hg.takeWq hp).withMshr hq).withCalls _).of_eq hb,
        request_trade h.mshr hroom hsame hfits hlevel h0 ?_ ?_ hflies fun a => ?_⟩
      · rw [hb]
      · rw [hb]
      · have howes := howes a
        rw [weigh_of_level howed a] at howes
        rw [hb]
        exact Nat.add_le_add_left howes.le _
    · split at hs'
      · cases hs'
        exact ⟨hg, .refl _⟩
      · cases hs'
  | some i =>
    rw [hm] at hs'
    dsimp only at hs'
    have hmerged : ∃ q, mergeMshr s i mergeWriteback p = { s with mshr := q } ∧
        Shape c (mergeMshr s i mergeWriteback p) ∧ Tracked c q ∧
        (∀ a, mshrOwes c a q ≤ mshrOwes c a s.mshr) ∧ ∀ a, flies c a q = flies c a s.mshr := by
      by_cases h0 : p.address = 0
      · obtain ⟨q, hmerge, hq, hslots⟩ := mergeZero_books h hg.mshr hm h0
        refine ⟨q, hmerge, (mergeMshr_zero h hm h0).1, hq, fun a => ?_, fun a => ?_⟩
        · unfold mshrOwes
          rw [hslots]
        · unfold flies
          rw [hslots]
      · obtain ⟨q, hmerge, hq, howes, hflies⟩ := mergeMshr_books hg.mshr
          (fun e he => ⟨joins_mergeWriteback he, mergeWriteback_returned p e⟩) hm hfits h0
        refine ⟨q, hmerge, ?_, hq, fun a => ?_, hflies⟩
        · exact (mergeMshr_does mergeWriteback h (fun e he => mergeWriteback_address he) hm h0).1
        · have howes := howes a
          rw [weigh_of_level howed a] at howes
          exact howes
    obtain ⟨q, hmerge, h₁, hq, howes, hflies⟩ := hmerged
    rw [hmerge] at h₁ hs'
    have hb := popWq_books hs' h₁ rfl hp
    refine ⟨((hg.withMshr hq).takeWq hp).of_eq hb, .kept [] ?_ (by simp) (fun a => ?_) fun a => ?_⟩
    · rw [hb, List.append_nil]
      rfl
    · rw [hb]
      exact Nat.add_le_add_left (howes a) _
    · rw [hb]
      exact (hflies a).ge

theorem install_trades (h : Shape c s) (hg : Good c s.books) (henv : env.Proper c)
    (hp : s.books.wq = p :: rest) (hs' : install P env s p = some s') :
    Good c s'.books ∧ Trade c env.answers s.books s'.books := by
  have hlevel : c.fillLevel ≤ p.fillLevel := (hg.wq p (hp ▸ List.mem_cons_self)).1
  unfold install at hs'
  obtain ⟨⟨way, s₀⟩, hvictim, hs'⟩ := Option.bind_eq_some_iff.mp hs'
  obtain ⟨-, policy, rfl⟩ := findVictim_some hvictim
  replace h : Shape c { s with policy := policy } := h.of_rings rfl rfl rfl rfl rfl
  dsimp only at hs'
  split at hs'
  · cases hs'
  · obtain ⟨⟨doFill, s₁⟩, hs₁, hs'⟩ := Option.bind_eq_some_iff.mp hs'
    obtain ⟨out, hout, hb₁⟩ := evict_books hs₁
    replace hb₁ : s₁.books = { s.books with calls := s.books.calls ++ out } := hb₁
    have h₁ := ((evict_does h).of_eq hs₁).1
    have hg₁ : Good c s₁.books := (hg.withCalls _).of_eq hb₁
    dsimp only at hb₁ h₁ hs'
    cases doFill with
    | false =>
      cases hs'
      refine ⟨hg₁, .kept out (by rw [hb₁]) hout (fun a => ?_) fun a => ?_⟩
      · rw [hb₁]
        exact le_refl _
      · rw [hb₁]
    | true =>
      obtain ⟨⟨s₂, q⟩, hs₂, hs'⟩ := Option.bind_eq_some_iff.mp hs'
      obtain ⟨h₂, hpre, hsame⟩ := fillBlock_books h₁ hg₁ henv hs₂
      dsimp only at h₂ hpre hsame hs'
      have hlevel' : c.fillLevel ≤ q.fillLevel := by
        obtain ⟨_, _, _, _, _, _, _, rfl⟩ := hsame
        exact hlevel
      have h₃ := (returnUpper_does (markDirty_shape h₂ (c.getSet p.address) way) q.cpu q).1
      have hb₃ : (returnUpper c (markDirty s₂ (c.getSet p.address) way) q.cpu q).books =
          s₂.books := by
        rw [returnUpper_books, returnCalls_of_level hlevel', List.append_nil]
        rfl
      have hp₂ : s₂.books.wq = p :: rest := by
        rw [hpre.rest, hb₁]
        exact hp
      have hb := popWq_books hs' h₃ hb₃ hp₂
      refine ⟨(hpre.good.takeWq hp₂).of_eq hb, .kept out ?_ hout (fun a => ?_) fun a => ?_⟩
      · rw [hb, hpre.rest, hb₁]
      · have := hpre.owes a
        rw [hb₁] at this
        rw [hb, hpre.rest, hb₁]
        change tally _ s.books.rq + tally _ s₂.books.pq + mshrOwes c a s.books.mshr ≤
          tally _ s.books.rq + tally _ s.books.pq + mshrOwes c a s.books.mshr
        exact Nat.add_le_add_right (Nat.add_le_add_left this _) _
      · rw [hb, hpre.rest, hb₁]

theorem handleWriteback_trades (h : Shape c s) (hg : Good c s.books) (henv : env.Proper c)
    (hs' : handleWriteback P env s = some s') :
    Good c s'.books ∧ Trade c env.answers s.books s'.books := by
  unfold handleWriteback at hs'
  split at hs'
  · rename_i hready
    obtain ⟨rest, hp⟩ := head_contents h.wq hready.2.2
    dsimp only at hs'
    generalize s.wq.entry s.wq.head = p at hp hs'
    change s.books.wq = p :: rest at hp
    cases hc : checkHit c s p.address with
    | some way =>
      rw [hc] at hs'
      exact writeHit_trades h hg hp hs'
    | none =>
      rw [hc] at hs'
      dsimp only at hs'
      split at hs'
      · rename_i hl1d
        exact storeMiss_trades h hg hl1d hp hs'
      · exact install_trades h hg henv hp hs'
  · cases hs'
    exact ⟨hg, .refl _⟩

end Writebacks

end Cache
end ChampSim
