import ChampSim.Cache.Books

/-!
# ChampSim.Cache.Arrive

Requests that reach a cache, from the levels above and from its own prefetcher.

* `Books`, `Good`  — queues, MSHR and calls, and the invariant of a cache in the hierarchy.
* `returnCalls`    — the calls that hand data to the levels above.
* `addRq_books`, `addPq_books`, `addWq_books` — a request waits in its queue, or is answered from
  `WQ`.
* `Callback.Proper` — prefetchers ask for levels no closer to the core than their own.
* `Prefetches`     — what a prefetcher adds to `PQ` is owed to nobody.
-/

namespace ChampSim
namespace Cache

open Lib

variable {ρ : Type} {c : Config}

/-! ## The books -/

structure Books where
  rq : List Packet
  wq : List Packet
  pq : List Packet
  mshr : PacketQueue
  calls : List Call
  /-- `RQ` or `PQ` compares full addresses. -/
  byFullAddr : Bool

def State.books (s : State ρ) : Books where
  rq := s.rq.contents
  wq := s.wq.contents
  pq := s.pq.contents
  mshr := s.mshr
  calls := s.calls
  byFullAddr := s.rq.l1dWq || s.pq.l1dWq

/-- What the entries owe to the levels above at the address `a`. -/
def Books.owes (c : Config) (a : Nat) (b : Books) : Nat :=
  tally (weigh c a) b.rq + tally (weigh c a) b.pq + mshrOwes c a b.mshr

structure Good (c : Config) (b : Books) : Prop where
  rq : ∀ p ∈ b.rq, Fits c p ∧ p.fillLevel = fillL1
  distinct : (b.rq.map Packet.address).Nodup
  wq : ∀ p ∈ b.wq, c.fillLevel ≤ p.fillLevel ∧
    (c.cacheType = .l1d → Fits c p ∧ p.fillLevel = fillL1)
  pq : ∀ p ∈ b.pq, Fits c p
  mshr : Tracked c b.mshr
  byFullAddr : b.byFullAddr = false

theorem Good.of_eq {b b' : Books} (h : Good c b') (hb : b = b') : Good c b := hb ▸ h

theorem Good.withCalls {b : Books} (h : Good c b) (calls : List Call) :
    Good c { b with calls := calls } :=
  ⟨h.rq, h.distinct, h.wq, h.pq, h.mshr, h.byFullAddr⟩

theorem Good.withMshr {b : Books} (h : Good c b) {q : PacketQueue} (hq : Tracked c q) :
    Good c { b with mshr := q } :=
  ⟨h.rq, h.distinct, h.wq, h.pq, hq, h.byFullAddr⟩

/-- The calls on the levels above that hand them the data of `p`. -/
def returnCalls (c : Config) (cpu : Nat) (p : Packet) : List Call :=
  if p.fillLevel < c.fillLevel then
    (if (if c.fillLevel = fillL2 then p.fillL1i else p.instruction) then [.returnIcache cpu p]
      else []) ++
    if (if c.fillLevel = fillL2 then p.fillL1d else p.isData) then [.returnDcache cpu p] else []
  else []

theorem returnCalls_of_level {p : Packet} (h : c.fillLevel ≤ p.fillLevel) (cpu : Nat) :
    returnCalls c cpu p = [] :=
  if_neg (Int.not_lt.mpr h)

/-! ## What leaves the books alone -/

section Parts

variable {P : Policy c ρ} {env : Env} {s s' : State ρ} {p : Packet}

theorem updateReplacement_books (s : State ρ) (set way : Nat) (p : Packet)
    (fullAddr victimAddr : Nat) (hit : Bool) :
    (updateReplacement P s set way p fullAddr victimAddr hit).books = s.books := rfl

theorem returnUpper_books (s : State ρ) (cpu : Nat) (p : Packet) :
    (returnUpper c s cpu p).books =
      { s.books with calls := s.books.calls ++ returnCalls c cpu p } := by
  unfold returnUpper returnCalls
  split
  · dsimp only
    generalize (if c.fillLevel = fillL2 then p.fillL1i else p.instruction) = toIcache
    generalize (if c.fillLevel = fillL2 then p.fillL1d else p.isData) = toDcache
    cases toIcache <;> cases toDcache <;> simp [State.books, State.call]
  · simp

theorem fillCache_books {set way : Nat} (h : fillCache c s set way p = some s') :
    s'.books = s.books := by
  unfold fillCache at h
  split at h
  · cases h
  · cases h
    rfl

theorem process_books (h : process s p = some s') : s'.books = s.books := by
  unfold process at h
  split at h
  · obtain ⟨q, -, rfl⟩ := Option.map_eq_some_iff.mp h
    rfl
  · cases h
    rfl

theorem deliver_books (h : deliver c s p = some s') : s'.books = s.books := by
  unfold deliver at h
  split at h
  · exact process_books h
  · exact process_books h
  · exact process_books h
  · split at h
    · cases h
      rfl
    · exact process_books h
  · cases h
    rfl

theorem removeQueue_l1dWq {n i : Nat} {q q' : PacketQueue} (h : q.removeQueue n i = some q') :
    q'.l1dWq = q.l1dWq := by
  unfold PacketQueue.removeQueue at h
  split at h
  · cases h
  · cases h
    rfl

theorem popRq_books {b : Books} {rest : List Packet} (hs' : popRq c s = some s') (h : Shape c s)
    (hb : s.books = b) (hp : b.rq = p :: rest) : s'.books = { b with rq := rest } := by
  subst hb
  obtain ⟨q, hq, rfl⟩ := Option.map_eq_some_iff.mp hs'
  obtain ⟨-, hrest, -⟩ := popQueue h.rq hp hq
  unfold State.books
  rw [hrest, removeQueue_l1dWq hq]

theorem popPq_books {b : Books} {rest : List Packet} (hs' : popPq c s = some s') (h : Shape c s)
    (hb : s.books = b) (hp : b.pq = p :: rest) : s'.books = { b with pq := rest } := by
  subst hb
  obtain ⟨q, hq, rfl⟩ := Option.map_eq_some_iff.mp hs'
  obtain ⟨-, hrest, -⟩ := popQueue h.pq hp hq
  unfold State.books
  rw [hrest, removeQueue_l1dWq hq]

theorem popWq_books {b : Books} {rest : List Packet} (hs' : popWq c s = some s') (h : Shape c s)
    (hb : s.books = b) (hp : b.wq = p :: rest) : s'.books = { b with wq := rest } := by
  subst hb
  obtain ⟨q, hq, rfl⟩ := Option.map_eq_some_iff.mp hs'
  obtain ⟨-, hrest, -⟩ := popQueue h.wq hp hq
  unfold State.books
  rw [hrest]

/-- A call that a victim causes. -/
def Call.Evicts (c : Config) : Call → Prop
  | .lowerAddWq p => p.fillLevel = c.fillLevel * 2
  | .lowerWqFull _ => True
  | .lowerAddRq _ | .lowerAddPq _ | .returnIcache _ _ | .returnDcache _ _ => False

theorem evict_books {set way : Nat} {r : Bool × State ρ}
    (h : evict c env s set way p = some r) :
    ∃ out, (∀ k ∈ out, Call.Evicts c k) ∧
      r.2.books = { s.books with calls := s.books.calls ++ out } := by
  unfold evict at h
  dsimp only at h
  split at h
  · split at h
    · split at h
      · cases h
        exact ⟨[_], by simp [Call.Evicts], rfl⟩
      · cases h
        exact ⟨[_], by simp [Call.Evicts], rfl⟩
    · split at h
      · cases h
      · cases h
        exact ⟨[], by simp, by simp⟩
  · cases h
    exact ⟨[], by simp, by simp⟩

theorem invalidateAll_books (as : List Nat) (s : State ρ) :
    (as.foldl (invalidateEntry c) s).books = s.books := by
  induction as generalizing s with
  | nil => rfl
  | cons a as ih =>
    rw [List.foldl_cons, ih]
    unfold invalidateEntry
    split <;> rfl

end Parts

/-! ## Requests arrive -/

section Arrivals

variable {env : Env} {s s' : State ρ} {p : Packet}

theorem forwardFromWq_books (s : State ρ) (i : Nat) (p : Packet) :
    ∃ q, SameRequest p q ∧ (forwardFromWq c s i p).2 = q ∧ (forwardFromWq c s i p).1.books =
      { s.books with calls := s.books.calls ++ returnCalls c p.cpu q } := by
  unfold forwardFromWq
  split
  · refine ⟨{ p with data := (s.wq.entry i).data }, ⟨_, _, _, _, _, _, _, rfl⟩, rfl, ?_⟩
    exact returnUpper_books s p.cpu _
  · rename_i hlevel
    refine ⟨p, SameRequest.refl p, rfl, ?_⟩
    simp [returnCalls, hlevel]

/-- The entry that `check_queue` finds when it compares addresses. -/
theorem checkQueue_address {size i : Nat} {q : PacketQueue} (h : InShape size q)
    (hkey : q.l1dWq = false) (hi : q.checkQueue p = some i) :
    ∃ k, q.contents[k]? = some (q.entry i) ∧ (q.entry i).address = p.address ∧
      ∀ x, (q.setEntry i x).contents = q.contents.set k x := by
  obtain ⟨k, hk, rfl, hsame⟩ := checkQueue_some h.wf hi
  refine ⟨k, Ring.getElem?_contents hk, ?_, fun x => setEntry_contents h.wf hk x⟩
  unfold PacketQueue.sameKey at hsame
  rw [hkey] at hsame
  simpa using hsame

/-- Without a hit no entry has the address. -/
theorem checkQueue_none {size : Nat} {q : PacketQueue} (h : InShape size q)
    (hkey : q.l1dWq = false) (hi : q.checkQueue p = none) :
    ∀ x ∈ q.contents, x.address ≠ p.address := by
  intro x hx
  obtain ⟨k, hk, rfl⟩ := Ring.mem_contents.mp hx
  have hsame : ∀ j, q.sameKey p j = false → (q.entry j).address ≠ p.address := by
    intro j hj
    unfold PacketQueue.sameKey at hj
    rw [hkey] at hj
    simpa using hj
  have htail := h.wf.tail_eq
  have hsize := h.wf.size_pos (by omega)
  have hhead := h.wf.head_lt hsize
  have hocc := h.wf.occ_le
  refine hsame _ ?_
  unfold PacketQueue.checkQueue at hi
  split at hi
  · omega
  · split at hi
    · refine PacketQueue.findFrom_eq_none.mp hi _ ?_ ?_
      · unfold Ring.idx at *
        split at htail <;> split <;> omega
      · unfold Ring.idx at *
        split at htail <;> split <;> omega
    · obtain ⟨hhigh, hlow⟩ := Option.or_eq_none_iff.mp hi
      by_cases hwrap : q.head + k < q.size
      · refine PacketQueue.findFrom_eq_none.mp hhigh _ ?_ ?_
        · unfold Ring.idx
          rw [if_pos hwrap]
          omega
        · unfold Ring.idx
          rw [if_pos hwrap]
          omega
      · refine PacketQueue.findFrom_eq_none.mp hlow _ (Nat.zero_le _) ?_
        unfold Ring.idx at *
        rw [if_neg hwrap]
        split at htail <;> omega

theorem enqueue_l1dWq {q q' : PacketQueue} (h : enqueue c env q p = some q') :
    q'.l1dWq = q.l1dWq := by
  unfold enqueue at h
  split at h
  · cases h
  · cases h
    rfl

theorem Good.byAddress (h : Good c s.books) : s.rq.l1dWq = false ∧ s.pq.l1dWq = false := by
  have := h.byFullAddr
  simpa [State.books] using this

/-- A request of the level above: its data goes back at once, or it waits in `RQ`. -/
theorem addRq_books {r : Added × State ρ} (h : Shape c s) (hg : Good c s.books) (hp : Fits c p)
    (hl : p.fillLevel = fillL1) (hr : addRq c env s p = some r) :
    Good c r.2.books ∧ (r.1 = .full → s.rq.occupancy = c.rqSize) ∧
      ((∃ q, SameRequest p q ∧ r.2.books =
          { s.books with calls := s.books.calls ++ returnCalls c p.cpu q }) ∨
        ∃ rq, r.2.books = { s.books with rq := rq } ∧
          ∀ a, tally (weigh c a) rq ≤ tally (weigh c a) s.books.rq + weigh c a p) := by
  unfold addRq at hr
  cases hw : s.wq.checkQueue p with
  | some i =>
    rw [hw] at hr
    dsimp only at hr
    obtain ⟨q, hq, hq₂, hbooks⟩ := forwardFromWq_books (c := c) s i p
    rw [hq₂] at hr
    split at hr
    · cases hr
    · obtain ⟨s₁, hs₁, rfl⟩ := Option.map_eq_some_iff.mp hr
      have hs₁' : s₁.books = (forwardFromWq c s i p).1.books := by
        split at hs₁
        · exact process_books hs₁
        · cases hs₁
          rfl
      have hend : (State.books { s₁ with
          wq := { s₁.wq with forward := s₁.wq.forward + 1 }
          rq := { s₁.rq with access := s₁.rq.access + 1 } }) =
          { s.books with calls := s.books.calls ++ returnCalls c p.cpu q } :=
        hs₁'.trans hbooks
      refine ⟨?_, (fun hf => nomatch hf), .inl ⟨q, hq, hend⟩⟩
      refine Good.of_eq ?_ hend
      exact hg.withCalls _
  | none =>
    rw [hw] at hr
    dsimp only at hr
    obtain ⟨hkey, hkeyPq⟩ := hg.byAddress
    cases hi : s.rq.checkQueue p with
    | some i =>
      rw [hi] at hr
      cases hr
      obtain ⟨k, hget, ha, hset⟩ := checkQueue_address h.rq hkey hi
      have hmem := List.mem_of_getElem? hget
      obtain ⟨he, hel⟩ := hg.rq _ hmem
      have hjoins := joins_mergeRq (hl.trans hel.symm)
      have hbooks : (State.books { s with
          rq := { s.rq.setEntry i (mergeRq p (s.rq.entry i)) with
            merged := s.rq.merged + 1
            access := s.rq.access + 1 } }) =
          { s.books with rq := s.books.rq.set k (mergeRq p (s.rq.entry i)) } := by
        simp only [State.books, ← hset]
        rfl
      refine ⟨?_, (fun hf => nomatch hf), .inr ⟨_, hbooks, fun a => ?_⟩⟩
      · refine Good.of_eq ?_ hbooks
        refine ⟨?_, ?_, hg.wq, hg.pq, hg.mshr, hg.byFullAddr⟩
        · intro x hx
          rcases List.mem_or_eq_of_mem_set hx with hx | rfl
          · exact hg.rq x hx
          · refine ⟨hjoins.fits hp he, ?_⟩
            obtain ⟨-, ⟨-, -, hlevel⟩ | ⟨-, -, hlevel⟩⟩ := hjoins
            · rw [hlevel, hel, hl, min_self]
            · rw [hlevel, hl]
        · show ((s.rq.contents.set k _).map Packet.address).Nodup
          have hsame : (s.rq.contents.set k (mergeRq p (s.rq.entry i))).map Packet.address =
              s.rq.contents.map Packet.address := by
            obtain ⟨hk, hget'⟩ := List.getElem?_eq_some_iff.mp hget
            have hk' : k < (s.rq.contents.map Packet.address).length := by simpa using hk
            have hold : (s.rq.contents.map Packet.address)[k] = (s.rq.entry i).address := by
              rw [List.getElem_map, hget']
            rw [List.map_set, hjoins.1, ← hold, List.set_getElem_self]
          rw [hsame]
          exact hg.distinct
      · have := tally_set (w := weigh c a) hget (mergeRq p (s.rq.entry i))
        have := hjoins.weigh_le hp he ha a
        show tally _ (s.rq.contents.set k _) ≤ tally _ s.rq.contents + _
        omega
    | none =>
      rw [hi] at hr
      dsimp only at hr
      split at hr
      · rename_i hfull
        cases hr
        refine ⟨hg, fun _ => hfull, .inr ⟨s.books.rq, rfl, fun a => Nat.le_add_right _ _⟩⟩
      · rename_i hfull
        obtain ⟨q, hq, hr⟩ := Option.bind_eq_some_iff.mp hr
        split at hr
        · cases hr
        · cases hr
          have hcontents := (h.rq.enqueued (h.rq.room hfull) hq).2
          have hbooks : (State.books { s with rq := q }) = { s.books with
              rq := s.books.rq ++ [{ p with eventCycle := env.delay c p.cpu p.eventCycle }] } := by
            simp only [State.books, hcontents, enqueue_l1dWq hq]
          have hsame : SameRequest p { p with eventCycle := env.delay c p.cpu p.eventCycle } :=
            ⟨_, _, _, _, _, _, _, rfl⟩
          refine ⟨?_, (fun hf => nomatch hf), .inr ⟨_, hbooks, fun a => ?_⟩⟩
          · refine Good.of_eq ?_ hbooks
            refine ⟨?_, ?_, hg.wq, hg.pq, hg.mshr, hg.byFullAddr⟩
            · intro x hx
              rcases List.mem_append.mp hx with hx | hx
              · exact hg.rq x hx
              · rw [List.mem_singleton.mp hx]
                exact ⟨hp.same hsame, hl⟩
            · rw [List.map_append]
              refine hg.distinct.append (List.nodup_singleton _) ?_
              intro x hx hx'
              obtain ⟨y, hy, rfl⟩ := List.mem_map.mp hx
              exact checkQueue_none h.rq hkey hi y hy (List.mem_singleton.mp hx')
          · show tally _ (s.books.rq ++ _) ≤ _
            rw [tally_append, tally_cons, tally_nil, weigh_same hsame]
            omega

/-- A prefetch arrives: its data goes back at once, or it waits in `PQ`, or `PQ` is full. -/
theorem addPq_books {r : Added × State ρ} (h : Shape c s) (hg : Good c s.books) (hp : Fits c p)
    (hr : addPq c env s p = some r) :
    Good c r.2.books ∧
      ((∃ q, SameRequest p q ∧ r.2.books =
          { s.books with calls := s.books.calls ++ returnCalls c p.cpu q }) ∨
        ∃ pq, r.2.books = { s.books with pq := pq } ∧
          (∀ a, tally (weigh c a) pq ≤ tally (weigh c a) s.books.pq + weigh c a p) ∧
          s.books.pq.length ≤ pq.length) := by
  unfold addPq at hr
  cases hw : s.wq.checkQueue p with
  | some i =>
    rw [hw] at hr
    dsimp only at hr
    obtain ⟨q, hq, -, hbooks⟩ := forwardFromWq_books (c := c) s i p
    cases hr
    refine ⟨?_, .inl ⟨q, hq, hbooks⟩⟩
    refine Good.of_eq ?_ hbooks
    exact hg.withCalls _
  | none =>
    rw [hw] at hr
    dsimp only at hr
    obtain ⟨hkeyRq, hkey⟩ := hg.byAddress
    cases hi : s.pq.checkQueue p with
    | some i =>
      rw [hi] at hr
      cases hr
      obtain ⟨k, hget, ha, hset⟩ := checkQueue_address h.pq hkey hi
      have he := hg.pq _ (List.mem_of_getElem? hget)
      have hjoins := joins_mergePq p (s.pq.entry i)
      have hbooks : (State.books { s with
          pq := { s.pq.setEntry i (mergePq p (s.pq.entry i)) with
            merged := s.pq.merged + 1
            access := s.pq.access + 1 } }) =
          { s.books with pq := s.books.pq.set k (mergePq p (s.pq.entry i)) } := by
        simp only [State.books, ← hset]
        rfl
      refine ⟨?_, .inr ⟨_, hbooks, fun a => ?_, ?_⟩⟩
      · refine Good.of_eq ?_ hbooks
        refine ⟨hg.rq, hg.distinct, hg.wq, ?_, hg.mshr, hg.byFullAddr⟩
        intro x hx
        rcases List.mem_or_eq_of_mem_set hx with hx | rfl
        · exact hg.pq x hx
        · exact hjoins.fits hp he
      · have := tally_set (w := weigh c a) hget (mergePq p (s.pq.entry i))
        have := hjoins.weigh_le hp he ha a
        show tally _ (s.pq.contents.set k _) ≤ tally _ s.pq.contents + _
        omega
      · exact (List.length_set).ge
    | none =>
      rw [hi] at hr
      dsimp only at hr
      split at hr
      · cases hr
        exact ⟨hg, .inr ⟨s.books.pq, rfl, fun a => Nat.le_add_right _ _, le_refl _⟩⟩
      · rename_i hfull
        obtain ⟨q, hq, hr⟩ := Option.bind_eq_some_iff.mp hr
        split at hr
        · cases hr
        · cases hr
          have hcontents := (h.pq.enqueued (h.pq.room hfull) hq).2
          have hbooks : (State.books { s with pq := q }) = { s.books with
              pq := s.books.pq ++ [{ p with eventCycle := env.delay c p.cpu p.eventCycle }] } := by
            simp only [State.books, hcontents, enqueue_l1dWq hq]
          have hsame : SameRequest p { p with eventCycle := env.delay c p.cpu p.eventCycle } :=
            ⟨_, _, _, _, _, _, _, rfl⟩
          refine ⟨?_, .inr ⟨_, hbooks, fun a => ?_, ?_⟩⟩
          · refine Good.of_eq ?_ hbooks
            refine ⟨hg.rq, hg.distinct, hg.wq, ?_, hg.mshr, hg.byFullAddr⟩
            intro x hx
            rcases List.mem_append.mp hx with hx | hx
            · exact hg.pq x hx
            · rw [List.mem_singleton.mp hx]
              exact hp.same hsame
          · rw [tally_append, tally_cons, tally_nil, weigh_same hsame]
            omega
          · simp

theorem addWq_books {r : Added × State ρ} (h : Shape c s) (hg : Good c s.books)
    (hp : c.fillLevel ≤ p.fillLevel ∧ (c.cacheType = .l1d → Fits c p ∧ p.fillLevel = fillL1))
    (hr : addWq c env s p = some r) :
    Good c r.2.books ∧ ∃ wq, r.2.books = { s.books with wq := wq } := by
  unfold addWq at hr
  cases hw : s.wq.checkQueue p with
  | some i =>
    rw [hw] at hr
    cases hr
    exact ⟨hg, s.books.wq, rfl⟩
  | none =>
    rw [hw] at hr
    dsimp only at hr
    split at hr
    · cases hr
    · rename_i hfull
      obtain ⟨q, hq, rfl⟩ := Option.map_eq_some_iff.mp hr
      have hroom : s.wq.occupancy < c.wqSize := by
        rw [← h.wq.size_eq]
        exact Nat.lt_of_not_le hfull
      have hcontents := (h.wq.enqueued hroom hq).2
      have hbooks : (State.books { s with wq := q }) = { s.books with
          wq := s.books.wq ++ [{ p with eventCycle := env.delay c p.cpu p.eventCycle }] } := by
        simp only [State.books, hcontents]
      refine ⟨?_, _, hbooks⟩
      refine Good.of_eq ?_ hbooks
      refine ⟨hg.rq, hg.distinct, ?_, hg.pq, hg.mshr, hg.byFullAddr⟩
      intro x hx
      rcases List.mem_append.mp hx with hx | hx
      · exact hg.wq x hx
      · rw [List.mem_singleton.mp hx]
        exact ⟨hp.1, fun hc => ⟨(hp.2 hc).1.same ⟨_, _, _, _, _, _, _, rfl⟩, (hp.2 hc).2⟩⟩

end Arrivals

/-! ## Prefetchers -/

/-- Prefetchers of the data caches ask for a level no closer to the core than their own, that of the
L1I for code lines. -/
def Callback.Proper (c : Config) : Callback → Prop
  | .prefetchLine _ _ _ level _ | .kpcPrefetchLine _ _ level _ _ _ _ _ =>
    (c.cacheType = .l1d ∨ c.cacheType = .l2c ∨ c.cacheType = .llc) ∧ c.fillLevel ≤ level ∧
      (level = fillL1 ∨ level = fillL2 ∨ level = fillLlc)
  | .prefetchCodeLine _ _ => c.cacheType = .l1i ∧ c.fillLevel = fillL1
  | .invalidate _ => True

instance (k : Callback) : Decidable (k.Proper c) :=
  match k with
  | .prefetchLine .. | .kpcPrefetchLine .. => inferInstanceAs (Decidable ((_ ∨ _ ∨ _) ∧ _ ∧ _))
  | .prefetchCodeLine .. => inferInstanceAs (Decidable (_ ∧ _))
  | .invalidate _ => inferInstanceAs (Decidable True)

/-- What a prefetcher changes: it adds to `PQ` what is owed to nobody. -/
structure Prefetches (c : Config) (b b' : Books) : Prop where
  rest : b' = { b with pq := b'.pq }
  good : Good c b'
  owes : ∀ a, tally (weigh c a) b'.pq ≤ tally (weigh c a) b.pq
  length : b.pq.length ≤ b'.pq.length

theorem Prefetches.mshr {b b' : Books} (h : Prefetches c b b') : b'.mshr = b.mshr := by
  rw [h.rest]

theorem Prefetches.refl {b : Books} (h : Good c b) : Prefetches c b b :=
  ⟨rfl, h, fun _ => le_refl _, le_refl _⟩

theorem Prefetches.trans {b b' b'' : Books} (h : Prefetches c b b') (h' : Prefetches c b' b'') :
    Prefetches c b b'' := by
  refine ⟨?_, h'.good, fun a => (h'.owes a).trans (h.owes a), h.length.trans h'.length⟩
  rw [h'.rest, h.rest]

section Prefetchers

variable {env : Env} {s s' : State ρ} {p : Packet} {cpu : Nat}

theorem addPq_prefetches {r : Added × State ρ} (h : Shape c s) (hg : Good c s.books)
    (hp : Fits c p) (hlevel : c.fillLevel ≤ p.fillLevel) (hr : addPq c env s p = some r) :
    Prefetches c s.books r.2.books := by
  obtain ⟨hgood, ⟨q, hq, hbooks⟩ | ⟨pq, hbooks, howes, hlength⟩⟩ := addPq_books h hg hp hr
  · have hq' : c.fillLevel ≤ q.fillLevel := by
      obtain ⟨_, _, _, _, _, _, _, rfl⟩ := hq
      exact hlevel
    rw [returnCalls_of_level hq', List.append_nil] at hbooks
    have hsame : r.2.books = s.books := hbooks
    rw [hsame]
    exact Prefetches.refl hg
  · refine ⟨by rw [hbooks], hgood, fun a => ?_, by rw [hbooks]; exact hlength⟩
    have := howes a
    rw [weigh_of_level hlevel a, Nat.add_zero] at this
    rw [hbooks]
    exact this

theorem issuePrefetch_books {baseAddr pfAddr : Nat} (h : Shape c s) (hg : Good c s.books)
    (hp : Fits c p) (hlevel : c.fillLevel ≤ p.fillLevel)
    (hs' : issuePrefetch c env s baseAddr pfAddr p = some s') :
    Prefetches c s.books s'.books := by
  unfold issuePrefetch at hs'
  split at hs'
  · obtain ⟨r, hr, rfl⟩ := Option.map_eq_some_iff.mp hs'
    exact addPq_prefetches h hg hp hlevel hr
  · cases hs'
    exact Prefetches.refl hg

/-- The packet of `prefetch_line` marks the L1D when it is to be filled there. -/
theorem prefetchPacket_fits {pfAddr metadata : Nat} {level : Int}
    (hc : c.cacheType = .l1d ∨ c.cacheType = .l2c ∨ c.cacheType = .llc)
    (hlevel : level = fillL1 ∨ level = fillL2 ∨ level = fillLlc) :
    Fits c (prefetchPacket c env cpu pfAddr level metadata) := by
  refine ⟨hlevel, ?_, ?_, fun _ => rfl⟩
  · show false = true ∨ decide (level = fillL1) = true ↔ level = fillL1
    simp
  · intro hicache
    rcases hc with hc | hc | hc <;> rw [hc] at hicache <;> simp at hicache

theorem runCallback_books {k : Callback} (h : Shape c s) (hg : Good c s.books) (hk : k.Proper c)
    (hs' : runCallback c env cpu s k = some s') : Prefetches c s.books s'.books := by
  cases k with
  | prefetchLine ip baseAddr pfAddr level metadata =>
    have h' : Shape c { s with pfRequested := s.pfRequested + 1 } :=
      h.of_rings rfl rfl rfl rfl rfl
    have hp : Fits c (prefetchPacket c env cpu pfAddr level metadata) :=
      prefetchPacket_fits hk.1 hk.2.2
    have hpre := issuePrefetch_books (p := { prefetchPacket c env cpu pfAddr level metadata with
      ip := ip }) h' hg ⟨hp.level, hp.marked, hp.icache, hp.dcache⟩ hk.2.1 hs'
    exact hpre
  | kpcPrefetchLine baseAddr pfAddr level delta depth signature confidence metadata =>
    have hp : Fits c (prefetchPacket c env cpu pfAddr level metadata) :=
      prefetchPacket_fits hk.1 hk.2.2
    exact issuePrefetch_books (p := { prefetchPacket c env cpu pfAddr level metadata with
      delta := delta
      depth := depth
      signature := signature
      confidence := confidence }) h hg ⟨hp.level, hp.marked, hp.icache, hp.dcache⟩ hk.2.1 hs'
  | prefetchCodeLine pfVAddr pfPa =>
    change prefetchCodeLine c env cpu s pfVAddr pfPa = some s' at hs'
    unfold prefetchCodeLine at hs'
    split at hs'
    · cases hs'
    · have h' : Shape c { s with pfRequested := s.pfRequested + 1 } :=
        h.of_rings rfl rfl rfl rfl rfl
      dsimp only at hs'
      split at hs'
      · obtain ⟨r, hr, rfl⟩ := Option.map_eq_some_iff.mp hs'
        have hfits : ∀ t v a, Fits c { Packet.empty c.numCpus with
            instruction := true
            isData := false
            fillLevel := fillL1
            fillL1i := true
            pfOriginLevel := fillL1
            cpu := cpu
            address := a
            fullAddr := pfPa
            ip := v
            type := .prefetch
            eventCycle := t } := by
          intro t v a
          refine ⟨.inl rfl, by simp, fun _ => rfl, fun hd => ?_⟩
          rw [hk.1] at hd
          simp at hd
        have hpre := addPq_prefetches h' hg (hfits _ _ _) hk.2.le hr
        exact hpre
      · cases hs'
        exact Prefetches.refl hg
  | invalidate address =>
    cases hs'
    have hsame : (invalidateEntry c s address).books = s.books := invalidateAll_books [address] s
    rw [hsame]
    exact Prefetches.refl hg

/-- The outside world of a handler: proper prefetchers, and a clock below the mark for 'never'. -/
structure Env.Proper (c : Config) (env : Env) : Prop where
  callbacks : ∀ k ∈ env.callbacks, k.Proper c
  clock : ∀ cpu, env.currentCoreCycle cpu < u64Max

theorem runPrefetcher_books (h : Shape c s) (hg : Good c s.books) (henv : env.Proper c)
    (hs' : runPrefetcher c env cpu s = some s') :
    Shape c s' ∧ Prefetches c s.books s'.books := by
  refine run_invariant (I := fun t => Shape c t ∧ Prefetches c s.books t.books)
    (P := fun _ k => k.Proper c) ?_ ⟨h, .refl hg⟩
    (along_of_forall (fun k hk => henv.callbacks k hk) s) hs'
  rintro t k t' ⟨ht, hpre⟩ hk ht'
  have hshape := (runCallback_does (I := True) ht fun _ => trivial).of_eq ht'
  exact ⟨hshape.1, hpre.trans (runCallback_books ht hpre.good hk ht')⟩

theorem prefetcherLoad_books (h : Shape c s) (hg : Good c s.books) (henv : env.Proper c)
    (hs' : prefetcherLoad c env s p = some s') : Shape c s' ∧ Prefetches c s.books s'.books := by
  unfold prefetcherLoad at hs'
  split at hs'
  · exact runPrefetcher_books h hg henv hs'
  · cases hs'
    exact ⟨h, .refl hg⟩

theorem prefetcherFill_books {r : State ρ × Packet} (h : Shape c s) (hg : Good c s.books)
    (henv : env.Proper c) (hr : prefetcherFill c env s p = some r) :
    Shape c r.1 ∧ Prefetches c s.books r.1.books ∧ SameRequest p r.2 := by
  unfold prefetcherFill at hr
  split at hr
  · cases hr
    exact ⟨h, .refl hg, SameRequest.refl p⟩
  · obtain ⟨s₁, hs₁, rfl⟩ := Option.map_eq_some_iff.mp hr
    obtain ⟨h₁, hpre⟩ := runPrefetcher_books h hg henv hs₁
    refine ⟨h₁, hpre, ?_⟩
    dsimp only
    split
    · exact ⟨_, _, _, _, _, _, _, rfl⟩
    · exact SameRequest.refl p

/-- The prefetch that is served stays the head of `PQ`, at the same address. -/
theorem prefetcherPrefetch_books {r : State ρ × Packet} {rest : List Packet} (h : Shape c s)
    (hg : Good c s.books) (henv : env.Proper c) (hp : s.books.pq = p :: rest)
    (hr : prefetcherPrefetch c env s = some r) :
    Shape c r.1 ∧ Prefetches c s.books r.1.books ∧ ∃ p' rest', r.1.books.pq = p' :: rest' ∧
      SameRequest p' r.2 ∧ p'.address = p.address := by
  obtain ⟨h₁, -, p', rest', hp', hsame, ha⟩ :=
    (prefetcherPrefetch_does (I := True) h (fun _ => trivial) hp).of_eq hr
  refine ⟨h₁, ?_, p', rest', hp', hsame, ha⟩
  unfold prefetcherPrefetch at hr
  dsimp only at hr
  split at hr
  · obtain ⟨s₁, hs₁, rfl⟩ := Option.map_eq_some_iff.mp hr
    exact (runPrefetcher_books h hg henv hs₁).2
  · cases hr
    exact .refl hg

end Prefetchers

end Cache
end ChampSim
