import ChampSim.O3.Staged
import ChampSim.Hierarchy.Delivery

/-!
# ChampSim.O3.Asked

The core asks the DTLB and the L1D for nothing that it waits for.

* `Staged.translateStore`, `.translateLoad`, `.executeLoad` — a request is taken.
* `Staged.completeTranslation`, `.completeLoad` — an answer, and those whom it wakes.
* `Agrees s server b`   — the books of a structure name those who wait for it.
* `Honest`, `HonestRun` — what comes back has been asked for and not been delivered.
* `asked_once`          — a step of such a run is one request of somebody who does not wait, one
  answer, or neither.
* `HonestRun.allowed`   — each request that is taken is one that `Delivery` allows.
-/

namespace ChampSim
namespace O3

open Lib ChampSim.Core
open Cache (Waiter)

variable {μ : Type} {c : Config} {s s' : Cpu μ} {i l k : Nat}

section Requests

/-- A queue entry changes its progress only. -/
theorem owner_update {f : LsqEntry → LsqEntry} (hf : ∀ e, owner (f e) = owner e)
    (r : Lib.Ring LsqEntry) (i n : Nat) :
    owner ((modifyLsq r i f).entry n) = owner (r.entry n) := by
  show owner (Function.update r.entry i (f (r.entry i)) n) = _
  by_cases hn : n = i
  · subst hn
    rw [Function.update_self, hf]
  · rw [Function.update_of_ne hn]

theorem completed_update {f : LsqEntry → LsqEntry} (hf : ∀ e, (f e).fetched = e.fetched)
    (r : Lib.Ring LsqEntry) (i n : Nat) :
    ((modifyLsq r i f).entry n).fetched = (r.entry n).fetched := by
  show (Function.update r.entry i (f (r.entry i)) n).fetched = _
  by_cases hn : n = i
  · subst hn
    rw [Function.update_self, hf]
  · rw [Function.update_of_ne hn]

theorem Accounts.load (h : Accounts c (fun _ => 0) s) {f : LsqEntry → LsqEntry}
    (hf : ∀ e, owner (f e) = owner e) (hrob : s'.rob = s.rob) (hlq : s'.lq = modifyLsq s.lq l f)
    (hsq : s'.sq = s.sq) : Accounts c (fun _ => 0) s' :=
  h.alike (hrob ▸ .refl ..) (fun n => by rw [hlq]; exact owner_update hf ..) fun n => by
    rw [hsq]
    exact ⟨rfl, .rfl⟩

theorem Accounts.store (h : Accounts c (fun _ => 0) s) {f : LsqEntry → LsqEntry}
    (hf : ∀ e, owner (f e) = owner e) (hfetched : ∀ e, (f e).fetched = e.fetched)
    (hrob : s'.rob = s.rob) (hlq : s'.lq = s.lq) (hsq : s'.sq = modifyLsq s.sq k f) :
    Accounts c (fun _ => 0) s' :=
  h.alike (hrob ▸ .refl ..) (fun n => by rw [hlq]) fun n => by
    rw [hsq, completed_update hfetched]
    exact ⟨owner_update hf .., .rfl⟩

theorem Staged.translateStore {mem : μ} (h : Staged c s) (hi : (s.rts .zero).front < sqSize)
    (hs : s' = ({ s with mem := mem }.modifySq (s.rts .zero).front fun e =>
      { e with translated := .inflight }).popRts .zero) :
    Staged c s' ∧ Joins .dtlb (.sq (s.rts .zero).front) s s' := by
  have hready : s.store (s.rts .zero).front = .ready := h.stores.zero.front hi
  have hentry : s'.sq.entry = Function.update s.sq.entry (s.rts .zero).front
      { s.sq.entry (s.rts .zero).front with translated := .inflight } := by
    rw [hs]
    rfl
  have hstore := store_update hentry
  rw [station_ask hready] at hstore
  subst hs
  refine ⟨⟨⟨h.loads, h.accounts.store (k := (s.rts .zero).front)
    (f := fun e => { e with translated := .inflight }) (fun _ => rfl) (fun _ => rfl) rfl rfl rfl⟩,
    ?_⟩, joins_update (stage_store rfl hstore) ?_ rfl⟩
  · rw [hstore]
    exact h.stores.ask (by decide) hi
  · show (s.store (s.rts .zero).front).asks = _
    rw [hready]
    rfl

theorem Staged.translateLoad {mem : μ} (h : Staged c s) (hi : (s.rtl .zero).front < lqSize)
    (hs : s' = ({ s with mem := mem }.modifyLq (s.rtl .zero).front fun e =>
      { e with translated := .inflight }).popRtl .zero) :
    Staged c s' ∧ Joins .dtlb (.lq (s.rtl .zero).front) s s' := by
  have hready : s.load (s.rtl .zero).front = .ready := h.loads.zero.front hi
  have hentry : s'.lq.entry = Function.update s.lq.entry (s.rtl .zero).front
      { s.lq.entry (s.rtl .zero).front with translated := .inflight } := by
    rw [hs]
    rfl
  have hload := load_update hentry
  rw [station_ask hready] at hload
  subst hs
  refine ⟨⟨⟨?_, h.accounts.load (l := (s.rtl .zero).front)
    (f := fun e => { e with translated := .inflight }) (fun _ => rfl) rfl rfl rfl⟩, h.stores⟩,
    joins_update (stage_load hload rfl) ?_ rfl⟩
  · rw [hload]
    exact h.loads.ask (by decide) hi
  · show (s.load (s.rtl .zero).front).asks = _
    rw [hready]
    rfl

theorem Staged.executeLoad {mem : μ} (h : Staged c s) (hi : (s.rtl .one).front < lqSize)
    (hs : s' = ({ s with mem := mem }.modifyLq (s.rtl .one).front fun e =>
      { e with fetched := .inflight }).popRtl .one) :
    Staged c s' ∧ Joins .l1d (.lq (s.rtl .one).front) s s' := by
  have hknown : s.load (s.rtl .one).front = .known := h.loads.one.front hi
  have hentry : s'.lq.entry = Function.update s.lq.entry (s.rtl .one).front
      { s.lq.entry (s.rtl .one).front with fetched := .inflight } := by
    rw [hs]
    rfl
  have hload := load_update hentry
  rw [station_fetch hknown] at hload
  subst hs
  refine ⟨⟨⟨?_, h.accounts.load (l := (s.rtl .one).front)
    (f := fun e => { e with fetched := .inflight }) (fun _ => rfl) rfl rfl rfl⟩, h.stores⟩,
    joins_update (stage_load hload rfl) ?_ rfl⟩
  · rw [hload]
    exact h.loads.use (by decide) hi ⟨by decide, by decide⟩
  · show (s.load (s.rtl .one).front).asks = _
    rw [hknown]
    rfl

end Requests

/-! ## Answers of the DTLB -/

def translate (dataPa : Nat) (s : Cpu μ) : Waiter → Cpu μ
  | .lq l => loadTranslated dataPa l s
  | .sq k => storeTranslated dataPa k s

/-- Whom an answer of the DTLB wakes, in the order of the code. -/
def mergedOrder (p : Packet) (sqSize lqSize : Nat) : List Waiter :=
  (if p.storeMerged then (expand p.sqIndexDependOnMe sqSize).map .sq else []) ++
    if p.loadMerged then (expand p.lqIndexDependOnMe lqSize).map .lq else []

def askedFor (p : Packet) : Waiter := if p.type = .rfo then .sq p.sqIndex else .lq p.lqIndex

section Translation

variable {p : Packet}

theorem translating_of_waits {w : Waiter} (hw : Awaits s .dtlb w) : s.stage w = .translating := by
  rcases Station.asks_some hw with ⟨-, h⟩ | ⟨h, -⟩
  · exact h
  · cases h

theorem Staged.translate (h : Staged c s) {w : Waiter} (hw : Awaits s .dtlb w) (pa : Nat) :
    Staged c (O3.translate pa s w) ∧ Leaves .dtlb {w} s (O3.translate pa s w) := by
  have htranslating := translating_of_waits hw
  cases w with
  | lq l =>
    have hentry : (loadTranslated pa l s).lq.entry =
      Function.update s.lq.entry l (translateEntry pa s.cycle (s.lq.entry l)) := rfl
    have hload := load_update hentry
    rw [station_answer htranslating] at hload
    refine ⟨⟨⟨?_, h.accounts.load (l := l) (f := translateEntry pa s.cycle) (fun _ => rfl) rfl rfl
      rfl⟩, h.stores⟩, leaves_update (stage_load hload rfl) hw rfl⟩
    show Lanes _ _ (loadTranslated pa l s).load _
    rw [hload]
    exact h.loads.answer (by decide) htranslating
  | sq k =>
    have hentry : (storeTranslated pa k s).sq.entry =
      Function.update s.sq.entry k (translateEntry pa s.cycle (s.sq.entry k)) := rfl
    have hstore := store_update hentry
    rw [station_answer htranslating] at hstore
    refine ⟨⟨⟨h.loads, h.accounts.store (k := k) (f := translateEntry pa s.cycle) (fun _ => rfl)
      (fun _ => rfl) rfl rfl rfl⟩, ?_⟩, leaves_update (stage_store rfl hstore) hw rfl⟩
    show Lanes _ _ (storeTranslated pa k s).store _
    rw [hstore]
    exact h.stores.answer (by decide) htranslating

theorem Leaves.still {server : Server} {w : Waiter} {ws : Multiset Waiter}
    (h : Leaves server ws s s') (hw : Awaits s server w) (hnot : w ∉ ws) : Awaits s' server w :=
  (h server w).mpr ⟨hw, fun h => hnot h.2⟩

theorem Staged.translateAll (pa : Nat) (ws : List Waiter) :
    ∀ {s : Cpu μ}, Staged c s → ws.Nodup → (∀ w ∈ ws, Awaits s .dtlb w) →
      Staged c (ws.foldl (O3.translate pa) s) ∧
        Leaves .dtlb ws s (ws.foldl (O3.translate pa) s) := by
  induction ws with
  | nil =>
    intro s h _ _
    exact ⟨h, fun server w => ⟨fun hw => ⟨hw, fun h => absurd h.2 (Multiset.notMem_zero w)⟩,
      And.left⟩⟩
  | cons w ws ih =>
    intro s h hnodup hall
    obtain ⟨hnot, hrest⟩ := List.nodup_cons.mp hnodup
    obtain ⟨hstaged, hleaves⟩ := h.translate (hall w List.mem_cons_self) pa
    have hstill : ∀ w' ∈ ws, Awaits (O3.translate pa s w) .dtlb w' := fun w' hw' =>
      hleaves.still (hall w' (List.mem_cons_of_mem _ hw')) fun heq =>
        hnot (Multiset.mem_singleton.mp heq ▸ hw')
    obtain ⟨hstaged', hleaves'⟩ := ih hstaged hrest hstill
    exact ⟨hstaged', hleaves.trans hleaves'⟩

theorem foldl_storeTranslated (pa : Nat) (is : List Nat) (s : Cpu μ) :
    is.foldl (fun s i => storeTranslated pa i s) s = (is.map Waiter.sq).foldl (O3.translate pa) s ∧
      (is.foldl (fun s i => storeTranslated pa i s) s).lq = s.lq := by
  induction is generalizing s with
  | nil => exact ⟨rfl, rfl⟩
  | cons i is ih => exact ih (storeTranslated pa i s)

theorem foldl_loadTranslated (pa : Nat) (is : List Nat) (s : Cpu μ) :
    is.foldl (fun s i => loadTranslated pa i s) s =
      (is.map Waiter.lq).foldl (O3.translate pa) s := by
  rw [List.foldl_map]
  rfl

theorem handleMergedTranslation_eq (p : Packet) (s : Cpu μ) :
    handleMergedTranslation p s =
      (mergedOrder p s.sq.size s.lq.size).foldl (O3.translate p.dataPa) s := by
  obtain ⟨hstores, hlq⟩ := foldl_storeTranslated p.dataPa (expand p.sqIndexDependOnMe s.sq.size) s
  unfold handleMergedTranslation mergedOrder
  dsimp only
  cases p.storeMerged with
  | true =>
    rw [if_pos rfl, if_pos rfl, List.foldl_append, ← hstores]
    cases p.loadMerged with
    | true =>
      rw [if_pos rfl, if_pos rfl, foldl_loadTranslated, hlq]
    | false => rfl
  | false =>
    cases p.loadMerged with
    | true => exact foldl_loadTranslated ..
    | false => rfl

theorem completeTranslation_eq (p : Packet) (s : Cpu μ) :
    completeTranslation p s =
      ((askedFor p :: mergedOrder p s.sq.size s.lq.size).foldl (O3.translate p.dataPa) s).modifyRob
        p.robIndex.toNat fun x => { x with eventCycle := p.eventCycle } := by
  unfold completeTranslation askedFor
  dsimp only
  split
  · rw [handleMergedTranslation_eq]
    rfl
  · rw [handleMergedTranslation_eq]
    rfl

theorem Staged.within (h : Staged c s) (server : Server) :
    (∀ l, Awaits s server (.lq l) → l < lqSize) ∧ ∀ k, Awaits s server (.sq k) → k < sqSize := by
  have hbusy : ∀ x : Station, x.asks = some server → x ≠ .free := by
    rintro x hx rfl
    cases hx
  exact ⟨fun l hw => h.loads.inside l (hbusy _ hw), fun k hw => h.stores.inside k (hbusy _ hw)⟩

theorem mem_expand {a : Finset Nat} {n i : Nat} : i ∈ expand a n ↔ i < n ∧ i ∈ a := by
  unfold expand
  rw [List.mem_filter, List.mem_range, decide_eq_true_iff]

theorem expand_nodup (a : Finset Nat) (n : Nat) : (expand a n).Nodup := List.nodup_range.filter _

theorem mergedOrder_nodup (p : Packet) (n m : Nat) : (mergedOrder p n m).Nodup := by
  have hstores : ((expand p.sqIndexDependOnMe n).map Waiter.sq).Nodup :=
    (expand_nodup ..).map fun _ _ => Waiter.sq.inj
  have hloads : ((expand p.lqIndexDependOnMe m).map Waiter.lq).Nodup :=
    (expand_nodup ..).map fun _ _ => Waiter.lq.inj
  unfold mergedOrder
  split
  · split
    · refine List.nodup_append.mpr ⟨hstores, hloads, fun x hx y hy => ?_⟩
      obtain ⟨k, -, rfl⟩ := List.mem_map.mp hx
      obtain ⟨l, -, rfl⟩ := List.mem_map.mp hy
      nofun
    · rwa [List.append_nil]
  · split
    · exact hloads
    · exact .nil

theorem mem_handleMergedTranslation {x : Waiter} : x ∈ Cache.handleMergedTranslation p ↔
    (∃ k, x = .sq k ∧ p.storeMerged = true ∧ k ∈ p.sqIndexDependOnMe) ∨
      ∃ l, x = .lq l ∧ p.loadMerged = true ∧ l ∈ p.lqIndexDependOnMe := by
  unfold Cache.handleMergedTranslation
  rw [Multiset.mem_add]
  cases p.storeMerged with
  | true => cases p.loadMerged <;> simp [eq_comm, and_comm]
  | false => cases p.loadMerged <;> simp [eq_comm, and_comm]

theorem mem_mergedOrder {n m : Nat} {x : Waiter} : x ∈ mergedOrder p n m ↔
    (∃ k, x = .sq k ∧ p.storeMerged = true ∧ k < n ∧ k ∈ p.sqIndexDependOnMe) ∨
      ∃ l, x = .lq l ∧ p.loadMerged = true ∧ l < m ∧ l ∈ p.lqIndexDependOnMe := by
  unfold mergedOrder
  rw [List.mem_append]
  cases p.storeMerged with
  | true => cases p.loadMerged <;> simp [mem_expand, eq_comm, and_comm]
  | false => cases p.loadMerged <;> simp [mem_expand, eq_comm, and_comm]

/-- All that the answer wakes lies in the queues. -/
theorem mem_order {n m : Nat} (hstores : ∀ k, .sq k ∈ Cache.handleMergedTranslation p → k < n)
    (hloads : ∀ l, .lq l ∈ Cache.handleMergedTranslation p → l < m) (x : Waiter) :
    x ∈ mergedOrder p n m ↔ x ∈ Cache.handleMergedTranslation p := by
  rw [mem_mergedOrder, mem_handleMergedTranslation]
  constructor
  · rintro (⟨k, rfl, hmerged, -, hk⟩ | ⟨l, rfl, hmerged, -, hl⟩)
    · exact .inl ⟨k, rfl, hmerged, hk⟩
    · exact .inr ⟨l, rfl, hmerged, hl⟩
  · rintro (⟨k, rfl, hk⟩ | ⟨l, rfl, hl⟩)
    · exact .inl ⟨k, rfl, hk.1, hstores k (mem_handleMergedTranslation.mpr (.inl ⟨k, rfl, hk⟩)),
        hk.2⟩
    · exact .inr ⟨l, rfl, hl.1, hloads l (mem_handleMergedTranslation.mpr (.inr ⟨l, rfl, hl⟩)),
        hl.2⟩

theorem completeDataFetch_dtlb {d : Cache.Config} (hd : d.cacheType = .dtlb) (p : Packet) :
    Cache.completeDataFetch d p = some (askedFor p ::ₘ Cache.handleMergedTranslation p) := by
  unfold Cache.completeDataFetch askedFor
  rw [if_pos hd]
  split
  · rfl
  · rfl

theorem Staged.completeTranslation (h : Staged c s) (hsq : s.sq.size = sqSize)
    (hlq : s.lq.size = lqSize)
    (hnodup : (askedFor p ::ₘ Cache.handleMergedTranslation p).Nodup)
    (hwaits : ∀ x ∈ askedFor p ::ₘ Cache.handleMergedTranslation p, Awaits s .dtlb x) :
    Staged c (completeTranslation p s) ∧
      Leaves .dtlb (askedFor p ::ₘ Cache.handleMergedTranslation p) s
        (completeTranslation p s) := by
  obtain ⟨hloads, hstores⟩ := h.within .dtlb
  have hmem := mem_order (p := p) (n := s.sq.size) (m := s.lq.size)
    (fun k hk => hsq ▸ hstores k (hwaits _ (Multiset.mem_cons_of_mem hk)))
    fun l hl => hlq ▸ hloads l (hwaits _ (Multiset.mem_cons_of_mem hl))
  have hfirst : askedFor p ∉ mergedOrder p s.sq.size s.lq.size := fun h =>
    (Multiset.nodup_cons.mp hnodup).1 ((hmem _).mp h)
  have hall : ∀ w ∈ askedFor p :: mergedOrder p s.sq.size s.lq.size, Awaits s .dtlb w := by
    intro w hw
    refine hwaits w (Multiset.mem_cons.mpr ?_)
    exact (List.mem_cons.mp hw).imp_right (hmem w).mp
  obtain ⟨hstaged, hleaves⟩ := h.translateAll p.dataPa _
    (List.nodup_cons.mpr ⟨hfirst, mergedOrder_nodup ..⟩) hall
  have hwoken : ∀ w, w ∈ (↑(askedFor p :: mergedOrder p s.sq.size s.lq.size) : Multiset Waiter) ↔
      w ∈ askedFor p ::ₘ Cache.handleMergedTranslation p := fun w => by
    rw [Multiset.mem_coe, List.mem_cons, Multiset.mem_cons, hmem w]
  have hleaves := hleaves.congr hwoken
  rw [completeTranslation_eq]
  generalize (askedFor p :: mergedOrder p s.sq.size s.lq.size).foldl (O3.translate p.dataPa) s = u
    at hstaged hleaves
  have hdated : Staged c
        (u.modifyRob p.robIndex.toNat fun x => { x with eventCycle := p.eventCycle }) ∧
      Awaits (u.modifyRob p.robIndex.toNat fun x => { x with eventCycle := p.eventCycle }) =
        Awaits u := hstaged.alike (.of_update rfl) rfl
  refine ⟨hdated.1, fun server w => ?_⟩
  rw [hdated.2]
  exact hleaves server w

end Translation

/-! ## Answers of the L1D -/

section Loads

variable {p : Packet}

theorem fetching_of_waits {w : Waiter} (hw : Awaits s .l1d w) : s.stage w = .fetching := by
  rcases Station.asks_some hw with ⟨h, -⟩ | ⟨-, h⟩
  · cases h
  · exact h

theorem Staged.loadReturned {n : Nat} (h : Staged c s) (hw : Awaits s .l1d (.lq l))
    (hi : i = (s.lq.entry l).robIndex) (hs : loadReturned l i n s = some s') :
    Staged c s' ∧ Leaves .l1d {.lq l} s s' := by
  have hclosed := loadReturned_closed hi hs
  obtain ⟨hloading, hload⟩ := h.closed (.inr (fetching_of_waits hw)) hclosed
  have hstore := store_eq hclosed.sq
  refine ⟨⟨hloading, ?_⟩, leaves_update (stage_load hload hstore) hw rfl⟩
  rw [hstore, hclosed.rts]
  exact h.stores

theorem Staged.mergedLoads (ls : List Nat) :
    ∀ {s : Cpu μ}, Staged c s → ls.Nodup → (∀ l ∈ ls, Awaits s .l1d (.lq l)) →
      mergedLoads ls s = some s' →
        Staged c s' ∧ Leaves .l1d (ls.map Waiter.lq : List Waiter) s s' := by
  induction ls with
  | nil =>
    intro s h _ _ hs
    cases hs
    exact ⟨h, fun server w => ⟨fun hw => ⟨hw, fun h => absurd h.2 (Multiset.notMem_zero w)⟩,
      And.left⟩⟩
  | cons l ls ih =>
    intro s h hnodup hall hs
    obtain ⟨hnot, hrest⟩ := List.nodup_cons.mp hnodup
    obtain ⟨t, ht, hs⟩ := Option.bind_eq_some_iff.mp hs
    obtain ⟨hstaged, hleaves⟩ := h.loadReturned (hall l List.mem_cons_self) rfl ht
    have hstill : ∀ l' ∈ ls, Awaits t .l1d (.lq l') := fun l' hl' =>
      hleaves.still (hall l' (List.mem_cons_of_mem _ hl')) fun heq =>
        hnot (Waiter.lq.inj (Multiset.mem_singleton.mp heq) ▸ hl')
    obtain ⟨hstaged', hleaves'⟩ := ih hstaged hrest hstill hs
    exact ⟨hstaged', hleaves.trans hleaves'⟩

theorem Staged.handleMergedLoad (h : Staged c s) (hlq : s.lq.size = lqSize)
    (hwaits : ∀ x ∈ Cache.handleMergedLoad p, Awaits s .l1d x)
    (hs : handleMergedLoad p s = some s') :
    Staged c s' ∧ Leaves .l1d (Cache.handleMergedLoad p) s s' := by
  have hmem : ∀ l, l ∈ p.lqIndexDependOnMe → Awaits s .l1d (.lq l) := fun l hl =>
    hwaits _ (Multiset.mem_map_of_mem _ hl)
  obtain ⟨hstaged, hleaves⟩ := h.mergedLoads _ (expand_nodup ..)
    (fun l hl => hmem l (mem_expand.mp hl).2) hs
  refine ⟨hstaged, hleaves.congr fun w => ?_⟩
  unfold Cache.handleMergedLoad
  rw [Multiset.mem_coe, List.mem_map, Multiset.mem_map]
  constructor
  · rintro ⟨l, hl, rfl⟩
    exact ⟨l, (mem_expand.mp hl).2, rfl⟩
  · rintro ⟨l, hl, rfl⟩
    exact ⟨l, mem_expand.mpr ⟨hlq ▸ (h.within .l1d).1 l (hmem l hl), hl⟩, rfl⟩

theorem Staged.completeLoad {d : Cache.Config} {w : Multiset Waiter} (h : Staged c s)
    (hlq : s.lq.size = lqSize) (hd : d.cacheType = .l1d)
    (hw : Cache.completeDataFetch d p = some w) (hnodup : w.Nodup)
    (hwaits : ∀ x ∈ w, Awaits s .l1d x)
    (hname : p.type ≠ .rfo → p.robIndex.toNat = (s.lq.entry p.lqIndex).robIndex)
    (hs : completeLoad p s = some s') : Staged c s' ∧ Leaves .l1d w s s' := by
  unfold Cache.completeDataFetch at hw
  rw [if_neg (by rw [hd]; decide)] at hw
  unfold O3.completeLoad at hs
  split at hs
  · rename_i hrfo
    rw [if_pos hrfo] at hw
    cases hw
    exact h.handleMergedLoad hlq hwaits hs
  · rename_i hload
    rw [if_neg hload] at hw
    split at hs
    · cases hs
    · rename_i hmerged
      rw [if_neg hmerged] at hw
      cases hw
      obtain ⟨t, ht, hs⟩ := Option.bind_eq_some_iff.mp hs
      obtain ⟨hstaged, hleaves⟩ := h.loadReturned (hwaits _ (Multiset.mem_cons_self ..))
        (hname hload) ht
      have hsize : t.lq.size = lqSize := (served_loadSide.loadReturned ht).size.trans hlq
      have hstill : ∀ x ∈ Cache.handleMergedLoad p, Awaits t .l1d x := fun x hx =>
        hleaves.still (hwaits x (Multiset.mem_cons_of_mem hx)) fun heq =>
          (Multiset.nodup_cons.mp hnodup).1 (Multiset.mem_singleton.mp heq ▸ hx)
      obtain ⟨hstaged', hleaves'⟩ := hstaged.handleMergedLoad hsize hstill hs
      exact ⟨hstaged', (hleaves.trans hleaves').congr fun x => by
        rw [Multiset.mem_add, Multiset.mem_singleton, Multiset.mem_cons]⟩

theorem completeLoad_woken {d : Cache.Config} (h : completeLoad p s = some s')
    (hd : d.cacheType = .l1d) : ∃ ws, Cache.completeDataFetch d p = some ws := by
  unfold Cache.completeDataFetch
  rw [if_neg (by rw [hd]; decide)]
  unfold completeLoad at h
  split at h
  · rename_i hrfo
    rw [if_pos hrfo]
    exact ⟨_, rfl⟩
  · rename_i hload
    rw [if_neg hload]
    split at h
    · cases h
    · rename_i hmerged
      rw [if_neg hmerged]
      exact ⟨_, rfl⟩

end Loads

/-! ## Runs -/

def Server.level : Server → Cache.Level
  | .itlb => .itlb
  | .dtlb => .dtlb
  | .l1i => .l1i
  | .l1d => .l1d

/-- Whom the core wakes with an answer. -/
def woken (c : Config) (server : Server) (p : Packet) : Option (Multiset Waiter) :=
  Cache.completeDataFetch (server.level.config c.numCpus c.cpu) p

instance (s : Cpu μ) (server : Server) (w : Waiter) : Decidable (Awaits s server w) :=
  inferInstanceAs (Decidable (_ = _))

/-- What a structure has been asked for, and what it has delivered. -/
structure Books where
  issued : Multiset Waiter
  delivered : Multiset Waiter

/-- What the structure has been asked for and has not delivered is what the core waits for. -/
def Agrees (s : Cpu μ) (server : Server) (b : Books) : Prop :=
  ∀ w, b.issued.count w = b.delivered.count w + if Awaits s server w then 1 else 0

/-- The DTLB and the L1D deliver what they have been asked for and have not delivered; a load comes
back with the slot of its instruction. -/
structure Honest (M : Memory μ) (c : Config) (s : Cpu μ) (b : Server → Books) : Prop where
  wakes : ∀ server p ws, server = .dtlb ∨ server = .l1d →
    M.processed server s.cycle s.mem = some p → woken c server p = some ws →
      ws + (b server).delivered ≤ (b server).issued
  names : ∀ p, M.processed .l1d s.cycle s.mem = some p → p.type ≠ .rfo →
    p.robIndex.toNat = (s.lq.entry p.lqIndex).robIndex

/-- A request of the load or the store queue is taken. -/
inductive Asks (M : Memory μ) (c : Config) (s : Cpu μ) : Cpu μ → Server → Cache.Request → Prop
  | translateStore {mem : μ} (hi : (s.rts .zero).front < sqSize)
    (h : M.addRq .dtlb s.cycle (storeTranslation c.numCpus c.cpu c.knobCloudsuite
      (s.rts .zero).front (s.sq.entry (s.rts .zero).front)) s.mem = some (true, mem)) :
    Asks M c s (({ s with mem := mem }.modifySq (s.rts .zero).front fun e =>
      { e with translated := .inflight }).popRts .zero) .dtlb
      (.storeTranslation c.knobCloudsuite (s.rts .zero).front (s.sq.entry (s.rts .zero).front))
  | translateLoad {mem : μ} (hi : (s.rtl .zero).front < lqSize)
    (h : M.addRq .dtlb s.cycle (loadTranslation c.numCpus c.cpu c.knobCloudsuite
      (s.rtl .zero).front (s.lq.entry (s.rtl .zero).front)) s.mem = some (true, mem)) :
    Asks M c s (({ s with mem := mem }.modifyLq (s.rtl .zero).front fun e =>
      { e with translated := .inflight }).popRtl .zero) .dtlb
      (.loadTranslation c.knobCloudsuite (s.rtl .zero).front (s.lq.entry (s.rtl .zero).front))
  | executeLoad {mem : μ} (hi : (s.rtl .one).front < lqSize)
    (h : M.addRq .l1d s.cycle (loadData c.numCpus c.cpu (s.rtl .one).front
      (s.lq.entry (s.rtl .one).front)) s.mem = some (true, mem)) :
    Asks M c s (({ s with mem := mem }.modifyLq (s.rtl .one).front fun e =>
      { e with fetched := .inflight }).popRtl .one) .l1d
      (.loadData (s.rtl .one).front (s.lq.entry (s.rtl .one).front))

/-- A step and the books: somebody asks who does not wait, or those who are woken waited, or nobody
begins or ends to wait. -/
inductive Exchange (M : Memory μ) (c : Config) (s s' : Cpu μ) :
    (Server → Books) → (Server → Books) → Prop
  | silent {b : Server → Books} (quiet : ∀ server r, ¬ Asks M c s s' server r)
    (waits : Awaits s' = Awaits s) : Exchange M c s s' b b
  | asked {b : Server → Books} {server : Server} {w : Waiter} {r : Cache.Request}
    (asks : Asks M c s s' server r) (waiter : r.waiter = {w}) (joins : Joins server w s s') :
    Exchange M c s s' b
      (Function.update b server { b server with issued := r.waiter + (b server).issued })
  | answered {b : Server → Books} {server : Server} {p : Packet} {ws : Multiset Waiter}
    (quiet : ∀ server r, ¬ Asks M c s s' server r) (data : server = .dtlb ∨ server = .l1d)
    (due : M.processed server s.cycle s.mem = some p) (wakes : woken c server p = some ws)
    (leaves : Leaves server ws s s') :
    Exchange M c s s' b
      (Function.update b server { b server with delivered := ws + (b server).delivered })

/-- The states of a run whose answers are honest, with the books. -/
inductive HonestRun (M : Memory μ) (c : Config) (t : Trace) (O : μ → μ → Prop) :
    Cpu μ → (Server → Books) → Prop
  | init (mem : μ) : HonestRun M c t O (.init mem) fun _ => ⟨0, 0⟩
  | op {s s' : Cpu μ} {b b' : Server → Books} (h : HonestRun M c t O s b)
    (hs : Honest M c s b) (hop : Op M c t O s s') (he : Exchange M c s s' b b') :
    HonestRun M c t O s' b'

/-! ## The books -/

section Books

variable {b : Books} {server server' : Server} {w : Waiter} {ws : Multiset Waiter}

theorem agrees_init (mem : μ) (server : Server) : Agrees (.init mem) server ⟨0, 0⟩ := by
  intro w
  cases w with
  | lq l => rfl
  | sq k => rfl

theorem Agrees.congr (hb : Agrees s server b)
    (h : ∀ w, Awaits s' server w ↔ Awaits s server w) : Agrees s' server b := by
  intro w
  simp only [h w]
  exact hb w

theorem Joins.agrees (h : Joins server w s s') (hb : Agrees s server b) :
    Agrees s' server { b with issued := {w} + b.issued } := by
  intro x
  have hx := hb x
  dsimp only
  rw [Multiset.count_add, Multiset.count_singleton]
  by_cases hxw : x = w
  · subst hxw
    rw [if_neg h.new] at hx
    rw [if_pos rfl, if_pos ((h.waits server x).mpr (.inr ⟨rfl, rfl⟩))]
    omega
  · have hsame : Awaits s' server x ↔ Awaits s server x := by
      rw [h.waits]
      exact ⟨fun h => h.resolve_right fun h => hxw h.2, .inl⟩
    simp only [if_neg hxw, hsame]
    omega

theorem Joins.others (h : Joins server w s s') (hne : server' ≠ server) (w' : Waiter) :
    Awaits s' server' w' ↔ Awaits s server' w' := by
  rw [h.waits]
  exact ⟨fun h => h.resolve_right fun h => hne h.1, .inl⟩

theorem Leaves.agrees (h : Leaves server ws s s') (hnodup : ws.Nodup)
    (hall : ∀ w ∈ ws, Awaits s server w) (hb : Agrees s server b) :
    Agrees s' server { b with delivered := ws + b.delivered } := by
  intro x
  have hx := hb x
  dsimp only
  rw [Multiset.count_add]
  by_cases hin : x ∈ ws
  · rw [if_pos (hall x hin)] at hx
    rw [Multiset.count_eq_one_of_mem hnodup hin, if_neg fun hw => ((h server x).mp hw).2 ⟨rfl, hin⟩]
    omega
  · have hsame : Awaits s' server x ↔ Awaits s server x :=
      ⟨fun hw => ((h server x).mp hw).1, fun hw => h.still hw hin⟩
    simp only [Multiset.count_eq_zero_of_notMem hin, hsame]
    omega

theorem Leaves.others (h : Leaves server ws s s') (hne : server' ≠ server) (w : Waiter) :
    Awaits s' server' w ↔ Awaits s server' w :=
  ⟨fun hw => ((h server' w).mp hw).1, fun hw => (h server' w).mpr ⟨hw, fun h => hne h.1⟩⟩

/-- What has been asked for and not delivered is waited for. -/
theorem Agrees.wakes (hb : Agrees s server b) (h : ws + b.delivered ≤ b.issued) :
    ws.Nodup ∧ ∀ w ∈ ws, Awaits s server w := by
  have hcount : ∀ x, ws.count x ≤ if Awaits s server x then 1 else 0 := by
    intro x
    have hle := Multiset.count_le_of_le x h
    rw [Multiset.count_add, hb x] at hle
    omega
  refine ⟨Multiset.nodup_iff_count_le_one.mpr fun x => ?_, fun x hx => ?_⟩
  · have hx := hcount x
    split at hx
    · exact hx
    · omega
  · by_contra hnot
    have hpos := Multiset.count_pos.mpr hx
    have hle := hcount x
    rw [if_neg hnot] at hle
    omega

theorem Exchange.agrees {M : Memory μ} {b b' : Server → Books} (h : Exchange M c s s' b b')
    (hs : Honest M c s b) (hb : ∀ server, Agrees s server (b server)) (server : Server) :
    Agrees s' server (b' server) := by
  cases h with
  | silent quiet waits => exact (hb server).congr fun w => by rw [waits]
  | @asked server' w r asks waiter joins =>
    by_cases hne : server = server'
    · subst hne
      rw [Function.update_self, waiter]
      exact joins.agrees (hb server)
    · rw [Function.update_of_ne hne]
      exact (hb server).congr (joins.others hne)
  | @answered server' p ws quiet data due wakes leaves =>
    obtain ⟨hnodup, hall⟩ := (hb server').wakes (hs.wakes server' p ws data due wakes)
    by_cases hne : server = server'
    · subst hne
      rw [Function.update_self]
      exact leaves.agrees hnodup hall (hb server)
    · rw [Function.update_of_ne hne]
      exact (hb server).congr (leaves.others hne)

end Books

/-! ## Every step -/

section Run

variable {M : Memory μ} {t : Trace} {O : μ → μ → Prop} {b : Server → Books}

theorem requestTranslation_lsq {i index : Nat} (h : requestTranslation M c i index s = some s') :
    s'.rob = s.rob ∧ s'.lsq = s.lsq := by
  simp only [requestTranslation] at h
  split at h
  · obtain ⟨⟨accepted, mem⟩, -, rfl⟩ := Option.map_eq_some_iff.mp h
    split
    · exact ⟨rfl, rfl⟩
    · exact ⟨rfl, rfl⟩
  · cases h
    exact ⟨rfl, rfl⟩

theorem requestLine_lsq {index : Nat} (h : requestLine M c index s = some s') :
    s'.rob = s.rob ∧ s'.lsq = s.lsq := by
  simp only [requestLine] at h
  split at h
  · obtain ⟨⟨accepted, mem⟩, -, rfl⟩ := Option.map_eq_some_iff.mp h
    split
    · exact ⟨rfl, rfl⟩
    · exact ⟨rfl, rfl⟩
  · cases h
    exact ⟨rfl, rfl⟩

theorem Staged.asks {server : Server} {r : Cache.Request} (h : Staged c s)
    (ha : Asks M c s s' server r) : Staged c s' ∧ ∃ w, r.waiter = {w} ∧ Joins server w s s' := by
  cases ha with
  | translateStore hi =>
    exact (h.translateStore hi rfl).imp_right fun hjoins => ⟨_, rfl, hjoins⟩
  | translateLoad hi => exact (h.translateLoad hi rfl).imp_right fun hjoins => ⟨_, rfl, hjoins⟩
  | executeLoad hi => exact (h.executeLoad hi rfl).imp_right fun hjoins => ⟨_, rfl, hjoins⟩

/-- Where nobody begins to wait no request is taken. -/
theorem Staged.not_asks (h : Staged c s) (hw : ∀ server w, Awaits s' server w → Awaits s server w)
    (server : Server) (r : Cache.Request) : ¬ Asks M c s s' server r := by
  intro ha
  obtain ⟨-, w, -, hjoins⟩ := h.asks ha
  exact hjoins.new (hw server w ((hjoins.waits server w).mpr (.inr ⟨rfl, rfl⟩)))

/-- The steps that move instructions. -/
theorem Staged.move (h : Staged c s) (hr : Reaches M c t O s) (hf : FreshIds s)
    (hm : Move c t s s') : Staged c s' ∧ Awaits s' = Awaits s := by
  obtain ⟨hp, hl, hb⟩ := reaches_books hr hf
  obtain ⟨-, ho⟩ := reaches_occupied hr
  cases hm with
  | tick => exact h.alike (.refl ..) rfl
  | read => exact h.alike (.refl ..) rfl
  | resume env =>
    unfold resumeFetch
    split
    · exact h.alike (.refl ..) rfl
    · exact ⟨h, rfl⟩
  | toDecode => exact h.alike (.refl ..) rfl
  | toRob hip hroom =>
    have hfresh : Fresh c (setEventCycle s.cycle (s.decodeBuffer.entry s.decodeBuffer.head)) :=
      (hp.flow.decode _).congr rfl
    exact h.same (h.accounts.push hp hb hroom hfresh) rfl
  | complete hc =>
    rcases hp.flow.completes hc with rfl | hdone
    · exact ⟨h, rfl⟩
    · refine h.alike ?_ (by rw [hdone.rest]; rfl)
      exact (alike_modify (π := account c) (f := markCompleted) rfl).trans
        (hdone.shape.comp (account c))
  | schedule hf' hidle hs =>
    have hsched := hp.flow.schedules hf' hidle hs
    exact h.alike (hsched.rob.comp (account c)) (by rw [hsched.rest]; rfl)
  | execute => exact h.alike (alike_modify (f := markIssued s.cycle c.execLatency) rfl) rfl
  | addStore hi hj hm ha hbefore hroom hsta hs => exact h.addStore ho.tail hj hm ha hs
  | memoryScheduled =>
    rw [memoryScheduled_eq]
    exact h.alike (alike_modify (f := markMemoryScheduled) rfl) rfl
  | retire hip hdone =>
    have hopen := (reaches_counts hr).entry s.rob.head
    have hzero : (s.rob.entry s.rob.head).numMemOps = 0 := by
      by_contra hne
      have hnonneg := hopen.nonneg
      exact hopen.executed (by omega) hdone
    exact h.retire hp ho hb hf hip hdone hzero _

/-- What is due at the DTLB or the L1D is taken. -/
theorem Staged.completeDataFetch {server : Server} {p : Packet} (h : Staged c s)
    (hsq : s.sq.size = sqSize) (hlq : s.lq.size = lqSize) (hs : Honest M c s b)
    (hagree : ∀ server, Agrees s server (b server)) (hserver : server = .dtlb ∨ server = .l1d)
    (hdue : M.processed server s.cycle s.mem = some p)
    (ha : completeDataFetch M server p s = some s') :
    Staged c s' ∧ ∃ ws, woken c server p = some ws ∧ Leaves server ws s s' := by
  unfold O3.completeDataFetch at ha
  split at ha
  · obtain ⟨u, hu, ha⟩ := Option.bind_eq_some_iff.mp ha
    obtain ⟨mem, -, rfl⟩ := Option.map_eq_some_iff.mp ha
    have hanswered : Staged c u ∧ ∃ ws, woken c server p = some ws ∧ Leaves server ws s u := by
      rcases hserver with rfl | rfl
      · rw [if_pos rfl] at hu
        cases hu
        have hwoken : woken c .dtlb p = _ := completeDataFetch_dtlb rfl p
        obtain ⟨hnodup, hwaits⟩ :=
          (hagree .dtlb).wakes (hs.wakes .dtlb p _ (.inl rfl) hdue hwoken)
        exact (h.completeTranslation hsq hlq hnodup hwaits).imp_right fun hleaves =>
          ⟨_, hwoken, hleaves⟩
      · rw [if_neg (by decide)] at hu
        obtain ⟨ws, hwoken⟩ : ∃ ws, woken c .l1d p = some ws := completeLoad_woken hu rfl
        obtain ⟨hnodup, hwaits⟩ :=
          (hagree .l1d).wakes (hs.wakes .l1d p ws (.inr rfl) hdue hwoken)
        exact (h.completeLoad hlq rfl hwoken hnodup hwaits (hs.names p hdue) hu).imp_right
          fun hleaves => ⟨ws, hwoken, hleaves⟩
    obtain ⟨hstaged, hleaves⟩ := hanswered
    have hremoved : Staged c { u with mem := mem } ∧ Awaits { u with mem := mem } = Awaits u :=
      hstaged.alike (.refl ..) rfl
    exact ⟨hremoved.1, hleaves⟩
  · cases ha

theorem Staged.call (h : Staged c s) (hr : Reaches M c t O s) (hf : FreshIds s)
    (hs : Honest M c s b) (hagree : ∀ server, Agrees s server (b server))
    (hcall : Call M c t O s s') : Staged c s' ∧ ∃ b', Exchange M c s s' b b' := by
  obtain ⟨hp, hl, hb⟩ := reaches_books hr hf
  obtain ⟨-, ho⟩ := reaches_occupied hr
  have hsilent : (Staged c s' ∧ Awaits s' = Awaits s) →
      Staged c s' ∧ ∃ b', Exchange M c s s' b b' := fun hsame =>
    ⟨hsame.1, b, .silent (h.not_asks fun server w => by rw [hsame.2]; exact id) hsame.2⟩
  have hasked : ∀ {server r}, Asks M c s s' server r →
      Staged c s' ∧ ∃ b', Exchange M c s s' b b' := fun ha =>
    (h.asks ha).imp_right fun ⟨_, hwaiter, hjoins⟩ => ⟨_, .asked ha hwaiter hjoins⟩
  cases hcall with
  | outside | operate | rewind | dateDecode | refused => exact hsilent (h.alike (.refl ..) rfl)
  | read hroom hstall hrecord hsta hread =>
    exact hsilent (h.move hr hf (read_move hroom hstall hrecord hsta hread))
  | resume env => exact hsilent (h.move hr hf (t := t) (.resume s env))
  | askItlb ha =>
    obtain ⟨hrob, hlsq⟩ := requestTranslation_lsq ha
    exact hsilent (h.alike (hrob ▸ .refl ..) hlsq)
  | askL1i ha =>
    obtain ⟨hrob, hlsq⟩ := requestLine_lsq ha
    exact hsilent (h.alike (hrob ▸ .refl ..) hlsq)
  | toDecode => exact hsilent (h.alike (.refl ..) rfl)
  | toRob hip hroom hadd =>
    rw [(addToRob_some hadd).1, modify_push] at hsilent ⊢
    exact hsilent (h.move hr hf (t := t) (.toRob hip hroom))
  | answerInstr hdue ha =>
    obtain ⟨mem, -, rfl⟩ := Option.map_eq_some_iff.mp ha
    exact hsilent (h.alike (.refl ..) rfl)
  | answerData hdue hserver ha =>
    obtain ⟨hstaged, ws, hwoken, hleaves⟩ :=
      h.completeDataFetch ho.size hl.size hs hagree hserver hdue ha
    exact ⟨hstaged, _, .answered (h.not_asks fun server w hw => ((hleaves server w).mp hw).1)
      hserver hdue hwoken hleaves⟩
  | complete hc => exact hsilent (h.move hr hf (t := t) (.complete hc))
  | schedule hfetched hidle hd =>
    exact hsilent (h.move hr hf (t := t) (.schedule hfetched hidle hd))
  | execute hi he => exact hsilent (h.move hr hf (t := t) (.execute hi he))
  | addLoad hi hj hm ha hroom hadd =>
    have hlive := hp.flow.live_candidate hi
    refine hsilent (h.addLoad hlive hl.size hj hm ha (fun p hprior => ?_) hadd)
    exact Nat.ne_of_lt (hp.id_rob hf (mem_priors hp.window hlive hprior).1).2
  | addStore hi hj hm ha hbefore hroom hsta hadd =>
    exact hsilent (h.move hr hf (t := t) (.addStore hi hj hm ha hbefore hroom hsta hadd))
  | memoryScheduled hi hall => exact hsilent (h.move hr hf (t := t) (.memoryScheduled hi hall))
  | translateStore hi hadd => exact hasked (.translateStore hi hadd)
  | executeStore hi hexec =>
    have hknown := h.stores.one.front hi
    have hid := instrId_ne hp hf hb (address_of_station hknown rfl)
    exact hsilent (h.executeStore hi hid hexec)
  | translateLoad hi hadd => exact hasked (.translateLoad hi hadd)
  | executeLoad hi hadd => exact hasked (.executeLoad hi hadd)
  | retire hip hdone hwrite =>
    rw [writeStores_mem _ hwrite] at hsilent ⊢
    exact hsilent (h.move hr hf (t := t) (.retire hip hdone))

theorem Staged.op (h : Staged c s) (hr : Reaches M c t O s) (hf : FreshIds s)
    (hs : Honest M c s b) (hagree : ∀ server, Agrees s server (b server))
    (hop : Op M c t O s s') : Staged c s' ∧ ∃ b', Exchange M c s s' b b' := by
  cases hop with
  | tick =>
    have htick : Staged c s.tick ∧ Awaits s.tick = Awaits s := h.alike (.refl ..) rfl
    exact ⟨htick.1, b, .silent (h.not_asks fun server w => by rw [htick.2]; exact id) htick.2⟩
  | call hcall => exact h.call hr hf hs hagree hcall

theorem HonestRun.reaches (h : HonestRun M c t O s b) : Reaches M c t O s := by
  induction h with
  | init mem => exact ⟨mem, .refl _⟩
  | op _ _ hop _ ih => exact ih.op hop

/-- The books tell at any time who waits. -/
theorem HonestRun.agrees (h : HonestRun M c t O s b) (server : Server) :
    Agrees s server (b server) := by
  induction h generalizing server with
  | init mem => exact agrees_init mem server
  | op _ hs _ he ih => exact he.agrees hs ih server

theorem HonestRun.staged (h : HonestRun M c t O s b) (hf : FreshIds s) : Staged c s := by
  induction h with
  | init mem => exact staged_init mem
  | op hrun hs hop _ ih =>
    have hbefore := hf.before (reaches_occupied hrun.reaches).1 hop
    exact ((ih hbefore).op hrun.reaches hbefore hs hrun.agrees hop).1

/-- The core asks for nothing that it waits for, and is woken by nothing else. -/
theorem asked_once (h : HonestRun M c t O s b) (hf : FreshIds s) (hs : Honest M c s b)
    (hop : Op M c t O s s') : ∃ b', Exchange M c s s' b b' ∧ HonestRun M c t O s' b' := by
  obtain ⟨-, b', he⟩ := (h.staged hf).op h.reaches hf hs h.agrees hop
  exact ⟨b', he, h.op hs hop he⟩

/-- Each request that is taken is one that `Delivery` allows. -/
theorem HonestRun.allowed {ρ : Type} {D : Cache.Delivery ρ} {server : Server} {r : Cache.Request}
    (h : HonestRun M c t O s b) (hf : FreshIds s) (ha : Asks M c s s' server r)
    (hissued : D.issued = (b server).issued) (hdelivered : D.delivered = (b server).delivered)
    (env : Cache.Env) : D.Allowed (server.level.config c.numCpus c.cpu) (.issue env r) := by
  obtain ⟨-, w, hwaiter, hjoins⟩ := (h.staged hf).asks ha
  refine ⟨?_, fun x hx hmem => ?_⟩
  · cases ha <;> rfl
  · rw [hwaiter, Multiset.mem_singleton] at hx
    subst hx
    have hcount := h.agrees server x
    have hpos := Multiset.count_pos.mpr hmem
    rw [if_neg hjoins.new] at hcount
    rw [Multiset.count_sub, hissued, hdelivered] at hpos
    omega

end Run

end O3
end ChampSim
