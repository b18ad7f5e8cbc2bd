import ChampSim.Kpcp.Pattern
import ChampSim.Lib.Recency

/-!
# ChampSim.Kpcp.Signature

The signature table of the signature path prefetcher (`inc/kpcp.h`): per page the last block and a
hash of the last deltas.

* `getNewSignature`, `l2StUpdate`, `l2StCheck` — `get_new_signature`, `L2_ST_update`, `L2_ST_check`.
* `stMatch`        — the hit, invalid and miss paths of `L2_ST_update`.
* `StSound`        — the invariant of a set.
* `stMatch_sound`  — every path finds a way, and what it writes there keeps the invariant.
* `signature_table_agrees` — update and lookup agree, after every sequence of addresses.

`none` is an access outside of an array: of the table, of the pattern table or of `l2_sig_dist`. The
counters of hits and misses are left out, and so is the history register, which is switched off.
-/

namespace ChampSim
namespace Kpcp

open Lib

@[irreducible] def l2StWay : Nat := 256

theorem l2StWay_pos : 0 < l2StWay := by
  unfold l2StWay
  omega

def l2StPrime : Nat := 1

def sigShift : Nat := 3

def sigLength : Nat := 12

def sigMask : Nat := (1 <<< sigLength) - 1

structure SignatureTable where
  valid : Bool
  tag : Nat
  lastBlock : Nat
  signature : Nat
  lru : Nat
  l2Pf : Nat → Bool
  used : Nat → Bool
  depth : Nat → Nat
  firstHit : Bool

namespace SignatureTable

def init (lru : Nat) : SignatureTable :=
  ⟨false, 0, 0, 0, lru, fun _ => false, fun _ => false, fun _ => 0, false⟩

end SignatureTable

/-! ## Signatures -/

/-- `sig_delta`: the sign of a delta is bit 6. -/
def sigDelta (delta : Int) : Nat := if delta < 0 then 64 + (-delta).toNat else delta.toNat

def getNewSignature (oldSignature : Nat) (currDelta : Int) : Nat :=
  if currDelta = 0 then oldSignature
  else
    let newSignature := (oldSignature <<< sigShift ^^^ sigDelta currDelta) &&& sigMask
    if newSignature = 0 then
      if sigDelta currDelta ≠ 0 then sigDelta currDelta else oldSignature
    else newSignature

/-! ## The table -/

structure Spp where
  /-- `L2_ST[cpu][idx][way]`. -/
  st : Nat → Nat → Nat → SignatureTable
  pt : L2Pt
  sigDist : Nat → Nat → Nat

namespace Spp

def init : Spp := ⟨fun _ _ way => .init way, .init, fun _ _ => 0⟩

end Spp

def stIdx (addr : Nat) : Nat := addr / 2 ^ 12 % l2StPrime

def stTag (addr : Nat) : Nat := addr / 2 ^ 12 &&& 0xFFFF

def blockOf (addr : Nat) : Nat := addr / 2 ^ 6 &&& 0x3F

/-- `l2_sig_dist[cpu][signature]++`. -/
def countSig (cpu signature : Nat) (dist : Nat → Nat → Nat) : Option (Nat → Nat → Nat) :=
  if signature < 1 <<< sigLength then
    some (Function.update dist cpu
      (Function.update (dist cpu) signature (dist cpu signature + 1)))
  else none

/-- The way that `L2_ST_update` ends its searches with, its new entry, and what else changed. -/
structure StMatch where
  way : Nat
  entry : SignatureTable
  pt : L2Pt
  sigDist : Nat → Nat → Nat
  hit : Bool

/-- The first hit only sets the signature, the others train the pattern table. A second access to
the same block changes neither. -/
def stHit (cpu currBlock way : Nat) (e : SignatureTable) (s : Spp) : Option StMatch :=
  let delta : Int := currBlock - e.lastBlock
  if e.signature = 0 then
    let signature := sigDelta delta &&& sigMask
    (countSig cpu signature s.sigDist).map fun dist =>
      ⟨way, { e with signature := signature, firstHit := true, lastBlock := currBlock },
        s.pt, dist, false⟩
  else if delta = 0 then some ⟨way, { e with firstHit := false }, s.pt, s.sigDist, true⟩
  else
    (l2PtUpdate cpu e.signature delta s.pt).bind fun pt =>
      let signature := getNewSignature e.signature delta
      (countSig cpu signature s.sigDist).map fun dist =>
        ⟨way, { e with signature := signature, firstHit := false, lastBlock := currBlock },
          pt, dist, true⟩

def stInvalid (tag currBlock : Nat) (e : SignatureTable) : SignatureTable :=
  { e with valid := true, tag := tag, signature := 0, firstHit := false, lastBlock := currBlock }

def stMiss (tag currBlock : Nat) (e : SignatureTable) : SignatureTable :=
  { stInvalid tag currBlock e with
    l2Pf := fun i => if i < 64 then false else e.l2Pf i
    used := fun i => if i < 64 then false else e.used i }

def stFind (tag : Nat) (set : Nat → SignatureTable) : Option Nat :=
  (List.range l2StWay).find? fun i => (set i).valid && (set i).tag == tag

def stMatch (cpu addr : Nat) (s : Spp) : Option StMatch :=
  let set := s.st cpu (stIdx addr)
  match stFind (stTag addr) set with
  | some way => stHit cpu (blockOf addr) way (set way) s
  | none =>
    match (List.range l2StWay).find? fun i => !(set i).valid with
    | some way =>
      some ⟨way, stInvalid (stTag addr) (blockOf addr) (set way), s.pt, s.sigDist, false⟩
    | none =>
      ((List.range l2StWay).find? fun i => (set i).lru == l2StWay - 1).map fun way =>
        ⟨way, stMiss (stTag addr) (blockOf addr) (set way), s.pt, s.sigDist, false⟩

def touchSt (way : Nat) (set : Nat → SignatureTable) (i : Nat) : SignatureTable :=
  { set i with lru := Recency.touch l2StWay way (fun k => (set k).lru) i }

def Spp.setSt (s : Spp) (cpu idx : Nat) (set : Nat → SignatureTable) : Spp :=
  { s with st := Function.update s.st cpu (Function.update (s.st cpu) idx set) }

/-- The state, and the way if it was a hit. -/
def l2StUpdate (cpu addr : Nat) (s : Spp) : Option (Spp × Option Nat) :=
  (stMatch cpu addr s).map fun m =>
    ({ s with pt := m.pt, sigDist := m.sigDist }.setSt cpu (stIdx addr)
        (touchSt m.way (Function.update (s.st cpu (stIdx addr)) m.way m.entry)),
      if m.hit then some m.way else none)

def l2StCheck (cpu addr : Nat) (s : Spp) : Option Nat :=
  stFind (stTag addr) (s.st cpu (stIdx addr))

/-! ## Bounds -/

theorem blockOf_lt (addr : Nat) : blockOf addr < 64 := by
  have hle : blockOf addr ≤ 0x3F := Nat.and_le_right
  omega

theorem sigDelta_lt {delta : Int} (hlo : -64 < delta) (hhi : delta < 64) :
    sigDelta delta < 128 := by
  unfold sigDelta
  split <;> omega

theorem sigMask_eq : sigMask = 4095 := rfl

theorem getNewSignature_le {oldSignature : Nat} {delta : Int} (hold : oldSignature ≤ sigMask)
    (hlo : -64 < delta) (hhi : delta < 64) : getNewSignature oldSignature delta ≤ sigMask := by
  have hsig := sigDelta_lt hlo hhi
  unfold getNewSignature
  simp only
  split
  · exact hold
  · split
    · split
      · rw [sigMask_eq]
        omega
      · exact hold
    · exact Nat.and_le_right

theorem countSig_some (cpu : Nat) {signature : Nat} (h : signature ≤ sigMask)
    (dist : Nat → Nat → Nat) : ∃ dist', countSig cpu signature dist = some dist' := by
  refine ⟨_, if_pos ?_⟩
  rw [sigMask_eq] at h
  simp only [sigLength]
  omega

/-! ## The invariant -/

structure StSound (set : Nat → SignatureTable) : Prop where
  ranks : Recency.Ranks l2StWay fun i => (set i).lru
  distinct : ∀ v < l2StWay, ∀ w < l2StWay, (set v).valid → (set w).valid →
    (set v).tag = (set w).tag → v = w
  signature_le : ∀ i, (set i).signature ≤ sigMask
  lastBlock_le : ∀ i, (set i).lastBlock ≤ 63

structure Spp.Sound (s : Spp) : Prop where
  st : ∀ cpu idx, StSound (s.st cpu idx)
  pt : s.pt.Consistent

theorem Spp.sound_init : Spp.init.Sound where
  st := fun _ _ =>
    { ranks := Recency.ranks_id l2StWay
      distinct := by
        intro v _ w _ hvalid
        cases hvalid
      signature_le := fun _ => Nat.zero_le _
      lastBlock_le := fun _ => Nat.zero_le _ }
  pt := L2Pt.consistent_init

section Find

variable {tag way : Nat} {set : Nat → SignatureTable}

theorem stFind_some (h : stFind tag set = some way) :
    way < l2StWay ∧ (set way).valid ∧ (set way).tag = tag := by
  unfold stFind at h
  have hfound : (set way).valid ∧ (set way).tag = tag := by simpa using List.find?_some h
  exact ⟨List.mem_range.mp (List.mem_of_find?_eq_some h), hfound⟩

theorem stFind_none (h : stFind tag set = none) :
    ∀ i < l2StWay, (set i).valid → (set i).tag ≠ tag := by
  intro i hi hvalid
  unfold stFind at h
  simpa [hvalid] using List.find?_eq_none.mp h i (List.mem_range.mpr hi)

/-- With distinct tags the search finds the one way that has the tag. -/
theorem stFind_eq (hdistinct : ∀ v < l2StWay, ∀ w < l2StWay, (set v).valid → (set w).valid →
      (set v).tag = (set w).tag → v = w) (hi : way < l2StWay) (hvalid : (set way).valid)
    (htag : (set way).tag = tag) : stFind tag set = some way := by
  cases hfind : stFind tag set with
  | none => exact absurd htag (stFind_none hfind way hi hvalid)
  | some v =>
    obtain ⟨hv, hvv, hvt⟩ := stFind_some hfind
    rw [hdistinct v hv way hi hvv hvalid (hvt.trans htag.symm)]

theorem exists_last (h : StSound set) : ∃ way,
    ((List.range l2StWay).find? fun i => (set i).lru == l2StWay - 1) = some way := by
  obtain ⟨w, hw, hlast⟩ := h.ranks.exists_eq (k := l2StWay - 1)
    (Nat.sub_one_lt_of_lt l2StWay_pos)
  refine Option.isSome_iff_exists.mp ?_
  rw [List.find?_isSome]
  exact ⟨w, List.mem_range.mpr hw, beq_iff_eq.mpr hlast⟩

end Find

/-- What every path of the update writes into a way of the set. -/
structure Writes (tag : Nat) (set : Nat → SignatureTable) (m : StMatch) : Prop where
  way_lt : m.way < l2StWay
  lru_eq : m.entry.lru = (set m.way).lru
  valid : m.entry.valid
  tag_eq : m.entry.tag = tag
  others : ∀ i < l2StWay, i ≠ m.way → (set i).valid → (set i).tag ≠ tag
  signature_le : m.entry.signature ≤ sigMask
  lastBlock_le : m.entry.lastBlock ≤ 63

section Update

variable {cpu addr way : Nat} {s : Spp}

/-- A hit trains the pattern table with a delta that is not 0, and counts a signature in range. -/
theorem stHit_sound (h : s.Sound)
    (hfind : stFind (stTag addr) (s.st cpu (stIdx addr)) = some way) :
    ∃ m, stHit cpu (blockOf addr) way (s.st cpu (stIdx addr) way) s = some m ∧
      Writes (stTag addr) (s.st cpu (stIdx addr)) m ∧ m.pt.Consistent := by
  obtain ⟨hway, hvalid, htag⟩ := stFind_some hfind
  have hset := h.st cpu (stIdx addr)
  have hothers : ∀ i < l2StWay, i ≠ way → (s.st cpu (stIdx addr) i).valid →
      (s.st cpu (stIdx addr) i).tag ≠ stTag addr := fun i hi hne hv heq =>
    hne (hset.distinct i hi way hway hv hvalid (heq.trans htag.symm))
  have hblock := blockOf_lt addr
  have hlast := hset.lastBlock_le way
  have hsig := hset.signature_le way
  have hlo : -64 < (blockOf addr : Int) - (s.st cpu (stIdx addr) way).lastBlock := by omega
  have hhi : (blockOf addr : Int) - (s.st cpu (stIdx addr) way).lastBlock < 64 := by omega
  unfold stHit
  simp only
  split
  · have hmask : sigDelta ((blockOf addr : Int) - (s.st cpu (stIdx addr) way).lastBlock) &&&
        sigMask ≤ sigMask := Nat.and_le_right
    obtain ⟨dist, hdist⟩ := countSig_some cpu hmask s.sigDist
    rw [hdist]
    exact ⟨_, rfl, ⟨hway, rfl, hvalid, htag, hothers, hmask, by simp only; omega⟩, h.pt⟩
  · split
    · exact ⟨_, rfl, ⟨hway, rfl, hvalid, htag, hothers, hsig, hlast⟩, h.pt⟩
    · rename_i hdelta
      obtain ⟨pt, hpt, hconsistent⟩ := l2PtUpdate_consistent cpu
        (s.st cpu (stIdx addr) way).signature h.pt hdelta
      have hnew := getNewSignature_le hsig hlo hhi
      obtain ⟨dist, hdist⟩ := countSig_some cpu hnew s.sigDist
      rw [hpt, Option.bind_some, hdist]
      exact ⟨_, rfl, ⟨hway, rfl, hvalid, htag, hothers, hnew, by simp only; omega⟩, hconsistent⟩

theorem stMatch_sound (h : s.Sound) (cpu addr : Nat) :
    ∃ m, stMatch cpu addr s = some m ∧
      Writes (stTag addr) (s.st cpu (stIdx addr)) m ∧ m.pt.Consistent := by
  have hblock := blockOf_lt addr
  have hblock' : blockOf addr ≤ 63 := by omega
  unfold stMatch
  simp only
  cases hfind : stFind (stTag addr) (s.st cpu (stIdx addr)) with
  | some way => exact stHit_sound h hfind
  | none =>
    have hothers := stFind_none hfind
    simp only
    split
    · rename_i way hway
      exact ⟨_, rfl, ⟨List.mem_range.mp (List.mem_of_find?_eq_some hway), rfl, rfl, rfl,
        fun i hi _ => hothers i hi, Nat.zero_le _, hblock'⟩, h.pt⟩
    · obtain ⟨way, hway⟩ := exists_last (h.st cpu (stIdx addr))
      rw [hway]
      exact ⟨_, rfl, ⟨List.mem_range.mp (List.mem_of_find?_eq_some hway), rfl, rfl, rfl,
        fun i hi _ => hothers i hi, Nat.zero_le _, hblock'⟩, h.pt⟩

end Update

@[simp] theorem touchSt_valid (way i : Nat) (set : Nat → SignatureTable) :
    (touchSt way set i).valid = (set i).valid := rfl

@[simp] theorem touchSt_tag (way i : Nat) (set : Nat → SignatureTable) :
    (touchSt way set i).tag = (set i).tag := rfl

@[simp] theorem touchSt_signature (way i : Nat) (set : Nat → SignatureTable) :
    (touchSt way set i).signature = (set i).signature := rfl

@[simp] theorem touchSt_lastBlock (way i : Nat) (set : Nat → SignatureTable) :
    (touchSt way set i).lastBlock = (set i).lastBlock := rfl

theorem touchSt_lru (way : Nat) (set : Nat → SignatureTable) : (touchSt way set way).lru = 0 := by
  simp [touchSt]

theorem Writes.sound {tag : Nat} {set : Nat → SignatureTable} {m : StMatch}
    (hw : Writes tag set m) (h : StSound set) :
    StSound (touchSt m.way (Function.update set m.way m.entry)) where
  ranks := Recency.Ranks.touch_update SignatureTable.lru h.ranks hw.way_lt hw.lru_eq
  distinct := by
    intro v hv w hw'
    simp only [touchSt_valid, touchSt_tag]
    by_cases hvm : v = m.way
    · by_cases hwm : w = m.way
      · exact fun _ _ _ => hvm.trans hwm.symm
      · rw [hvm, Function.update_self, Function.update_of_ne hwm, hw.tag_eq]
        exact fun _ hvalid heq => absurd heq.symm (hw.others w hw' hwm hvalid)
    · rw [Function.update_of_ne hvm]
      by_cases hwm : w = m.way
      · rw [hwm, Function.update_self, hw.tag_eq]
        exact fun hvalid _ heq => absurd heq (hw.others v hv hvm hvalid)
      · rw [Function.update_of_ne hwm]
        exact h.distinct v hv w hw'
  signature_le := by
    intro i
    by_cases hi : i = m.way
    · simpa [hi] using hw.signature_le
    · simpa [hi] using h.signature_le i
  lastBlock_le := by
    intro i
    by_cases hi : i = m.way
    · simpa [hi] using hw.lastBlock_le
    · simpa [hi] using h.lastBlock_le i

@[simp] theorem Spp.setSt_st_self (s : Spp) (cpu idx : Nat) (set : Nat → SignatureTable) :
    (s.setSt cpu idx set).st cpu idx = set := by
  simp [Spp.setSt]

theorem Spp.setSt_sound {s : Spp} (h : s.Sound) {cpu idx : Nat} {set : Nat → SignatureTable}
    (hset : StSound set) : (s.setSt cpu idx set).Sound where
  st := by
    intro cpu' idx'
    unfold Spp.setSt
    by_cases hcpu : cpu' = cpu
    · subst hcpu
      by_cases hidx : idx' = idx
      · subst hidx
        simpa using hset
      · simpa [hidx] using h.st cpu' idx'
    · simpa [hcpu] using h.st cpu' idx'
  pt := h.pt

/-- After the update the lookup finds the way that was written. -/
theorem l2StUpdate_sound {s : Spp} (h : s.Sound) (cpu addr : Nat) :
    ∃ m s', stMatch cpu addr s = some m ∧
      l2StUpdate cpu addr s = some (s', if m.hit then some m.way else none) ∧ s'.Sound ∧
      m.way < l2StWay ∧ l2StCheck cpu addr s' = some m.way ∧
      (s'.st cpu (stIdx addr) m.way).lru = 0 := by
  obtain ⟨m, hm, hwrites, hpt⟩ := stMatch_sound h cpu addr
  have hset := hwrites.sound (h.st cpu (stIdx addr))
  have hbase : Spp.Sound { s with pt := m.pt, sigDist := m.sigDist } := ⟨h.st, hpt⟩
  refine ⟨m, _, hm, by rw [l2StUpdate, hm]; rfl, Spp.setSt_sound hbase hset, hwrites.way_lt, ?_, ?_⟩
  · unfold l2StCheck
    rw [Spp.setSt_st_self]
    refine stFind_eq hset.distinct hwrites.way_lt ?_ ?_
    · simpa using hwrites.valid
    · simpa using hwrites.tag_eq
  · rw [Spp.setSt_st_self]
    exact touchSt_lru ..

structure StCall where
  cpu : Nat
  addr : Nat

def StCall.step (s : Spp) (c : StCall) : Option Spp := (l2StUpdate c.cpu c.addr s).map Prod.fst

theorem Spp.Sound.step {s : Spp} (h : s.Sound) (c : StCall) :
    ∃ s', StCall.step s c = some s' ∧ s'.Sound := by
  obtain ⟨m, s', -, hupdate, hsound, -⟩ := l2StUpdate_sound h c.cpu c.addr
  exact ⟨s', by rw [StCall.step, hupdate]; rfl, hsound⟩

theorem signature_table_agrees (calls : List StCall) :
    ∃ s, run StCall.step Spp.init calls = some s ∧
      (∀ cpu idx,
        ((List.range l2StWay).map fun i => (s.st cpu idx i).lru).Perm (List.range l2StWay) ∧
        (∀ v < l2StWay, ∀ w < l2StWay, (s.st cpu idx v).valid → (s.st cpu idx w).valid →
          (s.st cpu idx v).tag = (s.st cpu idx w).tag → v = w) ∧
        ∀ i, (s.st cpu idx i).signature ≤ sigMask ∧ (s.st cpu idx i).lastBlock ≤ 63) ∧
      ∀ cpu addr, ∃ m s', stMatch cpu addr s = some m ∧
        l2StUpdate cpu addr s = some (s', if m.hit then some m.way else none) ∧
        m.way < l2StWay ∧ l2StCheck cpu addr s' = some m.way ∧
        (s'.st cpu (stIdx addr) m.way).lru = 0 := by
  have halong : Along StCall.step (fun _ _ => True) Spp.init calls :=
    along_of_forall (A := fun _ => True) (fun _ _ => trivial) Spp.init
  obtain ⟨s, hrun, h⟩ := run_total (fun s c h _ => h.step c) Spp.sound_init halong
  refine ⟨s, hrun, fun cpu idx => ?_, fun cpu addr => ?_⟩
  · have hset := h.st cpu idx
    exact ⟨hset.ranks.perm, hset.distinct, fun i => ⟨hset.signature_le i, hset.lastBlock_le i⟩⟩
  · obtain ⟨m, s', hm, hupdate, -, hrest⟩ := l2StUpdate_sound h cpu addr
    exact ⟨m, s', hm, hupdate, hrest⟩

end Kpcp
end ChampSim
