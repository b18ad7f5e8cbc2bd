import ChampSim.Replacement.Victims

/-!
# ChampSim.Replacement.Sampler

The sampler of SHiP over every sequence of `update_sampler` calls.

* `samplerMatch_cases` — all that one call does to its set and to the counters.
* `DistinctTags`       — a tag is in one way of a set at most.
* `Told`               — an entry was written by one of the calls, and while it is not `used` no
  later call asked for its tag.
* `sampler_sound`      — the sampler is a sound LRU set, and only dead entries are counted.
-/

namespace ChampSim
namespace Replacement
namespace Ship

open Lib

structure SamplerCall where
  cpu : Nat
  sIdx : Nat
  address : Nat
  ip : Nat
  type : PacketType

namespace SamplerCall

def tag (numCpus : Nat) (c : SamplerCall) : Nat := c.address / (64 * (numCpus * 2048))

def step (numCpus : Nat) (s : Ship) (c : SamplerCall) : Option Ship :=
  updateSampler numCpus c.cpu c.sIdx c.address c.ip c.type s

end SamplerCall

section Match

variable {cpu tag ip i : Nat} {type : PacketType} {set : Nat → SamplerEntry}
  {shct shct' : Nat → Nat → Nat} {e : SamplerEntry}

/-- The tag is new in the set. -/
def Fresh (set : Nat → SamplerEntry) (tag : Nat) : Prop :=
  ∀ j < samplerWay, (set j).valid → (set j).tag ≠ tag

/-- The entry of the way `i` before the call, and `e` after it. -/
theorem samplerMatch_cases (h : samplerMatch cpu tag ip type set shct = some (i, e, shct')) :
    e.valid ∧ e.tag = tag ∧
      ((set i).valid ∧ (set i).tag = tag ∧ samplerHit cpu type (set i) shct = (e, shct') ∨
        Fresh set tag ∧ e.ip = ip ∧ e.used = false ∧
          ((set i).valid = false ∧ shct' = shct ∨
            (set i).valid ∧ (samplerMiss cpu tag ip type (set i) shct).2 = shct')) := by
  unfold samplerMatch at h
  split at h
  · rename_i j hj
    have hhit : (set j).valid ∧ (set j).tag = tag := by simpa using List.find?_some hj
    cases h
    exact ⟨hhit.1, hhit.2, .inl ⟨hhit.1, hhit.2, rfl⟩⟩
  · rename_i hmiss
    have hfresh : Fresh set tag := by
      intro k hk hvalid
      simpa [hvalid] using List.find?_eq_none.mp hmiss k (List.mem_range.mpr hk)
    split at h
    · rename_i j hj
      have hinvalid : (set j).valid = false := by simpa using List.find?_some hj
      cases h
      exact ⟨rfl, rfl, .inr ⟨hfresh, rfl, rfl, .inl ⟨hinvalid, rfl⟩⟩⟩
    · rename_i hfull
      obtain ⟨j, hj, heq⟩ := Option.map_eq_some_iff.mp h
      cases heq
      have hvalid : (set i).valid := by
        simpa using List.find?_eq_none.mp hfull i (List.mem_of_find?_eq_some hj)
      exact ⟨hvalid, rfl, .inr ⟨hfresh, rfl, rfl, .inr ⟨hvalid, rfl⟩⟩⟩

def CountersLe (shct : Nat → Nat → Nat) : Prop := ∀ cpu i, shct cpu i ≤ shctMax

theorem countersLe_setRrpv (h : CountersLe shct) {v : Nat} (hv : v ≤ shctMax) :
    CountersLe (setRrpv shct cpu i v) := by
  intro cpu' i'
  unfold setRrpv
  by_cases hcpu : cpu' = cpu
  · subst hcpu
    rw [Function.update_self]
    by_cases hi : i' = i
    · subst hi
      simpa using hv
    · rw [Function.update_of_ne hi]
      exact h cpu' i'
  · rw [Function.update_of_ne hcpu]
    exact h cpu' i'

theorem countersLe_hit (h : CountersLe shct) : CountersLe (samplerHit cpu type e shct).2 := by
  unfold samplerHit
  simp only
  split
  · exact countersLe_setRrpv h ((Nat.sub_le _ _).trans (h _ _))
  · exact h

theorem countersLe_miss (h : CountersLe shct) :
    CountersLe (samplerMiss cpu tag ip type e shct).2 := by
  unfold samplerMiss
  simp only
  split
  · rename_i hlt
    exact countersLe_setRrpv h hlt.2
  · exact h

theorem samplerMatch_countersLe (h : samplerMatch cpu tag ip type set shct = some (i, e, shct'))
    (hle : CountersLe shct) : CountersLe shct' := by
  obtain ⟨-, -, ⟨-, -, hhit⟩ | ⟨-, -, -, ⟨-, rfl⟩ | ⟨-, rfl⟩⟩⟩ := samplerMatch_cases h
  · have hcounters : CountersLe (samplerHit cpu type (set i) shct).2 := countersLe_hit hle
    rw [hhit] at hcounters
    exact hcounters
  · exact hle
  · exact countersLe_miss hle

/-- A used entry makes counters go down only. -/
theorem samplerHit_le (cpu : Nat) (type : PacketType) (e : SamplerEntry)
    (shct : Nat → Nat → Nat) (cpu' i : Nat) :
    (samplerHit cpu type e shct).2 cpu' i ≤ shct cpu' i := by
  unfold samplerHit setRrpv
  simp only
  split
  · by_cases hcpu : cpu' = cpu
    · subst hcpu
      rw [Function.update_self]
      by_cases hi : i = e.ip % shctPrime
      · subst hi
        simp
      · rw [Function.update_of_ne hi]
    · rw [Function.update_of_ne hcpu]
  · exact le_rfl

/-- A dead entry is counted once, under the address that wrote it. -/
theorem samplerMiss_lt {k cpu' : Nat}
    (h : shct cpu' k < (samplerMiss cpu tag ip type e shct).2 cpu' k) :
    cpu' = cpu ∧ k = e.ip % shctPrime ∧ e.used = false ∧
      (samplerMiss cpu tag ip type e shct).2 cpu' k = shct cpu' k + 1 := by
  revert h
  unfold samplerMiss setRrpv
  simp only
  split
  · rename_i hdead
    by_cases hcpu : cpu' = cpu
    · subst hcpu
      rw [Function.update_self]
      by_cases hi : k = e.ip % shctPrime
      · subst hi
        intro _
        exact ⟨rfl, rfl, hdead.1, by simp⟩
      · rw [Function.update_of_ne hi]
        intro h
        exact absurd h (lt_irrefl _)
    · rw [Function.update_of_ne hcpu]
      intro h
      exact absurd h (lt_irrefl _)
  · intro h
    exact absurd h (lt_irrefl _)

end Match

/-! ## The tags -/

def DistinctTags (set : Nat → SamplerEntry) : Prop :=
  ∀ v < samplerWay, ∀ w < samplerWay, (set v).valid → (set w).valid →
    (set v).tag = (set w).tag → v = w

@[simp] theorem touchSampler_valid (i j : Nat) (set : Nat → SamplerEntry) :
    (touchSampler i set j).valid = (set j).valid := rfl

@[simp] theorem touchSampler_tag (i j : Nat) (set : Nat → SamplerEntry) :
    (touchSampler i set j).tag = (set j).tag := rfl

@[simp] theorem touchSampler_ip (i j : Nat) (set : Nat → SamplerEntry) :
    (touchSampler i set j).ip = (set j).ip := rfl

@[simp] theorem touchSampler_used (i j : Nat) (set : Nat → SamplerEntry) :
    (touchSampler i set j).used = (set j).used := rfl

section Step

variable {cpu tag ip i : Nat} {type : PacketType} {set : Nat → SamplerEntry}
  {shct shct' : Nat → Nat → Nat} {e : SamplerEntry}

/-- The other ways hold other tags than the one asked for. -/
theorem samplerMatch_others (hset : DistinctTags set)
    (h : samplerMatch cpu tag ip type set shct = some (i, e, shct')) {j : Nat}
    (hj : j < samplerWay) (hji : j ≠ i) (hvalid : (set j).valid) : (set j).tag ≠ tag := by
  obtain ⟨-, -, ⟨hi, htag, -⟩ | ⟨hfresh, -⟩⟩ := samplerMatch_cases h
  · intro heq
    exact hji (hset j hj i (samplerMatch_lru h).1 hvalid hi (heq.trans htag.symm))
  · exact hfresh j hj hvalid

theorem samplerMatch_distinct (hset : DistinctTags set)
    (h : samplerMatch cpu tag ip type set shct = some (i, e, shct')) :
    DistinctTags (touchSampler i (Function.update set i e)) := by
  obtain ⟨-, htag, -⟩ := samplerMatch_cases h
  intro v hv w hw
  simp only [touchSampler_valid, touchSampler_tag]
  by_cases hvi : v = i
  · subst hvi
    by_cases hwv : w = v
    · exact fun _ _ _ => hwv.symm
    · rw [Function.update_self, Function.update_of_ne hwv, htag]
      exact fun _ hvalid heq => absurd heq.symm (samplerMatch_others hset h hw hwv hvalid)
  · rw [Function.update_of_ne hvi]
    by_cases hwi : w = i
    · subst hwi
      rw [Function.update_self, htag]
      exact fun hvalid _ heq => absurd heq (samplerMatch_others hset h hv hvi hvalid)
    · rw [Function.update_of_ne hwi]
      exact hset v hv w hw

end Step

/-! ## What the calls tell of an entry -/

section History

variable {numCpus : Nat} {calls : List SamplerCall} {s : Ship} {c : SamplerCall}
  {sIdx i : Nat} {e : SamplerEntry}

/-- `ins`, called after `pre`, asks for a tag that the set does not hold: it writes an entry. -/
def Inserts (numCpus : Nat) (pre : List SamplerCall) (ins : SamplerCall) : Prop :=
  ∀ s, run (SamplerCall.step numCpus) init pre = some s →
    Fresh (s.sampler ins.sIdx) (ins.tag numCpus)

/-- `ins` wrote the entry, and the calls `post` came after it. -/
structure Wrote (numCpus : Nat) (calls : List SamplerCall) (sIdx : Nat) (e : SamplerEntry)
    (ins : SamplerCall) (post : List SamplerCall) : Prop where
  calls : ∃ pre, calls = pre ++ ins :: post ∧ Inserts numCpus pre ins
  sIdx : ins.sIdx = sIdx
  tag : ins.tag numCpus = e.tag
  ip : ins.ip = e.ip

/-- No call of `post` asks for the tag. -/
def Unhit (numCpus : Nat) (post : List SamplerCall) (sIdx tag : Nat) : Prop :=
  ∀ c ∈ post, c.sIdx = sIdx → c.tag numCpus ≠ tag

def Told (numCpus : Nat) (calls : List SamplerCall) (sIdx : Nat) (e : SamplerEntry) : Prop :=
  ∃ ins post, Wrote numCpus calls sIdx e ins post ∧
    (e.used = false → Unhit numCpus post sIdx e.tag)

theorem Wrote.concat {ins : SamplerCall} {post : List SamplerCall}
    (h : Wrote numCpus calls sIdx e ins post) (c : SamplerCall) :
    Wrote numCpus (calls ++ [c]) sIdx e ins (post ++ [c]) where
  calls := by
    obtain ⟨pre, heq, hins⟩ := h.calls
    exact ⟨pre, by simp [heq], hins⟩
  sIdx := h.sIdx
  tag := h.tag
  ip := h.ip

theorem Unhit.concat {post : List SamplerCall} {tag : Nat} (h : Unhit numCpus post sIdx tag)
    (hc : c.sIdx = sIdx → c.tag numCpus ≠ tag) : Unhit numCpus (post ++ [c]) sIdx tag := by
  intro d hd
  rcases List.mem_append.mp hd with hd | hd
  · exact h d hd
  · rw [List.mem_singleton] at hd
    subst hd
    exact hc

/-- A call for another tag leaves what is told of an entry. -/
theorem Told.concat (h : Told numCpus calls sIdx e)
    (hc : c.sIdx = sIdx → c.tag numCpus ≠ e.tag) : Told numCpus (calls ++ [c]) sIdx e := by
  obtain ⟨ins, post, hwrote, hunhit⟩ := h
  exact ⟨ins, post ++ [c], hwrote.concat c, fun hused => (hunhit hused).concat hc⟩

theorem Told.touch {set : Nat → SamplerEntry} {j : Nat} (h : Told numCpus calls sIdx (set j)) :
    Told numCpus calls sIdx (touchSampler i set j) := by
  obtain ⟨ins, post, hwrote, hunhit⟩ := h
  exact ⟨ins, post, { hwrote with tag := hwrote.tag, ip := hwrote.ip }, hunhit⟩

structure Sound (numCpus : Nat) (calls : List SamplerCall) (s : Ship) : Prop where
  ranked : Ranked s
  distinct : ∀ sIdx, DistinctTags (s.sampler sIdx)
  counters : CountersLe s.shct
  told : ∀ sIdx, ∀ i < samplerWay, (s.sampler sIdx i).valid →
    Told numCpus calls sIdx (s.sampler sIdx i)

theorem sound_init (numCpus : Nat) : Sound numCpus [] init where
  ranked := ranked_init
  distinct := by
    intro sIdx v _ w _ hvalid
    cases hvalid
  counters := fun _ _ => Nat.zero_le _
  told := by
    intro sIdx i _ hvalid
    cases hvalid

/-- The entry that the call touches. -/
theorem told_match (h : Sound numCpus calls s)
    (hrun : run (SamplerCall.step numCpus) init calls = some s) {shct : Nat → Nat → Nat}
    (hmatch : samplerMatch c.cpu (c.tag numCpus) c.ip c.type (s.sampler c.sIdx) s.shct =
      some (i, e, shct)) : Told numCpus (calls ++ [c]) c.sIdx e := by
  have hi := (samplerMatch_lru hmatch).1
  obtain ⟨-, htag, ⟨hvalid, hold, hhit⟩ | ⟨hfresh, hip, -, -⟩⟩ := samplerMatch_cases hmatch
  · obtain ⟨ins, post, hwrote, -⟩ := h.told c.sIdx i hi hvalid
    obtain ⟨he, -⟩ := Prod.mk.inj hhit
    subst he
    refine ⟨ins, post ++ [c], ?_, fun hused => absurd hused (by simp)⟩
    exact { hwrote.concat c with tag := hwrote.tag, ip := hwrote.ip }
  · refine ⟨c, [], ⟨⟨calls, rfl, ?_⟩, rfl, htag.symm, hip.symm⟩, fun _ => ?_⟩
    · intro t ht
      rw [hrun, Option.some.injEq] at ht
      subst ht
      exact hfresh
    · intro d hd
      cases hd

/-- A hit, an invalid or an LRU entry is always found. -/
theorem Sound.matches (h : Sound numCpus calls s) (c : SamplerCall) :
    ∃ r, samplerMatch c.cpu (c.tag numCpus) c.ip c.type (s.sampler c.sIdx) s.shct = some r :=
  Option.ne_none_iff_exists'.mp (samplerMatch_ne_none (h.ranked c.sIdx))

/-- A call rewrites one way of its set and touches it. -/
theorem step_of_match {shct : Nat → Nat → Nat}
    (hmatch : samplerMatch c.cpu (c.tag numCpus) c.ip c.type (s.sampler c.sIdx) s.shct =
      some (i, e, shct)) :
    SamplerCall.step numCpus s c = some { s with
      sampler := Function.update s.sampler c.sIdx
        (touchSampler i (Function.update (s.sampler c.sIdx) i e))
      shct := shct } := by
  unfold SamplerCall.tag at hmatch
  simp only [SamplerCall.step, updateSampler, hmatch, Option.map_some]

theorem sound_step (h : Sound numCpus calls s)
    (hrun : run (SamplerCall.step numCpus) init calls = some s) (c : SamplerCall) :
    ∃ s', SamplerCall.step numCpus s c = some s' ∧ Sound numCpus (calls ++ [c]) s' := by
  obtain ⟨⟨i, e, shct⟩, hmatch⟩ := h.matches c
  have hi := (samplerMatch_lru hmatch).1
  have hstep := step_of_match hmatch
  refine ⟨_, hstep, updateSampler_ranked h.ranked hstep, ?_,
    samplerMatch_countersLe hmatch h.counters, ?_⟩
  · intro sIdx
    show DistinctTags (Function.update s.sampler c.sIdx _ sIdx)
    by_cases hs : sIdx = c.sIdx
    · subst hs
      rw [Function.update_self]
      exact samplerMatch_distinct (h.distinct c.sIdx) hmatch
    · rw [Function.update_of_ne hs]
      exact h.distinct sIdx
  · intro sIdx j hj
    show (Function.update s.sampler c.sIdx _ sIdx j).valid → Told numCpus (calls ++ [c]) sIdx
      (Function.update s.sampler c.sIdx _ sIdx j)
    by_cases hs : sIdx = c.sIdx
    · subst hs
      rw [Function.update_self, touchSampler_valid]
      refine fun hvalid => Told.touch ?_
      by_cases hji : j = i
      · subst hji
        rw [Function.update_self]
        exact told_match h hrun hmatch
      · rw [Function.update_of_ne hji] at hvalid ⊢
        refine (h.told c.sIdx j hj hvalid).concat fun _ heq => ?_
        exact samplerMatch_others (h.distinct c.sIdx) hmatch hj hji hvalid heq.symm
    · rw [Function.update_of_ne hs]
      intro hvalid
      exact (h.told sIdx j hj hvalid).concat fun heq => absurd heq.symm hs

/-- The way that a call evicts unused was written by a call, and not asked for since. -/
theorem counted_dead (h : Sound numCpus calls s) {shct : Nat → Nat → Nat}
    (hmatch : samplerMatch c.cpu (c.tag numCpus) c.ip c.type (s.sampler c.sIdx) s.shct =
      some (i, e, shct)) {cpu k : Nat} (hlt : s.shct cpu k < shct cpu k) :
    cpu = c.cpu ∧ shct cpu k = s.shct cpu k + 1 ∧
      (s.sampler c.sIdx i).valid ∧ (s.sampler c.sIdx i).tag ≠ c.tag numCpus ∧
      ∃ ins post, Wrote numCpus calls c.sIdx (s.sampler c.sIdx i) ins post ∧
        Unhit numCpus post c.sIdx (s.sampler c.sIdx i).tag ∧ k = ins.ip % shctPrime := by
  have hi := (samplerMatch_lru hmatch).1
  obtain ⟨-, -, ⟨-, -, hhit⟩ | ⟨hfresh, -, -, ⟨-, rfl⟩ | ⟨hvalid, rfl⟩⟩⟩ :=
    samplerMatch_cases hmatch
  · have hle := samplerHit_le c.cpu c.type (s.sampler c.sIdx i) s.shct cpu k
    rw [hhit] at hle
    exact absurd hlt (not_lt.mpr hle)
  · exact absurd hlt (lt_irrefl _)
  · obtain ⟨hcpu, hk, hused, hcount⟩ := samplerMiss_lt hlt
    obtain ⟨ins, post, hwrote, hunhit⟩ := h.told c.sIdx i hi hvalid
    exact ⟨hcpu, hcount, hvalid, hfresh i hi hvalid, ins, post, hwrote, hunhit hused,
      by rw [hk, hwrote.ip]⟩

end History

theorem sampler_sound (numCpus : Nat) (calls : List SamplerCall) :
    ∃ s, run (SamplerCall.step numCpus) init calls = some s ∧
      (∀ sIdx, ((List.range samplerWay).map fun way => (s.sampler sIdx way).lru).Perm
        (List.range samplerWay)) ∧
      (∀ sIdx, DistinctTags (s.sampler sIdx)) ∧
      (∀ cpu i, s.shct cpu i ≤ shctMax) ∧
      ∀ c : SamplerCall, ∃ i e shct s',
        samplerMatch c.cpu (c.tag numCpus) c.ip c.type (s.sampler c.sIdx) s.shct =
          some (i, e, shct) ∧ i < samplerWay ∧
        SamplerCall.step numCpus s c = some s' ∧ (s'.sampler c.sIdx i).tag = c.tag numCpus ∧
        ∀ cpu k, s.shct cpu k < s'.shct cpu k →
          cpu = c.cpu ∧ s'.shct cpu k = s.shct cpu k + 1 ∧
          (s.sampler c.sIdx i).valid ∧ (s.sampler c.sIdx i).tag ≠ c.tag numCpus ∧
          ∃ ins post, Wrote numCpus calls c.sIdx (s.sampler c.sIdx i) ins post ∧
            Unhit numCpus post c.sIdx (s.sampler c.sIdx i).tag ∧ k = ins.ip % shctPrime := by
  obtain ⟨s, hrun, hs⟩ := run_history (I := Sound numCpus) (P := fun _ => True)
    (fun calls s c hrun h _ => sound_step h hrun c) (sound_init numCpus)
    (fun (c : SamplerCall) (_ : c ∈ calls) => trivial)
  refine ⟨s, hrun, fun sIdx => (hs.ranked sIdx).perm, hs.distinct, hs.counters, fun c => ?_⟩
  obtain ⟨⟨i, e, shct⟩, hmatch⟩ := hs.matches c
  refine ⟨i, e, shct, _, hmatch, (samplerMatch_lru hmatch).1, step_of_match hmatch, ?_,
    fun cpu k => counted_dead hs hmatch⟩
  obtain ⟨-, htag, -⟩ := samplerMatch_cases hmatch
  simpa using htag

/-- As many lines as the set has ways, each asked for once by the instruction at 7. -/
def oneByOne : List SamplerCall :=
  (List.range samplerWay).map fun n => ⟨0, 0, n * 131072, 7, .load⟩

/-- The next line takes the place of the first one, which is counted as dead. -/
theorem sampler_sound_dead :
    ∃ s s', run (SamplerCall.step 1) init oneByOne = some s ∧
      SamplerCall.step 1 s ⟨0, 0, samplerWay * 131072, 9, .load⟩ = some s' ∧
      s.shct 0 7 = 0 ∧ s'.shct 0 7 = 1 ∧ ∃ i < samplerWay, (s'.sampler 0 i).tag = samplerWay ∧
        ∃ ins post, Wrote 1 oneByOne 0 (s.sampler 0 i) ins post ∧
          Unhit 1 post 0 (s.sampler 0 i).tag ∧ 7 = ins.ip % shctPrime := by
  have hcheck : (run (SamplerCall.step 1) init oneByOne).bind (fun s =>
      (SamplerCall.step 1 s ⟨0, 0, samplerWay * 131072, 9, .load⟩).map fun s' =>
        decide (s.shct 0 7 = 0 ∧ s'.shct 0 7 = 1)) = some true := by
    decide +kernel
  obtain ⟨s, hrun, -, -, -, hcalls⟩ := sampler_sound 1 oneByOne
  obtain ⟨i, -, -, s', -, hi, hstep, htag, hcount⟩ :=
    hcalls ⟨0, 0, samplerWay * 131072, 9, .load⟩
  rw [hrun, Option.bind_some, hstep, Option.map_some] at hcheck
  obtain ⟨hbefore, hafter⟩ := of_decide_eq_true (Option.some.inj hcheck)
  obtain ⟨-, -, -, -, ins, post, hwrote, hunhit, hk⟩ := hcount 0 7 (by rw [hbefore, hafter]; decide)
  exact ⟨s, s', hrun, hstep, hbefore, hafter, i, hi, htag, ins, post, hwrote, hunhit, hk⟩

end Ship
end Replacement
end ChampSim
