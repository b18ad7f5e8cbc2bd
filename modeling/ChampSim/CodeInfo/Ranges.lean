import ChampSim.CodeInfo.Agreement
import ChampSim.CodeInfo.Table
import Mathlib.Data.List.Chain

/-!
# ChampSim.CodeInfo.Ranges

What the loop of the `llvm_info` constructor cuts a function into.

* `Ahead`       — the instructions, with their numbers, that an iterator still has to visit.
* `gather_eq`, `entries_eq` — the loop in terms of these.
* `Ordered`     — a later entry is not met before an earlier one.
* `trail`       — the numbers as they would be without wrapping.
* `ranges_partition` — sorted entries cut the function into consecutive ranges, as long as the block
  counter does not wrap; `many_blocks_unread` is a function where it does.
-/

namespace ChampSim
namespace CodeInfo

section Ranges

variable {ι : Type*} {isDebug : ι → Bool}

def Carries (v : Numbered ι) (c : CorrelInfo) : Prop := v.bb = c.bb ∧ v.instr = c.instr

/-- The order of the entries. -/
def Before (c q : CorrelInfo) : Prop := c.bb < q.bb ∨ c.bb = q.bb ∧ c.instr < q.instr

/-! ## The loop -/

inductive Ahead (isDebug : ι → Bool) : Iter ι → List (Numbered ι) → Prop where
  | done {bb : Option Nat} {bn : UInt32} {i : UInt16} : Ahead isDebug ⟨[], bb, bn, i, true⟩ []
  | more {x : Nat × ι} {r : List (Nat × ι)} {bb : Option Nat} {bn : UInt32} {i : UInt16} :
      Ahead isDebug ⟨x :: r, bb, bn, i, false⟩ (numbers bb bn i (x :: keep isDebug r))

/-- An advance visits one instruction. -/
theorem Ahead.advance {it : Iter ι} {v : Numbered ι} {vs : List (Numbered ι)}
    (h : Ahead isDebug it (v :: vs)) :
    it.numbered = some v ∧ ∃ it', it.advance isDebug = some it' ∧ Ahead isDebug it' vs := by
  generalize hvs : v :: vs = ws at h
  cases h with
  | done => cases hvs
  | @more x r bb bn i =>
    rcases skipDebug_cases isDebug r with ⟨hs, hk⟩ | ⟨y, s, hs, hk⟩
    · rw [hk, numbers] at hvs
      cases hvs
      exact ⟨rfl, ⟨[], bb, bn, i, true⟩, by simp [Iter.advance, hs], .done⟩
    · rw [hk, numbers] at hvs
      obtain ⟨rfl, rfl⟩ := List.cons.inj hvs
      refine ⟨rfl, ?_⟩
      by_cases hb : bb ≠ none ∧ some y.1 ≠ bb
      · rw [if_pos hb]
        exact ⟨_, by simp only [Iter.advance, hs, if_pos hb]; rfl, .more⟩
      · rw [if_neg hb]
        exact ⟨_, by simp only [Iter.advance, hs, if_neg hb]; rfl, .more⟩

theorem Ahead.not_done {it : Iter ι} {v : Numbered ι} {vs : List (Numbered ι)}
    (h : Ahead isDebug it (v :: vs)) : it.done = false := by
  generalize hvs : v :: vs = ws at h
  cases h with
  | done => cases hvs
  | more => rfl

theorem Ahead.numbered_nil {it : Iter ι} (h : Ahead isDebug it []) : it.numbered = none := by
  generalize hvs : ([] : List (Numbered ι)) = ws at h
  cases h with
  | done => rfl
  | @more x r bb bn i =>
    cases hk : keep isDebug r <;> rw [hk, numbers] at hvs <;> cases hvs

/-- The loop for one entry takes what comes before the first instruction with its numbers, and that
instruction. -/
theorem gather_eq {c : CorrelInfo} {a b : List (Numbered ι)} {v : Numbered ι} {it : Iter ι}
    {fuel : Nat} (h : Ahead isDebug it (a ++ v :: b)) (ha : ∀ w ∈ a, ¬Carries w c)
    (hv : Carries v c) (hfuel : a.length < fuel) :
    ∃ it', gather isDebug fuel it c = some ((a ++ [v]).map Numbered.inst, it') ∧
      Ahead isDebug it' b := by
  induction a generalizing it fuel with
  | nil =>
    obtain ⟨k, rfl⟩ : ∃ k, fuel = k + 1 := ⟨fuel - 1, by simp at hfuel; omega⟩
    obtain ⟨hnum, it', hadv, hnext⟩ := h.advance
    refine ⟨it', ?_, hnext⟩
    simp only [gather, hnum, hadv, Option.bind_some]
    rw [if_pos (.inr hv)]
    rfl
  | cons w a ih =>
    obtain ⟨k, rfl⟩ : ∃ k, fuel = k + 1 := ⟨fuel - 1, by simp at hfuel; omega⟩
    obtain ⟨hnum, it', hadv, hnext⟩ := h.advance
    have hmore : it'.done = false := by
      cases a <;> exact hnext.not_done
    have hw : ¬(w.bb = c.bb ∧ w.instr = c.instr) := ha w (by simp)
    obtain ⟨it'', hgather, hahead⟩ := ih hnext (fun u hu => ha u (by simp [hu]))
      (by simp at hfuel; omega)
    refine ⟨it'', ?_, hahead⟩
    simp only [gather, hnum, hadv, Option.bind_some]
    rw [if_neg (by simp [hmore, hw]), hgather]
    rfl

/-- `c`'s first instruction comes before those of later entries. -/
def Ordered (vs : List (Numbered ι)) : Prop :=
  ∀ a v b c q, vs = a ++ v :: b → Carries v c → (∀ w ∈ a, ¬Carries w c) → Before c q →
    ∀ w ∈ a ++ [v], ¬Carries w q

/-- The range ends with the instruction that carries the numbers of the entry. -/
def EndsAt (part : List (Numbered ι)) (c : CorrelInfo) : Prop :=
  ∃ v, part.getLast? = some v ∧ Carries v c

/-- The entries of the table for a cut of the function. -/
def rangesOf (cinfos : List CorrelInfo) (parts : List (List (Numbered ι))) : List (MapInfo ι) :=
  List.zipWith (fun c part => (c.pcStart, part.map Numbered.inst)) cinfos parts

theorem entries_eq {vs past rest : List (Numbered ι)} (hvs : vs = past ++ rest)
    (hordered : Ordered vs) {cinfos : List CorrelInfo} (hsorted : cinfos.Pairwise Before)
    (hmem : ∀ c ∈ cinfos, ∃ v ∈ vs, Carries v c)
    (hpast : ∀ c ∈ cinfos, ∀ w ∈ past, ¬Carries w c) {it : Iter ι} {fuel : Nat}
    (h : Ahead isDebug it rest) (hfuel : rest.length < fuel) :
    ∃ parts tail, rest = parts.flatten ++ tail ∧ List.Forall₂ EndsAt parts cinfos ∧
      entries isDebug fuel it cinfos = some (rangesOf cinfos parts) := by
  induction cinfos generalizing past rest it with
  | nil => exact ⟨[], rest, rfl, .nil, rfl⟩
  | cons c cinfos ih =>
    classical
    obtain ⟨u, hu, huc⟩ := hmem c (by simp)
    have hurest : u ∈ rest := by
      rw [hvs] at hu
      exact (List.mem_append.mp hu).resolve_left fun hup => hpast c (by simp) u hup huc
    cases hfind : rest.find? fun w => decide (Carries w c) with
    | none =>
      have hnone := List.find?_eq_none.mp hfind u hurest
      exact absurd huc (by simpa using hnone)
    | some v =>
      obtain ⟨hv, a, b, hab, ha⟩ := List.find?_eq_some_iff_append.mp hfind
      have hvc : Carries v c := by simpa using hv
      have hac : ∀ w ∈ a, ¬Carries w c := by simpa using ha
      have hsplit : vs = (past ++ a) ++ v :: b := by rw [hvs, hab, List.append_assoc]
      have hfirst : ∀ w ∈ past ++ a, ¬Carries w c := by
        intro w hw
        rcases List.mem_append.mp hw with hw | hw
        · exact hpast c (by simp) w hw
        · exact hac w hw
      obtain ⟨hlater, hsorted'⟩ := List.pairwise_cons.mp hsorted
      have hlen : a.length < fuel ∧ b.length < fuel := by
        rw [hab] at hfuel
        simp only [List.length_append, List.length_cons] at hfuel
        omega
      obtain ⟨it', hgather, hahead⟩ := gather_eq (hab ▸ h) hac hvc hlen.1
      have hsplit' : vs = (past ++ a ++ [v]) ++ b := by rw [hsplit]; simp
      obtain ⟨parts, tail, htail, hends, hentries⟩ := ih
        hsplit' hsorted' (fun q hq => hmem q (by simp [hq]))
        (fun q hq => hordered _ v b c q hsplit hvc hfirst (hlater q hq)) hahead hlen.2
      refine ⟨(a ++ [v]) :: parts, tail, ?_, .cons ⟨v, by simp, hvc⟩ hends, ?_⟩
      · rw [hab, htail]
        simp
      · simp only [entries, hgather, Option.bind_some, hentries, Option.map_some]
        rfl

/-! ## The numbers without wrapping -/

def trail : Option Nat → Nat → Nat → List (Nat × ι) → List (Nat × Nat)
  | _, _, _, [] => []
  | _, b, i, [_] => [(b, i)]
  | bb, b, i, _ :: y :: l =>
    (b, i) ::
      if bb ≠ none ∧ some y.1 ≠ bb then trail (some y.1) (b + 1) 0 (y :: l)
      else trail (some y.1) b (i + 1) (y :: l)

/-- The next instruction is the next one of its block or the first one of the next block. -/
def Next (p q : Nat × Nat) : Prop := q = (p.1, p.2 + 1) ∨ q = (p.1 + 1, 0)

theorem numbers_trail (l : List (Nat × ι)) : ∀ (bb : Option Nat) (b i : Nat),
    (numbers bb (UInt32.ofNat b) (UInt16.ofNat i) l).map (fun v => (v.bb, v.instr)) =
      (trail bb b i l).map fun p => (UInt32.ofNat p.1, UInt16.ofNat p.2) := by
  induction l with
  | nil => intro bb b i; rfl
  | cons x l ih =>
    intro bb b i
    cases l with
    | nil => rfl
    | cons y l =>
      have hb : UInt32.ofNat b + 1 = UInt32.ofNat (b + 1) := by simp
      have hi : UInt16.ofNat i + 1 = UInt16.ofNat (i + 1) := by simp
      simp only [numbers, trail, List.map_cons, hb, hi]
      split
      · exact congrArg _ (ih (some y.1) (b + 1) 0)
      · exact congrArg _ (ih (some y.1) b (i + 1))

theorem trail_head (bb : Option Nat) (b i : Nat) (x : Nat × ι) (l : List (Nat × ι)) :
    (trail bb b i (x :: l)).head? = some (b, i) := by
  cases l <;> rfl

theorem trail_chain (l : List (Nat × ι)) : ∀ (bb : Option Nat) (b i : Nat),
    (trail bb b i l).IsChain Next := by
  induction l with
  | nil => intro bb b i; exact .nil
  | cons x l ih =>
    intro bb b i
    cases l with
    | nil => exact .singleton _
    | cons y l =>
      rw [trail, List.isChain_cons]
      split
      · refine ⟨fun q hq => ?_, ih (some y.1) (b + 1) 0⟩
        rw [trail_head] at hq
        cases hq
        exact .inr rfl
      · refine ⟨fun q hq => ?_, ih (some y.1) b (i + 1)⟩
        rw [trail_head] at hq
        cases hq
        exact .inl rfl

/-- The block counter never gets ahead of the block. -/
theorem trail_le (l : List (Nat × ι)) : ∀ (bb : Option Nat) (b i : Nat),
    l.Pairwise (fun x y => x.1 ≤ y.1) → (∀ x ∈ l.head?, b ≤ x.1 ∧ ∀ k, bb = some k → k = x.1) →
    ∀ p ∈ trail bb b i l, ∃ x ∈ l, p.1 ≤ x.1 := by
  induction l with
  | nil =>
    intro bb b i _ _ p hp
    cases hp
  | cons x l ih =>
    intro bb b i hsorted hhead p hp
    obtain ⟨hle, hbb⟩ := hhead x rfl
    cases l with
    | nil =>
      rw [trail, List.mem_singleton] at hp
      subst hp
      exact ⟨x, by simp, hle⟩
    | cons y l =>
      obtain ⟨hxl, hsorted'⟩ := List.pairwise_cons.mp hsorted
      have hxy : x.1 ≤ y.1 := hxl y (by simp)
      rw [trail, List.mem_cons] at hp
      rcases hp with rfl | hp
      · exact ⟨x, by simp, hle⟩
      · split at hp
        · rename_i hne
          obtain ⟨k, hk⟩ := Option.ne_none_iff_exists'.mp hne.1
          have hkx := hbb k hk
          have hyk : y.1 ≠ k := fun heq => hne.2 (by rw [hk, heq])
          obtain ⟨z, hz, hpz⟩ := ih (some y.1) (b + 1) 0 hsorted' (by
            intro w hw
            cases hw
            exact ⟨by omega, fun k hk => (Option.some.inj hk).symm⟩) p hp
          exact ⟨z, .tail _ hz, hpz⟩
        · obtain ⟨z, hz, hpz⟩ := ih (some y.1) b (i + 1) hsorted' (by
            intro w hw
            cases hw
            exact ⟨by omega, fun k hk => (Option.some.inj hk).symm⟩) p hp
          exact ⟨z, .tail _ hz, hpz⟩

section Chain

variable {l : List (Nat × Nat)} {b i j n m : Nat}

/-- Before instruction `i` of a block come all earlier ones of the block. -/
theorem chain_back (hl : l.IsChain Next) (hhead : l.head? = some (0, 0)) (hj : j ≤ i)
    (hn : l[n]? = some (b, i)) : ∃ k ≤ n, (j < i → k < n) ∧ l[k]? = some (b, j) := by
  induction i generalizing n with
  | zero =>
    obtain rfl : j = 0 := by omega
    exact ⟨n, le_rfl, fun h => absurd h (lt_irrefl _), hn⟩
  | succ i ih =>
    rcases Nat.eq_or_lt_of_le hj with rfl | hlt
    · exact ⟨n, le_rfl, fun h => absurd h (lt_irrefl _), hn⟩
    · cases n with
      | zero =>
        rw [← List.head?_eq_getElem?, hhead] at hn
        cases hn
      | succ n =>
        obtain ⟨hn', hval⟩ := List.getElem?_eq_some_iff.mp hn
        have hnext := List.isChain_iff_getElem.mp hl n hn'
        rw [hval] at hnext
        have hprev : l[n]? = some (b, i) := by
          rw [List.getElem?_eq_getElem (by omega), Option.some.injEq]
          rcases hnext with heq | heq
          · have h1 := congrArg Prod.fst heq
            have h2 := congrArg Prod.snd heq
            simp only at h1 h2
            exact Prod.ext h1.symm (by simp only; omega)
          · have h2 := congrArg Prod.snd heq
            simp only at h2
            omega
        obtain ⟨k, hk, -, hval'⟩ := ih (by omega) hprev
        exact ⟨k, by omega, fun _ => by omega, hval'⟩

theorem chain_le (hl : l.IsChain Next) {p q : Nat × Nat} (hnm : n ≤ m) (hn : l[n]? = some p)
    (hm : l[m]? = some q) : p.1 ≤ q.1 := by
  have hle : l.IsChain fun p q => p.1 ≤ q.1 := by
    refine hl.imp fun p q h => ?_
    rcases h with rfl | rfl
    · exact le_rfl
    · exact Nat.le_succ _
  have hpair : l.Pairwise fun p q => p.1 ≤ q.1 := by
    have : IsTrans (Nat × Nat) fun p q => p.1 ≤ q.1 := ⟨fun _ _ _ => le_trans⟩
    exact List.isChain_iff_pairwise.mp hle
  rcases Nat.eq_or_lt_of_le hnm with rfl | hlt
  · rw [hn] at hm
    cases hm
    exact le_rfl
  · obtain ⟨hn', rfl⟩ := List.getElem?_eq_some_iff.mp hn
    obtain ⟨hm', rfl⟩ := List.getElem?_eq_some_iff.mp hm
    exact List.pairwise_iff_getElem.mp hpair n m hn' hm' hlt

end Chain

/-- Without wrapping of the block counter the first instruction of an entry is a first one for the
entries before it too: the instruction counter counts up to its number before it wraps. -/
theorem ordered_of_trail {vs : List (Numbered ι)} {l : List (Nat × Nat)} (hl : l.IsChain Next)
    (hhead : l.head? = some (0, 0)) (hlt : ∀ p ∈ l, p.1 < 2 ^ 32)
    (hmap : vs.map (fun v => (v.bb, v.instr)) =
      l.map fun p => (UInt32.ofNat p.1, UInt16.ofNat p.2)) : Ordered vs := by
  have hget : ∀ k : Nat, (vs[k]?).map (fun v : Numbered ι => (v.bb, v.instr)) =
      (l[k]?).map fun p : Nat × Nat => (UInt32.ofNat p.1, UInt16.ofNat p.2) := by
    intro k
    rw [← List.getElem?_map, hmap, List.getElem?_map]
  have hplace : ∀ (k : Nat) (v : Numbered ι), vs[k]? = some v →
      ∃ p : Nat × Nat, l[k]? = some p ∧ p.1 = v.bb.toNat ∧ p.2 % 2 ^ 16 = v.instr.toNat := by
    intro k v hv
    have h := hget k
    rw [hv, Option.map_some, eq_comm, Option.map_eq_some_iff] at h
    obtain ⟨p, hp, heq⟩ := h
    have hp32 := hlt p (List.mem_of_getElem? hp)
    obtain ⟨hb, hi⟩ := Prod.mk.inj heq
    refine ⟨p, hp, ?_, ?_⟩
    · rw [← hb, UInt32.toNat_ofNat', Nat.mod_eq_of_lt hp32]
    · rw [← hi, UInt16.toNat_ofNat']
  intro a v b c q hvs hvc hfirst hbefore w hw hwq
  obtain ⟨y, hy, hyw⟩ : ∃ y ≤ a.length, vs[y]? = some w := by
    obtain ⟨y, hy, rfl⟩ := List.getElem_of_mem hw
    simp only [List.length_append, List.length_singleton] at hy
    refine ⟨y, by omega, ?_⟩
    rw [hvs, ← List.singleton_append, ← List.append_assoc,
      List.getElem?_append_left (by simp; omega), List.getElem?_eq_getElem (by simp; omega)]
  have hyv : vs[a.length]? = some v := by simp [hvs]
  obtain ⟨p, hp, hp1, hp2⟩ := hplace y w hyw
  obtain ⟨p', hp', hp1', -⟩ := hplace a.length v hyv
  rcases hbefore with hbb | ⟨hbb, hinstr⟩
  · have hle := chain_le hl hy hp hp'
    rw [UInt32.lt_iff_toNat_lt] at hbb
    rw [hp1, hp1', hwq.1, hvc.1] at hle
    omega
  · rw [UInt16.lt_iff_toNat_lt] at hinstr
    rw [hwq.2] at hp2
    have hlt' : c.instr.toNat < p.2 := by
      have := Nat.mod_le p.2 (2 ^ 16)
      omega
    obtain ⟨k, -, hk, hval⟩ := chain_back hl hhead (b := p.1) (i := p.2) hlt'.le hp
    have hka : k < a.length := lt_of_lt_of_le (hk hlt') hy
    have h := hget k
    rw [hval, Option.map_some, Option.map_eq_some_iff] at h
    obtain ⟨u, hu, heq⟩ := h
    obtain ⟨hub, hui⟩ := Prod.mk.inj heq
    have hua : u ∈ a := by
      rw [hvs, List.getElem?_append_left hka] at hu
      exact List.mem_of_getElem? hu
    refine hfirst u hua ⟨?_, ?_⟩
    · rw [hub, hp1, hwq.1, ← hbb, UInt32.ofNat_toNat]
    · rw [hui, UInt16.ofNat_toNat]

theorem insts_parents (f : List (List ι)) : ∀ k,
    ((f.zipIdx k).flatMap fun (b, p) => b.map (p, ·)).Pairwise (fun x y => x.1 ≤ y.1) ∧
      ∀ x ∈ (f.zipIdx k).flatMap fun (b, p) => b.map (p, ·), k ≤ x.1 ∧ x.1 < k + f.length := by
  induction f with
  | nil =>
    intro k
    exact ⟨.nil, fun x hx => by cases hx⟩
  | cons block f ih =>
    intro k
    obtain ⟨hsorted, hbound⟩ := ih (k + 1)
    rw [insts_cons]
    have hblock : ∀ x ∈ block.map (k, ·), x.1 = k := by
      intro x hx
      obtain ⟨y, -, rfl⟩ := List.mem_map.mp hx
      rfl
    refine ⟨List.pairwise_append.mpr ⟨?_, hsorted, ?_⟩, ?_⟩
    · rw [List.pairwise_map]
      exact List.pairwise_of_forall fun _ _ => le_rfl
    · intro x hx y hy
      rw [hblock x hx]
      exact (Nat.le_succ k).trans (hbound y hy).1
    · intro x hx
      rw [List.length_cons]
      rcases List.mem_append.mp hx with hx | hx
      · rw [hblock x hx]
        omega
      · have := hbound x hx
        omega

theorem walk_ordered {f : List (List ι)} (hblocks : f.length ≤ 2 ^ 32)
    (hne : keep isDebug (insts f) ≠ []) :
    Ordered (numbers none 0 0 (keep isDebug (insts f))) := by
  obtain ⟨hsorted, hbound⟩ := insts_parents f 0
  obtain ⟨x, l, hl⟩ := List.exists_cons_of_ne_nil hne
  have hsub : (keep isDebug (insts f)).Sublist (insts f) := List.filter_sublist
  refine ordered_of_trail (trail_chain (keep isDebug (insts f)) none 0 0) ?_ ?_
    (numbers_trail _ none 0 0)
  · rw [hl]
    exact trail_head ..
  · intro p hp
    obtain ⟨y, hy, hpy⟩ := trail_le _ none 0 0 (hsorted.sublist hsub) (by
      intro x _
      exact ⟨Nat.zero_le _, fun k hk => by cases hk⟩) p hp
    have hlt := (hbound y (hsub.mem hy)).2
    omega

/-- The iterator starts with the whole walk ahead. -/
theorem ahead_new {f : List (List ι)} (hne : keep isDebug (insts f) ≠ []) :
    Ahead isDebug (Iter.new isDebug f) (numbers none 0 0 (keep isDebug (insts f))) := by
  rcases skipDebug_cases isDebug (insts f) with ⟨_, hk⟩ | ⟨y, r, hs, hk⟩
  · exact absurd hk hne
  · rw [hk, Iter.new, hs]
    exact .more

theorem numbers_inst (l : List (Nat × ι)) : ∀ (bb : Option Nat) (bn : UInt32) (i : UInt16),
    (numbers bb bn i l).map Numbered.inst = l.map (·.2) := by
  induction l with
  | nil => intro bb bn i; rfl
  | cons x l ih =>
    intro bb bn i
    cases l with
    | nil => rfl
    | cons y l =>
      rw [numbers, List.map_cons, List.map_cons]
      split
      · rw [ih]
      · rw [ih]

theorem numbers_length (l : List (Nat × ι)) (bb : Option Nat) (bn : UInt32) (i : UInt16) :
    (numbers bb bn i l).length = l.length := by
  have h := congrArg List.length (numbers_inst l bb bn i)
  rwa [List.length_map, List.length_map] at h

/-- The instructions of a function that are not debug intrinsics. -/
def realInsts (isDebug : ι → Bool) (f : List (List ι)) : List ι :=
  (keep isDebug (insts f)).map (·.2)

variable {φ : Type*} {m : Module φ ι} {fn : φ}

theorem ranges_partition (hblocks : (m.body fn).length ≤ 2 ^ 32) {vs : List (Numbered ι)}
    (hwalk : walk isDebug (m.body fn) = some vs) {cinfos : List CorrelInfo}
    (hsorted : cinfos.Pairwise Before) (hmem : ∀ c ∈ cinfos, ∃ v ∈ vs, Carries v c)
    (low high : UInt64) :
    ∃ parts tail, vs = parts.flatten ++ tail ∧
      vs.map Numbered.inst = realInsts isDebug (m.body fn) ∧
      List.Forall₂ EndsAt parts cinfos ∧
      loadFunc isDebug m fn (some (low, high)) cinfos =
        some ⟨fn, low, high, fromPrologue low (rangesOf cinfos parts)⟩ := by
  have hne : keep isDebug (insts (m.body fn)) ≠ [] := by
    intro hk
    rcases skipDebug_cases isDebug (insts (m.body fn)) with ⟨hs, -⟩ | ⟨y, r, -, hk'⟩
    · cases hlen : (insts (m.body fn)).length with
      | zero => simp [walk, hlen, visits, Iter.new] at hwalk
      | succ n => simp [walk, hlen, visits, Iter.new, hs, Iter.numbered] at hwalk
    · rw [hk] at hk'
      cases hk'
  rw [walk_eq hne, Option.some.injEq] at hwalk
  subst hwalk
  have hlen : (numbers none 0 0 (keep isDebug (insts (m.body fn)))).length <
      (insts (m.body fn)).length + 1 := by
    rw [numbers_length]
    have hle : (keep isDebug (insts (m.body fn))).length ≤ (insts (m.body fn)).length :=
      List.length_filter_le _ _
    omega
  obtain ⟨parts, tail, hparts, hends, hentries⟩ := entries_eq (List.nil_append _).symm
    (walk_ordered hblocks hne) hsorted hmem (fun _ _ w hw => by cases hw) (ahead_new hne) hlen
  refine ⟨parts, tail, hparts, numbers_inst .., hends, ?_⟩
  rw [loadFunc, Option.bind_some, hentries]
  rfl

/-! ## A function whose blocks cannot be counted -/

theorem zeroBlocks_replicate (x : ι) (blocks : List (List ι)) (n : Nat) : ∀ k : UInt32,
    zeroBlocks k (List.replicate n [x] ++ blocks) =
      ((List.range n).map fun j => ⟨x, k + UInt32.ofNat j, 0⟩) ++
        zeroBlocks (k + UInt32.ofNat n) blocks := by
  induction n with
  | zero => intro k; simp
  | succ n ih =>
    intro k
    have hk : ∀ j, k + 1 + UInt32.ofNat j = k + UInt32.ofNat (j + 1) := by
      intro j
      rw [UInt32.ofNat_add, UInt32.add_comm (UInt32.ofNat j), ← UInt32.add_assoc]
      rfl
    rw [List.replicate_succ, List.cons_append, zeroBlocks, ih (k + 1), List.range_succ_eq_map,
      List.map_cons, List.map_map]
    simp only [hk, Function.comp_def, Nat.succ_eq_add_one]
    simp [numberBlock]

/-- Two instructions, `n` blocks of one, three instructions. -/
def manyBlocks (n : Nat) : List (List Nat) := [0, 1] :: (List.replicate n [2] ++ [[3, 4, 5]])

def manyBlocksModule (n : Nat) : Module Nat Nat where
  getFunction _ := none
  body f := if f = 0 then manyBlocks n else []
  parent _ := 0
  parent_body f block hblock x _ := by
    split at hblock
    · next hf => exact hf.symm
    · cases hblock
  name_inj n n' f h _ := by cases h

section ManyBlocks

variable {n : Nat}

/-- All that the walk visits but for the last instruction. -/
def manyFront (n : Nat) : List (Numbered Nat) :=
  [⟨0, 0, 0⟩, ⟨1, 0, 1⟩] ++ ((List.range n).map fun j => ⟨2, 1 + UInt32.ofNat j, 0⟩) ++
    [⟨3, 0, 0⟩, ⟨4, 0, 1⟩]

theorem numbers_manyBlocks (hwrap : 1 + UInt32.ofNat n = 0) :
    numbers none 0 0 (keep (fun _ => false) (insts (manyBlocks n))) =
      manyFront n ++ [⟨5, 0, 2⟩] := by
  have hkeep : keep (fun _ => false) (insts (manyBlocks n)) = insts (manyBlocks n) := by
    simp [keep]
  have hne : ∀ b ∈ List.replicate n [2] ++ [[3, 4, 5]], b ≠ [] := by
    intro b hb
    rcases List.mem_append.mp hb with hb | hb
    · rw [List.eq_of_mem_replicate hb]
      exact List.cons_ne_nil _ _
    · rw [List.mem_singleton.mp hb]
      exact List.cons_ne_nil _ _
  rw [hkeep, manyBlocks, numbers_entry 0 1 [] hne, zeroBlocks, zeroBlocks_replicate]
  have hzero : (0 : UInt32) + 1 + UInt32.ofNat n = 0 := hwrap
  rw [hzero]
  simp [manyFront, zeroBlocks, numberBlock]

theorem manyFront_instr {v : Numbered Nat} (hv : v ∈ manyFront n) : v.instr ≠ 2 := by
  rw [manyFront, List.mem_append, List.mem_append] at hv
  rcases hv with (hv | hv) | hv
  · simp only [List.mem_cons, List.not_mem_nil, or_false] at hv
    rcases hv with rfl | rfl <;> decide
  · obtain ⟨j, -, rfl⟩ := List.mem_map.mp hv
    exact (by decide : (0 : UInt16) ≠ 2)
  · simp only [List.mem_cons, List.not_mem_nil, or_false] at hv
    rcases hv with rfl | rfl <;> decide

/-- The first entry is met at the end only, the second one before it only. -/
theorem manyBlocks_unread (hn : 0 < n) (hwrap : 1 + UInt32.ofNat n = 0) :
    ∃ vs, walk (fun _ => false) ((manyBlocksModule n).body 0) = some vs ∧
      [CorrelInfo.mk 0 2 0x10, ⟨1, 0, 0x20⟩].Pairwise Before ∧
      (∀ c ∈ [CorrelInfo.mk 0 2 0x10, ⟨1, 0, 0x20⟩], ∃ v ∈ vs, Carries v c) ∧
      loadFunc (fun _ => false) (manyBlocksModule n) 0 (some (0, 0x100))
        [⟨0, 2, 0x10⟩, ⟨1, 0, 0x20⟩] = none := by
  have hbody : (manyBlocksModule n).body 0 = manyBlocks n := rfl
  have hvs := numbers_manyBlocks hwrap
  have hne : keep (fun _ => false) (insts (manyBlocks n)) ≠ [] := by
    intro hk
    rw [hk] at hvs
    simp [numbers] at hvs
  have hahead := ahead_new hne
  have hwalk := walk_eq hne
  rw [hvs] at hahead hwalk
  have hlen : (manyFront n).length < (insts (manyBlocks n)).length + 1 := by
    have h1 := congrArg List.length hvs
    have h2 : (keep (fun _ => false) (insts (manyBlocks n))).length ≤
        (insts (manyBlocks n)).length := List.length_filter_le _ _
    rw [numbers_length, List.length_append] at h1
    omega
  refine ⟨_, hwalk, ?_, ?_, ?_⟩
  · simp [Before]
  · intro c hc
    simp only [List.mem_cons, List.not_mem_nil, or_false] at hc
    rcases hc with rfl | rfl
    · exact ⟨⟨5, 0, 2⟩, by simp, rfl, rfl⟩
    · refine ⟨⟨2, 1 + UInt32.ofNat 0, 0⟩, ?_, rfl, rfl⟩
      have hmem : (⟨2, 1 + UInt32.ofNat 0, 0⟩ : Numbered Nat) ∈
          (List.range n).map fun j => (⟨2, 1 + UInt32.ofNat j, 0⟩ : Numbered Nat) :=
        List.mem_map.mpr ⟨0, List.mem_range.mpr hn, rfl⟩
      rw [manyFront]
      exact List.mem_append_left _ (List.mem_append_left _ (List.mem_append_right _ hmem))
  · obtain ⟨it, hgather, hend⟩ := gather_eq (c := ⟨0, 2, 0x10⟩) hahead
      (fun w hw hc => manyFront_instr hw hc.2) ⟨rfl, rfl⟩ hlen
    rw [loadFunc, Option.bind_some, hbody, entries, hgather, Option.bind_some, entries, gather,
      hend.numbered_nil]
    rfl

end ManyBlocks

theorem many_blocks_unread :
    ∃ vs, walk (fun _ => false) ((manyBlocksModule (2 ^ 32 - 1)).body 0) = some vs ∧
      [CorrelInfo.mk 0 2 0x10, ⟨1, 0, 0x20⟩].Pairwise Before ∧
      (∀ c ∈ [CorrelInfo.mk 0 2 0x10, ⟨1, 0, 0x20⟩], ∃ v ∈ vs, Carries v c) ∧
      loadFunc (fun _ => false) (manyBlocksModule (2 ^ 32 - 1)) 0 (some (0, 0x100))
        [⟨0, 2, 0x10⟩, ⟨1, 0, 0x20⟩] = none :=
  manyBlocks_unread (by decide) (by decide)

theorem ranges_partition_prologue :
    ∃ parts tail, [(⟨0, 0, 0⟩ : Numbered Nat), ⟨1, 0, 1⟩] = parts.flatten ++ tail ∧
      List.Forall₂ EndsAt parts [⟨0, 0, 0x12⟩, ⟨0, 1, 0x14⟩] := by
  have hwalk : walk (fun _ => false) (oneFunc.body 0) = some [⟨0, 0, 0⟩, ⟨1, 0, 1⟩] := by decide
  have hsorted : [CorrelInfo.mk 0 0 0x12, ⟨0, 1, 0x14⟩].Pairwise Before := by simp [Before]
  obtain ⟨parts, tail, hparts, -, hends, -⟩ := ranges_partition (m := oneFunc) (by decide) hwalk
    hsorted (by simp [Carries]) 0x10 0x20
  exact ⟨parts, tail, hparts, hends⟩

end Ranges

end CodeInfo
end ChampSim
