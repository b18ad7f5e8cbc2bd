import ChampSim.Paging.Bijection
import Mathlib.Data.Nat.Bitwise
import Mathlib.Algebra.Order.Ring.Nat

/-!
# ChampSim.Paging.Cores

When the cores have disjoint address spaces.

* `lg2_eq`        — the halving loop is the truncated logarithm of the absolute value.
* `highBitMask_pow` — with a power of two of cores the mask is the core number in the top bits.
* `Separate`      — keys of different cores or pages differ, the page offset passes unchanged, and no
  physical page serves two of them.
* `separate_iff`  — this holds for 1, 2, 4, …, 4096 cores only. With another number of cores up to
  there, the rotation of the highest power of two below it is 1, the lowest bit of the page number.
-/

namespace ChampSim
namespace Paging

open Lib

/-! ## The logarithm -/

theorem lg2Loop_eq (fuel : Nat) : ∀ (m c : Int), m ≠ 0 → m.natAbs < 2 ^ fuel →
    lg2Loop fuel m c = c + m.natAbs.log2 + 1 := by
  induction fuel with
  | zero =>
    intro m c h0 hlt
    exact absurd (by simpa using hlt) h0
  | succ fuel ih =>
    intro m c h0 hlt
    have habs : (m.tdiv 2).natAbs = m.natAbs / 2 := Int.natAbs_tdiv m 2
    have hpow : 2 ^ (fuel + 1) = 2 * 2 ^ fuel := Nat.pow_succ'
    rw [lg2Loop, if_neg h0, Nat.log2_def]
    split
    · rename_i hge
      have hne : m.tdiv 2 ≠ 0 := by
        intro hz
        rw [hz] at habs
        simp at habs
        omega
      rw [ih (m.tdiv 2) (c + 1) hne (by omega), habs]
      push_cast
      omega
    · rename_i hlt2
      have hz : m.tdiv 2 = 0 := by
        have : (m.tdiv 2).natAbs = 0 := by omega
        exact Int.natAbs_eq_zero.mp this
      rw [hz]
      cases fuel with
      | zero => simp [lg2Loop]
      | succ fuel => simp [lg2Loop]

theorem lg2_eq {n : Int} (h0 : n ≠ 0) (hlt : n.natAbs < 2 ^ 32) : lg2 n = n.natAbs.log2 := by
  rw [lg2, lg2Loop_eq 32 n (-1) h0 hlt]
  omega

theorem toInt_bounds (n : Nat) : -2 ^ 31 ≤ toInt n ∧ toInt n < 2 ^ 31 := by
  unfold toInt
  have h1 := Int.le_bmod (x := (n : Int)) (m := 2 ^ 32) (by omega)
  have h2 := Int.bmod_lt (x := (n : Int)) (m := 2 ^ 32) (by omega)
  omega

theorem toInt_of_lt {n : Nat} (h : n < 2 ^ 31) : toInt n = n := by
  unfold toInt
  rw [Int.bmod_eq_of_le (by omega) (by omega)]

/-! ## The mask -/

theorem highBitMask_zero {numCpus : Nat} (h : toInt numCpus = 0) (cpu : Nat) :
    highBitMask numCpus cpu = none := by
  unfold highBitMask
  rw [h]
  rfl

theorem highBitMask_eq {numCpus k : Nat} (h0 : toInt numCpus ≠ 0)
    (hk : (toInt numCpus).natAbs.log2 = k) (cpu : Nat) :
    k ≤ 31 ∧ highBitMask numCpus cpu =
      some (cpu >>> k ||| (cpu <<< ((64 - k) % 64)) % 2 ^ 64) := by
  have hb := toInt_bounds numCpus
  have habs : (toInt numCpus).natAbs < 2 ^ 32 := by omega
  have hlog : (toInt numCpus).natAbs.log2 < 32 :=
    (Nat.log2_lt (by omega)).mpr habs
  have hlg : (lg2 (toInt numCpus) % 2 ^ 32).toNat = k := by
    rw [lg2_eq h0 habs, hk]
    omega
  refine ⟨by omega, ?_⟩
  rw [highBitMask, hlg, rotr64, if_pos (by omega)]

/-- With `2 ^ k` cores the core number stands in the top `k` bits. -/
theorem highBitMask_pow {k cpu : Nat} (hk : k ≤ 12) (hcpu : cpu < 2 ^ k) :
    highBitMask (2 ^ k) cpu = some (cpu <<< (64 - k)) := by
  have hpow : 2 ^ k < 2 ^ 31 := Nat.pow_lt_pow_right (by omega) (by omega)
  have hne : toInt (2 ^ k) ≠ 0 := by
    rw [toInt_of_lt hpow]
    have := Nat.two_pow_pos k
    omega
  have hlog : (toInt (2 ^ k)).natAbs.log2 = k := by
    rw [toInt_of_lt hpow, Int.natAbs_natCast, Nat.log2_two_pow]
  rw [(highBitMask_eq hne hlog cpu).2]
  have hlow : cpu >>> k = 0 := by rw [Nat.shiftRight_eq_div_pow, Nat.div_eq_of_lt hcpu]
  rw [hlow, Nat.zero_or]
  cases k with
  | zero =>
    have hz : cpu = 0 := by simpa using hcpu
    simp [hz]
  | succ k =>
    have hmod : (64 - (k + 1)) % 64 = 64 - (k + 1) := Nat.mod_eq_of_lt (by omega)
    have hlt : cpu <<< (64 - (k + 1)) < 2 ^ 64 := by
      rw [Nat.shiftLeft_eq]
      calc cpu * 2 ^ (64 - (k + 1)) < 2 ^ (k + 1) * 2 ^ (64 - (k + 1)) :=
            Nat.mul_lt_mul_of_pos_right hcpu (Nat.two_pow_pos _)
        _ = 2 ^ 64 := by rw [← Nat.pow_add, show k + 1 + (64 - (k + 1)) = 64 by omega]
    rw [hmod, Nat.mod_eq_of_lt hlt]

/-- The core `2 ^ k` of more than `2 ^ k` cores is rotated into bit 0. -/
theorem highBitMask_one {numCpus k : Nat} (h0 : toInt numCpus ≠ 0)
    (hk : (toInt numCpus).natAbs.log2 = k) : highBitMask numCpus (2 ^ k) = some 1 := by
  obtain ⟨hle, hmask⟩ := highBitMask_eq h0 hk (2 ^ k)
  have hlow : 2 ^ k >>> k = 1 := by
    rw [Nat.shiftRight_eq_div_pow, Nat.div_self (Nat.two_pow_pos k)]
  rw [hmask, hlow]
  cases k with
  | zero => rfl
  | succ k =>
    have hmod : (64 - (k + 1)) % 64 = 64 - (k + 1) := Nat.mod_eq_of_lt (by omega)
    have hfull : 2 ^ (k + 1) <<< (64 - (k + 1)) = 2 ^ 64 := by
      rw [Nat.shiftLeft_eq, ← Nat.pow_add, show k + 1 + (64 - (k + 1)) = 64 by omega]
    rw [hmod, hfull]
    rfl

/-! ## Disjoint address spaces -/

/-- A core and one of its virtual pages. -/
structure Page (numCpus : Nat) where
  cpu : Nat
  cpu_lt : cpu < numCpus
  cpu_lt_word : cpu < 2 ^ 32
  vpage : Nat
  vpage_lt : vpage < 2 ^ 52

def Page.key {numCpus : Nat} (p : Page numCpus) : Option Nat :=
  (highBitMask numCpus p.cpu).map (p.vpage ||| ·)

def Page.Same {numCpus : Nat} (p q : Page numCpus) : Prop := p.cpu = q.cpu ∧ p.vpage = q.vpage

structure Separate (numCpus : Nat) : Prop where
  /-- Every page has a key, and two pages of one key are the same. -/
  keys : ∀ p q : Page numCpus, ∃ k l, p.key = some k ∧ q.key = some l ∧ (k = l → p.Same q)
  offset : ∀ (c : Config) (s s' : State) (call : Call) (pa : Nat), c.numCpus = numCpus →
    call.cpu < numCpus → vaToPa c s call = some (pa, s') → pa % 2 ^ 12 = call.va % 2 ^ 12
  pages : ∀ (c : Config) (calls : List Call) (s : State), c.numCpus = numCpus →
    run (step c) .init calls = some s → ∀ (p q : Page numCpus) (k l ppage : Nat),
      p.key = some k → q.key = some l → s.pageTable.lookup k = some ppage →
        s.pageTable.lookup l = some ppage → p.Same q

theorem key_pow {k : Nat} (hk : k ≤ 12) (p : Page (2 ^ k)) :
    p.key = some (p.cpu * 2 ^ (64 - k) + p.vpage) := by
  have hv : p.vpage < 2 ^ (64 - k) :=
    Nat.lt_of_lt_of_le p.vpage_lt (Nat.pow_le_pow_right (by omega) (by omega))
  rw [Page.key, highBitMask_pow hk p.cpu_lt, Option.map_some, Nat.or_comm,
    ← Nat.shiftLeft_add_eq_or_of_lt hv, Nat.shiftLeft_eq]

theorem same_of_key {k : Nat} (hk : k ≤ 12) {p q : Page (2 ^ k)}
    (h : p.cpu * 2 ^ (64 - k) + p.vpage = q.cpu * 2 ^ (64 - k) + q.vpage) : p.Same q := by
  have hpos : 0 < 2 ^ (64 - k) := Nat.two_pow_pos _
  have hle : 2 ^ 52 ≤ 2 ^ (64 - k) := Nat.pow_le_pow_right (by omega) (by omega)
  have hp : p.vpage < 2 ^ (64 - k) := Nat.lt_of_lt_of_le p.vpage_lt hle
  have hq : q.vpage < 2 ^ (64 - k) := Nat.lt_of_lt_of_le q.vpage_lt hle
  have hdiv := congrArg (· / 2 ^ (64 - k)) h
  have hmod := congrArg (· % 2 ^ (64 - k)) h
  simp only [Nat.add_comm (_ * _), Nat.add_mul_div_right _ _ hpos, Nat.div_eq_of_lt hp,
    Nat.div_eq_of_lt hq, Nat.add_mul_mod_self_right, Nat.mod_eq_of_lt hp, Nat.mod_eq_of_lt hq]
    at hdiv hmod
  exact ⟨by omega, hmod⟩

theorem vaToPa_offset {k : Nat} (hk : k ≤ 12) {c : Config} {s s' : State} {call : Call} {pa : Nat}
    (hc : c.numCpus = 2 ^ k) (hcpu : call.cpu < 2 ^ k) (h : vaToPa c s call = some (pa, s')) :
    pa % 2 ^ 12 = call.va % 2 ^ 12 := by
  unfold vaToPa at h
  split at h
  · cases h
  · obtain ⟨mask, hmask, h⟩ := Option.bind_eq_some_iff.mp h
    obtain ⟨s₁, hs₁, h⟩ := Option.bind_eq_some_iff.mp h
    obtain ⟨ppage, -, he⟩ := Option.map_eq_some_iff.mp h
    rw [hc, highBitMask_pow hk hcpu] at hmask
    cases hmask
    cases he
    have hmask : (call.cpu <<< (64 - k)) % 2 ^ 12 = 0 := by
      rw [Nat.shiftLeft_eq, show 2 ^ (64 - k) = 2 ^ (52 - k) * 2 ^ 12 by
        rw [← Nat.pow_add, show 52 - k + 12 = 64 - k by omega], ← Nat.mul_assoc, Nat.mul_mod_left]
    have hpage : ppage * 2 ^ logPageSize % 2 ^ 64 % 2 ^ 12 = 0 := by
      show ppage * 2 ^ 12 % 2 ^ 64 % 2 ^ 12 = 0
      omega
    rw [Nat.or_mod_two_pow, hpage, Nat.zero_or]
    show (call.va ||| call.cpu <<< (64 - k)) % 2 ^ 12 % 2 ^ 12 = call.va % 2 ^ 12
    rw [Nat.mod_mod, Nat.or_mod_two_pow, hmask, Nat.or_zero]

theorem separate_pow {k : Nat} (hk : k ≤ 12) : Separate (2 ^ k) where
  keys := fun p q => ⟨_, _, key_pow hk p, key_pow hk q, same_of_key hk⟩
  offset := fun _ _ _ _ _ hc hcpu h => vaToPa_offset hk hc hcpu h
  pages := by
    intro c calls s hc hs p q k' l ppage hp hq hpk hql
    rw [key_pow hk] at hp hq
    cases hp
    cases hq
    exact same_of_key hk ((run_bijection c hs).1.injective _ _ _ hpk hql)

/-- Two pages of one core with one key. -/
theorem not_separate {numCpus cpu mask v : Nat} (hcpu : cpu < numCpus) (hword : cpu < 2 ^ 32)
    (hmask : highBitMask numCpus cpu = some mask) (hv : v < 2 ^ 52) (hpos : v ≠ 0)
    (hcover : v ||| mask = mask) : ¬ Separate numCpus := by
  intro h
  obtain ⟨k, l, hk, hl, hsame⟩ :=
    h.keys ⟨cpu, hcpu, hword, v, hv⟩ ⟨cpu, hcpu, hword, 0, by decide⟩
  simp only [Page.key, hmask, Option.map_some, hcover, Nat.zero_or, Option.some.injEq] at hk hl
  exact hpos (hsame (hk ▸ hl)).2

/-- The cores are separate exactly when their number is a power of two up to 4096. -/
theorem separate_iff (numCpus : Nat) (h : 1 ≤ numCpus) :
    Separate numCpus ↔ ∃ k ≤ 12, numCpus = 2 ^ k := by
  constructor
  · intro hsep
    by_cases h0 : toInt numCpus = 0
    · -- the rotation fails its assertion, so there is no key
      obtain ⟨k, l, hk, -⟩ :=
        hsep.keys ⟨0, h, by decide, 0, by decide⟩ ⟨0, h, by decide, 0, by decide⟩
      rw [Page.key, highBitMask_zero h0] at hk
      cases hk
    · obtain ⟨k, hk⟩ : ∃ k, (toInt numCpus).natAbs.log2 = k := ⟨_, rfl⟩
      have hk31 : k ≤ 31 := (highBitMask_eq h0 hk 0).1
      have hword : 2 ^ k < 2 ^ 32 := Nat.pow_lt_pow_right (by omega) (by omega)
      by_cases hlt : 2 ^ k < numCpus
      · exact absurd hsep
          (not_separate hlt hword (highBitMask_one h0 hk) (by decide) Nat.one_ne_zero rfl)
      · have hpow : 2 ^ k ≤ numCpus := by
          by_cases hsmall : numCpus < 2 ^ 31
          · rw [toInt_of_lt hsmall, Int.natAbs_natCast] at hk
            rw [← hk]
            exact Nat.log2_self_le (by omega)
          · have : 2 ^ k ≤ 2 ^ 31 := Nat.pow_le_pow_right (by omega) hk31
            omega
        have heq : numCpus = 2 ^ k := by omega
        by_cases hk12 : k ≤ 12
        · exact ⟨k, hk12, heq⟩
        · -- core 1 is rotated into the page number
          have hone : 1 < numCpus := by
            rw [heq]
            exact Nat.one_lt_two_pow (by omega)
          have hmask : highBitMask numCpus 1 = some (2 ^ (64 - k)) := by
            rw [(highBitMask_eq h0 hk 1).2]
            have hlow : 1 >>> k = 0 := by
              rw [Nat.shiftRight_eq_div_pow, Nat.div_eq_of_lt (heq ▸ hone)]
            have hexp : 2 ^ (64 - k) < 2 ^ 64 := Nat.pow_lt_pow_right (by omega) (by omega)
            rw [hlow, Nat.zero_or, Nat.mod_eq_of_lt (a := 64 - k) (by omega), Nat.one_shiftLeft,
              Nat.mod_eq_of_lt hexp]
          refine absurd hsep (not_separate hone (by decide) hmask (v := 2 ^ (64 - k)) ?_ ?_ ?_)
          · exact Nat.pow_lt_pow_right (by omega) (by omega)
          · exact Nat.ne_of_gt (Nat.two_pow_pos _)
          · exact Nat.or_self _
  · rintro ⟨k, hk, rfl⟩
    exact separate_pow hk

theorem separate_iff_four : 1 ≤ 4 ∧ (Separate 4 ↔ ∃ k ≤ 12, 4 = 2 ^ k) :=
  ⟨by decide, separate_iff 4 (by decide)⟩

/-- With three cores, page 1 of core 0 and page 1 of core 2 have the key 1. -/
theorem three_cores_alias :
    highBitMask 3 0 = some 0 ∧ highBitMask 3 2 = some 1 ∧ 1 ||| 0 = 1 ||| 1 ∧ ¬ Separate 3 := by
  refine ⟨by decide, by decide, by decide, ?_⟩
  intro h
  obtain ⟨k, l, hk, hl, hsame⟩ :=
    h.keys ⟨0, by decide, by decide, 1, by decide⟩ ⟨2, by decide, by decide, 1, by decide⟩
  have hk1 : (⟨0, by decide, by decide, 1, by decide⟩ : Page 3).key = some 1 := by decide
  have hl1 : (⟨2, by decide, by decide, 1, by decide⟩ : Page 3).key = some 1 := by decide
  rw [hk1] at hk
  rw [hl1] at hl
  cases hk
  cases hl
  cases (hsame rfl).1

end Paging
end ChampSim
