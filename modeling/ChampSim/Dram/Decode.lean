import ChampSim.Dram.Model
import ChampSim.Lib.Fields
import Mathlib.Tactic.FinCases

/-!
# ChampSim.Dram.Decode

The five `dram_get_*` functions together. They read five fields of the block address, the channel
at the bottom, then bank, column, rank and row; `uint32_t` keeps 32 bits of each.

* `decode`, `locations` — the five components, and the ranges they should have.
* `Fits`                — no component is wider than `uint32_t`, nor all of them than the address.
* `decode_exact`        — the addresses below the capacity are in bijection with the locations
  exactly when the geometry fits; the ranges and the period are right for every geometry.
-/

namespace ChampSim
namespace Dram

open Lib

structure Location where
  channel : Nat
  bank : Nat
  column : Nat
  rank : Nat
  row : Nat
deriving DecidableEq

namespace Location

/-- The components in the order of their bits. -/
def fields (l : Location) : Fin 5 → Nat := ![l.channel, l.bank, l.column, l.rank, l.row]

def ofFields (d : Fin 5 → Nat) : Location := ⟨d 0, d 1, d 2, d 3, d 4⟩

theorem fields_ofFields (d : Fin 5 → Nat) : (ofFields d).fields = d := by
  funext i
  fin_cases i <;> rfl

theorem fields_injective : Function.Injective fields := by
  rintro ⟨c₁, b₁, l₁, r₁, w₁⟩ ⟨c₂, b₂, l₂, r₂, w₂⟩ h
  simpa [fields, funext_iff, Fin.forall_fin_succ] using h

end Location

namespace Geometry

def decode (g : Geometry) (address : Nat) : Location where
  channel := g.dramGetChannel address
  bank := g.dramGetBank address
  column := g.dramGetColumn address
  rank := g.dramGetRank address
  row := g.dramGetRow address

def capacity (g : Geometry) : Nat := g.channels * g.banks * g.columns * g.ranks * g.rows

def locations (g : Geometry) : Set Location :=
  {l | l.channel < g.channels ∧ l.bank < g.banks ∧ l.column < g.columns ∧ l.rank < g.ranks ∧
    l.row < g.rows}

structure PowersOfTwo (g : Geometry) : Prop where
  channels : g.channels = 2 ^ g.log2Channels
  banks : g.banks = 2 ^ g.log2Banks
  columns : g.columns = 2 ^ g.log2Columns
  ranks : g.ranks = 2 ^ g.log2Ranks
  rows : g.rows = 2 ^ g.log2Rows

def widths (g : Geometry) : Fin 5 → Nat :=
  ![g.log2Channels, g.log2Banks, g.log2Columns, g.log2Ranks, g.log2Rows]

structure Fits (g : Geometry) : Prop where
  component : ∀ i, g.widths i ≤ 32
  address : ∑ i, g.widths i ≤ 64

/-! ### A field is a slice of the address -/

theorem field_eq {bound w : Nat} (h : bound = 2 ^ w) (shift a : Nat) :
    field w bound shift a = Fields.slice shift (min 32 w) a := by
  subst h
  unfold field
  split
  case isTrue h => simp [h]
  case isFalse h =>
    rw [Nat.and_two_pow_sub_one_eq_mod, Fields.slice]
    refine Nat.eq_of_testBit_eq fun k => ?_
    simp only [Nat.testBit_mod_two_pow, lt_min_iff, Bool.decide_and]
    cases decide (k < w) <;> simp

section Decode

variable {g : Geometry}

theorem offset_widths (g : Geometry) (i : Fin 5) : Fields.offset g.widths i =
    ![0, g.log2Channels, g.log2Banks + g.log2Channels,
      g.log2Columns + g.log2Banks + g.log2Channels,
      g.log2Ranks + g.log2Columns + g.log2Banks + g.log2Channels] i := by
  fin_cases i <;> simp [Fields.offset, widths, Fin.sum_univ_succ] <;> omega

theorem decode_fields (h : g.PowersOfTwo) (a : Nat) (i : Fin 5) :
    (g.decode a).fields i =
      Fields.slice (Fields.offset g.widths i) (min 32 (g.widths i)) a := by
  rw [offset_widths]
  fin_cases i
  · exact field_eq h.channels _ a
  · exact field_eq h.banks _ a
  · exact field_eq h.columns _ a
  · exact field_eq h.ranks _ a
  · exact field_eq h.rows _ a

theorem mem_locations (h : g.PowersOfTwo) (l : Location) :
    l ∈ g.locations ↔ ∀ i, l.fields i < 2 ^ g.widths i := by
  simp [locations, Location.fields, widths, Fin.forall_fin_succ, h.channels, h.banks, h.columns,
    h.ranks, h.rows]

theorem capacity_eq (h : g.PowersOfTwo) : g.capacity = 2 ^ ∑ i, g.widths i := by
  simp [capacity, widths, Fin.sum_univ_succ, h.channels, h.banks, h.columns, h.ranks, h.rows,
    pow_add, mul_assoc]

theorem component_lt (h : g.PowersOfTwo) (a : Nat) (i : Fin 5) :
    (g.decode a).fields i < 2 ^ min 32 (g.widths i) := by
  rw [decode_fields h]
  exact Fields.slice_lt _ _ a

theorem decode_mem (h : g.PowersOfTwo) (a : Nat) : g.decode a ∈ g.locations := by
  rw [mem_locations h]
  intro i
  exact (component_lt h a i).trans_le (Nat.pow_le_pow_right (by decide) (min_le_right _ _))

/-- The indices of `bank_request`. -/
theorem loc_in_range (h : g.PowersOfTwo) (a : Nat) :
    (g.loc a).channel < g.channels ∧ (g.loc a).rank < g.ranks ∧ (g.loc a).bank < g.banks := by
  obtain ⟨hchannel, hbank, -, hrank, -⟩ := decode_mem h a
  exact ⟨hchannel, hrank, hbank⟩

theorem offset_add_le (i : Fin 5) :
    Fields.offset g.widths i + g.widths i ≤ ∑ j, g.widths j := by
  rw [offset_widths]
  fin_cases i <;> simp [widths, Fin.sum_univ_succ] <;> omega

theorem decode_mod (h : g.PowersOfTwo) (a : Nat) : g.decode (a % g.capacity) = g.decode a := by
  refine Location.fields_injective (funext fun i => ?_)
  have hle := offset_add_le (g := g) i
  rw [decode_fields h, decode_fields h, capacity_eq h, Fields.slice_mod]
  omega

/-- As long as the cast drops nothing. -/
theorem decode_bijOn (h : g.PowersOfTwo) (hw : ∀ i, g.widths i ≤ 32) :
    Set.BijOn g.decode {a | a < g.capacity} g.locations := by
  have hfields : ∀ a, (g.decode a).fields =
      fun i => Fields.slice (Fields.offset g.widths i) (g.widths i) a := by
    intro a
    funext i
    rw [decode_fields h, min_eq_right (hw i)]
  obtain ⟨-, hinj, hsurj⟩ := Fields.bijOn g.widths
  rw [← capacity_eq h] at hinj hsurj
  refine ⟨fun a _ => decode_mem h a, ?_, ?_⟩
  · intro a ha b hb hab
    refine hinj ha hb ?_
    simp only [← hfields, hab]
  · intro l hl
    obtain ⟨a, ha, hal⟩ := hsurj ((mem_locations h l).1 hl)
    refine ⟨a, ha, Location.fields_injective ?_⟩
    rw [hfields]
    exact hal

/-- A component wider than the cast has a value that no address decodes to. -/
theorem widths_le_of_surjOn (h : g.PowersOfTwo) {A : Set Nat}
    (hsurj : Set.SurjOn g.decode A g.locations) (i : Fin 5) : g.widths i ≤ 32 := by
  by_contra hi
  have hmem : Location.ofFields (Pi.single i (2 ^ 32)) ∈ g.locations := by
    rw [mem_locations h, Location.fields_ofFields]
    intro j
    rcases eq_or_ne j i with rfl | hj
    · rw [Pi.single_eq_same]
      exact Nat.pow_lt_pow_right (by decide) (by omega)
    · rw [Pi.single_eq_of_ne hj]
      exact Nat.two_pow_pos _
  obtain ⟨a, -, ha⟩ := hsurj hmem
  have hlt := component_lt h a i
  rw [ha, Location.fields_ofFields, Pi.single_eq_same, min_eq_left (by omega)] at hlt
  exact lt_irrefl _ hlt

/-- Beyond 64 bits there are more locations than addresses. -/
theorem sum_widths_le (h : g.PowersOfTwo) (hw : ∀ i, g.widths i ≤ 32)
    (hsurj : Set.SurjOn g.decode {a | a < 2 ^ 64 ∧ a < g.capacity} g.locations) :
    ∑ i, g.widths i ≤ 64 := by
  by_contra hsum
  have hcap : 2 ^ 64 < g.capacity := by
    rw [capacity_eq h]
    exact Nat.pow_lt_pow_right (by decide) (by omega)
  obtain ⟨a, ⟨haddress, hin⟩, ha⟩ := hsurj (decode_mem h (2 ^ 64))
  have heq : a = 2 ^ 64 := (decode_bijOn h hw).injOn hin hcap ha
  omega

theorem Fits.capacity_le (h : g.PowersOfTwo) (hfits : g.Fits) : g.capacity ≤ 2 ^ 64 := by
  rw [capacity_eq h]
  exact Nat.pow_le_pow_right (by decide) hfits.address

/-- The components are in their ranges, and repeat with the capacity, for every geometry; a location
has one address below the capacity exactly when the geometry fits. -/
theorem decode_exact (h : g.PowersOfTwo) :
    (∀ a, g.decode a ∈ g.locations ∧
      (g.loc a).channel < g.channels ∧ (g.loc a).rank < g.ranks ∧ (g.loc a).bank < g.banks) ∧
    (∀ a b, a % g.capacity = b % g.capacity → g.decode a = g.decode b) ∧
    (g.Fits → g.capacity ≤ 2 ^ 64 ∧ Set.BijOn g.decode {a | a < g.capacity} g.locations) ∧
    (Set.BijOn g.decode {a | a < 2 ^ 64 ∧ a < g.capacity} g.locations → g.Fits) := by
  refine ⟨fun a => ⟨decode_mem h a, loc_in_range h a⟩, ?_, ?_, ?_⟩
  · intro a b hab
    rw [← decode_mod h a, hab, decode_mod h b]
  · intro hfits
    exact ⟨Fits.capacity_le h hfits, decode_bijOn h hfits.component⟩
  · intro hbij
    have hw := widths_le_of_surjOn h hbij.surjOn
    exact ⟨hw, sum_widths_le h hw hbij.surjOn⟩

end Decode

theorem default_powersOfTwo : Config.default.toGeometry.PowersOfTwo := by
  constructor <;> rfl

theorem default_fits : Config.default.toGeometry.Fits := by
  constructor <;> decide

/-- The constants of `champsim.h` give 2^26 blocks. -/
theorem decode_exact_default :
    Config.default.toGeometry.PowersOfTwo ∧ Config.default.toGeometry.Fits ∧
      Set.BijOn Config.default.toGeometry.decode {a | a < 2 ^ 26}
        Config.default.toGeometry.locations := by
  refine ⟨default_powersOfTwo, default_fits, ?_⟩
  exact ((decode_exact default_powersOfTwo).2.2.1 default_fits).2

/-- One bank of 2^33 rows. -/
def wideRows : Geometry where
  channels := 1
  log2Channels := 0
  ranks := 1
  log2Ranks := 0
  banks := 1
  log2Banks := 0
  columns := 1
  log2Columns := 0
  rows := 2 ^ 33
  log2Rows := 33

/-- 65 bits in all. -/
def wideAddress : Geometry where
  channels := 2 ^ 13
  log2Channels := 13
  ranks := 2 ^ 13
  log2Ranks := 13
  banks := 2 ^ 13
  log2Banks := 13
  columns := 2 ^ 13
  log2Columns := 13
  rows := 2 ^ 13
  log2Rows := 13

/-- The cast drops bit 32 of the row; and the last row needs bit 64 of the address. -/
theorem wide_fails :
    (wideRows.PowersOfTwo ∧ 2 ^ 32 < wideRows.capacity ∧
      wideRows.decode 0 = wideRows.decode (2 ^ 32) ∧
      ¬ Set.BijOn wideRows.decode {a | a < wideRows.capacity} wideRows.locations) ∧
    wideAddress.PowersOfTwo ∧
      ¬ Set.BijOn wideAddress.decode {a | a < 2 ^ 64 ∧ a < wideAddress.capacity}
        wideAddress.locations := by
  have hrows : wideRows.PowersOfTwo := by constructor <;> rfl
  have haddress : wideAddress.PowersOfTwo := by constructor <;> rfl
  have hcap : 2 ^ 32 < wideRows.capacity := by decide
  have halias : wideRows.decode 0 = wideRows.decode (2 ^ 32) := by decide
  refine ⟨⟨hrows, hcap, halias, ?_⟩, haddress, ?_⟩
  · intro hbij
    have hzero : (0 : Nat) = 2 ^ 32 := hbij.injOn (by decide : 0 < wideRows.capacity) hcap halias
    exact absurd hzero (by decide)
  · intro hbij
    have hsum := sum_widths_le haddress (widths_le_of_surjOn haddress hbij.surjOn) hbij.surjOn
    exact absurd hsum (by decide)

end Geometry
end Dram
end ChampSim
