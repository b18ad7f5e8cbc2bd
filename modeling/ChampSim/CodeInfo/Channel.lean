import ChampSim.CodeInfo.Table
import ChampSim.Lib.Group
import ChampSim.Lib.Text
import Mathlib.Data.Int.Bitwise

/-!
# ChampSim.CodeInfo.Channel

The way of an instruction's numbers through the `.crl` file, for one function.

* `encode`             — AddDbg: the numbers, masked, as line and column of the debug location.
* `processFuncEntries` — `inst_corr.py`: filters, masks off, sort, one entry for each instruction.
* `printIR`            — `main.py`: the `IR` line.
* `parseIR`, `readDbg` — `read_dbg_file` of `src/codeinfo/llvm_info.cc`.

The line table carries address, line and column unchanged, so a row of it is what `encode` makes.
Setting a mask bit that is set already loses it: `channel_iff` says how far the numbers may go.
-/

namespace ChampSim
namespace CodeInfo

open Lib

section Channel

variable {ι : Type*}

/-! ## AddDbg -/

/-- A row of the line table. -/
structure Row where
  address : UInt64
  line : UInt32
  column : UInt32

/-- `myMask<T>()` for a type of `size` bytes. -/
def myMask (size : UInt32) : UInt32 := 1 <<< (8 * size - 1)

def encode (address : UInt64) (v : Numbered ι) : Row :=
  ⟨address, myMask 4 ||| v.bb, myMask 2 ||| v.instr.toUInt32⟩

/-! ## dwproc -/

def lineMask : UInt32 := 0x80000000

def colMask : UInt32 := 0x8000

/-- A row once its masks are removed; the numbers are Python's. -/
structure Entry where
  address : UInt64
  line : Int
  column : Int
deriving DecidableEq

def entryRemoveMasks (r : Row) : Entry :=
  ⟨r.address, (r.line ^^^ lineMask).toNat - 1, (r.column ^^^ colMask).toNat - 1⟩

def getEntries (rows : List Row) : List Entry :=
  ((rows.filter fun r => r.column &&& colMask ≠ 0).filter fun r =>
    r.line &&& lineMask ≠ 0).map entryRemoveMasks

def entrySorter (e : Entry) : Int := Int.lor (e.line <<< (16 : Nat)) e.column

def processFuncEntries (es : List Entry) : List Entry :=
  groupMins entrySorter (fun e => e.address.toNat) es

/-- `%d`. -/
def printInt : Int → List Char
  | .ofNat n => Nat.toDigits 10 n
  | .negSucc n => '-' :: Nat.toDigits 10 (n + 1)

/-- `IR %x %d %d`. -/
def printIR (e : Entry) : List Char :=
  ['I', 'R', ' '] ++ Nat.toDigits 16 e.address.toNat ++ ' ' :: printInt e.column ++
    ' ' :: printInt e.line

/-! ## read_dbg_file -/

/-- `none` is the exception of `stoull`. -/
def parseU64 (b : Nat) (cs : List Char) : Option UInt64 :=
  if ofDigits b cs < 2 ^ 64 then some (UInt64.ofNat (ofDigits b cs)) else none

/-- The line against `ir_entry`; the classes of neighbouring fields share no character. -/
def parseIR : List Char → Option CorrelInfo
  | 'I' :: 'R' :: line =>
    (field Char.isWhitespace line).bind fun s₁ =>
      (field isHex s₁.2).bind fun pc =>
        (field Char.isWhitespace pc.2).bind fun s₂ =>
          (field Char.isDigit s₂.2).bind fun instr =>
            (field Char.isWhitespace instr.2).bind fun s₃ =>
              (field Char.isDigit s₃.2).bind fun bb =>
                if bb.2 = [] then
                  (parseU64 10 bb.1).bind fun bb =>
                    (parseU64 10 instr.1).bind fun instr =>
                      (parseU64 16 pc.1).map fun pc => ⟨bb.toUInt32, instr.toUInt16, pc⟩
                else none
  | _ => none

/-- `operator<` of `correl_info`, turned round. -/
def correlLe (c d : CorrelInfo) : Bool :=
  !(if d.bb = c.bb then decide (d.instr < c.instr) else decide (d.bb < c.bb))

def readDbg (lines : List (List Char)) : List CorrelInfo :=
  (lines.filterMap parseIR).mergeSort correlLe

/-- From the instructions of a function, each where the line table has it, to the simulator. -/
def channel (xs : List (UInt64 × Numbered ι)) : List CorrelInfo :=
  readDbg ((processFuncEntries (getEntries (xs.map fun x => encode x.1 x.2))).map printIR)

/-! ## What should come out -/

/-- An instruction's numbers from 0 and its address. -/
def record (x : UInt64 × Numbered ι) : CorrelInfo := ⟨x.2.bb - 1, x.2.instr - 1, x.1⟩

def SameNumbers (x y : UInt64 × Numbered ι) : Prop := x.2.bb = y.2.bb ∧ x.2.instr = y.2.instr

instance (x y : UInt64 × Numbered ι) : Decidable (SameNumbers x y) :=
  inferInstanceAs (Decidable (_ ∧ _))

/-- Every instruction arrives once, with the lowest address the table has for it, and nothing else
does. -/
structure Faithfully (xs : List (UInt64 × Numbered ι)) : Prop where
  mem : ∀ c, c ∈ channel xs ↔
    ∃ x ∈ xs, c = record x ∧ ∀ y ∈ xs, SameNumbers y x → x.1.toNat ≤ y.1.toNat
  nodup : ((channel xs).map fun c => (c.bb, c.instr)).Nodup

/-! ## Masks -/

theorem or_xor_two_pow {k b : Nat} (hb : b < 2 ^ (k + 1)) :
    (2 ^ k ||| b) ^^^ 2 ^ k = b % 2 ^ k := by
  apply Nat.eq_of_testBit_eq
  intro i
  rw [Nat.testBit_xor, Nat.testBit_or, Nat.testBit_mod_two_pow, Nat.testBit_two_pow]
  by_cases hi : k = i
  · simp [hi]
  · by_cases hlt : i < k
    · simp [hi, hlt]
    · have hbit : b.testBit i = false := by
        apply Nat.testBit_lt_two_pow
        exact lt_of_lt_of_le hb (Nat.pow_le_pow_right (by omega) (by omega))
      simp [hi, hlt, hbit]

theorem or_and_two_pow (k b : Nat) : (2 ^ k ||| b) &&& 2 ^ k ≠ 0 := by
  intro h
  have hbit := congrArg (Nat.testBit · k) h
  simp [Nat.testBit_and, Nat.testBit_or] at hbit

theorem removeMasks_encode (a : UInt64) (v : Numbered ι) :
    entryRemoveMasks (encode a v) =
      ⟨a, (v.bb.toNat % 2 ^ 31 : Nat) - 1, (v.instr.toNat % 2 ^ 15 : Nat) - 1⟩ := by
  have hline : ((myMask 4 ||| v.bb) ^^^ lineMask).toNat = v.bb.toNat % 2 ^ 31 :=
    or_xor_two_pow v.bb.toNat_lt
  have hcolumn : ((myMask 2 ||| v.instr.toUInt32) ^^^ colMask).toNat = v.instr.toNat % 2 ^ 15 :=
    or_xor_two_pow v.instr.toNat_lt
  simp only [entryRemoveMasks, encode, hline, hcolumn]

theorem getEntries_encode (xs : List (UInt64 × Numbered ι)) :
    getEntries (xs.map fun x => encode x.1 x.2) =
      xs.map fun x => entryRemoveMasks (encode x.1 x.2) := by
  have hcolumn : ∀ x : UInt64 × Numbered ι, (encode x.1 x.2).column &&& colMask ≠ 0 := by
    intro x h
    exact or_and_two_pow 15 x.2.instr.toNat (congrArg UInt32.toNat h)
  have hline : ∀ x : UInt64 × Numbered ι, (encode x.1 x.2).line &&& lineMask ≠ 0 := by
    intro x h
    exact or_and_two_pow 31 x.2.bb.toNat (congrArg UInt32.toNat h)
  have hkeep : (xs.map fun x => encode x.1 x.2).filter (fun r => r.column &&& colMask ≠ 0) =
      xs.map fun x => encode x.1 x.2 := by
    rw [List.filter_eq_self]
    intro r hr
    obtain ⟨x, _, rfl⟩ := List.mem_map.1 hr
    exact decide_eq_true (hcolumn x)
  have hkeep' : (xs.map fun x => encode x.1 x.2).filter (fun r => r.line &&& lineMask ≠ 0) =
      xs.map fun x => encode x.1 x.2 := by
    rw [List.filter_eq_self]
    intro r hr
    obtain ⟨x, _, rfl⟩ := List.mem_map.1 hr
    exact decide_eq_true (hline x)
  rw [getEntries, hkeep, hkeep', List.map_map]
  rfl

/-! ## One line -/

theorem isWhitespace_of_isHex {c : Char} (h : isHex c = true) : c.isWhitespace = false := by
  by_contra hspace
  simp only [Bool.not_eq_false, Char.isWhitespace, Bool.or_eq_true, decide_eq_true_eq] at hspace
  obtain ((rfl | rfl) | rfl) | rfl := hspace <;> revert h <;> decide

theorem parseU64_toDigits {b n : Nat} (hb : 1 < b) (hb' : b ≤ 16) (hn : n < 2 ^ 64) :
    parseU64 b (b.toDigits n) = some (UInt64.ofNat n) := by
  rw [parseU64, ofDigits_toDigits hb hb', if_pos hn]

theorem stops_space (p : Char → Bool) (h : p ' ' = false) (cs : List Char) : Stops p (' ' :: cs) := by
  intro c hc
  rw [← Option.some.inj hc]
  exact h

/-- A word after a blank is read, whatever follows it outside its class. -/
theorem field_word (p : Char → Bool) (w rest : List Char) (hne : w ≠ [])
    (hw : ∀ c ∈ w, p c = true) (hblank : ∀ c ∈ w, c.isWhitespace = false) (hrest : Stops p rest) :
    field Char.isWhitespace (' ' :: (w ++ rest)) = some ([' '], w ++ rest) ∧
      field p (w ++ rest) = some (w, rest) := by
  refine ⟨?_, field_append hne hw hrest⟩
  refine field_append (w := [' ']) (List.cons_ne_nil _ _) ?_ ?_
  · intro c hc
    rw [List.mem_singleton.1 hc]
    rfl
  · intro c hc
    obtain ⟨d, w', rfl⟩ := List.exists_cons_of_ne_nil hne
    rw [← Option.some.inj hc]
    exact hblank d List.mem_cons_self

theorem blank_toDigits {b : Nat} (hb : 1 < b) (hb' : b ≤ 16) (n : Nat) :
    ∀ c ∈ b.toDigits n, c.isWhitespace = false :=
  fun c hc => isWhitespace_of_isHex (isHex_of_mem_toDigits hb hb' n c hc)

theorem isDigit_toDigits (n : Nat) : ∀ c ∈ Nat.toDigits 10 n, c.isDigit = true :=
  fun _ hc => Nat.isDigit_of_mem_toDigits (by omega) (by omega) hc

/-- Numbers from 0 come back as they were printed. -/
theorem parse_print {e : Entry} {l c : Nat} (hl : e.line = l) (hc : e.column = c)
    (hl' : l < 2 ^ 64) (hc' : c < 2 ^ 64) :
    parseIR (printIR e) =
      some ⟨(UInt64.ofNat l).toUInt32, (UInt64.ofNat c).toUInt16, e.address⟩ := by
  have hnil : Stops Char.isDigit [] := by
    intro x hx
    cases hx
  obtain ⟨hs₃, hbb⟩ := field_word Char.isDigit (Nat.toDigits 10 l) [] Nat.toDigits_ne_nil
    (isDigit_toDigits l) (blank_toDigits (by omega) (by omega) l) hnil
  obtain ⟨hs₂, hinstr⟩ := field_word Char.isDigit (Nat.toDigits 10 c)
    (' ' :: (Nat.toDigits 10 l ++ [])) Nat.toDigits_ne_nil (isDigit_toDigits c)
    (blank_toDigits (by omega) (by omega) c) (stops_space _ rfl _)
  obtain ⟨hs₁, hpc⟩ := field_word isHex (Nat.toDigits 16 e.address.toNat)
    (' ' :: (Nat.toDigits 10 c ++ ' ' :: (Nat.toDigits 10 l ++ []))) Nat.toDigits_ne_nil
    (isHex_of_mem_toDigits (by omega) (by omega) _) (blank_toDigits (by omega) (by omega) _)
    (stops_space _ rfl _)
  have hprint : printIR e = 'I' :: 'R' :: ' ' :: (Nat.toDigits 16 e.address.toNat ++
      ' ' :: (Nat.toDigits 10 c ++ ' ' :: (Nat.toDigits 10 l ++ []))) := by
    simp [printIR, printInt, hl, hc]
  rw [hprint]
  simp only [parseIR, hs₁, hpc, hs₂, hinstr, hs₃, hbb, Option.bind_some, if_true]
  rw [parseU64_toDigits (by omega) (by omega) hl', parseU64_toDigits (by omega) (by omega) hc',
    parseU64_toDigits (by omega) (by omega) e.address.toNat_lt]
  simp

theorem field_minus (w : List Char) :
    field Char.isWhitespace (' ' :: '-' :: w) = some ([' '], '-' :: w) ∧
      field Char.isDigit ('-' :: w) = none := by
  refine ⟨field_append (w := [' ']) (List.cons_ne_nil _ _) ?_ ?_, field_none ?_⟩
  · intro c hc
    rw [List.mem_singleton.1 hc]
    rfl
  · intro c hc
    rw [← Option.some.inj hc]
    rfl
  · intro c hc
    rw [← Option.some.inj hc]
    rfl

/-- A number below 0 is no field of digits, and the line is skipped. -/
theorem parse_print_neg {e : Entry} (h : e.line < 0 ∨ e.column < 0) :
    parseIR (printIR e) = none := by
  have hhex := field_word isHex (Nat.toDigits 16 e.address.toNat)
  cases hcolumn : e.column with
  | negSucc c =>
    obtain ⟨hminus, hnone⟩ := field_minus (Nat.toDigits 10 (c + 1) ++ ' ' :: printInt e.line)
    obtain ⟨hs₁, hpc⟩ := hhex (' ' :: '-' :: (Nat.toDigits 10 (c + 1) ++ ' ' :: printInt e.line))
      Nat.toDigits_ne_nil (isHex_of_mem_toDigits (by omega) (by omega) _)
      (blank_toDigits (by omega) (by omega) _) (stops_space _ rfl _)
    have hprint : printIR e = 'I' :: 'R' :: ' ' :: (Nat.toDigits 16 e.address.toNat ++
        ' ' :: '-' :: (Nat.toDigits 10 (c + 1) ++ ' ' :: printInt e.line)) := by
      simp [printIR, printInt, hcolumn]
    rw [hprint]
    simp only [parseIR, hs₁, hpc, hminus, hnone, Option.bind_some, Option.bind_none]
  | ofNat c =>
    cases hline : e.line with
    | ofNat l =>
      rw [hline, hcolumn] at h
      simp only [Int.ofNat_eq_natCast] at h
      omega
    | negSucc l =>
      obtain ⟨hminus, hnone⟩ := field_minus (Nat.toDigits 10 (l + 1))
      obtain ⟨hs₂, hinstr⟩ := field_word Char.isDigit (Nat.toDigits 10 c)
        (' ' :: '-' :: Nat.toDigits 10 (l + 1)) Nat.toDigits_ne_nil (isDigit_toDigits c)
        (blank_toDigits (by omega) (by omega) c) (stops_space _ rfl _)
      obtain ⟨hs₁, hpc⟩ := hhex
        (' ' :: (Nat.toDigits 10 c ++ ' ' :: '-' :: Nat.toDigits 10 (l + 1)))
        Nat.toDigits_ne_nil (isHex_of_mem_toDigits (by omega) (by omega) _)
        (blank_toDigits (by omega) (by omega) _) (stops_space _ rfl _)
      have hprint : printIR e = 'I' :: 'R' :: ' ' :: (Nat.toDigits 16 e.address.toNat ++
          ' ' :: (Nat.toDigits 10 c ++ ' ' :: '-' :: Nat.toDigits 10 (l + 1))) := by
        simp [printIR, printInt, hcolumn, hline]
      rw [hprint]
      simp only [parseIR, hs₁, hpc, hs₂, hinstr, hminus, hnone, Option.bind_some, Option.bind_none]

/-! ## The whole way -/

theorem mem_channel (xs : List (UInt64 × Numbered ι)) (c : CorrelInfo) :
    c ∈ channel xs ↔
      ∃ e ∈ processFuncEntries (xs.map fun x => entryRemoveMasks (encode x.1 x.2)),
        parseIR (printIR e) = some c := by
  rw [channel, getEntries_encode, readDbg, List.mem_mergeSort, List.mem_filterMap]
  constructor
  · rintro ⟨line, hline, hparse⟩
    obtain ⟨e, he, rfl⟩ := List.mem_map.1 hline
    exact ⟨e, he, hparse⟩
  · rintro ⟨e, he, hparse⟩
    exact ⟨printIR e, List.mem_map_of_mem he, hparse⟩

/-- Whatever the numbers were, what arrives is below the masks. -/
theorem channel_lt {xs : List (UInt64 × Numbered ι)} {c : CorrelInfo} (h : c ∈ channel xs) :
    c.bb.toNat + 1 < 2 ^ 31 ∧ c.instr.toNat + 1 < 2 ^ 15 := by
  obtain ⟨e, he, hparse⟩ := (mem_channel xs c).1 h
  obtain ⟨x, hx, rfl⟩ := List.mem_map.1 (mem_groupMins _ _ he).1
  rw [removeMasks_encode] at hparse
  have hl : x.2.bb.toNat % 2 ^ 31 < 2 ^ 31 := Nat.mod_lt _ (by omega)
  have hi : x.2.instr.toNat % 2 ^ 15 < 2 ^ 15 := Nat.mod_lt _ (by omega)
  generalize x.2.bb.toNat % 2 ^ 31 = l at hl hparse
  generalize x.2.instr.toNat % 2 ^ 15 = i at hi hparse
  by_cases hneg : l = 0 ∨ i = 0
  · rw [parse_print_neg (by simp only; omega)] at hparse
    cases hparse
  · have hl' : ((l : Int) - 1) = ((l - 1 : Nat) : Int) := by omega
    have hi' : ((i : Int) - 1) = ((i - 1 : Nat) : Int) := by omega
    rw [parse_print hl' hi' (by omega) (by omega), Option.some.injEq] at hparse
    subst hparse
    simp only [UInt64.toNat_toUInt32, UInt64.toNat_toUInt16, UInt64.toNat_ofNat']
    omega

/-! ## When the numbers fit -/

theorem entrySorter_eq {e : Entry} {l c : Nat} (hl : e.line = l) (hc : e.column = c)
    (hlt : c < 2 ^ 16) : entrySorter e = (l * 2 ^ 16 + c : Nat) := by
  have hshift : (l : Int) <<< (16 : Nat) = ((l * 2 ^ 16 : Nat) : Int) := by
    rw [Int.shiftLeft_eq]
    norm_cast
  have hor : l * 2 ^ 16 ||| c = l * 2 ^ 16 + c := by
    rw [← Nat.shiftLeft_eq]
    exact (Nat.shiftLeft_add_eq_or_of_lt hlt l).symm
  rw [entrySorter, hl, hc, hshift, ← hor]
  rfl

/-- What a row in range becomes. -/
theorem entry_spec {x : UInt64 × Numbered ι} (hb : 0 < x.2.bb.toNat) (hi : 0 < x.2.instr.toNat)
    (hb' : x.2.bb.toNat < 2 ^ 31) (hi' : x.2.instr.toNat < 2 ^ 15) :
    parseIR (printIR (entryRemoveMasks (encode x.1 x.2))) = some (record x) ∧
      entrySorter (entryRemoveMasks (encode x.1 x.2)) =
        ((x.2.bb.toNat - 1) * 2 ^ 16 + (x.2.instr.toNat - 1) : Nat) := by
  rw [removeMasks_encode, Nat.mod_eq_of_lt hb', Nat.mod_eq_of_lt hi']
  have hl : ((x.2.bb.toNat : Int) - 1) = ((x.2.bb.toNat - 1 : Nat) : Int) := by omega
  have hc : ((x.2.instr.toNat : Int) - 1) = ((x.2.instr.toNat - 1 : Nat) : Int) := by omega
  refine ⟨?_, entrySorter_eq hl hc (by omega)⟩
  rw [parse_print hl hc (by omega) (by omega), record]
  have hbb : (UInt64.ofNat (x.2.bb.toNat - 1)).toUInt32 = x.2.bb - 1 := by
    rw [← UInt32.toNat_inj, UInt64.toNat_toUInt32, UInt64.toNat_ofNat', UInt32.toNat_sub]
    simp only [UInt32.toNat_one]
    omega
  have hinstr : (UInt64.ofNat (x.2.instr.toNat - 1)).toUInt16 = x.2.instr - 1 := by
    rw [← UInt16.toNat_inj, UInt64.toNat_toUInt16, UInt64.toNat_ofNat', UInt16.toNat_sub]
    simp only [UInt16.toNat_one]
    omega
  rw [hbb, hinstr]

theorem faithfully_of_fits {xs : List (UInt64 × Numbered ι)}
    (hpos : ∀ x ∈ xs, 0 < x.2.bb.toNat ∧ 0 < x.2.instr.toNat)
    (hfits : ∀ x ∈ xs, x.2.bb.toNat < 2 ^ 31 ∧ x.2.instr.toNat < 2 ^ 15) : Faithfully xs := by
  have hspec : ∀ x ∈ xs, _ := fun x hx =>
    entry_spec (hpos x hx).1 (hpos x hx).2 (hfits x hx).1 (hfits x hx).2
  have hsame : ∀ x ∈ xs, ∀ y ∈ xs, entrySorter (entryRemoveMasks (encode x.1 x.2)) =
      entrySorter (entryRemoveMasks (encode y.1 y.2)) ↔ SameNumbers x y := by
    intro x hx y hy
    rw [(hspec x hx).2, (hspec y hy).2, Int.natCast_inj, SameNumbers, ← UInt32.toNat_inj,
      ← UInt16.toNat_inj]
    have := hpos x hx
    have := hpos y hy
    have := hfits x hx
    have := hfits y hy
    omega
  refine ⟨?_, ?_⟩
  · intro c
    rw [mem_channel]
    constructor
    · rintro ⟨e, he, hparse⟩
      obtain ⟨hmem, hmin⟩ := mem_groupMins _ _ he
      obtain ⟨x, hx, rfl⟩ := List.mem_map.1 hmem
      rw [(hspec x hx).1, Option.some.injEq] at hparse
      refine ⟨x, hx, hparse.symm, ?_⟩
      intro y hy hsn
      exact hmin _ (List.mem_map_of_mem hy) ((hsame y hy x hx).2 hsn)
    · rintro ⟨x, hx, rfl, hmin⟩
      obtain ⟨m, hm, hkey⟩ := exists_mem_groupMins entrySorter (fun e => e.address.toNat)
        (List.mem_map_of_mem (f := fun x => entryRemoveMasks (encode x.1 x.2)) hx)
      obtain ⟨hmem, hlow⟩ := mem_groupMins _ _ hm
      obtain ⟨y, hy, rfl⟩ := List.mem_map.1 hmem
      have hsn : SameNumbers y x := (hsame y hy x hx).1 hkey
      have hxy : x.1.toNat ≤ y.1.toNat := hmin y hy hsn
      have hyx : y.1.toNat ≤ x.1.toNat := hlow _ (List.mem_map_of_mem hx) hkey.symm
      refine ⟨_, hm, ?_⟩
      rw [(hspec y hy).1, record, record, hsn.1, hsn.2,
        UInt64.toNat_inj.1 (Nat.le_antisymm hyx hxy)]
  · rw [channel, getEntries_encode, readDbg, List.filterMap_map]
    refine ((List.mergeSort_perm _ _).map _).nodup_iff.2 ?_
    rw [List.Nodup, List.pairwise_map]
    have hkeys := groupMins_keys entrySorter (fun e => e.address.toNat)
      (xs.map fun x => entryRemoveMasks (encode x.1 x.2))
    rw [List.Nodup, List.pairwise_map] at hkeys
    refine (hkeys.imp_of_mem (S := fun e e' => ∀ c c', parseIR (printIR e) = some c →
      parseIR (printIR e') = some c' → (c.bb, c.instr) ≠ (c'.bb, c'.instr)) ?_).filterMap _ ?_
    · intro e e' he he' hne c c' hc hc' heq
      obtain ⟨x, hx, rfl⟩ := List.mem_map.1 (mem_groupMins _ _ he).1
      obtain ⟨y, hy, rfl⟩ := List.mem_map.1 (mem_groupMins _ _ he').1
      rw [(hspec x hx).1, Option.some.injEq] at hc
      rw [(hspec y hy).1, Option.some.injEq] at hc'
      refine hne ((hsame x hx y hy).2 ?_)
      rw [← hc, ← hc', record, record, Prod.mk.injEq] at heq
      exact ⟨(UInt32.sub_left_inj _).1 heq.1, (UInt16.sub_left_inj _).1 heq.2⟩
    · intro e e' h c hc c' hc'
      exact h c c' hc hc'

/-! ## AddDbg's numbers -/

theorem numberBlock_pos (bb : UInt32) (iCtr : UInt16) (block : List ι)
    (hlen : iCtr.toNat + block.length ≤ 2 ^ 16) {v : Numbered ι}
    (hv : v ∈ numberBlock bb iCtr block) : v.bb = bb ∧ iCtr.toNat ≤ v.instr.toNat := by
  induction block generalizing iCtr with
  | nil => cases hv
  | cons x block ih =>
    cases List.mem_cons.1 hv with
    | inl heq =>
      rw [heq]
      exact ⟨rfl, le_refl _⟩
    | inr hmem =>
      cases block with
      | nil => cases hmem
      | cons y block =>
        simp only [List.length_cons] at hlen
        have hnext : (iCtr + 1).toNat = iCtr.toNat + 1 := by
          rw [UInt16.toNat_add, UInt16.toNat_one]
          omega
        obtain ⟨hbb, hle⟩ := ih (iCtr + 1) (by simp only [List.length_cons]; omega) hmem
        exact ⟨hbb, by omega⟩

theorem numberBlocks_pos (bbCtr : UInt32) (f : List (List ι))
    (hblocks : bbCtr.toNat + f.length ≤ 2 ^ 32) (hlen : ∀ block ∈ f, block.length < 2 ^ 16)
    {v : Numbered ι} (hv : v ∈ numberBlocks bbCtr f) :
    bbCtr.toNat ≤ v.bb.toNat ∧ 0 < v.instr.toNat := by
  induction f generalizing bbCtr with
  | nil => cases hv
  | cons block f ih =>
    cases List.mem_append.1 hv with
    | inl hmem =>
      have hblock := hlen block List.mem_cons_self
      obtain ⟨hbb, hle⟩ := numberBlock_pos bbCtr 1 block (by
        rw [UInt16.toNat_one]
        omega) hmem
      rw [UInt16.toNat_one] at hle
      rw [hbb]
      omega
    | inr hmem =>
      cases f with
      | nil => cases hmem
      | cons block' f =>
        simp only [List.length_cons] at hblocks
        have hnext : (bbCtr + 1).toNat = bbCtr.toNat + 1 := by
          rw [UInt32.toNat_add, UInt32.toNat_one]
          omega
        obtain ⟨hle, hpos⟩ := ih (bbCtr + 1) (by simp only [List.length_cons]; omega)
          (fun b hb => hlen b (List.mem_cons_of_mem _ hb)) hmem
        omega

theorem imap_pos {f : List (List ι)} (hblocks : f.length < 2 ^ 32)
    (hlen : ∀ block ∈ f, block.length < 2 ^ 16) {v : Numbered ι} (hv : v ∈ imap f) :
    0 < v.bb.toNat ∧ 0 < v.instr.toNat := by
  obtain ⟨hbb, hpos⟩ := numberBlocks_pos 1 f (by
    rw [UInt32.toNat_one]
    omega) hlen hv
  rw [UInt32.toNat_one] at hbb
  omega

/-- Among the rows of one instruction there is a lowest. -/
theorem exists_lowest {xs : List (UInt64 × Numbered ι)} {x : UInt64 × Numbered ι} (hx : x ∈ xs) :
    ∃ y ∈ xs, SameNumbers y x ∧ ∀ z ∈ xs, SameNumbers z y → y.1.toNat ≤ z.1.toNat := by
  have hmem : ∀ z, z ∈ xs.filter (fun z => z.2.bb = x.2.bb ∧ z.2.instr = x.2.instr) ↔
      z ∈ xs ∧ SameNumbers z x := by
    intro z
    simp [SameNumbers]
  have hx' := (hmem x).2 ⟨hx, rfl, rfl⟩
  have hmin := (hmem _).1 (List.minOn_mem (f := fun z => z.1.toNat) (h := List.ne_nil_of_mem hx'))
  refine ⟨_, hmin.1, hmin.2, ?_⟩
  intro z hz hsn
  exact List.apply_minOn_le_of_mem (f := fun z : UInt64 × Numbered ι => z.1.toNat)
    ((hmem z).2 ⟨hz, hsn.1.trans hmin.2.1, hsn.2.trans hmin.2.2⟩)

/-- The instructions of a function arrive exactly when their numbers leave the mask bits free. -/
theorem channel_iff (f : List (List ι)) (hblocks : f.length < 2 ^ 32)
    (hlen : ∀ block ∈ f, block.length < 2 ^ 16) (xs : List (UInt64 × Numbered ι))
    (hxs : ∀ x ∈ xs, x.2 ∈ imap f) :
    Faithfully xs ↔ ∀ x ∈ xs, x.2.bb.toNat < 2 ^ 31 ∧ x.2.instr.toNat < 2 ^ 15 := by
  constructor
  · intro h x hx
    obtain ⟨y, hy, hyx, hlow⟩ := exists_lowest hx
    obtain ⟨hbb, hinstr⟩ := channel_lt ((h.mem (record y)).2 ⟨y, hy, rfl, hlow⟩)
    have hpos := imap_pos hblocks hlen (hxs y hy)
    rw [record, UInt32.toNat_sub, UInt32.toNat_one] at hbb
    rw [record, UInt16.toNat_sub, UInt16.toNat_one] at hinstr
    have hbb' := y.2.bb.toNat_lt
    have hinstr' := y.2.instr.toNat_lt
    rw [← hyx.1, ← hyx.2]
    omega
  · exact faithfully_of_fits fun x hx => imap_pos hblocks hlen (hxs x hx)

theorem channel_iff_block :
    let xs : List (UInt64 × Numbered Nat) :=
      [(0x40, ⟨8, 1, 2⟩), (0x48, ⟨7, 1, 1⟩), (0x4c, ⟨8, 1, 2⟩)]
    Faithfully xs ∧ ⟨0, 1, 0x40⟩ ∈ channel xs := by
  intro xs
  have h : Faithfully xs :=
    (channel_iff [[7, 8]] (by decide) (by decide) xs (by decide)).2 (by decide)
  exact ⟨h, (h.mem _).2 ⟨(0x40, ⟨8, 1, 2⟩), by decide, rfl, by decide⟩⟩

theorem mem_numberBlock (bb : UInt32) (iCtr : UInt16) (x : ι) (len k : Nat) (hk : k < len) :
    ⟨x, bb, iCtr + UInt16.ofNat k⟩ ∈ numberBlock bb iCtr (List.replicate len x) := by
  induction len generalizing iCtr k with
  | zero => omega
  | succ len ih =>
    rw [List.replicate_succ, numberBlock]
    cases k with
    | zero => exact List.mem_cons.2 (.inl (by simp))
    | succ k =>
      have hmem := ih (iCtr + 1) k (by omega)
      have hk' : iCtr + 1 + UInt16.ofNat k = iCtr + UInt16.ofNat (k + 1) := by
        rw [UInt16.ofNat_add, UInt16.add_assoc, UInt16.add_comm 1]
        rfl
      exact List.mem_cons_of_mem _ (hk' ▸ hmem)

/-- In a block of 32768 instructions the last one is printed with column -1 and lost. -/
theorem long_block_lost :
    ∃ v ∈ imap [List.replicate 32768 ()], v.bb = 1 ∧ v.instr = 32768 ∧
      ¬Faithfully [((0x40 : UInt64), v)] := by
  refine ⟨⟨(), 1, 1 + UInt16.ofNat 32767⟩, ?_, rfl, rfl, ?_⟩
  · exact List.mem_append_left _ (mem_numberBlock 1 1 () 32768 32767 (by omega))
  · intro h
    have hmem := (h.mem ⟨0, 32767, 0x40⟩).2 ⟨_, List.mem_singleton_self _, rfl, by simp⟩
    exact absurd (channel_lt hmem).2 (by decide)

end Channel

end CodeInfo
end ChampSim
