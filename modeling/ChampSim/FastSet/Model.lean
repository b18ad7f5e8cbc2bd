import Mathlib.Data.Nat.Bitwise
import Mathlib.Logic.Function.Basic

/-!
# ChampSim.FastSet.Model

`fastset` of `inc/set.h`: a set of small integers that is a sorted array of at most
`SMALL_SIZE - 1` values, and from `SMALL_SIZE` values on a vector of bits over the same memory.

* `Data` — the union. Reading the member that was not written last is undefined, and so is an
  index outside `bits[MAX_SIZE/64]`; both make an operation `none`.
* `card` — the cardinality of the small form. After the switch it stays at `SMALL_SIZE` and only
  says which member of the union is in use.

Array cells are a function of the index. `TYPE` values are never computed with beyond the
comparison with `n`, so they are natural numbers here.
-/

namespace ChampSim

def FastSet.maxSize : Nat := 512
def FastSet.smallSize : Nat := 13
def FastSet.smallerSize : Nat := 6

/-- The number of 64-bit words of `bits`. -/
def FastSet.words : Nat := maxSize / 64

inductive FastSet.Data where
  | values (v : Nat → Nat)
  | bits (b : Nat → Nat)

structure FastSet where
  data : FastSet.Data
  card : Nat

namespace FastSet

def Data.values? : Data → Option (Nat → Nat)
  | .values v => some v
  | .bits _ => none

def Data.bits? : Data → Option (Nat → Nat)
  | .values _ => none
  | .bits b => some b

/-- The constructor sets `card` only; the cells start with whatever the memory holds. -/
def init (garbage : Nat → Nat) : FastSet := ⟨.values garbage, 0⟩

def setbit (b : Nat → Nat) (x : Nat) : Option (Nat → Nat) :=
  let word := x >>> 6
  let bit := x &&& 63
  if word < words then some (Function.update b word (b word ||| 1 <<< bit)) else none

def getbit (b : Nat → Nat) (x : Nat) : Option Bool :=
  let word := x >>> 6
  let bit := x &&& 63
  if word < words then some ((b word).testBit bit) else none

/-- The first loop of `insert_small`, from index `i` with `k` cells left: `none` when `x` is
found, otherwise the index where it belongs. -/
def findSlot (v : Nat → Nat) (x : Nat) : Nat → Nat → Option Nat
  | i, 0 => some i
  | i, k + 1 =>
    if v i = x then none
    else if v i > x then some i
    else findSlot v x (i + 1) k

/-- The second loop of `insert_small`: the `k` cells from `i` on move one place up, last first. -/
def shiftUp (i : Nat) : Nat → (Nat → Nat) → (Nat → Nat)
  | 0, v => v
  | k + 1, v => shiftUp i k (Function.update v (i + k + 1) (v (i + k)))

def insertSmall (v : Nat → Nat) (card x : Nat) : (Nat → Nat) × Nat :=
  match findSlot v x 0 card with
  | none => (v, card)
  | some i => (Function.update (shiftUp i (card - i) v) i x, card + 1)

/-- Zero the words, then set one bit for each of the first `card` cells. -/
def smalltobit (v : Nat → Nat) : Nat → Option (Nat → Nat)
  | 0 => some fun _ => 0
  | k + 1 => (smalltobit v k).bind (setbit · (v k))

def insert (s : FastSet) (x : Nat) : Option FastSet :=
  if s.card = 0 then
    some ⟨.values (Function.update (s.data.values?.getD fun _ => 0) 0 x), 1⟩
  else if s.card < smallSize then
    s.data.values?.bind fun v =>
      let r := insertSmall v s.card x
      if r.2 = smallSize then (smalltobit r.1 r.2).map (⟨.bits ·, r.2⟩)
      else some ⟨.values r.1, r.2⟩
  else
    s.data.bits?.bind fun b => (setbit b x).map (⟨.bits ·, s.card⟩)

/-- `search_small_linear` from index `i` with `k` cells left. -/
def searchLinear (v : Nat → Nat) (x : Nat) : Nat → Nat → Bool
  | _, 0 => false
  | i, k + 1 =>
    if v i > x then false
    else if v i = x then true
    else searchLinear v x (i + 1) k

/-- The binary search of `search_small`; `none` is the loop not ending within `fuel` rounds. -/
def searchBinary (v : Nat → Nat) (x : Nat) : Nat → Int → Int → Int → Option Bool
  | 0, _, _, _ => none
  | fuel + 1, first, last, middle =>
    let y := v middle.toNat
    if x = y then some true
    else
      let first' := if x > y then middle + 1 else first
      let last' := if x < y then middle - 1 else last
      if last' < first' then some false
      else searchBinary v x fuel first' last' ((first' + last') / 2)

def searchSmall (v : Nat → Nat) (card x : Nat) : Option Bool :=
  if card = 0 then some false
  else if card < smallerSize then some (searchLinear v x 0 card)
  else searchBinary v x card 0 (card - 1) ((card - 1) / 2)

def search (s : FastSet) (x : Nat) : Option Bool :=
  if s.card = 0 then some false
  else if s.card = 1 then s.data.values?.map fun v => v 0 == x
  else if s.card < smallSize then s.data.values?.bind fun v => searchSmall v s.card x
  else s.data.bits?.bind fun b => getbit b x

/-- The insertions of `join` for a small argument: its first `k` cells, in order. -/
def insertCells (v : Nat → Nat) : Nat → FastSet → Option FastSet
  | 0, s => some s
  | k + 1, s => (insertCells v k s).bind (insert · (v k))

/-- The last loop of `join`: the first `lim` words of `o` are or-ed into `b`. -/
def orWords (o : Nat → Nat) : Nat → (Nat → Nat) → Option (Nat → Nat)
  | 0, b => some b
  | k + 1, b =>
    (orWords o k b).bind fun b' =>
      if k < words then some (Function.update b' k (b' k ||| o k)) else none

def limOf (n : Nat) : Nat := ((n ||| 63) + 1) / 64

def join (s other : FastSet) (n : Nat) : Option FastSet :=
  if other.card = 0 then some s
  else if other.card < smallSize then
    other.data.values?.bind fun v => insertCells v other.card s
  else
    other.data.bits?.bind fun o =>
      if s.card < smallSize then
        s.data.values?.bind fun v =>
          (smalltobit v s.card).bind fun b => (orWords o (limOf n) b).map (⟨.bits ·, smallSize⟩)
      else
        s.data.bits?.bind fun b => (orWords o (limOf n) b).map (⟨.bits ·, s.card⟩)

/-- The inner loop of `expand` over one word, from bit `j` with `k` bits left. -/
def expandWord (b : Nat → Nat) (n i : Nat) : Nat → Nat → List Nat
  | _, 0 => []
  | j, k + 1 =>
    let l := i + j
    if l < n then
      if getbit b l = some true then l :: expandWord b n i (j + 1) k
      else expandWord b n i (j + 1) k
    else []

/-- What `expand` writes to `v`, in order; the length of the list is what it returns. The word
loop runs for `i = 0, 64, ..` below `n` and reads `bits[i/64]` each time. -/
def expand (s : FastSet) (n : Nat) : Option (List Nat) :=
  if s.card = 0 then some []
  else if s.card < smallSize then s.data.values?.map fun v => (List.range s.card).map v
  else
    s.data.bits?.bind fun b =>
      if (n + 63) / 64 ≤ words then
        some ((List.range ((n + 63) / 64)).flatMap fun w =>
          if b w ≠ 0 then expandWord b n (64 * w) 0 64 else [])
      else none

end FastSet
end ChampSim
