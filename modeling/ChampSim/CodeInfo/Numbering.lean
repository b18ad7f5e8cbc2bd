import Mathlib.Data.List.Basic

/-!
# ChampSim.CodeInfo.Numbering

The two traversals of an IR function that number its instructions.

* `imap`  — the map that `applyDebugifyMetadata` of the AddDbg pass builds on the original function:
  two nested loops with counters from 1.
* `Iter`  — `my_inst_iterator` of `src/codeinfo/llvm_info.cc`, which walks the function with the
  debug intrinsics in it and numbers from 0.
* `walk`  — constructor, then `advance` until `done`, with the numbers seen at each instruction.

A function is the list of its blocks, a block the list of its instructions. A block pointer is the
block's place in the list. The counters have the source's widths and wrap as they do there.
-/

namespace ChampSim
namespace CodeInfo

section Numbering

variable {ι : Type*} (isDebug : ι → Bool)

/-- An instruction with the numbers given to it. -/
structure Numbered (ι : Type*) where
  inst : ι
  bb : UInt32
  instr : UInt16
deriving DecidableEq

/-! ## AddDbg -/

def numberBlock (bbCtr : UInt32) : UInt16 → List ι → List (Numbered ι)
  | _, [] => []
  | iCtr, x :: block => ⟨x, bbCtr, iCtr⟩ :: numberBlock bbCtr (iCtr + 1) block

def numberBlocks : UInt32 → List (List ι) → List (Numbered ι)
  | _, [] => []
  | bbCtr, block :: blocks => numberBlock bbCtr 1 block ++ numberBlocks (bbCtr + 1) blocks

def imap (f : List (List ι)) : List (Numbered ι) := numberBlocks 1 f

/-! ## The simulator -/

/-- What `inst_begin` to `inst_end` runs over: each instruction with its parent. -/
def insts (f : List (List ι)) : List (Nat × ι) :=
  f.zipIdx.flatMap fun (block, parent) => block.map (parent, ·)

/-- `rest` is what lies between `inst_iter_` and `inst_end`. -/
structure Iter (ι : Type*) where
  rest : List (Nat × ι)
  bb : Option Nat
  bbNum : UInt32
  iNum : UInt16
  done : Bool

def skipDebug (l : List (Nat × ι)) : List (Nat × ι) := l.dropWhile fun x => isDebug x.2

def Iter.new (f : List (List ι)) : Iter ι := ⟨skipDebug isDebug (insts f), none, 0, 0, false⟩

/-- `none` is an increment or a dereference at the end. -/
def Iter.advance (it : Iter ι) : Option (Iter ι) :=
  if it.done then some it
  else
    match it.rest with
    | [] => none
    | _ :: rest =>
      match skipDebug isDebug rest with
      | [] => some { it with rest := [], done := true }
      | (parent, x) :: rest =>
        if it.bb ≠ none ∧ some parent ≠ it.bb then
          some { it with
            rest := (parent, x) :: rest, bb := some parent, bbNum := it.bbNum + 1, iNum := 0 }
        else
          some { it with rest := (parent, x) :: rest, bb := some parent, iNum := it.iNum + 1 }

def Iter.numbered (it : Iter ι) : Option (Numbered ι) :=
  it.rest.head?.map fun x => ⟨x.2, it.bbNum, it.iNum⟩

/-- The instructions visited from `it` on, with their numbers; `none` also when `fuel` rounds do
not reach `done`. -/
def visits : Nat → Iter ι → Option (List (Numbered ι))
  | fuel, it =>
    if it.done then some []
    else
      match fuel with
      | 0 => none
      | fuel + 1 =>
        it.numbered.bind fun v =>
          (it.advance isDebug).bind fun it' => (visits fuel it').map (v :: ·)

def walk (f : List (List ι)) : Option (List (Numbered ι)) :=
  visits isDebug (insts f).length (Iter.new isDebug f)

/-! ## The two numberings -/

/-- `f'` is `f` with debug intrinsics inserted. -/
def Inserted (f f' : List (List ι)) : Prop :=
  f'.map (fun block => block.filter fun x => !isDebug x) = f

/-- What the `.crl` pipeline reads back: the AddDbg numbers less 1. -/
def Numbered.less (v : Numbered ι) : ι × Int × Int := (v.inst, v.bb.toNat - 1, v.instr.toNat - 1)

def Numbered.read (v : Numbered ι) : ι × Int × Int := (v.inst, v.bb.toNat, v.instr.toNat)

/-- The walk of `f'` ends and sees the instructions of `f` in order, with the AddDbg numbers. -/
def Agree (f f' : List (List ι)) : Prop :=
  ∃ vs, walk isDebug f' = some vs ∧ vs.map Numbered.read = (imap f).map Numbered.less

end Numbering

end CodeInfo
end ChampSim
