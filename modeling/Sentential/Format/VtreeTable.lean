import Sentential.Format.Vtree
import Sentential.Vtree.Assembly

/-!
# Vtree files and tables

A vtree file can be read and written without a tree. The reader puts the cell of every record at the
place of its number and sees in the end whether the cells make a vtree (`Vtree.assemble`). The
writer works off a stack of names: a name of a fork is put back with a mark, below its two sides,
and its line is written when it is met again.
-/

namespace Sentential.Vtree

open Format Text

/-! ## Writing -/

/-- The line of a node. -/
def Cell.line (id : VtreeId) : Cell → List Field
  | leaf var => [['L'], natField id.raw, natField var]
  | fork l r => [['I'], natField id.raw, natField l.raw, natField r.raw]

/-- The lines of the nodes on a stack and of all nodes below them, children before their parents. A
marked node is one whose sides have been written. -/
def linesOf (cells : Array Cell) : Nat → List (VtreeId × Bool) → Except Fault (List (List Field))
  | _, [] => .ok []
  | 0, _ :: _ => .error .endless
  | fuel + 1, (id, marked) :: stack =>
    match cells[id.raw]? with
    | none => .error .outOfRange
    | some (.leaf var) => do return (Cell.leaf var).line id :: (← linesOf cells fuel stack)
    | some (.fork l r) =>
      if marked then do return (Cell.fork l r).line id :: (← linesOf cells fuel stack)
      else linesOf cells fuel ((l, false) :: (r, false) :: (id, true) :: stack)

/-- The file of a vtree. -/
def Listing.fileText (v : Listing) : Except Fault (List Char) := do
  let lines ← linesOf v.cells (2 * v.cells.size) [(v.root, false)]
  return render (fileHeader.map String.toList ++
    (["vtree".toList, natField v.cells.size] :: lines).map renderFields)

/-! ## Reading -/

/-- The cell of one record. -/
def readCell (t : Slots VtreeId) (r : Record) : Except FormatError Cell :=
  match tag r with
  | ['L'] => do
    expectFields 3 r
    let var ← field readWord? .variable r 2
    return .leaf var
  | ['I'] => do
    expectFields 4 r
    let left ← t.get r.line (← field readWord? .leftChild r 2)
    let right ← t.get r.line (← field readWord? .rightChild r 3)
    return .fork left right
  | other => .error (.defect r.line (.unknownTag other))

/-- Puts the cell of one record at the place of its number, which is its name. -/
def noteCell (cells : Array (Option Cell)) (t : Slots VtreeId) (r : Record) (id : Nat) :
    Except FormatError VtreeId × Array (Option Cell) :=
  match readCell t r with
  | .ok cell => (.ok ⟨id⟩, cells.setIfInBounds id (some cell))
  | .error e => (.error e, cells)

/-- Reads a vtree file. -/
def Listing.ofFileText (text : List Char) : Except FormatError Listing := do
  let (declared, rs) ← readHeader ["vtree".toList] text
  let (t, cells) := readNodes noteCell rs (.replicate declared none) (.ofCount declared)
  let root ← (← t).finish
  match ← assemble (cells.toList.filterMap id).toArray root with
  | .ok listing => return listing
  | .error what => throw (.defect (rs.getLast?.elim 0 Record.line) what)

end Sentential.Vtree
