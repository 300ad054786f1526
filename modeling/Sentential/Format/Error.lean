import Sentential.Fault
import Sentential.Text.Quoted
import Sentential.Text.Record

/-!
# Errors of the text formats

What a reader has against a text, and what keeps a writer from writing. Each error is a cause
with the numbers it is about; the wording is in `Defect.message` and `FormatError.message` only.
Line numbers count from one over all lines of the text.
-/

namespace Sentential.Format

/-- The fields that a message can name. -/
inductive FieldName where
  | nodeCount | id | variable | leftChild | rightChild | literal | vtreeId | size | primeId | subId
  | logProbability
deriving DecidableEq, Repr

def FieldName.text : FieldName → String
  | nodeCount => "node count"
  | id => "id"
  | «variable» => "variable"
  | leftChild => "left child"
  | rightChild => "right child"
  | literal => "literal"
  | vtreeId => "vtree id"
  | size => "size"
  | primeId => "prime id"
  | subId => "sub id"
  | logProbability => "log-probability"

/-- What is wrong with one line. -/
inductive Defect where
  /-- The first record is not one of these tags with a number behind it. -/
  | header (tags : List Text.Field)
  /-- More nodes are announced than the text has lines. -/
  | nodeCount (declared lines : Nat)
  | missing (name : FieldName)
  | invalid (name : FieldName) (raw : Text.Field)
  | fieldCount (expected : Nat) (tag : Text.Field) (found : Nat)
  /-- An element count whose number of fields no machine word can hold. -/
  | elementCount (size : Nat)
  | unknownTag (tag : Text.Field)
  | idRange (id declared : Nat)
  | duplicateId (id : Nat)
  | unknownLiteral (literal : Int)
  | unknownVariable (index : Nat)
  | unknownVtree (position : Nat)
  /-- A decision is placed at a leaf of the vtree. -/
  | leafVtree (position : Nat)
  /-- A log-probability that is above zero or not a number. -/
  | positiveLog (written : List Char)
  /-- The root of a vtree is none of its nodes. -/
  | rootRange (id : VtreeId)
  /-- A child of a vtree node is none of the nodes. -/
  | childRange (child parent : VtreeId)
  /-- A vtree node is a child twice, or the root is a child. -/
  | manyParents (id : VtreeId)
  | unreachable (count : Nat)
  | variableRange (index leaves : Nat)
  | repeatedVariable (index : Nat)
deriving DecidableEq, Repr

def Defect.message : Defect → String
  | header tags =>
    let tags := String.ofList (['|'].intercalate tags)
    s!"invalid header, expected '{tags} <count>'"
  | nodeCount declared lines => s!"node count {declared} exceeds the {lines} lines of input"
  | missing name => s!"missing {name.text}"
  | invalid name raw => s!"invalid {name.text}: {String.ofList (Text.quote raw)}"
  | fieldCount expected tag found =>
    s!"expected {expected} fields for '{String.ofList tag}', found {found}"
  | elementCount size => s!"element count {size} is too large"
  | unknownTag tag => s!"unknown node type: {String.ofList tag}"
  | idRange id declared => s!"id {id} out of range for {declared} nodes"
  | duplicateId id => s!"duplicate id {id}"
  | unknownLiteral literal => s!"literal {literal} is not in the vtree"
  | unknownVariable index => s!"variable {index} is not in the vtree"
  | unknownVtree position => s!"unknown vtree node {position}"
  | leafVtree position => s!"vtree node {position} is a leaf"
  | positiveLog written => s!"log-probability {String.ofList written} is positive"
  | rootRange id => s!"root {id.text} out of range"
  | childRange child parent => s!"child {child.text} of {parent.text} out of range"
  | manyParents id => s!"vtree node {id.text} has more than one parent"
  | unreachable count => s!"{count} vtree nodes are not reachable from the root"
  | variableRange index leaves => s!"variable {index} out of range 1..={leaves}"
  | repeatedVariable index => s!"variable {index} appears in more than one leaf"

/-- Why a file could not be read or written. -/
inductive FileError where
  | notFound
  | notText
deriving DecidableEq, Repr

def FileError.message : FileError → String
  | notFound => "I/O error: No such file or directory (os error 2)"
  | notText => "I/O error: stream did not contain valid UTF-8"

/-- Why a text was not read, or a diagram not written. -/
inductive FormatError where
  | defect (line : Nat) (what : Defect)
  /-- An element or an inner vtree node refers to an id without a node so far. -/
  | undefined (line id : Nat)
  /-- A node does not sit where its vtree field says, or its elements do not fit there. -/
  | misplaced (line id : Nat)
  | countMismatch (declared found : Nat)
  | empty
  /-- A node without weights where weights are to be written. -/
  | missingTheta (node : NodeId)
  | file (cause : FileError)
  /-- An operation on the store refused what the reader asked of it. -/
  | fault (cause : Fault)
deriving DecidableEq, Repr

/-- The wording of an error; a fault has a wording of its own. -/
def FormatError.message? : FormatError → Option String
  | defect line what => some s!"Parse error at line {line}: {what.message}"
  | undefined line id =>
    some s!"Reference error at line {line}: node {id} is not defined before use"
  | misplaced line id =>
    some s!"Vtree mismatch at line {line}: elements of node {id} are not normalized for one vtree"
  | countMismatch declared found => some s!"Declared {declared} nodes, found {found}"
  | empty => some "No nodes in input"
  | missingTheta node => some s!"Node {node.text} has no weights"
  | file cause => some cause.message
  | fault cause => cause.message?

/-- A fault on the way makes the whole reading or writing fail with it. -/
instance : MonadLift (Except Fault) (Except FormatError) where
  monadLift
    | .ok a => .ok a
    | .error e => .error (.fault e)

end Sentential.Format
