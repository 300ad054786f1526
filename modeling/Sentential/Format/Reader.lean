import Sentential.Decimal.Numeral
import Sentential.Format.Error

/-!
# Reading node by node

The three formats share one frame. A header announces how many nodes follow; every further record
describes one node, gives it a number of its own among `0, …, n - 1`, and refers only to numbers
that earlier records have given; the last node is the result.

`readNodes` walks the records with a state that the nodes are built in. When it stops at a bad
record, the state keeps what the records before it have built.
-/

namespace Sentential.Format

open Text (Field Record)

/-! ## Fields -/

/-- Numbers of nodes, variables and vtree nodes are words of 32 bits. -/
def readWord? : Field → Option Nat := Decimal.readNatural? (Decimal.pow2 32)

/-- Counts are words of 64 bits. -/
def readCount? : Field → Option Nat := Decimal.readNatural? (Decimal.pow2 64)

/-- The field at a place of a record, read. -/
def field (read? : Field → Option α) (name : FieldName) (r : Record) (i : Nat) :
    Except FormatError α :=
  match r.fields[i]? with
  | none => .error (.defect r.line (.missing name))
  | some raw =>
    match read? raw with
    | none => .error (.defect r.line (.invalid name raw))
    | some a => .ok a

/-- The first field of a record says what the record describes. -/
def tag (r : Record) : Field := r.fields.headD []

/-- Insists on the number of fields of a record. -/
def expectFields (count : Nat) (r : Record) : Except FormatError Unit :=
  if r.fields.length = count then .ok ()
  else .error (.defect r.line (.fieldCount count (tag r) r.fields.length))

/-! ## The header -/

/-- The number of nodes that the first record announces, and the other records. Every node takes
a line, so a text cannot hold more nodes than it has lines. -/
def readHeader (tags : List Field) (text : List Char) : Except FormatError (Nat × List Record) :=
  match Text.records text with
  | [] => .error .empty
  | r :: rest => do
    if r.fields.length ≠ 2 ∨ tag r ∉ tags then
      throw (.defect r.line (.header tags))
    let declared ← field readCount? .nodeCount r 1
    let count := (Text.lines text).length
    if count < declared then
      throw (.defect r.line (.nodeCount declared count))
    return (declared, rest)

/-! ## Nodes by their number in the text -/

/-- The nodes that the records so far have described. -/
structure Slots (α : Type) where
  slots : Array (Option α)
  found : Nat
  last : Option α

namespace Slots

variable {α : Type}

def ofCount (declared : Nat) : Slots α := ⟨.replicate declared none, 0, none⟩

/-- The node that an earlier record has given this number. -/
def get (t : Slots α) (line id : Nat) : Except FormatError α :=
  match t.slots[id]? with
  | some (some a) => .ok a
  | _ => .error (.undefined line id)

/-- Gives a node its number, which has to be below the announced count and free. -/
def set (t : Slots α) (line id : Nat) (a : α) : Except FormatError (Slots α) :=
  match t.slots[id]? with
  | none => .error (.defect line (.idRange id t.slots.size))
  | some (some _) => .error (.defect line (.duplicateId id))
  | some none => .ok ⟨t.slots.setIfInBounds id (some a), t.found + 1, some a⟩

/-- The node of the last record, provided that all announced nodes are there. -/
def finish (t : Slots α) : Except FormatError α :=
  if t.found ≠ t.slots.size then .error (.countMismatch t.slots.size t.found)
  else
    match t.last with
    | some a => .ok a
    | none => .error .empty

end Slots

/-- Reads record after record up to the first bad one. Each record gives its number, and `build`
makes a node of it in the state. A record whose only fault is its number has built its node all
the same. -/
def readNodes {σ α : Type} (build : σ → Slots α → Record → Nat → Except FormatError α × σ) :
    List Record → σ → Slots α → Except FormatError (Slots α) × σ
  | [], s, t => (.ok t, s)
  | r :: rs, s, t =>
    match field readWord? .id r 1 with
    | .error e => (.error e, s)
    | .ok id =>
      match build s t r id with
      | (.error e, s) => (.error e, s)
      | (.ok a, s) =>
        match t.set r.line id a with
        | .error e => (.error e, s)
        | .ok t => readNodes build rs s t

/-- Reads a whole text: the node of the last record, and the state with what was built. -/
def readText {σ α : Type} (tags : List Field)
    (build : σ → Slots α → Record → Nat → Except FormatError α × σ) (s : σ) (text : List Char) :
    Except FormatError α × σ :=
  match readHeader tags text with
  | .error e => (.error e, s)
  | .ok (declared, rs) =>
    let (t, s) := readNodes build rs s (.ofCount declared)
    (t >>= Slots.finish, s)

end Sentential.Format
