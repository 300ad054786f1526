import Std.Data.HashMap
import Sentential.Circuit.Compile
import Sentential.Circuit.LiteralMap
import Sentential.Format.Error

/-!
# Files

The directory that diagrams are loaded from and saved to, as a value: names with the bytes that
are stored under them. It has no directories within it, so a name with a slash leads nowhere.

A text is made before its file is touched, so a diagram that cannot be written leaves the file as
it was.
-/

namespace Sentential

open Format

/-- The files of a directory. -/
structure Files where
  contents : Std.HashMap String ByteArray

namespace Files

def empty : Files := ⟨∅⟩

def write (fs : Files) (name : String) (bytes : ByteArray) : Except FileError Files :=
  if '/' ∈ name.toList then .error .notFound
  else .ok ⟨fs.contents.insert name bytes⟩

def writeText (fs : Files) (name : String) (text : List Char) : Except FileError Files :=
  fs.write name (String.ofList text).toUTF8

/-- The bytes of a file, if there is one. -/
def read? (fs : Files) (name : String) : Option ByteArray := fs.contents[name]?

/-- The text of a file, whose bytes have to be well-formed. -/
def readText (fs : Files) (name : String) : Except FileError (List Char) :=
  match fs.read? name with
  | none => .error .notFound
  | some bytes =>
    match String.fromUTF8? bytes with
    | some text => .ok text.toList
    | none => .error .notText

/-- Writes a circuit and then its literal map; the circuit stays if the map cannot be written. -/
def saveCircuit {W : Type} [Weight W] (fs : Files) (c : Circuit W) (circuit map : String) :
    Except FileError Unit × Files :=
  match fs.writeText circuit c.text with
  | .error e => (.error e, fs)
  | .ok fs =>
    match fs.writeText map (c.weights.mapText c.varCount) with
    | .error e => (.error e, fs)
    | .ok fs => (.ok (), fs)

end Files

/-- A file that cannot be read or written makes the whole operation fail with it. -/
instance : MonadLift (Except FileError) (Except FormatError) where
  monadLift
    | .ok a => .ok a
    | .error e => .error (.file e)

end Sentential
