import Sentential.Text.Hidden

/-!
# Quoted text

How a message shows a field that it could not read: between double quotes, with a backslash in
front of a quote or a backslash, short names for the common controls, and the code point of every
other character that would not show by itself.
-/

namespace Sentential.Text

/-- A backslash and one character. -/
def escaped (c : Char) : List Char := ['\\', c]

/-- What stands for one character between the quotes. -/
def quoteChar (c : Char) : List Char :=
  match c with
  | '\x00' => escaped '0'
  | '\t' => escaped 't'
  | '\n' => escaped 'n'
  | '\r' => escaped 'r'
  | '"' => escaped '"'
  | '\\' => escaped '\\'
  | _ =>
    if isHidden c then
      escaped 'u' ++ '\x7b' :: Nat.toDigits 16 c.toNat ++ ['\x7d']
    else [c]

/-- A text between quotes. -/
def quote (text : List Char) : List Char := '"' :: text.flatMap quoteChar ++ ['"']

end Sentential.Text
