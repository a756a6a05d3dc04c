/-
# FlowFixpoint.Text.Quoted — text between double quotes, and the texts that error messages show.

Quoting keeps printable characters as they are. Quote and backslash get a backslash, the usual
controls their letter, and every other unprintable character, as well as a mark that would attach to
the character before it, is written by its code point in braces.

`Describe` is the one class through which a failed check shows the stores it was about.
-/
import FlowFixpoint.Ident
import FlowFixpoint.Text.Printable

namespace FlowFixpoint

namespace Text

/-- The lower-case hexadecimal digits of a code point, in braces after a `u`. -/
def byCodePoint (c : Char) : String :=
  "\\u\x7b" ++ String.ofList (Nat.toDigits 16 c.toNat) ++ "\x7d"

/-- One character inside quotes. -/
def quoteChar (c : Char) : String :=
  if c = '\x00' then "\\0"
  else if c = '\t' then "\\t"
  else if c = '\r' then "\\r"
  else if c = '\n' then "\\n"
  else if c = '\\' then "\\\\"
  else if c = '"' then "\\\""
  else if isExtendingMark c || !isPrintable c then byCodePoint c
  else String.singleton c

/-- A text between double quotes. -/
def quote (text : String) : String :=
  "\"" ++ String.join (text.toList.map quoteChar) ++ "\""

/-- Items between commas. -/
def listed (items : List String) : String :=
  ", ".intercalate items

/-- Items between braces, without blanks inside them. -/
def braced (items : List String) : String :=
  "\x7b" ++ listed items ++ "\x7d"

/-- A record: its name, then its fields between spaced braces. -/
def record (name : String) (fields : List String) : String :=
  name ++ " \x7b " ++ listed fields ++ " \x7d"

/-- A constructor around one argument. -/
def applied (name argument : String) : String :=
  name ++ "(" ++ argument ++ ")"

end Text

/-- How a value is shown inside an error message. -/
class Describe (α : Type) where
  describe : α → String

export Describe (describe)

instance : Describe Nat := ⟨fun n => toString n⟩

instance : Describe String := ⟨Text.quote⟩

instance : Describe LocalVar := ⟨fun x => Text.applied "LocalVar" (Text.quote x.name)⟩

end FlowFixpoint
