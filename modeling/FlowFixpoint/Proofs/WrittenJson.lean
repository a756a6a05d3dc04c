/-
# FlowFixpoint.Proofs.WrittenJson — JSON as it is written.

A value is given here with everything that a writer may choose: the blanks between tokens, the
spelling of each character of a string, the letter and sign of an exponent. Its text is computed, and
no text that is not JSON can be written down in this form, so that "every JSON text" is "the text of
every written value".

A string is a row of pieces. What it means is said in UTF-16, which is what `\u` escapes count in: an
escape stands for one unit, every other piece for the units of its character. Pieces spell a string
if both have the same units. Half of a surrogate pair alone is a piece that no string has.
-/
import FlowFixpoint.Settings.Text
import Mathlib.Data.List.Forall2

namespace FlowFixpoint.Json

/-! ## Blanks and numbers -/

/-- A blank character. -/
inductive Blank where
  | space
  | tab
  | lineFeed
  | carriageReturn

def Blank.char : Blank → Char
  | space => ' '
  | tab => '\t'
  | lineFeed => '\n'
  | carriageReturn => '\r'

/-- The blanks between two tokens. -/
abbrev Gap := List Blank

def Gap.text (gap : Gap) : List Char := gap.map Blank.char

/-- At least one decimal digit. -/
structure Digits where
  first : Fin 10
  others : List (Fin 10)

def Digits.text (ds : Digits) : List Char :=
  (ds.first :: ds.others).map fun d : Fin 10 => Nat.digitChar d.val

/-- The sign of an exponent. -/
inductive ExponentSign where
  | absent
  | plus
  | minus

def ExponentSign.text : ExponentSign → List Char
  | absent => []
  | plus => ['+']
  | minus => ['-']

structure Exponent where
  capital : Bool
  sign : ExponentSign
  digits : Digits

def Exponent.text (e : Exponent) : List Char :=
  (if e.capital then 'E' else 'e') :: (e.sign.text ++ e.digits.text)

/-- A number. Its whole part has no leading zeros, and so is a natural number. -/
structure Number where
  negative : Bool := false
  whole : Nat
  fraction : Option Digits := none
  exponent : Option Exponent := none

namespace Number

def signText (n : Number) : List Char := if n.negative then ['-'] else []

def fractionText (n : Number) : List Char :=
  match n.fraction with
  | some ds => '.' :: ds.text
  | none => []

def exponentText (n : Number) : List Char :=
  match n.exponent with
  | some e => e.text
  | none => []

def text (n : Number) : List Char :=
  n.signText ++ (Nat.toDigits 10 n.whole ++ (n.fractionText ++ n.exponentText))

end Number

/-! ## Strings -/

/-- A hexadecimal digit; from ten on it is a letter of either case. -/
structure HexDigit where
  value : Fin 16
  capital : Bool

def HexDigit.char (h : HexDigit) : Char :=
  if h.capital then (Nat.digitChar h.value.val).toUpper else Nat.digitChar h.value.val

/-- The number that four hexadecimal digits write. -/
def quad (a b c d : HexDigit) : Nat :=
  ((a.value.val * 16 + b.value.val) * 16 + c.value.val) * 16 + d.value.val

/-- A character written as a backslash and one more character. -/
inductive ShortEscape where
  | quote
  | backslash
  | slash
  | backspace
  | formFeed
  | lineFeed
  | carriageReturn
  | tab

namespace ShortEscape

/-- The character after the backslash. -/
def letter : ShortEscape → Char
  | quote => '"'
  | backslash => '\\'
  | slash => '/'
  | backspace => 'b'
  | formFeed => 'f'
  | lineFeed => 'n'
  | carriageReturn => 'r'
  | tab => 't'

/-- The character that is meant. -/
def meant : ShortEscape → Char
  | quote => '"'
  | backslash => '\\'
  | slash => '/'
  | backspace => '\x08'
  | formFeed => '\x0c'
  | lineFeed => '\n'
  | carriageReturn => '\r'
  | tab => '\t'

end ShortEscape

/-- A character that may stand for itself in a string. -/
def IsPlain (c : Char) : Prop := 0x20 ≤ c.toNat ∧ c ≠ '"' ∧ c ≠ '\\'

instance (c : Char) : Decidable (IsPlain c) := inferInstanceAs (Decidable (_ ∧ _))

/-- A piece of a string. -/
inductive Piece where
  | plain (c : Char) (h : IsPlain c)
  | short (e : ShortEscape)
  /-- Four digits that give one unit of UTF-16. -/
  | unit (a b c d : HexDigit)

def Piece.text : Piece → List Char
  | plain c _ => [c]
  | short e => ['\\', e.letter]
  | unit a b c d => ['\\', 'u', a.char, b.char, c.char, d.char]

/-- The text of a string after its opening quote. -/
def unquoted (ps : List Piece) : List Char := ps.flatMap Piece.text ++ ['"']

/-- The UTF-16 units of a character. -/
def utf16 (c : Char) : List Nat :=
  if c.toNat < 0x10000 then [c.toNat]
  else [0xD800 + (c.toNat - 0x10000) / 0x400, 0xDC00 + (c.toNat - 0x10000) % 0x400]

/-- The UTF-16 units that a piece stands for. -/
def Piece.units : Piece → List Nat
  | plain c _ => utf16 c
  | short e => utf16 e.meant
  | unit a b c d => [quad a b c d]

/-- The pieces have the units of the string. -/
def Spells (ps : List Piece) (s : String) : Prop :=
  ps.flatMap Piece.units = s.toList.flatMap utf16

instance (ps : List Piece) (s : String) : Decidable (Spells ps s) :=
  inferInstanceAs (Decidable (_ = _))

/-! ## Values -/

def Bracket.opening : Bracket → Char
  | .array => '['
  | .object => '{'

/-- What stands before a value inside a bracket: a name and a colon, if it is an object. -/
inductive Label : Bracket → Type where
  | unnamed : Label .array
  | named (before : Gap) (name : List Piece) (after : Gap) : Label .object

def Label.text : {bracket : Bracket} → Label bracket → List Char
  | _, unnamed => []
  | _, named before name after => before.text ++ '"' :: (unquoted name ++ (after.text ++ [':']))

/-- The names in a label. -/
def Label.names : {bracket : Bracket} → Label bracket → List (List Piece)
  | _, unnamed => []
  | _, named _ name _ => [name]

/-- The kinds of phrases that values are made of. -/
inductive Phrase where
  | value
  /-- What stands between brackets that are not empty. -/
  | items (bracket : Bracket)

/-- A phrase as it is written. -/
inductive Written : Phrase → Type where
  | null : Written .value
  | boolean (b : Bool) : Written .value
  | number (n : Number) : Written .value
  | string (ps : List Piece) : Written .value
  | empty (bracket : Bracket) (inside : Gap) : Written .value
  | filled (bracket : Bracket) (items : Written (.items bracket)) : Written .value
  | last {bracket : Bracket} (label : Label bracket) (before : Gap) (value : Written .value)
      (after : Gap) : Written (.items bracket)
  | more {bracket : Bracket} (label : Label bracket) (before : Gap) (value : Written .value)
      (after : Gap) (rest : Written (.items bracket)) : Written (.items bracket)

namespace Written

/-- The text of a phrase. -/
def text : {p : Phrase} → Written p → List Char
  | _, null => ['n', 'u', 'l', 'l']
  | _, boolean true => ['t', 'r', 'u', 'e']
  | _, boolean false => ['f', 'a', 'l', 's', 'e']
  | _, number n => n.text
  | _, string ps => '"' :: unquoted ps
  | _, empty bracket inside => bracket.opening :: (inside.text ++ [bracket.close])
  | _, filled bracket items => bracket.opening :: (items.text ++ [bracket.close])
  | _, last label before value after =>
    label.text ++ (before.text ++ (value.text ++ after.text))
  | _, more label before value after rest =>
    label.text ++ (before.text ++ (value.text ++ (after.text ++ ',' :: rest.text)))

/-- The natural number `n` in plain decimal. -/
def ofNat (n : Nat) : Written .value := number { whole := n }

/-- The members of an object, in order: their names in pieces, and their values. -/
def members : {p : Phrase} → Written p → List (List Piece × Written .value)
  | _, filled _ items => items.members
  | _, last label _ value _ => label.names.map fun name => (name, value)
  | _, more label _ value _ rest => (label.names.map fun name => (name, value)) ++ rest.members
  | _, _ => []

/-- The members are spelled with these names and have these values. -/
def Lists {p : Phrase} (w : Written p) (entries : List (String × Written .value)) : Prop :=
  List.Forall₂ (fun m e => Spells m.1 e.1 ∧ m.2 = e.2) w.members entries

end Written

end FlowFixpoint.Json
