/-
# FlowFixpoint.Json.Scan — reading JSON text from left to right.

Every scanner takes the text that is left and returns what it read with the rest, or the first
problem it met: the text ends too early, it is ill-formed, or it is well-formed but of the wrong
type. Values that nobody asked for are skipped without being built, to any depth.

A skipped value is held to the same grammar with two differences: a number that the end of the text
cuts short counts as ill-formed, and surrogate escapes need not come in pairs.
-/

namespace FlowFixpoint.Json

/-- The first thing wrong with a text. -/
inductive Problem where
  /-- The text ends too early. -/
  | truncated
  /-- The text is not JSON. -/
  | illFormed
  /-- The text is JSON of the wrong shape. -/
  | mistyped
deriving DecidableEq

/-- What was read, and the text after it. -/
abbrev Scan (α : Type) := List Char → Except Problem (α × List Char)

/-! ## Blanks, words, digits -/

/-- Blank characters between tokens. -/
def isBlank (c : Char) : Bool :=
  c = ' ' || c = '\n' || c = '\t' || c = '\r'

/-- The text from its first character that is not blank. -/
def skipBlank (cs : List Char) : List Char := cs.dropWhile isBlank

/-- Reads exactly this word. -/
def word : (letters : List Char) → Scan Unit
  | [], cs => .ok ((), cs)
  | _ :: _, [] => .error .truncated
  | l :: ls, c :: cs => if c = l then word ls cs else .error .illFormed

/-- The value of a decimal digit. -/
def digitValue (c : Char) : Nat := c.toNat - '0'.toNat

/-- Reads digits, at least one. -/
def someDigits : Scan (List Char)
  | [] => .error .truncated
  | c :: cs =>
    if c.isDigit then .ok ((c :: cs).span Char.isDigit) else .error .illFormed

/-! ## Numbers -/

/-- A number as it is written. -/
structure Numeral where
  negative : Bool
  whole : List Char
  fraction : List Char
  /-- Whether the exponent is negative, and its digits. -/
  exponent : Option (Bool × List Char)
deriving DecidableEq

/-- Reads the digits before the point: a zero stands alone. -/
def wholeDigits : Scan (List Char)
  | '0' :: cs => if cs.head?.any Char.isDigit then .error .illFormed else .ok (['0'], cs)
  | cs => someDigits cs

/-- Reads the digits after a point, if there is one. -/
def fractionDigits : Scan (List Char)
  | '.' :: cs => someDigits cs
  | cs => .ok ([], cs)

/-- Reads an exponent after its letter. -/
def exponentDigits : Scan (Bool × List Char)
  | '+' :: cs => (someDigits cs).map fun (ds, rest) => ((false, ds), rest)
  | '-' :: cs => (someDigits cs).map fun (ds, rest) => ((true, ds), rest)
  | cs => (someDigits cs).map fun (ds, rest) => ((false, ds), rest)

/-- Reads an exponent, if there is one. -/
def exponentPart : Scan (Option (Bool × List Char))
  | 'e' :: cs | 'E' :: cs => (exponentDigits cs).map fun (e, rest) => (some e, rest)
  | cs => .ok (none, cs)

/-- Reads a number from its sign or first digit. -/
def numeral (cs : List Char) : Except Problem (Numeral × List Char) := do
  let (negative, cs) := match cs with
    | '-' :: rest => (true, rest)
    | _ => (false, cs)
  let (whole, cs) ← wholeDigits cs
  let (fraction, cs) ← fractionDigits cs
  let (exponent, cs) ← exponentPart cs
  return ({ negative, whole, fraction, exponent }, cs)

/-- Does a number start here? -/
def startsNumber (c : Char) : Bool := c = '-' || c.isDigit

/-! ## Strings -/

/-- The value of a hexadecimal digit. -/
def hexValue? (c : Char) : Option Nat :=
  if c.isDigit then some (digitValue c)
  else if 'a' ≤ c ∧ c ≤ 'f' then some (c.toNat - 'a'.toNat + 10)
  else if 'A' ≤ c ∧ c ≤ 'F' then some (c.toNat - 'A'.toNat + 10)
  else none

/-- The number that four hexadecimal digits write. -/
def hexQuad? (a b c d : Char) : Option Nat := do
  return (((← hexValue? a) * 16 + (← hexValue? b)) * 16 + (← hexValue? c)) * 16 + (← hexValue? d)

/-- The problem with a text of fewer than four characters where four hexadecimal digits should
stand. It is too short only if it has fewer than four bytes. -/
def shortQuad (cs : List Char) : Problem :=
  if cs.foldl (fun bytes c => bytes + c.utf8Size) 0 < 4 then .truncated else .illFormed

/-- The character after a backslash that stands for one other character. -/
def shortEscape? : Char → Option Char
  | '"' => some '"'
  | '\\' => some '\\'
  | '/' => some '/'
  | 'b' => some '\x08'
  | 'f' => some '\x0c'
  | 'n' => some '\n'
  | 'r' => some '\r'
  | 't' => some '\t'
  | _ => none

/-- The first half of a surrogate pair. -/
def isLead (n : Nat) : Bool := 0xD800 ≤ n && n ≤ 0xDBFF

/-- The second half of a surrogate pair. -/
def isTrail (n : Nat) : Bool := 0xDC00 ≤ n && n ≤ 0xDFFF

/-- The character that a surrogate pair stands for. -/
def pairedChar (lead trail : Nat) : Char :=
  Char.ofNat (0x10000 + (lead - 0xD800) * 0x400 + (trail - 0xDC00))

/-- The problem with a text that goes on after the first half of a surrogate pair without a
complete second half. -/
def missingTrail : List Char → Problem
  | [] | ['\\'] => .truncated
  | '\\' :: 'u' :: cs => shortQuad cs
  | _ => .illFormed

/-- Puts a character before what a scan reads. -/
def consRead (c : Char) : Except Problem (List Char × List Char) →
    Except Problem (List Char × List Char) :=
  Except.map fun (cs, rest) => (c :: cs, rest)

/-- Reads a string after its opening quote. -/
def string : Scan (List Char)
  | [] => .error .truncated
  | c :: cs =>
    if c = '"' then .ok ([], cs)
    else if c = '\\' then
      match cs with
      | [] => .error .truncated
      | 'u' :: cs =>
        match cs with
        | a :: b :: c :: d :: cs =>
          match hexQuad? a b c d with
          | none => .error .illFormed
          | some lead =>
            if isTrail lead then .error .illFormed
            else if isLead lead then
              match cs with
              | '\\' :: 'u' :: a :: b :: c :: d :: cs =>
                match (hexQuad? a b c d).filter isTrail with
                | none => .error .illFormed
                | some trail => consRead (pairedChar lead trail) (string cs)
              | other => .error (missingTrail other)
            else consRead (Char.ofNat lead) (string cs)
        | short => .error (shortQuad short)
      | c :: cs =>
        match shortEscape? c with
        | none => .error .illFormed
        | some meant => consRead meant (string cs)
    else if c.toNat < 0x20 then .error .illFormed
    else consRead c (string cs)

/-- Passes over a string after its opening quote, without asking what its escapes stand for. -/
def skipString : List Char → Except Problem (List Char)
  | [] => .error .truncated
  | c :: cs =>
    if c = '"' then .ok cs
    else if c = '\\' then
      match cs with
      | [] => .error .truncated
      | 'u' :: cs =>
        match cs with
        | a :: b :: c :: d :: cs =>
          if (hexQuad? a b c d).isSome then skipString cs else .error .illFormed
        | short => .error (shortQuad short)
      | c :: cs => if (shortEscape? c).isSome then skipString cs else .error .illFormed
    else if c.toNat < 0x20 then .error .illFormed
    else skipString cs

/-! ## Skipping values -/

/-- Reads the colon between a field's name and its value. -/
def colon (cs : List Char) : Except Problem (List Char) :=
  match skipBlank cs with
  | [] => .error .truncated
  | ':' :: rest => .ok rest
  | _ => .error .illFormed

/-- Passes over a number; one that is cut short is ill-formed. -/
def skipNumber (cs : List Char) : Except Problem (List Char) :=
  match numeral cs with
  | .ok (_, rest) => .ok rest
  | .error _ => .error .illFormed

/-- Passes over a value that is not an array or an object. -/
def skipScalar : List Char → Except Problem (List Char)
  | [] => .error .truncated
  | 'n' :: cs => (word ['u', 'l', 'l'] cs).map Prod.snd
  | 't' :: cs => (word ['r', 'u', 'e'] cs).map Prod.snd
  | 'f' :: cs => (word ['a', 'l', 's', 'e'] cs).map Prod.snd
  | '"' :: cs => skipString cs
  | c :: cs => if startsNumber c then skipNumber (c :: cs) else .error .illFormed

/-- Passes over a field's name and colon. -/
def skipName (cs : List Char) : Except Problem (List Char) :=
  match skipBlank cs with
  | [] => .error .truncated
  | '"' :: rest => do colon (← skipString rest)
  | _ => .error .illFormed

/-- What encloses the value being skipped. -/
inductive Bracket where
  | array
  | object
deriving DecidableEq

/-- The character that closes a bracket. -/
def Bracket.close : Bracket → Char
  | .array => ']'
  | .object => '}'

/-- Passes over what stands before a value inside a bracket. -/
def Bracket.skipBefore : Bracket → List Char → Except Problem (List Char)
  | .array, cs => .ok cs
  | .object, cs => skipName cs

/-- What a skip expects next. -/
inductive Expect where
  /-- A value. -/
  | value
  /-- A comma or the end of the innermost bracket. -/
  | next
deriving DecidableEq

/-- Where a skip stands: what it expects, the brackets open around it, and the text that is left. -/
structure Skip where
  expect : Expect
  stack : List Bracket
  rest : List Char

namespace Skip

/-- Steps inside a bracket: past its end at once if it is empty, else to its first value. -/
def enter (bracket : Bracket) (stack : List Bracket) (cs : List Char) : Except Problem Skip :=
  match skipBlank cs with
  | [] => .error .truncated
  | c :: rest =>
    if c = bracket.close then .ok ⟨.next, stack, rest⟩
    else (bracket.skipBefore (c :: rest)).map fun rest => ⟨.value, bracket :: stack, rest⟩

/-- Passes over a value, or into the bracket that it opens. -/
def value (stack : List Bracket) (cs : List Char) : Except Problem Skip :=
  match skipBlank cs with
  | '[' :: rest => enter .array stack rest
  | '{' :: rest => enter .object stack rest
  | scalar => (skipScalar scalar).map fun rest => ⟨.next, stack, rest⟩

/-- Passes over a comma inside a bracket, or out of the bracket. -/
def next (bracket : Bracket) (stack : List Bracket) (cs : List Char) : Except Problem Skip :=
  match skipBlank cs with
  | [] => .error .truncated
  | c :: rest =>
    if c = ',' then
      (bracket.skipBefore rest).map fun rest => ⟨.value, bracket :: stack, rest⟩
    else if c = bracket.close then .ok ⟨.next, stack, rest⟩
    else .error .illFormed

/-- Goes on until nothing is open, in at most `fuel` steps. Every step but the last takes a
character. -/
def run : (fuel : Nat) → Skip → Except Problem (List Char)
  | 0, _ => .error .truncated
  | _ + 1, ⟨.next, [], rest⟩ => .ok rest
  | fuel + 1, ⟨.next, bracket :: stack, rest⟩ =>
    match next bracket stack rest with
    | .ok skip => run fuel skip
    | .error problem => .error problem
  | fuel + 1, ⟨.value, stack, rest⟩ =>
    match value stack rest with
    | .ok skip => run fuel skip
    | .error problem => .error problem

end Skip

end FlowFixpoint.Json
