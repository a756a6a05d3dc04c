/-
# FlowFixpoint.Settings.Text — settings as JSON text.

Writing gives the compact text with the three fields in order. What reads a text is a parameter of
`parse` and `load`, since settings are read by whatever library reads JSON.

`ofJson` is such a reader. It takes an object whose fields come in any order, where a field that is
missing keeps its default, a field that is not known is skipped, and a known field may not come twice;
or an array that gives the fields in order and may stop early. Nothing but blanks may follow. The
first problem from left to right decides.
-/
import FlowFixpoint.Json.Magnitude
import FlowFixpoint.Settings.Basic

namespace FlowFixpoint

namespace Json

/-! ## Typed values -/

/-- The problem with a value of another type: its own, if it is not a value at all. -/
def mismatch : List Char → Problem
  | 'n' :: cs => ofScan (word ['u', 'l', 'l'] cs)
  | 't' :: cs => ofScan (word ['r', 'u', 'e'] cs)
  | 'f' :: cs => ofScan (word ['a', 'l', 's', 'e'] cs)
  | '"' :: cs => ofScan (string cs)
  | '[' :: _ | '{' :: _ => .mistyped
  | c :: cs =>
    if startsNumber c then
      match numeral (c :: cs) with
      | .ok (n, _) => if n.outOfRange then .illFormed else .mistyped
      | .error problem => problem
    else .illFormed
  | [] => .truncated
where
  ofScan {α : Type} : Except Problem (α × List Char) → Problem
    | .ok _ => .mistyped
    | .error problem => problem

/-- Reads `true` or `false`. -/
def boolean (cs : List Char) : Except Problem (Bool × List Char) :=
  match skipBlank cs with
  | [] => .error .truncated
  | 't' :: rest => (word ['r', 'u', 'e'] rest).map fun (_, after) => (true, after)
  | 'f' :: rest => (word ['a', 'l', 's', 'e'] rest).map fun (_, after) => (false, after)
  | other => .error (mismatch other)

end Json

namespace Settings

open Json (Problem skipBlank)

/-! ## Writing -/

/-- The three fields, in the order they are written. -/
inductive Field where
  | wideningThreshold
  | maxVisits
  | checkContracts
deriving DecidableEq

/-- The name of a field in text. -/
def Field.name : Field → String
  | .wideningThreshold => "widening_threshold"
  | .maxVisits => "max_iterations"
  | .checkContracts => "check_lattice_contracts"

/-- The fields read so far. -/
structure Given where
  wideningThreshold : Option Nat := none
  maxVisits : Option Nat := none
  checkContracts : Option Bool := none
deriving DecidableEq

/-- Settings with the fields read and defaults for the others. -/
def Given.complete (given : Given) (defaults : Settings) : Settings where
  wideningThreshold := given.wideningThreshold.getD defaults.wideningThreshold
  maxVisits := given.maxVisits.getD defaults.maxVisits
  checkContracts := given.checkContracts.getD defaults.checkContracts

/-- Reads the end of an object or an array. -/
def close (bracket : Json.Bracket) (cs : List Char) : Except Problem (List Char) :=
  match skipBlank cs with
  | [] => .error .truncated
  | c :: rest => if c = bracket.close then .ok rest else .error .illFormed

/-- What reads settings from a text, given the defaults. -/
abbrev Reader := (defaults : Settings) → (text : String) → Except Problem Settings

/-- Why settings cannot be loaded. -/
inductive LoadFault where
  /-- The file is missing or not text. -/
  | unreadable (name : String)
  | invalid (problem : Problem)
deriving DecidableEq

/-- The fault in words. -/
def LoadFault.message : LoadFault → String
  | unreadable name => "failed to read analysis configuration " ++ name
  | invalid _ => "invalid analysis configuration"

/-- Settings from a text. -/
def parse (read : Reader) (profile : BuildProfile) (text : String) : Except LoadFault Settings :=
  (read (.default profile) text).mapError .invalid

/-- Settings from the bytes of a file, if it is there. -/
def load (read : Reader) (profile : BuildProfile) (name : String) (contents : Option ByteArray) :
    Except LoadFault Settings :=
  match contents.bind String.fromUTF8? with
  | some text => parse read profile text
  | none => .error (.unreadable name)

end Settings

end FlowFixpoint
