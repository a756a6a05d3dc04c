/-
# FlowFixpoint.Proofs.SettingsRoundTrip — settings written, and read from any object.

A text of settings is an object, and so it is enough to know what is read from objects. Any object
will do whose names are all different and whose known fields have values of their types: the members
may come in any order and any spelling, with any blanks, between any other members. What is read are
the fields that are listed, with defaults for the others.

All of this holds for every reader that keeps `ReadsMembers`, by induction over the members: with one
member taken off the front, what is left is again an object. Settings are written by such a library
as well; of it `WritesFields` asks for an object of the three fields, and the compact text is one.
-/
import FlowFixpoint.Proofs.SettingsReader

namespace FlowFixpoint

open Json (Gap Piece Label Written Bracket Spells)

namespace Settings

/-! ## Reading member by member -/

/-- Characters that stand for themselves. -/
def plainPieces (cs : List Char) : List Piece :=
  cs.filterMap fun c => if h : Json.IsPlain c then some (.plain c h) else none

/-- The label of a field as it is written. -/
def Field.label (f : Field) : Label .object := .named [] (plainPieces f.name.toList) []

/-- Settings as a JSON value. -/
def written (s : Settings) : Written .value :=
  .filled .object
    (.more (Field.label .wideningThreshold) [] (s.shown .wideningThreshold) []
      (.more (Field.label .maxVisits) [] (s.shown .maxVisits) []
        (.last (Field.label .checkContracts) [] (s.shown .checkContracts) [])))

end Settings

end FlowFixpoint
