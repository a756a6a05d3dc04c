/-
# FlowFixpoint.Analyses.Tags — sets of tags, scripted by markers.

The store is a set of tags together with a mode, and the mode says how sets are joined and widened;
most modes break some law on purpose. Markers are small commands: their label is cut at every single
space, and a label that is no command does nothing. Together they can bring about every behaviour
that the engine distinguishes.
-/
import FlowFixpoint.Domain.Flat
import FlowFixpoint.Flow.Analysis

namespace FlowFixpoint

/-- How sets of tags are joined and widened. -/
inductive TagMode where
  /-- The join is its left side. -/
  | left
  /-- The join is its right side. -/
  | right
  /-- The join holds what is on one side only. -/
  | xor
  /-- The join holds what is on both sides. -/
  | inter
  /-- The join holds what is on either side, as it does for the modes that follow. -/
  | union
  /-- Widening adds the tag `*`. -/
  | widen
  /-- Widening gives the empty set. -/
  | shrink
  /-- Widening keeps what was there. -/
  | stuck
deriving DecidableEq

namespace TagMode

/-- The modes with their names. -/
def names : List (String × TagMode) :=
  [("left", left), ("right", right), ("xor", xor), ("inter", inter), ("union", union),
    ("widen", widen), ("shrink", shrink), ("stuck", stuck)]

instance : Describe TagMode where
  describe
    | left => "Left"
    | right => "Right"
    | xor => "Xor"
    | inter => "Inter"
    | union => "Union"
    | widen => "Widen"
    | shrink => "Shrink"
    | stuck => "Stuck"

end TagMode

/-- A set of tags with its mode. -/
@[ext]
structure Tags where
  mode : TagMode
  tags : Std.ExtTreeSet String
deriving DecidableEq

namespace Tags

/-- The set of these tags. -/
def ofList (mode : TagMode) (tags : List String) : Tags :=
  ⟨mode, tags.foldl (fun set t => set.insert t) ∅⟩

/-- The tags, ascending. -/
def toList (s : Tags) : List String := s.tags.toList

/-- Adds a tag. -/
def insert (s : Tags) (tag : String) : Tags := { s with tags := s.tags.insert tag }

/-- Removes a tag. -/
def erase (s : Tags) (tag : String) : Tags := { s with tags := s.tags.erase tag }

/-- The join that the mode of the left side asks for. -/
def joined (s t : Tags) : Tags :=
  match s.mode with
  | .left => s
  | .right => t
  | .xor => { s with tags := (s.tags \ t.tags) ∪ (t.tags \ s.tags) }
  | .inter => { s with tags := s.tags ∩ t.tags }
  | .union | .widen | .shrink | .stuck => { s with tags := s.tags ∪ t.tags }

/-- The widening that the mode of the old store asks for. -/
def widened (old next : Tags) : Tags :=
  match old.mode with
  | .widen => next.insert "*"
  | .stuck => old
  | .shrink => { old with tags := ∅ }
  | _ => old.joined next

instance : Join Tags := ⟨joined⟩

instance : Describe Tags where
  describe s :=
    Text.record "Tags"
      ["mode: " ++ describe s.mode, "tags: " ++ Text.braced (s.toList.map describe)]

instance : Store Tags where
  widen := widened

/-! ## Commands -/

/-- What a marker can ask for. -/
inductive Command where
  /-- Add a tag. -/
  | add (tag : String)
  /-- Remove a tag. -/
  | drop (tag : String)
  /-- Split the flow, adding a tag on each side. -/
  | split (onTrue onFalse : String)
  /-- Add tags along the edges of exceptions. -/
  | throwing (thrown : List (ExceptionType × String))
  /-- Have this value. -/
  | value (k : Flat Int64)
  /-- Have the number of tags as value. -/
  | count
  /-- Count up to a limit, from visit to visit. -/
  | increase (limit : Int64)
  /-- Record a final local. -/
  | final (var : LocalVar) (k : Flat Int64)
  /-- Add a tag, only when a block is passed again. -/
  | replay
  /-- Do nothing. -/
  | idle
deriving DecidableEq

/-- A number in decimal, unknown if it is none. -/
def numberOr (text : String) : Flat Int64 :=
  match Integer.ofDecimal? text with
  | some k => .known k
  | none => .top

/-- Words two by two; a last odd word is dropped. -/
def pairs : List String → List (ExceptionType × String)
  | e :: tag :: rest => (⟨e⟩, tag) :: pairs rest
  | _ => []

/-- Cuts characters at every single space, so that two spaces have an empty piece between them. -/
def cut : List Char → List (List Char)
  | [] => [[]]
  | c :: cs =>
    if c = ' ' then [] :: cut cs
    else
      match cut cs with
      | [] => [[c]]
      | piece :: pieces => (c :: piece) :: pieces

/-- The words of a label. -/
def words (label : String) : List String := (cut label.toList).map String.ofList

/-- The command that a label spells. A limit that is no number is zero. -/
def Command.ofLabel (label : String) : Command :=
  match words label with
  | ["add", tag] => .add tag
  | ["drop", tag] => .drop tag
  | ["split", onTrue, onFalse] => .split onTrue onFalse
  | "throw" :: rest => .throwing (pairs rest)
  | ["value", n] => .value (numberOr n)
  | ["count"] => .count
  | ["inc", n] => .increase ((Integer.ofDecimal? n).getD 0)
  | ["final", x, n] => .final ⟨x⟩ (numberOr n)
  | ["replay"] => .replay
  | _ => .idle

/-- The value after another visit: one more, up to the limit, or zero at first. -/
def increased (limit : Int64) : Option (Flat Int64) → Int64
  | some (.known k) => min (Integer.saturated (k.toInt + 1)) limit
  | _ => 0

/-- What a command makes of the arriving flow. -/
def Command.outcome (scene : Scene (Flat Int64)) (n : Node) (flow : Flow Tags) :
    Command → Outcome (Flat Int64) Tags
  | .add tag => .single none (flow.regular.insert tag)
  | .drop tag => .single none (flow.regular.erase tag)
  | .split onTrue onFalse => .split none (flow.onTrue.insert onTrue) (flow.onFalse.insert onFalse)
  | .throwing thrown =>
    thrown.foldl (fun o (e, tag) => o.throwing e (flow.regular.insert tag))
      (.single none flow.regular)
  | .value k => .keep (some k) flow
  | .count => .single (some (.known (Int64.ofNat flow.regular.tags.size))) flow.regular
  | .increase limit => .keep (some (.known (increased limit (scene.value? n.id)))) flow
  | .final x k => { Outcome.keep none flow with finals := [(x, k)] }
  | .replay =>
    .single none (if scene.replay then flow.regular.insert "replay" else flow.regular)
  | .idle => .pass flow

/-- What a node makes of the arriving flow: only markers do something. -/
def transfer (scene : Scene (Flat Int64)) (n : Node) (flow : Flow Tags) :
    Outcome (Flat Int64) Tags :=
  match n.kind with
  | .marker label => (Command.ofLabel label).outcome scene n flow
  | _ => .pass flow

/-- Starts with the names of the parameters. -/
def forward (mode : TagMode) : Analysis (Flat Int64) Tags where
  boundary := .forward fun code => .ofList mode (code.parameters.map LocalVar.name)
  transfer := transfer

/-- Starts with a tag for the exit and one for each node that ends the method. -/
def backward (mode : TagMode) : Analysis (Flat Int64) Tags where
  boundary := .backward
    (fun _ returns => .ofList mode ("exit" :: returns.map fun n => s!"ret{n.id.index}"))
    (fun _ => .ofList mode ["thrown"])
  transfer := transfer

end Tags

end FlowFixpoint
