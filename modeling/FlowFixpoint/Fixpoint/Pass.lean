/-
# FlowFixpoint.Fixpoint.Pass — visiting blocks.

A pass is the state of a run between two visits. A visit walks the nodes of one block from its
recorded input, which may change values, and then delivers what left the block along its flow
edges. A delivery is merged into the recorded input of the block it reaches; a changed input makes
that block pending. If a value changed, the blocks reached next are pending in any case, provided
that they have an input.

Backward, what flows into a conditional block arrives in the slot of the edge's outcome. Its input
is the one store known until the other slot is filled, and split from then on.

A block that may throw keeps apart what its node throws: the stores of particular exceptions, and the
store for all others. Along an exception edge goes the store of that exception.

A merge that fails its check ends the visit; the failure carries the pass as far as it came.
-/
import FlowFixpoint.Fixpoint.Fault
import FlowFixpoint.Fixpoint.Findings
import FlowFixpoint.Fixpoint.Worklist
import FlowFixpoint.Flow.Analysis
import FlowFixpoint.Settings.Basic

namespace FlowFixpoint

/-! ## The state of a run -/

/-- The stores that flowed backward into a conditional block so far. -/
structure Slots (S : Type) where
  onTrue : Option S := none
  onFalse : Option S := none

/-- The state of a run between two visits. -/
structure Pass (V S : Type) where
  findings : Findings V S := {}
  pending : Worklist
  /-- How often the input of a block has changed. -/
  updates : Std.ExtTreeMap BlockId Nat := ∅
  slots : Std.ExtTreeMap BlockId (Slots S) := ∅
  visits : Nat := 0

/-- What stays fixed during a run. -/
structure Setup (V S : Type) where
  graph : Graph
  analysis : Analysis V S
  settings : Settings
  wideningPoints : Std.ExtTreeSet BlockId

/-- A run that ended early, with its last state. -/
structure Failure (V S : Type) where
  fault : Fault
  pass : Pass V S

/-- What is delivered to a block, and how. -/
inductive Parcel (S : Type) where
  /-- A flow for the input. -/
  | input (flow : Flow S)
  /-- A store for the slot of an outcome. -/
  | slot (outcome : Bool) (store : S)

/-! ## Walking the nodes of a block -/

/-- How far a walk through a block has come. -/
structure Walk (V S : Type) where
  findings : Findings V S
  /-- What the last node yielded; at first only the arriving flow. -/
  last : Outcome V S
  /-- Has a value changed on the way? -/
  changed : Bool := false

variable {V S : Type}

/-- Passes one node and records what it yields. -/
def Walk.step [DecidableEq V] (g : Graph) (a : Analysis V S) (w : Walk V S) (n : Node) :
    Walk V S :=
  let findings := w.findings.noteTrees n
  let outcome := a.transfer { graph := g, values := findings.values, replay := false } n w.last.flow
  let findings := findings.noteFinals outcome.finals
  { findings := findings.noteValue n.id outcome.value
    last := outcome
    changed := w.changed || findings.isNews n.id outcome.value }

/-- Passes nodes one after the other. -/
def Walk.through [DecidableEq V] (g : Graph) (a : Analysis V S) (findings : Findings V S)
    (input : Flow S) (nodes : List Node) : Walk V S :=
  nodes.foldl (Walk.step g a) { findings, last := .keep none input }

/-- What a block throws: the stores of particular exceptions, and the store for all others. -/
structure Thrown (S : Type) where
  stores : List (ExceptionType × S)
  fallback : S

/-- The store that goes along the edge of an exception. -/
def Thrown.storeFor (t : Thrown S) (e : ExceptionType) : S :=
  match t.stores.find? fun entry => entry.1 = e with
  | some entry => entry.2
  | none => t.fallback

/-- How far the crossing of a block has come: the walk, and what the block throws by then. -/
structure Crossing (V S : Type) extends Walk V S where
  thrown : Option (Thrown S) := none

/-- Passes one node of a block of the given kind. Only an exceptional block throws, and what its last
node throws counts. -/
def Crossing.step [Join S] [DecidableEq V] (g : Graph) (a : Analysis V S) (kind : BlockKind)
    (c : Crossing V S) (n : Node) : Crossing V S :=
  let w := c.toWalk.step g a n
  { toWalk := w
    thrown :=
      if kind = .exceptional then
        some { stores := w.last.thrown, fallback := w.last.flow.regular }
      else c.thrown }

/-- Passes the nodes of a block of the given kind one after the other. -/
def Crossing.through [Join S] [DecidableEq V] (g : Graph) (a : Analysis V S) (kind : BlockKind)
    (findings : Findings V S) (input : Flow S) (nodes : List Node) : Crossing V S :=
  nodes.foldl (Crossing.step g a kind) { findings, last := .keep none input }

/-! ## Leaving a block -/

namespace Crossing

variable [Join S]

/-- What leaves a block forward along an edge to a block of the given kind. -/
def sentForward (c : Crossing V S) (label : EdgeLabel) (target : BlockKind) : Flow S :=
  match label with
  | .onTrue => .single c.last.flow.onTrue
  | .onFalse => .single c.last.flow.onFalse
  | .unconditional => if target = .conditional then c.last.flow else .single c.last.flow.regular
  | .exception e =>
    match c.thrown with
    | some thrown => .single (thrown.storeFor e)
    | none => .single c.last.flow.regular

/-- What leaves a block backward along an edge from a block of the given kind. -/
def sentBackward (c : Crossing V S) (label : EdgeLabel) (source : BlockKind) : Parcel S :=
  match label, source with
  | .onTrue, .conditional => .slot true c.last.flow.regular
  | .onFalse, .conditional => .slot false c.last.flow.regular
  | _, _ => .input (.single c.last.flow.regular)

/-- What leaves a block along a flow edge to a block of the given kind. -/
def sent (c : Crossing V S) (d : Direction) (label : EdgeLabel) (reached : BlockKind) : Parcel S :=
  match d with
  | .forward => .input (c.sentForward label reached)
  | .backward => c.sentBackward label reached

end Crossing

/-! ## Merging -/

namespace Pass

/-- Records a changed input and makes its block pending. -/
def record (p : Pass V S) (b : BlockId) (input : Flow S) : Pass V S :=
  { p with
    findings := { p.findings with inputs := p.findings.inputs.insert b input }
    updates := p.updates.insert b (p.updates[b]?.getD 0 + 1)
    pending := p.pending.push b }

/-- Records the input of a start block. -/
def seed (p : Pass V S) (b : BlockId) (store : S) : Pass V S :=
  { p with
    findings := { p.findings with inputs := p.findings.inputs.insert b (.single store) }
    pending := p.pending.push b }

/-- Makes those blocks pending that have an input. -/
def requeue (p : Pass V S) (bs : List BlockId) : Pass V S :=
  { p with
    pending := bs.foldl
      (fun w b => if p.findings.inputs.contains b then w.push b else w) p.pending }

end Pass

namespace Setup

/-- Is the next merge into this block widened? -/
def widens (s : Setup V S) (p : Pass V S) (b : BlockId) : Bool :=
  s.wideningPoints.contains b && s.settings.wideningThreshold ≤ p.updates[b]?.getD 0

variable [Store S] [DecidableEq S]

/-- The join of what is recorded and what arrives, widened if asked for. -/
def bound {α : Type} [Store α] (widened : Bool) (old incoming : α) : α :=
  if widened then widen old (join old incoming) else join old incoming

/-- Does a merge pass its check, if it is checked at all? -/
def holds {α : Type} [Join α] [DecidableEq α] (s : Setup V S) (merged old incoming : α) : Bool :=
  !s.settings.checkContracts || isUpperBound merged old && isUpperBound merged incoming

/-- Merges a flow into the input of a block. -/
def merge (s : Setup V S) (b : BlockId) (incoming : Flow S) (p : Pass V S) :
    Except (Failure V S) (Pass V S) :=
  match p.findings.inputs[b]? with
  | none => .ok (p.record b incoming)
  | some old =>
    let merged := bound (s.widens p b) old incoming
    if s.holds merged old incoming then
      .ok (if merged = old then p else p.record b merged)
    else
      .error {
        fault := .contract b
          (describe merged ++ " is not an upper bound of " ++ describe old ++ " and " ++
            describe incoming)
        pass := p }

/-- The store of a slot after another one has arrived; none if the merge fails its check. -/
def fill (s : Setup V S) (widened : Bool) (old : Option S) (incoming : S) : Option S :=
  match old with
  | none => some incoming
  | some old =>
    let merged := bound widened old incoming
    if s.holds merged old incoming then some merged else none

/-- Records the input that the slots of a conditional block amount to, if it is a new one. -/
def settle (b : BlockId) (slots : Slots S) (p : Pass V S) : Pass V S :=
  let p := { p with slots := p.slots.insert b slots }
  match slots.onTrue, slots.onFalse with
  | some t, some f => update p (.split t f)
  | some store, none | none, some store => update p (.single store)
  | none, none => p
where
  update (p : Pass V S) (input : Flow S) : Pass V S :=
    if p.findings.inputs[b]? = some input then p else p.record b input

/-- Merges a store into one slot of a conditional block. -/
def mergeSlot (s : Setup V S) (b : BlockId) (outcome : Bool) (incoming : S) (p : Pass V S) :
    Except (Failure V S) (Pass V S) :=
  let slots := p.slots[b]?.getD {}
  let old := if outcome then slots.onTrue else slots.onFalse
  match s.fill (s.widens p b) old incoming with
  | some merged =>
    .ok (settle b
      (if outcome then { slots with onTrue := some merged }
        else { slots with onFalse := some merged }) p)
  | none =>
    .error { fault := .contract b "branch store join is not an upper bound", pass := p }

/-- Merges a parcel where it belongs. -/
def deliver (s : Setup V S) (b : BlockId) (parcel : Parcel S) (p : Pass V S) :
    Except (Failure V S) (Pass V S) :=
  match parcel with
  | .input flow => s.merge b flow p
  | .slot outcome store => s.mergeSlot b outcome store p

/-- Delivers parcels in order until one fails. -/
def deliverAll (s : Setup V S) : List (BlockId × Parcel S) → Pass V S →
    Except (Failure V S) (Pass V S)
  | [], p => .ok p
  | (b, parcel) :: rest, p =>
    match s.deliver b parcel p with
    | .ok p' => s.deliverAll rest p'
    | .error failure => .error failure

/-! ## Visiting -/

/-- Visits a block: crosses it, delivers along its edges, and makes pending what a changed value calls
for. A block without an input is left alone. -/
def visit [DecidableEq V] (s : Setup V S) (b : BlockId) (p : Pass V S) :
    Except (Failure V S) (Pass V S) :=
  match s.graph.blockAt b with
  | .error id => .error { fault := .stray id, pass := p }
  | .ok block =>
    match p.findings.inputs[b]? with
    | none => .ok p
    | some input =>
      let d := s.analysis.direction
      match s.graph.passedBy d block, s.graph.routes d block with
      | .ok nodes, .ok routes =>
        let c := Crossing.through s.graph s.analysis block.kind p.findings input nodes
        let parcels := routes.map fun r => (r.reached, c.sent d r.label r.kind)
        match s.deliverAll parcels { p with findings := c.findings } with
        | .error failure => .error failure
        | .ok p' => .ok (if c.changed then p'.requeue (routes.map Route.reached) else p')
      | .error id, _ | _, .error id => .error { fault := .stray id, pass := p }

end Setup

end FlowFixpoint
