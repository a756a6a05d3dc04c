/-
# FlowFixpoint.Workspace — graphs, and analyses and reports by name.

A workspace serves one analysis. Graphs are numbered in the order they are begun, also those that
turn out malformed, so that no two graphs of a workspace have the same number; `Proofs.Numbering`
proves it. A desk is an analysis
with its settings and the report and number of visits of its last run. Reports can be taken out,
combined, and asked by name; a report of a name is found before the desk of that name.
-/
import FlowFixpoint.Graph.Draft
import FlowFixpoint.Report

namespace FlowFixpoint

/-- An analysis with its settings and what its last run left. -/
structure Desk (V S : Type) where
  settings : Settings
  report : Report V S := {}
  visits : Nat := 0
  fault : Option Fault := none

/-- Graphs, and desks and reports by name. -/
structure Workspace (V S : Type) where
  analysis : Analysis V S
  /-- Decides the settings of desks that are given none. -/
  profile : BuildProfile
  /-- By graph number; none where no graph came out. -/
  graphs : Array (Option Graph) := #[]
  desks : Std.ExtTreeMap String (Desk V S) := ∅
  reports : Std.ExtTreeMap String (Report V S) := ∅

namespace Workspace

variable {V S : Type}

/-! ## Graphs -/

/-- The number of the next graph. -/
def nextGraph (w : Workspace V S) : GraphId := w.graphs.size

/-- The graph with this number. -/
def graph? (w : Workspace V S) (g : GraphId) : Option Graph := w.graphs[g]?.join

/-- Takes up the next graph number without a graph. -/
def skipGraph (w : Workspace V S) : Workspace V S :=
  { w with graphs := w.graphs.push none }

/-- Builds the next graph from operations on its draft: what they handed out, or the fault. -/
def build (w : Workspace V S) (code : CodeUnit) (steps : List Draft.Step) :
    Except Malformed (List Draft.Made) × Workspace V S :=
  let draft := Draft.start w.nextGraph code
  match (draft.applyAll steps).freeze with
  | .ok g => (.ok (draft.madeBy steps), { w with graphs := w.graphs.push (some g) })
  | .error fault => (.error fault, w.skipGraph)

/-! ## Runs -/

/-- Runs the analysis at a desk. -/
def Desk.run [Store S] [DecidableEq S] [DecidableEq V] (desk : Desk V S) (a : Analysis V S)
    (g : Graph) : Desk V S :=
  let result := a.solve desk.settings g
  let report := Report.ofRun a g result
  match result with
  | .ok p => { desk with report, visits := p.visits, fault := none }
  | .error failure =>
    { desk with report, visits := failure.pass.visits, fault := some failure.fault }

/-- Runs the analysis on a graph, at a new desk if settings are given, else at the desk of that
name or a new one. -/
def run [Store S] [DecidableEq S] [DecidableEq V] (w : Workspace V S) (name : String)
    (settings : Option Settings) (g : Graph) : Desk V S × Workspace V S :=
  let desk := match settings with
    | some settings => { settings }
    | none => w.desks[name]?.getD { settings := .default w.profile }
  let desk := Desk.run desk w.analysis g
  (desk, { w with desks := w.desks.insert name desk })

/-! ## Reports -/

/-- The report of this name, else the report at the desk of this name. -/
def report? (w : Workspace V S) (name : String) : Option (Report V S) :=
  w.reports[name]?.or (w.desks[name]?.map Desk.report)

/-- Takes the report off a desk and clears the desk. -/
def take? (w : Workspace V S) (name into : String) : Option (Report V S × Workspace V S) :=
  w.desks[name]?.map fun desk =>
    (desk.report,
      { w with
        desks := w.desks.erase name
        reports := w.reports.insert into desk.report })

/-- Combines a report into the one of a name, which is empty if there is none. -/
def combine? (w : Workspace V S) (into source : String) : Option (Report V S × Workspace V S) :=
  (w.report? source).map fun other =>
    let combined := ((w.report? into).getD .empty).combine other
    (combined,
      { w with
        desks := w.desks.erase into
        reports := w.reports.insert into combined })

/-- Stores an empty report. -/
def newReport (w : Workspace V S) (into : String) : Workspace V S :=
  { w with reports := w.reports.insert into .empty }

end Workspace

end FlowFixpoint
