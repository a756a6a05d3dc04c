/-
# FlowFixpoint.Proofs.Numbering — the numbers of graphs, blocks and nodes.

A workspace numbers graphs in the order they are begun. Whatever is done in it afterwards, a graph
is found under the number that it carries, so different graphs of a workspace have different numbers.
That is what combining their reports asks for.

Numbers are natural here where 32 bits are meant. The difference cannot be seen until the numbers run
out. An operation makes one block or one node at most, so a graph made by fewer than `UInt32.size`
operations, less the three blocks that are there from the start, has positions that fit, and 32 bits
tell them apart; the number of a graph fits as long as no more graphs have been begun.
-/
import FlowFixpoint.Proofs.Acceptance
import FlowFixpoint.Proofs.Stitching
import FlowFixpoint.Workspace

namespace FlowFixpoint

/-! ## Positions -/

namespace Draft

/-- The blocks and nodes of a draft, counted. -/
def size (d : Draft) : Nat := d.blocks.size + d.nodes.size

theorem size_append (d : Draft) (b : BlockId) (n : NodeId) : (d.append b n).size = d.size := by
  unfold append size
  split
  · split <;> simp
  · rfl

/-- An operation makes one block or one node at most. -/
theorem size_apply_le (d : Draft) (step : Step) : (d.apply step).size ≤ d.size + 1 := by
  cases step with
  | addBlock kind => simp [apply, addBlock, size, Nat.add_right_comm]
  | create kind => simp [apply, create, size, Nat.add_assoc]
  | append block node =>
    rw [apply, size_append]
    exact Nat.le_succ _
  | push block kind =>
    rw [apply, push, size_append]
    simp [create, size, Nat.add_assoc]
  | attachTree node tree =>
    simp only [apply, attachTree]
    split <;> simp [size]
  | addEdge source target label => exact Nat.le_succ _
  | markFinal var => exact Nat.le_succ _

theorem size_applyAll_le (d : Draft) (steps : List Step) :
    (d.applyAll steps).size ≤ d.size + steps.length := by
  induction steps generalizing d with
  | nil => exact Nat.le_refl _
  | cons step steps ih =>
    have hstep := d.size_apply_le step
    have hrest := ih (d.apply step)
    rw [List.length_cons]
    exact hrest.trans (by omega)

end Draft

namespace Graph

variable {g : Graph}

/-- Freezing neither adds nor drops blocks or nodes, and keeps the number of the graph. -/
theorem of_freeze {d : Draft} (hd : d.Consistent) (h : d.freeze = .ok g) :
    g.id = d.graph ∧ g.blocks.size = d.blocks.size ∧ g.nodes.size = d.nodes.size := by
  obtain ⟨-, -, -, nodes, hnodes, rfl⟩ := (Draft.freeze_eq_ok_iff hd).mp h
  have hlength := congrArg List.length hnodes
  refine ⟨rfl, by simp [Draft.frozen], ?_⟩
  simpa [Draft.frozen] using hlength.symm

/-- All positions in the graph fit into 32 bits. -/
structure Fits (g : Graph) : Prop where
  blocks : g.blocks.size ≤ UInt32.size
  nodes : g.nodes.size ≤ UInt32.size

/-- A graph that few operations have made fits. -/
theorem fits_of_freeze {id : GraphId} {code : CodeUnit} {steps : List Draft.Step}
    (h : ((Draft.start id code).applyAll steps).freeze = .ok g)
    (hsteps : steps.length + 3 ≤ UInt32.size) : g.Fits := by
  have hsize := (Draft.start id code).size_applyAll_le steps
  obtain ⟨-, hblocks, hnodes⟩ := of_freeze ((Draft.start_consistent id code).applyAll steps) h
  have hstart : (Draft.start id code).size = 3 := rfl
  have hsum : g.blocks.size + g.nodes.size ≤ steps.length + 3 := by
    rw [hblocks, hnodes]
    unfold Draft.size at hsize hstart
    omega
  exact ⟨by omega, by omega⟩

/-- Positions that fit are told apart by 32 bits. -/
theorem eq_of_word_eq {i j : Nat} (hi : i < UInt32.size) (hj : j < UInt32.size)
    (h : UInt32.ofNat i = UInt32.ofNat j) : i = j := by
  have hword := congrArg UInt32.toNat h
  rwa [UInt32.toNat_ofNat_of_lt' hi, UInt32.toNat_ofNat_of_lt' hj] at hword

theorem block?_isSome_iff {b : BlockId} :
    (g.block? b).isSome ↔ b.graph = g.id ∧ b.index < g.blocks.size := by
  simp [Option.isSome_iff_exists, block?_eq_some_iff, Array.getElem?_eq_some_iff]

theorem node?_isSome_iff {n : NodeId} :
    (g.node? n).isSome ↔ n.graph = g.id ∧ n.index < g.nodes.size := by
  simp [Option.isSome_iff_exists, node?_eq_some_iff, Array.getElem?_eq_some_iff]

theorem Fits.block_eq (hfits : g.Fits) {b c : BlockId} (hb : (g.block? b).isSome)
    (hc : (g.block? c).isSome) (h : UInt32.ofNat b.index = UInt32.ofNat c.index) : b = c := by
  obtain ⟨hbgraph, hb⟩ := block?_isSome_iff.mp hb
  obtain ⟨hcgraph, hc⟩ := block?_isSome_iff.mp hc
  have hindex := eq_of_word_eq (hb.trans_le hfits.blocks) (hc.trans_le hfits.blocks) h
  cases b
  cases c
  simp_all

theorem Fits.node_eq (hfits : g.Fits) {m n : NodeId} (hm : (g.node? m).isSome)
    (hn : (g.node? n).isSome) (h : UInt32.ofNat m.index = UInt32.ofNat n.index) : m = n := by
  obtain ⟨hmgraph, hm⟩ := node?_isSome_iff.mp hm
  obtain ⟨hngraph, hn⟩ := node?_isSome_iff.mp hn
  have hindex := eq_of_word_eq (hm.trans_le hfits.nodes) (hn.trans_le hfits.nodes) h
  cases m
  cases n
  simp_all

end Graph

/-! ## Graphs of a workspace -/

namespace Workspace

variable {V S : Type}

/-- Under each number there is a built graph that carries the number, or none. -/
def Numbered (w : Workspace V S) : Prop := ∀ i g, w.graph? i = some g → g.Built ∧ g.id = i

/-- Taking up the next number keeps graphs numbered. -/
theorem Numbered.push {w : Workspace V S} (h : w.Numbered) {next : Option Graph}
    (hnext : ∀ g, next = some g → g.Built ∧ g.id = w.nextGraph) :
    ({ w with graphs := w.graphs.push next } : Workspace V S).Numbered := by
  intro i g hg
  rw [graph?, Array.getElem?_push] at hg
  split at hg
  · next hi =>
    obtain ⟨hbuilt, hid⟩ := hnext g (by simpa using hg)
    exact ⟨hbuilt, hid.trans hi.symm⟩
  · exact h i g hg

theorem Numbered.build {w : Workspace V S} (h : w.Numbered) (code : CodeUnit)
    (steps : List Draft.Step) : (w.build code steps).2.Numbered := by
  unfold Workspace.build
  simp only
  split
  · next g hg =>
    refine h.push ?_
    rintro _ ⟨⟩
    refine ⟨⟨_, code, steps, hg⟩, ?_⟩
    rw [(Graph.of_freeze ((Draft.start_consistent _ code).applyAll steps) hg).1,
      Draft.graph_applyAll]
    rfl
  · exact h.push (by simp)

variable [Store S] [DecidableEq S] [DecidableEq V]

/-- A workspace after any number of operations. -/
inductive Used (a : Analysis V S) (profile : BuildProfile) : Workspace V S → Prop
  | fresh : Used a profile { analysis := a, profile }
  | build {w : Workspace V S} (code : CodeUnit) (steps : List Draft.Step) :
      Used a profile w → Used a profile (w.build code steps).2
  | skipGraph {w : Workspace V S} : Used a profile w → Used a profile w.skipGraph
  | run {w : Workspace V S} (name : String) (settings : Option Settings) (g : Graph) :
      Used a profile w → Used a profile (w.run name settings g).2
  | take {w w' : Workspace V S} {name into : String} {r : Report V S} :
      Used a profile w → w.take? name into = some (r, w') → Used a profile w'
  | combine {w w' : Workspace V S} {into source : String} {r : Report V S} :
      Used a profile w → w.combine? into source = some (r, w') → Used a profile w'
  | newReport {w : Workspace V S} (into : String) :
      Used a profile w → Used a profile (w.newReport into)

variable {a : Analysis V S} {profile : BuildProfile} {w : Workspace V S}

/-- Whatever is done in a workspace, its graphs stay numbered. -/
theorem Used.numbered (hw : Used a profile w) : w.Numbered := by
  induction hw with
  | fresh =>
    intro i g hg
    simp [graph?] at hg
  | build code steps _ ih => exact ih.build code steps
  | skipGraph _ ih => exact ih.push (by simp)
  | run name settings g _ ih => exact ih
  | take _ htake ih =>
    obtain ⟨_, _, heq⟩ := Option.map_eq_some_iff.mp htake
    obtain ⟨-, rfl⟩ := Prod.mk.inj heq
    exact ih
  | combine _ hcombine ih =>
    obtain ⟨_, _, heq⟩ := Option.map_eq_some_iff.mp hcombine
    obtain ⟨-, rfl⟩ := Prod.mk.inj heq
    exact ih
  | newReport into _ ih => exact ih

/-- The numbers of graphs fit as long as no more than that have been begun. -/
theorem Used.id_lt (hw : Used a profile w) (hsize : w.graphs.size ≤ UInt32.size) {i : GraphId}
    {g : Graph} (hg : w.graph? i = some g) : g.id < UInt32.size := by
  rw [(hw.numbered i g hg).2]
  by_contra hlarge
  have hnone : w.graphs[i]? = none :=
    Array.getElem?_eq_none (hsize.trans (Nat.le_of_not_lt hlarge))
  simp [graph?, hnone] at hg

/-- Runs on graphs of a workspace carry the numbers under which the graphs are found. -/
theorem Used.ids_eq (hw : Used a profile w) {numbers : List GraphId} {runs : List a.Finished}
    (h : List.Forall₂ (fun i run => w.graph? i = some run.graph) numbers runs) :
    (runs.map fun run => run.graph.id) = numbers := by
  induction h with
  | nil => rfl
  | cons hgraph _ ih => rw [List.map_cons, ih, (hw.numbered _ _ hgraph).2]

/-- The reports of runs on different graphs of a workspace can be combined; no answer changes. -/
theorem Used.stitches [LawfulJoin S] [PlainWidening S] (hw : Used a profile w)
    {reads : NodeKind → List NodeId} (ha : a.ReadsOnly reads)
    (hreads : ∀ kind, reads kind ⊆ kind.operands) {numbers : List GraphId}
    (hnumbers : numbers.Nodup) {runs : List a.Finished}
    (h : List.Forall₂ (fun i run => w.graph? i = some run.graph) numbers runs) :
    (Analysis.Finished.stitched runs).Stitches runs := by
  refine ha.stitches hreads ?_
  rw [hw.ids_eq h]
  exact hnumbers

end Workspace

end FlowFixpoint
