import CodeGraph.GraphFile.Save
import CodeGraph.Proofs.NestingChanges

/-!
# Parents and containment edges

Parents and containment edges are kept in two places: a node names its parent, and the parent lists
the node. Whatever is done to a graph, files that are loaded included, a parent lists its node under
the kind that the node names (`Graph.parent_backed_after`). The converse does not hold: taking an edge
away from the parent of a node takes the parent away too, even if other containment edges to the node
are left. But nothing else goes wrong: as long as no operation does that, every node that is contained
in another one has a parent (`Graph.contained_parent_after`).
-/

set_option autoImplicit false

namespace CodeGraph

namespace Nesting

variable {v : Nesting}

/-- Every parent lists its node under the kind that the node names. -/
def Backed (v : Nesting) : Prop :=
  ∀ x p, v.parent x = some p → x ∈ v.held p.edge p.id

/-- Every id that is listed has a parent. -/
def Parented (v : Nesting) : Prop :=
  ∀ e s x, x ∈ v.held e s → ∃ p, v.parent x = some p

/-! ## What each change keeps -/

/-- Where there are no nodes no parent is missing its list. -/
theorem backed_nothing : nothing.Backed := by
  intro x p parent
  cases parent

/-- A new edge makes its source a parent that lists its node. -/
theorem Backed.put (backed : v.Backed) (e : EdgeKind) (source target : NodeId) :
    (v.put e source target).Backed := by
  intro x p parent
  rw [mem_held_put]
  by_cases here : x = target
  · rw [here, parent_put_self] at parent
    cases parent
    exact Or.inr ⟨rfl, rfl, here⟩
  · rw [parent_put_other v e source here] at parent
    exact Or.inl (backed x p parent)

/-- A parent that is left does not lose the edge to its node. -/
theorem Backed.take (backed : v.Backed) (e : EdgeKind) (source target : NodeId) :
    (v.take e source target).Backed := by
  intro x p parent
  obtain ⟨before, apart⟩ := parent_of_take parent
  exact mem_held_take (backed x p before) fun _ holder hit => apart hit holder

/-- New nodes are listed by their parents, if they have any. -/
theorem Backed.grow {w : Nesting} (grow : Grow v w) (backed : v.Backed) : w.Backed := by
  cases grow with
  | make unused => exact backed
  | enter unused exists_ => exact Backed.put (v := v.make _) backed _ _ _

/-- Where there are no nodes nothing is listed. -/
theorem parented_nothing : nothing.Parented := by
  intro e s x mem
  cases mem

/-- A new edge gives its far end a parent. -/
theorem Parented.put (parented : v.Parented) (e : EdgeKind) (source target : NodeId) :
    (v.put e source target).Parented := by
  intro k s x mem
  by_cases here : x = target
  · rw [here, parent_put_self]
    exact ⟨_, rfl⟩
  · rw [parent_put_other v e source here]
    rcases mem_held_put.1 mem with before | ⟨-, -, hit⟩
    · exact parented k s x before
    · exact absurd hit here

/-- New nodes that are listed have a parent. -/
theorem Parented.grow {w : Nesting} (grow : Grow v w) (parented : v.Parented) : w.Parented := by
  cases grow with
  | make unused => exact parented
  | enter unused exists_ => exact Parented.put (v := v.make _) parented _ _ _

/-- Taking an edge away leaves contained nodes with their parents, unless it comes from the parent of
a node that is contained by other edges as well. -/
theorem Parented.take (parented : v.Parented) {e : EdgeKind} {source target : NodeId}
    (last : (v.parent target).map Parent.id = some source →
      ∀ k s, target ∉ (v.take e source target).held k s) : (v.take e source target).Parented := by
  intro k s x mem
  obtain ⟨p, parent⟩ := parented k s x (mem_held_of_take mem)
  refine ⟨p, (if_neg ?_).trans parent⟩
  rintro ⟨rfl, given⟩
  exact last given k s mem

end Nesting

/-! ## Histories -/

namespace Graph

variable {g : Graph}

/-- In a sound table every parent lists its node. -/
theorem backed_nesting (sound : g.nodes.Sound) : g.nesting.Backed := by
  intro x p parent
  obtain ⟨n, found, parent⟩ := Option.bind_eq_some_iff.1 parent
  exact NodeTable.mem_held_nesting.2 (sound.backed x n p found parent)

/-- Whatever file is loaded, and however far, parents list their nodes. -/
theorem backed_load (headers : List Header) (input : Bytes) (backed : g.nesting.Backed) :
    (g.load headers input).2.2.nesting.Backed := by
  rcases g.loads_load headers input with same | ⟨language, run⟩
  · rw [same]
    exact backed
  · exact backed_nesting (run.preserves (fun _ _ step => step.sound) NodeTable.sound_empty)

/-- Whatever is done to a new graph, parents list their nodes while ids last. -/
theorem backed_after {language : Language} {history : List Operation}
    (last : (new language).Along (fun g operation => operation.IdsLast g) history) :
    ((new language).after history).nesting.Backed :=
  last.nests (fun _ _ last => last) Nesting.backed_nothing (fun _ _ => Nesting.Backed.grow)
    (fun _ e source target _ _ _ backed => backed.put e source target)
    (fun _ e source target _ _ _ backed => backed.take e source target)
    fun _ headers input _ => backed_load headers input

/-- As long as ids last, and whatever files are loaded on the way, a node that has a parent names a
containment kind under which its parent lists it; a node without a parent names no kind. -/
theorem parent_backed_after (language : Language) (history : List Operation)
    (last : (new language).Along (fun g operation => operation.IdsLast g) history) :
    let g := (new language).after history
    ∀ id n, g.find? id = some n →
      (∀ p, n.parentId? = some p → ∃ m e, g.find? p = some m ∧ n.parent.map Parent.edge = some e ∧
        e.isContainment = true ∧ id ∈ (m.targets e).map Target.id) ∧
      (n.parentId? = none → n.parent.map Parent.edge = none) := by
  intro g id n found
  have backed : g.nesting.Backed := backed_after last
  constructor
  · intro p parentId
    obtain ⟨q, parent, rfl⟩ := Option.map_eq_some_iff.1 parentId
    have here : g.nesting.parent id = some q := Option.bind_eq_some_iff.2 ⟨n, found, parent⟩
    obtain ⟨contains, m, there, listed⟩ := NodeTable.mem_held_nesting.1 (backed id q here)
    exact ⟨m, q.edge, there, congrArg (Option.map Parent.edge) parent, contains, List.mem_map.2 listed⟩
  · intro none
    rw [Option.map_eq_none_iff.1 none]
    rfl

/-- The file of a graph with two packages below the root. -/
def nestedFile : Bytes :=
  let history := [.createNode .package, .createNode .package,
    .addEdge .scopeHasMember rootId (madeId 0), .addEdge .scopeHasMember rootId (madeId 1)]
  (((new .java).after history).save [] .unlimited).2.written

/-- A history that loads a file that breaks off and then the whole file, and moves one of the packages
that were loaded below the other. -/
def reloadingHistory : List Operation :=
  [.createNode .package, .load [] (nestedFile.take 300), .load [] nestedFile,
    .addEdge .scopeHasMember (madeId 0) (madeId 1), .removeEdge .scopeHasMember rootId (madeId 1)]

/-- The package that was moved lies below the other one, which lists it. -/
theorem parent_backed_after_loading :
    let g := (new .java).after reloadingHistory
    (new .java).Along (fun g operation => operation.IdsLast g) reloadingHistory ∧
      ∃ n, g.find? (madeId 1) = some n ∧ n.parentId? = some (madeId 0) ∧
        ∃ m e, g.find? (madeId 0) = some m ∧ n.parent.map Parent.edge = some e ∧
          e.isContainment = true ∧ madeId 1 ∈ (m.targets e).map Target.id := by
  intro g
  have facts : (new .java).Along (fun g operation => operation.IdsLast g) reloadingHistory ∧
      (g.find? (madeId 1)).map Node.parentId? = some (some (madeId 0)) := by decide +kernel
  obtain ⟨last, parent⟩ := facts
  have backed := parent_backed_after .java reloadingHistory last
  obtain ⟨n, found, parentId⟩ := Option.map_eq_some_iff.1 parent
  exact ⟨last, n, found, parentId, (backed (madeId 1) n found).1 (madeId 0) parentId⟩

/-- Some node lists an id under a containment kind. -/
def Contains (g : Graph) (id : NodeId) : Prop :=
  ∃ e source, e.isContainment = true ∧ g.nodes.Lists e source id

/-- A node is contained if the nesting lists it somewhere. -/
theorem contains_iff {id : NodeId} :
    g.Contains id ↔ ∃ e source, id ∈ g.nesting.held e source := by
  unfold Contains nesting
  simp only [NodeTable.mem_held_nesting]

/-- Who is among the far ends of containment edges of one node is contained. -/
theorem contains_of_targets (e : EdgeKind) (source : NodeId) (ids : List NodeId) {id : NodeId}
    (contains : e.isContainment = true)
    (listed : ((g.find? source).map fun n => (n.targets e).map Target.id) = some ids)
    (mem : id ∈ ids) : g.Contains id := by
  obtain ⟨n, found, rfl⟩ := Option.map_eq_some_iff.1 listed
  exact ⟨e, source, contains, n, found, List.mem_map.1 mem⟩

end Graph

/-- Whether an operation takes a node away from its parent though other containment edges to the node
are left. -/
def Operation.Orphans (g : Graph) : Operation → Prop
  | .removeEdge e source target =>
    e.isContainment = true ∧ g.nodes.Lists e source target ∧
      (∃ n, g.find? target = some n ∧ n.parentId? = some source) ∧
      ((Operation.removeEdge e source target).perform g).2.Contains target
  | _ => False

namespace Graph

variable {g : Graph}

/-- The nesting has the parents of the nodes. -/
theorem parent_nesting {id other : NodeId} :
    (g.nesting.parent id).map Parent.id = some other ↔
      ∃ n, g.find? id = some n ∧ n.parentId? = some other := by
  change (((g.find? id).bind Node.parent).map Parent.id) = some other ↔ _
  cases g.find? id with
  | none => simp
  | some n => simp [Node.parentId?]

/-- A node that is orphaned is contained in another one but has no parent. -/
theorem orphaned_perform {operation : Operation} (orphans : operation.Orphans g) :
    ∃ id n, (operation.perform g).2.Contains id ∧ (operation.perform g).2.find? id = some n ∧
      n.parent = none := by
  cases operation with
  | removeEdge e source target =>
    obtain ⟨contains, lists, owned, still⟩ := orphans
    have after := nesting_perform_removeEdge contains lists
    have gone : (g.nesting.take e source target).parent target = none :=
      if_pos ⟨rfl, parent_nesting.2 owned⟩
    obtain ⟨n, found, -⟩ := owned
    have there : (g.nesting.take e source target).has target = true :=
      Option.isSome_iff_exists.2 ⟨n, found⟩
    rw [← after] at gone there
    obtain ⟨m, found⟩ := Option.isSome_iff_exists.1 there
    refine ⟨target, m, still, found, ?_⟩
    exact (congrArg (Option.bind · Node.parent) found).symm.trans gone
  | _ => exact orphans.elim

/-- As long as ids last, no file is loaded and no operation orphans a node, every node that another
one contains has a parent. An operation that orphans a node leaves one that has none. -/
theorem contained_parent_after (language : Language) (history : List Operation)
    (noLoad : ∀ operation ∈ history, operation.isLoad = false)
    (last : (new language).Along (fun g operation => operation.IdsLast g) history)
    (keeps : (new language).Along (fun g operation => ¬ operation.Orphans g) history) :
    let g := (new language).after history
    (∀ id, g.Contains id → ∃ n p, g.find? id = some n ∧ n.parent = some p) ∧
      ∀ operation : Operation, operation.Orphans g → ∃ id n, (operation.perform g).2.Contains id ∧
        (operation.perform g).2.find? id = some n ∧ n.parent = none := by
  intro g
  have noLoads : (new language).Along (fun _ operation => operation.isLoad = false) history :=
    along_of_forall (fun operation mem _ => noLoad operation mem) _
  have along := (noLoads.and last).and keeps
  have parented : g.nesting.Parented := by
    refine along.nests (fun _ _ rule => rule.1.2) Nesting.parented_nothing
      (fun _ _ => Nesting.Parented.grow)
      (fun _ e source target _ _ _ parented => parented.put e source target) ?_ ?_
    · intro g e source target rule contains lists parented
      refine parented.take fun given k s mem => rule.2 ⟨contains, lists, parent_nesting.1 given, ?_⟩
      rw [contains_iff, nesting_perform_removeEdge contains lists]
      exact ⟨k, s, mem⟩
    · intro g headers input rule
      cases rule.1.1
  refine ⟨fun id contained => ?_, fun operation => orphaned_perform⟩
  obtain ⟨e, source, mem⟩ := contains_iff.1 contained
  obtain ⟨p, parent⟩ := parented e source id mem
  obtain ⟨n, found, parent⟩ := Option.bind_eq_some_iff.1 parent
  exact ⟨n, p, found, parent⟩

/-- A history that puts a package below two others and takes it away from the first one. -/
def movingHistory : List Operation :=
  [.createNode .package, .createNode .package, .addEdge .scopeHasMember rootId (madeId 0),
    .addEdge .scopeHasMember rootId (madeId 1), .addEdge .scopeHasMember (madeId 1) (madeId 0),
    .removeEdge .scopeHasMember rootId (madeId 0)]

/-- The package that was moved is contained and has a parent. -/
theorem contained_parent_after_moving :
    let g := (new .java).after movingHistory
    (new .java).Along (fun g operation => ¬ operation.Orphans g) movingHistory ∧
      g.Contains (madeId 0) ∧ ∃ n p, g.find? (madeId 0) = some n ∧ n.parent = some p := by
  intro g
  have facts : (new .java).Along (fun g operation => operation.IdsLast g) movingHistory ∧
      ((g.find? (madeId 1)).map fun n => (n.targets .scopeHasMember).map Target.id) =
        some [madeId 0] := by decide +kernel
  obtain ⟨last, listed⟩ := facts
  have keeps : (new .java).Along (fun g operation => ¬ operation.Orphans g) movingHistory := by
    refine ⟨not_false, not_false, not_false, not_false, not_false, ?_, trivial⟩
    -- the last operation takes the package from the root, which is no longer its parent
    rintro ⟨-, -, ⟨n, found, parent⟩, -⟩
    have owned := (congrArg (Option.map Node.parentId?) found).trans (congrArg some parent)
    exact absurd owned (by decide +kernel)
  have contained : g.Contains (madeId 0) :=
    contains_of_targets .scopeHasMember (madeId 1) [madeId 0] rfl listed List.mem_cons_self
  exact ⟨keeps, contained,
    (contained_parent_after .java movingHistory (by decide) last keeps).1 (madeId 0) contained⟩

/-- A history that puts a package below the root twice and takes it away once. -/
def orphaningHistory : List Operation :=
  [.createNode .package, .addEdge .scopeHasMember rootId (madeId 0),
    .addEdge .scopeHasMember rootId (madeId 0), .removeEdge .scopeHasMember rootId (madeId 0)]

/-- The package is still listed by the root, but has no parent. -/
theorem orphaned_by_removing :
    let g := (new .java).after orphaningHistory
    (∀ operation ∈ orphaningHistory, operation.isLoad = false) ∧
      g.Contains (madeId 0) ∧ ∃ n, g.find? (madeId 0) = some n ∧ n.parent = none := by
  intro g
  have facts : (g.find? (madeId 0)).map Node.parent = some none ∧
      ((g.find? rootId).map fun n => (n.targets .scopeHasMember).map Target.id) =
        some [madeId 0] := by decide +kernel
  obtain ⟨parentless, listed⟩ := facts
  exact ⟨by decide, contains_of_targets .scopeHasMember rootId [madeId 0] rfl listed
    List.mem_cons_self, Option.map_eq_some_iff.1 parentless⟩

end Graph

end CodeGraph
