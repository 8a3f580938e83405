import CodeGraph.Operation
import CodeGraph.Proofs.NodeTable

/-!
# Calls that do all or nothing

Most calls check all that they need before they change anything. Still they look up nodes again later
on, and would fail with half of their work done if one of these were gone. None is: no step in between
takes a node away that a check has found. So such a call either does all of its work or fails and
leaves the graph as it was. For each of these calls there is the graph with all work done, or the
reason against it, and a theorem that the call answers just that. Main statement:
`Operation.perform_eq`, the same for all operations at once.
-/

set_option autoImplicit false

namespace CodeGraph

namespace Filter

variable {f : Filter}

/-- The answer of a call that puts a filter in place of `f`, or fails and leaves it. -/
def settle (f : Filter) (result : Except Error Filter) : Filter × Except Error Unit :=
  match result with
  | .ok h => (h, .ok ())
  | .error cause => (f, .error cause)

/-- Takes a stored filter that covers exactly `graphSize` ids. -/
def read (graphSize : Nat) : Reader Filter := do
  let start ← Reader.bytes magic.length
  if start ≠ magic then
    Reader.fail (.refused .loadFilter .missingFilterHeader)
  else
    let size ← Reader.word 4
    if size ≠ graphSize then
      Reader.fail (.filterSizeMismatch size graphSize)
    else
      ofStates <$> readStates size

/-- The stored filter in a byte string; what follows it is ignored. -/
def stored (graphSize : Nat) (input : Bytes) : Except Error Filter :=
  (read graphSize input).map Prod.fst

/-- Reading a stored filter does all or nothing. -/
theorem load_eq (f : Filter) (graphSize : Nat) (input : Bytes) :
    f.load graphSize input = f.settle (stored graphSize input) := by
  unfold load stored read
  rw [Reader.bind_apply]
  cases Reader.bytes magic.length input with
  | error cause => rfl
  | ok first =>
    obtain ⟨start, input⟩ := first
    dsimp only
    split
    · rfl
    · rw [Reader.bind_apply]
      cases Reader.word 4 input with
      | error cause => rfl
      | ok second =>
        obtain ⟨size, input⟩ := second
        dsimp only
        split
        · rfl
        · rw [Reader.map_apply]
          cases readStates size input <;> rfl

variable {nodes : NodeTable} {id : NodeId}

/-- A node that is there is still there when its parent is asked for. -/
theorem reveal_of_find? {n : Node} (found : nodes.find? id = some n) (f : Filter) :
    f.reveal nodes id = showAncestors nodes (nodes.size + 1) n.parentId?
      (f.setAll (nodes.subtree id) .notFiltered) := by
  unfold reveal setSubtree
  simp only [found]

/-- A node that is not there cannot be shown. -/
theorem reveal_of_missing (missing : nodes.find? id = none) (f : Filter) :
    f.reveal nodes id = (f, .error (.noSuchNode .showNodes id.raw)) := by
  unfold reveal setSubtree
  simp only [missing]

end Filter

namespace Graph

variable {g : Graph}

/-! ## The graph with all work done -/

/-- The graph with a new node of one of the kinds that need no value. -/
def withNode (g : Graph) (kind : NodeKind) : Except Error (NodeId × Graph) :=
  if creatableKinds.contains kind then .ok (g.newNode kind)
  else .error (.wrongKind .createNode kind)

/-- The graph with a new node of any concrete kind at an id that is valid and unused. -/
def withNodeAt (g : Graph) (kind : NodeKind) (id : NodeId) : Except Error Graph :=
  if kind.isAbstract then .error (.wrongKind .createNodeWithId kind)
  else if !id.isValid then .error (.noSuchNode .createNodeWithId id.raw)
  else if g.nodes.contains id then .error (.refused .createNodeWithId (.nodeExists id))
  else .ok (g.insertNode kind id)

/-- The graph with a class or a method turned into its generic form. -/
def withKind (g : Graph) (id : NodeId) (kind : NodeKind) : Except Error Graph :=
  match g.find? id with
  | none => .error (.noSuchNode .replaceNode id.raw)
  | some n =>
    if widened? n.kind = some kind then .ok (g.updateNode id fun n => n.promote kind)
    else .error (.wrongKind .replaceNode kind)

/-- The graph with another name for a node. -/
def withName (g : Graph) (id : NodeId) (name : String) : Except Error Graph :=
  match g.find? id with
  | none => .error (.noSuchNode .setName id.raw)
  | some n =>
    if n.isNamed then
      let (key, g) := g.intern name
      .ok (g.updateNode id fun n => n.setName key)
    else
      .error (.wrongKind .setName n.kind)

/-- The graph with an edge and all that follows from it, whatever its nodes are. -/
def link (g : Graph) (e : EdgeKind) (source : NodeId) (t : Target) : Graph :=
  let added := g.updateNode source fun n => n.addTarget e t
  let unlinked :=
    match g.replacedTarget? e source with
    | some previous => added.unlink e source previous
    | none => added
  let owned :=
    if e.isContainment then
      unlinked.updateNode t.id fun n => { n with parent := some ⟨source, e⟩ }
    else
      unlinked
  { owned with index := owned.index.map fun x => x.insertEdge e source t.id }

/-- The graph with an edge that carries no value. -/
def withEdge (g : Graph) (e : EdgeKind) (source target : NodeId) : Except Error Graph :=
  match g.checkEdge .addEdge e source target none with
  | .error cause => .error cause
  | .ok () => .ok (g.link e source { id := target })

/-- The graph with an edge that carries a value. -/
def withValueEdge (g : Graph) (e : EdgeKind) (source target : NodeId) (value : EdgeValue) :
    Except Error Graph :=
  match g.checkEdge .addValueEdge e source target (some value) with
  | .error cause => .error cause
  | .ok () => .ok (g.link e source ⟨target, some value⟩)

/-- The graph without the first edge of a kind between two nodes, and whether there was one. -/
def withoutEdge (g : Graph) (e : EdgeKind) (source target : NodeId) :
    Except Error (Bool × Graph) :=
  match g.find? source with
  | none => .error (.noSuchNode .removeEdge source.raw)
  | some n =>
    if n.pointsTo e target then
      let removed := g.updateNode source fun n => n.removeTarget e target
      .ok (true, removed.unlink e source target)
    else
      .ok (false, g)

/-- The graph with the edge of a kind that allows only one set or cleared. -/
def withSingle (g : Graph) (e : EdgeKind) (source : NodeId) (target : Option NodeId) :
    Except Error Graph :=
  if e.isSingle then
    match target with
    | some target =>
      match g.checkEdge .setEdge e source target none with
      | .error cause => .error cause
      | .ok () => .ok (g.link e source { id := target })
    | none =>
      match g.find? source with
      | none => .error (.noSuchNode .setEdge source.raw)
      | some n =>
        match n.single? e with
        | none => .ok g
        | some previous => (g.withoutEdge e source previous).map Prod.snd
  else
    .error (.refused .setEdge (.notSingleValued e))

/-- The graph with the state of one existing node set. -/
def withState (g : Graph) (site : Site) (id : NodeId) (state : FilterState) : Except Error Graph :=
  match g.find? id with
  | none => .error (.noSuchNode site id.raw)
  | some _ => .ok { g with filter := g.filter.set id state }

/-- The graph with a node and all that containment reaches from it hidden. -/
def withHidden (g : Graph) (id : NodeId) : Except Error Graph :=
  match g.find? id with
  | none => .error (.noSuchNode .hideNodes id.raw)
  | some _ => .ok { g with filter := g.filter.setAll (g.nodes.subtree id) .filtered }

/-- The graph with a stored filter in place of its own. -/
def withFilter (g : Graph) (input : Bytes) : Except Error Graph :=
  (Filter.stored g.size input).map fun filter => { g with filter }

/-- A new node of a kind with its one edge set. The node stays if the edge is refused. -/
def withNodeTo (g : Graph) (kind : NodeKind) (e : EdgeKind) (target : Option NodeId) :
    Except Error NodeId × Graph :=
  let (id, created) := g.newNode kind
  match created.withSingle e id target with
  | .error cause => (.error cause, created)
  | .ok linked => (.ok id, linked)

/-- Edges of one kind from one node to several; edges added before a failure stay. -/
def withEdges (g : Graph) (e : EdgeKind) (source : NodeId) :
    List NodeId → Except Error Unit × Graph
  | [] => (.ok (), g)
  | target :: targets =>
    match g.withEdge e source target with
    | .error cause => (.error cause, g)
    | .ok added => added.withEdges e source targets

/-- The entry of a kind and a name in a container, made if it is missing. The entry stays if it cannot
be put there. -/
def withEntry (g : Graph) (container : NodeId) (name : String) (kind : NodeKind) :
    Except Error NodeId × Graph :=
  match g.find? container with
  | none => (.error (.noSuchNode .createFile container.raw), g)
  | some holder =>
    match g.findEntry holder name kind with
    | some id => (.ok id, g)
    | none =>
      let (key, g) := g.intern name
      let (id, g) := g.newNodeWith kind fun n => n.setName key
      match g.withEdge (entryEdge holder) container id with
      | .error cause => (.error cause, g)
      | .ok g => (.ok id, g)

/-! ## Nodes that are still there -/

/-- Interning a text takes no node away. -/
theorem find?_intern_nodes (g : Graph) (s : String) (id : NodeId) :
    (g.intern s).2.find? id = g.find? id :=
  rfl

/-- A node that is there can be changed. -/
theorem editNode_of_isSome {id : NodeId} (there : (g.find? id).isSome) (site : Site)
    (f : Node → Node) : g.editNode site id f = (.ok (), g.updateNode id f) := by
  obtain ⟨n, found⟩ := Option.isSome_iff_exists.1 there
  unfold editNode
  rw [found]

/-- Changing a node takes no node away. -/
theorem isSome_find?_updateNode (g : Graph) (id other : NodeId) (f : Node → Node) :
    ((g.updateNode id f).find? other).isSome = (g.find? other).isSome := by
  unfold find? updateNode
  rw [NodeTable.find?_update]
  split
  · next same => rw [same, Option.isSome_map]
  · rfl

/-- Undoing what follows from an edge takes no node away. -/
theorem isSome_find?_unlink (g : Graph) (e : EdgeKind) (source target other : NodeId) :
    ((g.unlink e source target).find? other).isSome = (g.find? other).isSome := by
  unfold unlink
  split
  · exact isSome_find?_updateNode g target other _
  · rfl

/-- Both ends of an edge that passes its check are there. -/
theorem isSome_of_checkEdge {site : Site} {e : EdgeKind} {source target : NodeId}
    {value : Option EdgeValue} (checked : g.checkEdge site e source target value = .ok ()) :
    (g.find? source).isSome ∧ (g.find? target).isSome := by
  unfold checkEdge checkTarget at checked
  cases sourceFound : g.find? source with
  | none =>
    rw [sourceFound] at checked
    cases checked
  | some n =>
    cases targetFound : g.find? target with
    | none =>
      simp only [sourceFound, targetFound] at checked
      split at checked
      · cases checked
      · cases checked
    | some m => exact ⟨rfl, rfl⟩

/-- An edge between nodes that are there is added with all that follows from it. -/
theorem insertEdge_eq {e : EdgeKind} {source : NodeId} {t : Target}
    (sourceThere : (g.find? source).isSome) (targetThere : (g.find? t.id).isSome) :
    g.insertEdge e source t = (.ok (), g.link e source t) := by
  have added : ((g.updateNode source fun n => n.addTarget e t).find? t.id).isSome = true :=
    (isSome_find?_updateNode g source t.id _).trans targetThere
  unfold insertEdge link
  rw [editNode_of_isSome sourceThere]
  dsimp only
  -- the target is still there when the edge that is replaced has been undone
  cases g.replacedTarget? e source with
  | none =>
    dsimp only
    split
    · rw [editNode_of_isSome added]
      rfl
    · rfl
  | some previous =>
    have undone := (isSome_find?_unlink _ e source previous t.id).trans added
    dsimp only
    split
    · rw [editNode_of_isSome undone]
      rfl
    · rfl

/-- An edge that passes its check is added with all that follows from it. -/
theorem insertEdge_of_checkEdge {site : Site} {e : EdgeKind} {source : NodeId} {t : Target}
    {value : Option EdgeValue} (checked : g.checkEdge site e source t.id value = .ok ()) :
    g.insertEdge e source t = (.ok (), g.link e source t) := by
  obtain ⟨sourceThere, targetThere⟩ := isSome_of_checkEdge checked
  exact insertEdge_eq sourceThere targetThere

/-! ## The calls -/

/-- The answer of a call that does all of its work, or none and leaves the graph `g`. -/
def settle (g : Graph) (result : Except Error Graph) : Except Error Unit × Graph :=
  match result with
  | .ok next => (.ok (), next)
  | .error cause => (.error cause, g)

/-- Such a call succeeds exactly if there is a new graph, and then leaves it. -/
theorem settle_eq_ok_iff {result : Except Error Graph} {h : Graph} :
    g.settle result = (.ok (), h) ↔ result = .ok h := by
  cases result <;> simp [settle]

/-- The same for a call that gives something. -/
def settleWith {α : Type} (g : Graph) (result : Except Error (α × Graph)) : Except Error α × Graph :=
  match result with
  | .ok (a, next) => (.ok a, next)
  | .error cause => (.error cause, g)

/-- Creating a node does all or nothing. -/
theorem createNode_eq (g : Graph) (kind : NodeKind) :
    g.createNode kind = g.settleWith (g.withNode kind) := by
  unfold createNode withNode
  split <;> rfl

/-- Creating a node at an id does all or nothing. -/
theorem createNodeWithId_eq (g : Graph) (kind : NodeKind) (id : NodeId) :
    g.createNodeWithId kind id =
      g.settleWith ((g.withNodeAt kind id).map fun created => (id, created)) := by
  unfold createNodeWithId withNodeAt
  split
  · rfl
  · split
    · rfl
    · split <;> rfl

/-- Turning a node into its generic form does all or nothing. -/
theorem replaceNode_eq (g : Graph) (id : NodeId) (kind : NodeKind) :
    g.replaceNode id kind = g.settle (g.withKind id kind) := by
  unfold replaceNode withKind
  cases g.find? id with
  | none => rfl
  | some n =>
    dsimp only
    split <;> rfl

/-- Naming a node does all or nothing, as interning the name keeps the node. -/
theorem setName_eq (g : Graph) (id : NodeId) (name : String) :
    g.setName id name = g.settle (g.withName id name) := by
  unfold setName withName
  cases found : g.find? id with
  | none => rfl
  | some n =>
    dsimp only
    split
    · have there : ((g.intern name).2.find? id).isSome = true := by
        rw [find?_intern_nodes, found]
        rfl
      exact editNode_of_isSome there _ _
    · rfl

/-- Adding an edge does all or nothing. -/
theorem addEdge_eq (g : Graph) (e : EdgeKind) (source target : NodeId) :
    g.addEdge e source target = g.settle (g.withEdge e source target) := by
  unfold addEdge withEdge
  cases checked : g.checkEdge .addEdge e source target none with
  | error cause => rfl
  | ok _ => exact insertEdge_of_checkEdge (t := { id := target }) checked

/-- Adding an edge with a value does all or nothing. -/
theorem addValueEdge_eq (g : Graph) (e : EdgeKind) (source target : NodeId) (value : EdgeValue) :
    g.addValueEdge e source target value = g.settle (g.withValueEdge e source target value) := by
  unfold addValueEdge withValueEdge
  cases checked : g.checkEdge .addValueEdge e source target (some value) with
  | error cause => rfl
  | ok _ => exact insertEdge_of_checkEdge (t := ⟨target, some value⟩) checked

/-- Removing an edge does all or nothing. -/
theorem removeEdge_eq (g : Graph) (e : EdgeKind) (source target : NodeId) :
    g.removeEdge e source target = g.settleWith (g.withoutEdge e source target) := by
  unfold removeEdge withoutEdge
  cases g.find? source with
  | none => rfl
  | some n =>
    dsimp only
    split <;> rfl

/-- Setting or clearing the edge of a kind that allows only one does all or nothing. -/
theorem setEdge_eq (g : Graph) (e : EdgeKind) (source : NodeId) (target : Option NodeId) :
    g.setEdge e source target = g.settle (g.withSingle e source target) := by
  unfold setEdge withSingle
  split
  · cases target with
    | some target =>
      dsimp only
      cases checked : g.checkEdge .setEdge e source target none with
      | error cause => rfl
      | ok _ => exact insertEdge_of_checkEdge (t := { id := target }) checked
    | none =>
      dsimp only
      cases g.find? source with
      | none => rfl
      | some n =>
        dsimp only
        cases n.single? e with
        | none => rfl
        | some previous =>
          dsimp only
          rw [removeEdge_eq]
          cases g.withoutEdge e source previous <;> rfl
  · rfl

/-- Setting the state of one node does all or nothing. -/
theorem setFilterState_eq (g : Graph) (site : Site) (id : NodeId) (state : FilterState) :
    g.setFilterState site id state = g.settle (g.withState site id state) := by
  unfold setFilterState withState
  cases g.find? id <;> rfl

/-- Hiding a node does all or nothing. -/
theorem hide_eq (g : Graph) (id : NodeId) : g.hide id = g.settle (g.withHidden id) := by
  unfold hide Filter.hide Filter.setSubtree withHidden find?
  cases g.nodes.find? id <;> rfl

/-- Reading a stored filter does all or nothing. -/
theorem loadFilter_eq (g : Graph) (input : Bytes) :
    g.loadFilter input = g.settle (g.withFilter input) := by
  unfold loadFilter withFilter
  rw [Filter.load_eq]
  cases Filter.stored g.size input <;> rfl

/-! ## The calls that may leave something behind -/

/-- A new node whose edge is refused is left as it is. -/
theorem newNodeTo_eq (g : Graph) (kind : NodeKind) (e : EdgeKind) (target : Option NodeId) :
    g.newNodeTo kind e target = g.withNodeTo kind e target := by
  unfold newNodeTo withNodeTo
  dsimp only
  rw [setEdge_eq]
  cases (g.newNode kind).2.withSingle e (g.newNode kind).1 target <;> rfl

/-- Of several edges, those before the first that is refused are added. -/
theorem addEdges_eq (g : Graph) (e : EdgeKind) (source : NodeId) (targets : List NodeId) :
    g.addEdges e source targets = g.withEdges e source targets := by
  induction targets generalizing g with
  | nil => rfl
  | cons target targets ih =>
    unfold addEdges withEdges
    rw [addEdge_eq]
    cases g.withEdge e source target with
    | error cause => rfl
    | ok added => exact ih added

/-- A new entry that cannot be put into its container is left outside. -/
theorem openEntry_eq (g : Graph) (container : NodeId) (name : String) (kind : NodeKind) :
    g.openEntry container name kind = g.withEntry container name kind := by
  unfold openEntry withEntry
  cases g.find? container with
  | none => rfl
  | some holder =>
    dsimp only
    cases g.findEntry holder name kind with
    | some id => rfl
    | none =>
      dsimp only
      rw [addEdge_eq]
      generalize Graph.withEdge _ (entryEdge holder) container _ = result
      cases result <;> rfl

end Graph

/-! ## All operations -/

namespace Outcome

/-- The outcome of an operation that leaves the graph `g` if it fails. -/
def orKeep (g : Graph) (result : Except Error Graph) : Outcome :=
  match result with
  | .ok next => done next
  | .error e => (.error e, g)

/-- The outcome of an operation that gives a node, or leaves the graph `g` if it fails. -/
def nodeOrKeep (g : Graph) (result : Except Error (NodeId × Graph)) : Outcome :=
  match result with
  | .ok made => node made
  | .error e => (.error e, g)

/-- The outcome of an operation that answers yes or no, or leaves the graph `g` if it fails. -/
def flagOrKeep (g : Graph) (result : Except Error (Bool × Graph)) : Outcome :=
  match result with
  | .ok (yes, next) => (.ok (.flag yes), next)
  | .error e => (.error e, g)

variable {g : Graph}

/-- A call that does all or nothing leaves the graph if it fails. -/
theorem half_eq {call : Except Error Unit × Graph} {result : Except Error Graph}
    (settled : call = g.settle result) : half call = orKeep g result := by
  rw [settled]
  cases result <;> rfl

/-- The same for a call that gives a node. -/
theorem nodeHalf_eq {call : Except Error NodeId × Graph} {result : Except Error (NodeId × Graph)}
    (settled : call = g.settleWith result) : nodeHalf call = nodeOrKeep g result := by
  rw [settled]
  cases result <;> rfl

/-- The same for a call that answers yes or no. -/
theorem flagHalf_eq {call : Except Error Bool × Graph} {result : Except Error (Bool × Graph)}
    (settled : call = g.settleWith result) : flagHalf call = flagOrKeep g result := by
  rw [settled]
  cases result <;> rfl

end Outcome

/-- What an operation comes to: its work done, or, where it does all or nothing, the graph as it was. -/
def Operation.effect (g : Graph) : Operation → Outcome
  | .createNode kind => .nodeOrKeep g (g.withNode kind)
  | .createNodeWithId kind id =>
    .nodeOrKeep g ((g.withNodeAt kind id).map fun created => (id, created))
  | .replaceNode id kind => .orKeep g (g.withKind id kind)
  | .setName id name => .orKeep g (g.withName id name)
  | .addEdge edge source target => .orKeep g (g.withEdge edge source target)
  | .addValueEdge edge source target value =>
    .orKeep g (g.withValueEdge edge source target value)
  | .setEdge edge source target => .orKeep g (g.withSingle edge source target)
  | .removeEdge edge source target => .flagOrKeep g (g.withoutEdge edge source target)
  | .hide id => .orKeep g (g.withHidden id)
  | .hideOnly id => .orKeep g (g.withState .hideNodeOnly id .filtered)
  | .revealOnly id => .orKeep g (g.withState .showNodeOnly id .notFiltered)
  | .loadFilter input => .orKeep g (g.withFilter input)
  | operation => operation.perform g

/-- Performing an operation comes to its effect. -/
theorem Operation.perform_eq (g : Graph) (operation : Operation) :
    operation.perform g = operation.effect g := by
  cases operation with
  | createNode kind => exact Outcome.nodeHalf_eq (g.createNode_eq kind)
  | createNodeWithId kind id => exact Outcome.nodeHalf_eq (g.createNodeWithId_eq kind id)
  | replaceNode id kind => exact Outcome.half_eq (g.replaceNode_eq id kind)
  | setName id name => exact Outcome.half_eq (g.setName_eq id name)
  | addEdge e source target => exact Outcome.half_eq (g.addEdge_eq e source target)
  | addValueEdge e source target value =>
    exact Outcome.half_eq (g.addValueEdge_eq e source target value)
  | setEdge e source target => exact Outcome.half_eq (g.setEdge_eq e source target)
  | removeEdge e source target => exact Outcome.flagHalf_eq (g.removeEdge_eq e source target)
  | hide id => exact Outcome.half_eq (g.hide_eq id)
  | hideOnly id => exact Outcome.half_eq (g.setFilterState_eq .hideNodeOnly id .filtered)
  | revealOnly id => exact Outcome.half_eq (g.setFilterState_eq .showNodeOnly id .notFiltered)
  | loadFilter input => exact Outcome.half_eq (g.loadFilter_eq input)
  | _ => rfl

end CodeGraph
