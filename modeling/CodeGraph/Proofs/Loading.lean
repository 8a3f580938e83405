import CodeGraph.Proofs.History
import CodeGraph.Proofs.Payload
import CodeGraph.Proofs.Structure

/-!
# Loading as a run of steps

Loading a file leaves a graph as it was, or clears it and then takes steps of a few kinds: a node
is made and filled from the bytes, texts are read, nodes are put below those that list them, and
values and special nodes are found again. This holds whether or not the load succeeds. Main
statements: `Graph.loads_load`, what every such step keeps (`LoadStep.sound` for the nodes,
`LoadStep.suited` for their attributes), and `Graph.preserves_after`: what edits and steps of
loading keep holds after every history.
-/

set_option autoImplicit false

namespace CodeGraph

open Relation

namespace Graph

/-- A step of loading a file. -/
inductive LoadStep : Graph → Graph → Prop
  /-- A node at an unused id, filled as far as the bytes allow. -/
  | fill (g : Graph) {kind : NodeKind} {id : NodeId} (concrete : kind.isAbstract = false)
      (valid : id.isValid = true) (hole : g.find? id = none) (input : Bytes) :
      LoadStep g
        ((g.insertNode kind id).updateNode id fun _ => ((Node.fresh id kind).load input).1)
  /-- Texts from a stored table. -/
  | texts (g : Graph) (input : Bytes) : LoadStep g { g with texts := (g.texts.load input).1 }
  /-- A text that may be new. -/
  | intern (g : Graph) (s : String) : LoadStep g (g.intern s).2
  /-- A node below one that lists it. -/
  | adopt (g : Graph) {id : NodeId} {p : Parent} (contains : p.edge.isContainment = true)
      (lists : g.nodes.Lists p.edge p.id id) : LoadStep g (g.updateNode id (Node.adopted p))
  /-- The values that nodes stand for. -/
  | values (g : Graph) (singletons : List (SingletonKey × NodeId)) :
      LoadStep g { g with singletons }
  /-- The nodes that a graph tells apart. -/
  | places (g : Graph) (root fileSystem systemComponent : NodeId) :
      LoadStep g { g with root, fileSystem, systemComponent }

/-- A run of steps of loading a file. -/
def LoadRun : Graph → Graph → Prop :=
  ReflTransGen LoadStep

/-- What every step of loading keeps, every run keeps. -/
theorem LoadRun.preserves {Inv : Graph → Prop} (step : ∀ g h, LoadStep g h → Inv g → Inv h)
    {g h : Graph} (run : LoadRun g h) (start : Inv g) : Inv h := by
  induction run with
  | refl => exact start
  | tail run last ih => exact step _ _ last ih

/-- Every step of loading keeps nodes at the positions of their ids. -/
theorem LoadStep.indexed {g h : Graph} (step : LoadStep g h) (indexed : g.nodes.Indexed) :
    h.nodes.Indexed := by
  cases step with
  | @fill kind id concrete valid hole input =>
    have inserted : (g.nodes.insert id (.fresh id kind)).Indexed :=
      indexed.insert (.fresh id kind)
    obtain ⟨name, attributes, slots, loaded, -⟩ := Node.load_eq (.fresh id kind) input
    apply inserted.update id
    intro n found
    rw [inserted.id_eq found, loaded]
    rfl
  | texts input => exact indexed
  | intern s => exact indexed
  | @adopt id p contains lists => exact indexed.update id fun _ _ => rfl
  | values singletons => exact indexed
  | places root fileSystem systemComponent => exact indexed

/-- Every step of loading keeps the nodes sound. -/
theorem LoadStep.sound {g h : Graph} (step : LoadStep g h) (sound : g.nodes.Sound) :
    h.nodes.Sound := by
  cases step with
  | @fill kind id concrete valid hole input =>
    have inserted := sound.insert concrete valid hole
    obtain ⟨name, attributes, slots, loaded, -⟩ := Node.load_eq (.fresh id kind) input
    have only : ∀ n, (g.nodes.insert id (.fresh id kind)).find? id = some n → n = .fresh id kind := by
      intro n found
      rw [NodeTable.find?_insert, if_pos rfl] at found
      exact (Option.some.inj found).symm
    refine inserted.update ?_ ?_ ?_ ?_
    · intro n found
      rw [only n found, loaded]
    · intro n found
      rw [only n found, loaded]
    · intro n _
      exact Node.wellFormed_load valid concrete input
    · intro n e found _
      rw [only n found, Node.targets_fresh]
      exact List.nil_subset _
  | texts input => exact sound
  | intern s => exact sound
  | adopt contains lists => exact sound.adopt contains lists
  | values singletons => exact sound
  | places root fileSystem systemComponent => exact sound

/-- A step of loading keeps nodes well formed. -/
theorem LoadStep.wellFormed {g h : Graph} (step : LoadStep g h) (wf : g.nodes.WellFormed) :
    h.nodes.WellFormed := by
  cases step with
  | @fill kind id concrete valid hole input =>
    intro other n found
    obtain ⟨old, was, rfl⟩ := NodeTable.exists_of_find?_update found
    split
    · exact Node.wellFormed_load valid concrete input
    · next different =>
      exact wf other old ((NodeTable.find?_insert_other _ different _).symm.trans was)
  | texts input => exact wf
  | intern s => exact wf
  | adopt contains lists => exact NodeTable.forall_update wf fun n found => (wf _ n found).adopt _
  | values singletons => exact wf
  | places root fileSystem systemComponent => exact wf

/-- A step of loading keeps attributes that suit their kinds. -/
theorem LoadStep.suited {g h : Graph} (step : LoadStep g h) (suited : g.nodes.Suited) :
    h.nodes.Suited := by
  cases step with
  | @fill kind id concrete valid hole input =>
    intro other n found
    obtain ⟨old, was, rfl⟩ := NodeTable.exists_of_find?_update found
    obtain ⟨name, attributes, slots, loaded, -⟩ := Node.load_eq (.fresh id kind) input
    have kept : ((Node.fresh id kind).load input).1.kind = kind := by rw [loaded]; rfl
    split
    · rw [kept]
      exact Node.suits_load id kind input
    · next different =>
      exact suited other old ((NodeTable.find?_insert_other _ different _).symm.trans was)
  | texts input => exact suited
  | intern s => exact suited
  | adopt contains lists =>
    exact NodeTable.forall_update suited fun n found => suited _ n found
  | values singletons => exact suited
  | places root fileSystem systemComponent => exact suited

/-- The filter covers a graph and hides none of its nodes. -/
def HidesNothing (g : Graph) : Prop :=
  g.filter.states = Array.replicate g.size .notFiltered

/-- A filter that hides nothing has a state just for the positions of the table of nodes. -/
theorem HidesNothing.state? {g : Graph} (nothing : g.HidesNothing) (id : NodeId) :
    g.filter.state? id = if id.index < g.size then some .notFiltered else none := by
  unfold Filter.state? IdTable.get? Filter.table
  rw [nothing, Array.getElem?_replicate]

/-- A new node is not hidden. -/
theorem HidesNothing.insertNode {g : Graph} (nothing : g.HidesNothing) (kind : NodeKind)
    (id : NodeId) : (g.insertNode kind id).HidesNothing := by
  have size : (g.nodes.insert id (.fresh id kind)).size = max g.size (id.index + 1) :=
    g.nodes.size_insert id _
  have states : g.filter.states = Array.replicate g.size .notFiltered := nothing
  have longer : ¬ max g.size (id.index + 1) < g.size := by omega
  have grown : g.size + (max g.size (id.index + 1) - g.size) = max g.size (id.index + 1) := by omega
  have covered : id.index + 1 - max g.size (id.index + 1) = 0 := by omega
  have resized : (g.filter.resize (max g.size (id.index + 1))).states =
      Array.replicate (max g.size (id.index + 1)) .notFiltered := by
    unfold Filter.resize IdTable.resize IdTable.grow Filter.table
    simp only [states, Array.size_replicate, if_neg longer, Array.replicate_append_replicate,
      grown]
  unfold HidesNothing
  rw [size_insertNode]
  change ((g.filter.resize (g.nodes.insert id (.fresh id kind)).size).set id .notFiltered).states = _
  rw [size]
  unfold Filter.set IdTable.set IdTable.grow Filter.table
  simp [resized, covered]

/-- A step of loading hides nothing. -/
theorem LoadStep.hidesNothing {g h : Graph} (step : LoadStep g h) (nothing : g.HidesNothing) :
    h.HidesNothing := by
  cases step with
  | @fill kind id concrete valid hole input =>
    have inserted := nothing.insertNode kind id
    unfold HidesNothing at inserted ⊢
    rw [size_updateNode]
    exact inserted
  | texts input => exact nothing
  | intern s => exact nothing
  | adopt contains lists =>
    unfold HidesNothing at nothing ⊢
    rw [size_updateNode]
    exact nothing
  | values singletons => exact nothing
  | places root fileSystem systemComponent => exact nothing

/-- A step of loading keeps the language. -/
theorem LoadStep.language_eq {g h : Graph} (step : LoadStep g h) : h.language = g.language := by
  cases step <;> rfl

/-- A step of loading builds no index. -/
theorem LoadStep.index_eq_none {g h : Graph} (step : LoadStep g h) (nothing : g.index = none) :
    h.index = none := by
  cases step with
  | fill concrete valid hole input => exact congrArg (Option.map _) nothing
  | texts input => exact nothing
  | intern s => exact nothing
  | adopt contains lists => exact nothing
  | values singletons => exact nothing
  | places root fileSystem systemComponent => exact nothing

end Graph

namespace GraphFile

open CodeGraph.Graph

/-- A node that a stored id and kind tell of is a fresh one at an unused id, and nothing is left of one
that cannot be made. -/
theorem openNode_cases (g : Graph) (raw : UInt32) (code : UInt16) :
    (∃ cause, openNode g raw code = (.error cause, g)) ∨
      ∃ kind id, kind.isAbstract = false ∧ id.isValid = true ∧ g.find? id = none ∧
        openNode g raw code = (.ok id, g.insertNode kind id) := by
  unfold openNode
  cases nodeKind code with
  | error cause => exact Or.inl ⟨cause, rfl⟩
  | ok kind =>
    cases nodeId raw with
    | error cause => exact Or.inl ⟨cause, rfl⟩
    | ok id =>
      dsimp only
      rw [createNodeWithId_eq]
      cases created : g.withNodeAt kind id with
      | error cause => exact Or.inl ⟨cause, rfl⟩
      | ok next =>
        obtain ⟨concrete, valid, hole, rfl⟩ := withNodeAt_eq_ok created
        exact Or.inr ⟨kind, id, concrete, valid, hole, rfl⟩

/-- A node that could be made is read into. -/
theorem loadNode_of_ok {scan : NodeScan} {raw : UInt32} {code : UInt16} {kind : NodeKind} {id : NodeId}
    (opened : openNode scan.graph raw code = (.ok id, scan.graph.insertNode kind id))
    (input : Bytes) :
    loadNode scan raw code input =
      (⟨(scan.graph.insertNode kind id).updateNode id fun _ => ((Node.fresh id kind).load input).1,
        scan.first.or (some id)⟩, ((Node.fresh id kind).load input).2) := by
  have made : (scan.graph.insertNode kind id).find? id = some (.fresh id kind) := by
    rw [find?_insertNode, if_pos rfl]
  unfold loadNode
  simp only [opened, made]

/-- Reading one node is at most one step of loading. -/
theorem loads_loadNode (scan : NodeScan) (raw : UInt32) (code : UInt16) (input : Bytes) :
    LoadRun scan.graph (loadNode scan raw code input).1.graph := by
  rcases openNode_cases scan.graph raw code with ⟨cause, refused⟩ | ⟨kind, id, concrete, valid, hole, opened⟩
  · unfold loadNode
    simp only [refused]
    exact .refl
  · rw [loadNode_of_ok opened]
    exact ReflTransGen.single (.fill scan.graph concrete valid hole input)

/-- Reading nodes is a run of steps of loading, however far it gets. -/
theorem loads_loadNodeRounds (rounds : Nat) (scan : NodeScan) (input : Bytes) :
    LoadRun scan.graph (loadNodeRounds rounds scan input).1.graph := by
  induction rounds generalizing scan input with
  | zero => exact .refl
  | succ rounds ih =>
    unfold loadNodeRounds
    split
    · exact .refl
    · next raw code rest tag =>
      split
      · exact .refl
      · have first := loads_loadNode scan raw code rest
        split
        · next result =>
          -- a record that breaks off leaves what was read of its node
          rw [result] at first
          exact first
        · next next left result =>
          rw [result] at first
          exact first.trans (ih next left)

/-- The parents that containment edges give list their nodes. -/
theorem lists_of_mem_parentage {g : Graph} (sound : g.nodes.Sound) {id : NodeId} {p : Parent}
    (mem : (id, p) ∈ parentage g) :
    p.edge.isContainment = true ∧ g.nodes.Lists p.edge p.id id := by
  unfold parentage at mem
  obtain ⟨n, listed, links⟩ := List.mem_flatMap.1 mem
  obtain ⟨e, edge, same⟩ := List.mem_map.1 links
  obtain ⟨edge, contains⟩ := List.mem_filter.1 edge
  cases same
  have found := (sound.indexed.mem_toList_iff n).1 listed
  obtain ⟨source, far⟩ := (Node.mem_edges_iff (sound.wellFormed n.id n found).distinct e).1 edge
  exact ⟨contains, n, source ▸ found, _, far, rfl⟩

/-- Giving nodes the parents that list them is a run of steps of loading. -/
theorem loads_adopt {g : Graph} (links : List (NodeId × Parent))
    (lists : ∀ link ∈ links, link.2.edge.isContainment = true ∧
      g.nodes.Lists link.2.edge link.2.id link.1) :
    LoadRun g (links.foldl
      (fun g link => g.updateNode link.1 fun n => { n with parent := some link.2 }) g) := by
  induction links generalizing g with
  | nil => exact .refl
  | cons link links ih =>
    obtain ⟨contains, listed⟩ := lists link List.mem_cons_self
    refine ReflTransGen.head (.adopt g contains listed) (ih fun other mem => ?_)
    -- a new parent takes no edge away, so that the later links are listed as before
    obtain ⟨contains, listed⟩ := lists other (List.mem_cons_of_mem _ mem)
    exact ⟨contains, listed.update fun n _ => List.Subset.refl _⟩

/-- Finding again which nodes stand for which values keeps what new texts and other values keep. -/
theorem linkSingletons_preserves {P : Graph → Prop} (intern : ∀ g s, P g → P (g.intern s).2)
    (values : ∀ g singletons, P g → P { g with singletons }) {g : Graph} (start : P g) :
    P (linkSingletons g) := by
  have remember : ∀ h key id, P h → P (h.remember key id) := by
    intro h key id before
    unfold Graph.remember
    split
    · exact before
    · exact values h _ before
  have plain : P (g.nodeList.foldl rememberNode { g with singletons := [] }) := by
    refine List.foldlRecOn _ _ (values g [] start) fun h before n _ => ?_
    unfold rememberNode
    split
    · exact remember h _ n.id before
    · exact before
  refine List.foldlRecOn _ _ plain fun h before n _ => ?_
  unfold rememberType
  split
  · exact remember _ _ n.id (intern h _ before)
  · exact before

/-- Finding again all that follows from the nodes is a run of steps of loading. -/
theorem loads_link {g : Graph} (sound : g.nodes.Sound) (first : Option NodeId) :
    LoadRun g (link g first) := by
  have parents : LoadRun g (linkParents g) :=
    loads_adopt (parentage g) fun _ mem => lists_of_mem_parentage sound mem
  have linked : LoadRun g (linkSingletons (linkParents g)) :=
    linkSingletons_preserves (fun h s run => run.tail (.intern h s))
      (fun h singletons run => run.tail (.values h singletons)) parents
  exact linked.tail (.places _ _ _ _)

/-- Filling a graph from a file is a run of steps of loading. -/
theorem loads_loadContent {g : Graph} (sound : g.nodes.Sound) (input : Bytes) :
    LoadRun g (loadContent g input).2 := by
  have nodes := loads_loadNodeRounds (input.length + 1) { graph := g } input
  have filled := nodes.preserves (fun _ _ step => step.sound) sound
  unfold loadContent loadNodes
  split
  · next scan cause result =>
    rw [result] at nodes
    exact nodes
  · next scan rest result =>
    rw [result] at nodes filled
    have texts : LoadRun g { scan.graph with texts := (scan.graph.texts.load rest).1 } :=
      ReflTransGen.tail nodes (.texts scan.graph rest)
    split
    · next table cause read =>
      rw [read] at texts
      exact texts
    · next table left read =>
      rw [read] at texts
      refine texts.trans (loads_link ?_ scan.first)
      exact filled

end GraphFile

namespace Graph

/-- Loading a file leaves a graph as it was, or clears it and takes a run of steps. -/
theorem loads_load (g : Graph) (headers : List Header) (input : Bytes) :
    (g.load headers input).2.2 = g ∨
      ∃ language, LoadRun { g.clear with language } (g.load headers input).2.2 := by
  unfold load
  split
  · exact Or.inl rfl
  · split
    · split
      · exact Or.inl rfl
      · split
        · exact Or.inl rfl
        · next language _ =>
          exact Or.inr ⟨language, GraphFile.loads_loadContent NodeTable.sound_empty _⟩
    · exact Or.inl rfl

/-- What edits under a rule and steps of loading keep, and what holds without nodes, is kept by every
operation that gives attributes under that rule. -/
theorem preserves_described {rule : NodeKind → Attributes → Prop} {Inv : Graph → Prop}
    (allowed : ∀ kind a, Attributes.Suits kind a → rule kind a)
    (edits : ∀ g h, Edit rule g h → Inv g → Inv h) (loads : ∀ g h, LoadStep g h → Inv g → Inv h)
    (clears : ∀ language filterOn, Inv (empty language filterOn)) {g : Graph}
    {operation : Operation} (describes : operation.Describes rule g) (inv : Inv g) :
    Inv (operation.perform g).2 := by
  refine preserves_perform allowed edits clears ?_ describes inv
  rintro headers input rfl
  change Inv (g.load headers input).2.2
  rcases g.loads_load headers input with same | ⟨language, run⟩
  · rw [same]
    exact inv
  · exact run.preserves loads (clears language g.filterOn)

section Steps

variable {Inv : Graph → Prop} (edits : ∀ g h, Edit (fun _ _ => True) g h → Inv g → Inv h)
  (loads : ∀ g h, LoadStep g h → Inv g → Inv h)
  (clears : ∀ language filterOn, Inv (empty language filterOn))

include edits loads clears

/-- What edits and steps of loading keep, and what holds without nodes, every operation keeps. -/
theorem preserves_operation {g : Graph} (operation : Operation) (inv : Inv g) :
    Inv (operation.perform g).2 :=
  preserves_described (fun _ _ _ => trivial) edits loads clears
    (operation.describes_of_forall (fun _ _ => trivial) g) inv

/-- What edits and steps of loading keep, and what holds without nodes, holds after every history. -/
theorem preserves_after (language : Language) (history : List Operation) :
    Inv ((new language).after history) := by
  have along : (new language).Along (fun _ _ => True) history :=
    along_of_forall (fun _ _ _ => trivial) _
  exact along.preserves (fun _ operation _ => preserves_operation edits loads clears operation)
    (preserves_new edits clears language)

end Steps

/-- Whatever is done to a new graph, the last position of its nodes is taken. -/
theorem trim_after (language : Language) (history : List Operation) :
    ((new language).after history).nodes.Trim := by
  have edits : ∀ g h, Edit (fun _ _ => True) g h → g.nodes.Trim → h.nodes.Trim := fun _ _ edit =>
    edit.nodes_preserves (fun _ id n trim => trim.insert id n) fun _ id f trim => trim.update id f
  have loads : ∀ g h, LoadStep g h → g.nodes.Trim → h.nodes.Trim := by
    intro g h step trim
    cases step with
    | fill concrete valid hole input => exact (trim.insert _ _).update _ _
    | adopt contains lists => exact trim.update _ _
    | _ => exact trim
  exact preserves_after edits loads (fun _ _ => NodeTable.trim_empty) language history

/-- An empty graph has no nodes that could be ill formed. -/
theorem wellFormed_empty (language : Language) (filterOn : Bool) :
    (empty language filterOn).nodes.WellFormed := by
  intro id n found
  simp [empty] at found

/-- The nodes of a new graph are well formed. -/
theorem wellFormed_new (language : Language) : (new language).nodes.WellFormed := by
  have edits : ∀ g h, Edit (fun _ _ => True) g h → g.nodes.WellFormed → h.nodes.WellFormed :=
    fun _ _ edit => edit.wellFormed
  exact preserves_new edits wellFormed_empty language

/-- Whatever is done to a new graph, its nodes are well formed. -/
theorem wellFormed_nodes_after (language : Language) (history : List Operation) :
    ((new language).after history).nodes.WellFormed := by
  have edits : ∀ g h, Edit (fun _ _ => True) g h → g.nodes.WellFormed → h.nodes.WellFormed :=
    fun _ _ edit => edit.wellFormed
  exact preserves_after edits (fun _ _ step => step.wellFormed) wellFormed_empty language history

/-- Every operation keeps nodes well formed. -/
theorem wellFormed_perform {g : Graph} (operation : Operation) (wf : g.nodes.WellFormed) :
    (operation.perform g).2.nodes.WellFormed := by
  have edits : ∀ g h, Edit (fun _ _ => True) g h → g.nodes.WellFormed → h.nodes.WellFormed :=
    fun _ _ edit => edit.wellFormed
  exact preserves_operation edits (fun _ _ step => step.wellFormed) wellFormed_empty operation wf

/-- A history that gives nodes only attributes that suit their kinds leaves nodes with such
attributes. -/
theorem suited_nodes_after (language : Language) (history : List Operation)
    (suits : (new language).Along (fun g operation => operation.Describes Attributes.Suits g)
      history) : ((new language).after history).nodes.Suited := by
  let Inv : Graph → Prop := fun g => g.nodes.Suited
  have edits : ∀ g h, Edit Attributes.Suits g h → Inv g → Inv h := fun _ _ edit => edit.suited
  have loads : ∀ g h, LoadStep g h → Inv g → Inv h := fun _ _ step => step.suited
  have clears : ∀ language filterOn, Inv (empty language filterOn) :=
    fun _ _ id n found => by simp [empty] at found
  exact suits.preserves
    (fun _ _ => preserves_described (fun _ _ suits => suits) edits loads clears)
    (preserves_new edits clears language)

/-- Whatever is done to a new graph, its nodes lie at the positions of their ids. -/
theorem indexed_after (language : Language) (history : List Operation) :
    ((new language).after history).nodes.Indexed := by
  let Inv : Graph → Prop := fun g => g.nodes.Indexed
  have edits : ∀ g h, Edit (fun _ _ => True) g h → Inv g → Inv h := fun _ _ edit => edit.indexed
  have loads : ∀ g h, LoadStep g h → Inv g → Inv h := fun _ _ step => step.indexed
  exact preserves_after edits loads (fun _ _ => NodeTable.indexed_empty) language history

end Graph

end CodeGraph
