import CodeGraph.Proofs.Saving

/-!
# Saving and loading

A saved graph can be loaded into any graph, and gives back its language, its size, its nodes with
all they hold, and its texts; the filter hides nothing afterwards. Parents are not stored but found
again from containment edges, so they come back if every node has at most one such edge to it and
its parent is where that edge starts. Loading interns texts of types; once the last key is in use those
get keys that other texts have, and replace them. Main statement: `Graph.load_saved_after`;
`Graph.name_overwritten_by_loading` has a graph of which loading replaces a text.
-/

set_option autoImplicit false

namespace CodeGraph

namespace GraphFile

open CodeGraph.Graph

/-! ## Reading the records of nodes -/

/-- The graph with a node as its record tells of it: without a parent. -/
def restore (g : Graph) (n : Node) : Graph :=
  (g.insertNode n.kind n.id).updateNode n.id fun _ => { n with parent := none }

/-- Restoring a node puts it back without its parent. -/
theorem nodes_restore (g : Graph) (n : Node) :
    (restore g n).nodes =
      (g.nodes.insert n.id (.fresh n.id n.kind)).update n.id fun _ => { n with parent := none } := by
  unfold restore
  rw [nodes_updateNode, nodes_insertNode]

/-- Restoring a node keeps the texts. -/
theorem texts_restore (g : Graph) (n : Node) : (restore g n).texts = g.texts := by
  unfold restore
  rw [texts_updateNode, texts_insertNode]

/-- A node that was restored is found without its parent, and the others stay. -/
theorem find?_restore (g : Graph) (n : Node) (id : NodeId) :
    (restore g n).find? id = if id = n.id then some { n with parent := none } else g.find? id := by
  unfold restore
  rw [find?_updateNode, find?_insertNode, find?_insertNode, if_pos rfl]
  split <;> rfl

/-- The code of a kind fits into two bytes. -/
theorem toNat_code (kind : NodeKind) :
    (UInt16.ofNat (Enumerated.code kind)).toNat = Enumerated.code kind := by
  have few : (Enumerated.all : List NodeKind).length ≤ 2 ^ 16 := by decide
  rw [UInt16.toNat_ofNat']
  exact Nat.mod_eq_of_lt (Nat.lt_of_lt_of_le (Enumerated.code_lt_length kind) few)

/-- The id and the kind of a record can be read. -/
theorem readTag_record (n : Node) (rest : Bytes) :
    readTag (n.record ++ rest) =
      .ok ((n.id.raw, UInt16.ofNat (Enumerated.code n.kind)), n.save ++ rest) := by
  have lawful := Codec.lawful_pair Codec.lawful_u32 Codec.lawful_u16
    (n.id.raw, UInt16.ofNat (Enumerated.code n.kind)) (n.save ++ rest)
  unfold readTag Node.record
  rw [List.append_assoc]
  simp only [Codec.pair, Codec.u16, toNat_code] at lawful ⊢
  exact lawful

/-- A record of a node that is not there yet makes that node. -/
theorem loadNode_record {scan : NodeScan} {n : Node} (wf : n.WellFormed)
    (suits : Attributes.Suits n.kind n.attributes) (hole : scan.graph.find? n.id = none)
    (rest : Bytes) :
    loadNode scan n.id.raw (UInt16.ofNat (Enumerated.code n.kind)) (n.save ++ rest) =
      (⟨restore scan.graph n, scan.first.or (some n.id)⟩, .ok rest) := by
  have kind : nodeKind (UInt16.ofNat (Enumerated.code n.kind)) = .ok n.kind := by
    unfold nodeKind
    rw [toNat_code, Enumerated.ofCode?_code]
    simp only [wf.concrete, Bool.false_eq_true, if_false]
  have id : nodeId n.id.raw = .ok n.id := by
    unfold nodeId
    rw [NodeId.ofRaw?_raw]
    simp only [wf.valid, if_true]
  have created : scan.graph.createNodeWithId n.kind n.id =
      (.ok n.id, scan.graph.insertNode n.kind n.id) := by
    have free : scan.graph.nodes.contains n.id = false := by
      unfold NodeTable.contains
      rw [Option.isSome_eq_false_iff, Option.isNone_iff_eq_none]
      exact hole
    unfold createNodeWithId
    simp only [wf.concrete, wf.valid, free, Bool.false_eq_true, Bool.not_true, if_false]
  have opened : openNode scan.graph n.id.raw (UInt16.ofNat (Enumerated.code n.kind)) =
      (.ok n.id, scan.graph.insertNode n.kind n.id) := by
    unfold openNode
    simp only [kind, id, created]
  rw [loadNode_of_ok opened, Node.load_save wf suits]
  rfl

/-- The records of several nodes make all of them. -/
theorem loadNodeRounds_records {nodes : List Node} (wf : ∀ n ∈ nodes, n.WellFormed)
    (suits : ∀ n ∈ nodes, Attributes.Suits n.kind n.attributes)
    (once : (nodes.map Node.id).Nodup) {rounds : Nat} (enough : nodes.length < rounds)
    (scan : NodeScan) (holes : ∀ n ∈ nodes, scan.graph.find? n.id = none) (rest : Bytes) :
    loadNodeRounds rounds scan (nodes.flatMap Node.record ++ endOfNodes ++ rest) =
      (⟨nodes.foldl restore scan.graph, scan.first.or (nodes.head?.map Node.id)⟩, .ok rest) := by
  induction nodes generalizing rounds scan with
  | nil =>
    cases rounds with
    | zero => exact absurd enough (Nat.not_lt_zero _)
    | succ rounds =>
      have mark := Codec.lawful_pair Codec.lawful_u32 Codec.lawful_u16 (0, 0) rest
      change readTag (endOfNodes ++ rest) = .ok ((0, 0), rest) at mark
      unfold loadNodeRounds
      rw [List.flatMap_nil, List.nil_append, mark, List.head?_nil, Option.map_none, Option.or_none]
      rfl
  | cons n nodes ih =>
    cases rounds with
    | zero => exact absurd enough (Nat.not_lt_zero _)
    | succ rounds =>
      obtain ⟨absent, once⟩ := List.nodup_cons.1 once
      obtain ⟨wf, wfs⟩ := List.forall_mem_cons.1 wf
      obtain ⟨suit, suits⟩ := List.forall_mem_cons.1 suits
      obtain ⟨hole, holes⟩ := List.forall_mem_cons.1 holes
      -- the later records are of other nodes, so that their ids stay unused
      have still : ∀ m ∈ nodes, (restore scan.graph n).find? m.id = none := by
        intro m mem
        have different : m.id ≠ n.id := fun same => absent (same ▸ List.mem_map_of_mem mem)
        rw [find?_restore, if_neg different]
        exact holes m mem
      have notEnd : ¬ (n.id.raw = 0 ∧ UInt16.ofNat (Enumerated.code n.kind) = 0) :=
        fun zero => n.id.ne_zero zero.1
      have others := ih wfs suits once (Nat.lt_of_succ_lt_succ enough)
        ⟨restore scan.graph n, scan.first.or (some n.id)⟩ still
      unfold loadNodeRounds
      rw [List.flatMap_cons, List.append_assoc, List.append_assoc, readTag_record]
      simp only [if_neg notEnd, loadNode_record wf suit hole]
      rw [← List.append_assoc, List.foldl_cons, others]
      -- the first node of all stays the first one
      cases scan.first <;> rfl

/-- Restoring nodes keeps the texts. -/
theorem texts_foldl_restore (nodes : List Node) (g : Graph) :
    (nodes.foldl restore g).texts = g.texts :=
  List.foldlRecOn (motive := fun h : Graph => h.texts = g.texts) nodes restore rfl
    fun h same n _ => (texts_restore h n).trans same

/-- Restoring nodes keeps every node at its position. -/
theorem indexed_foldl_restore (nodes : List Node) {g : Graph} (indexed : g.nodes.Indexed) :
    (nodes.foldl restore g).nodes.Indexed := by
  refine List.foldlRecOn (motive := fun h : Graph => h.nodes.Indexed) nodes restore indexed
    fun h indexed n _ => ?_
  have inserted : (h.nodes.insert n.id (.fresh n.id n.kind)).Indexed :=
    indexed.insert (.fresh n.id n.kind)
  rw [nodes_restore]
  exact inserted.update n.id fun m found => (inserted.id_eq found).symm

/-- Restoring other nodes changes nothing at an id. -/
theorem find?_foldl_restore_of_notMem {nodes : List Node} {id : NodeId}
    (absent : id ∉ nodes.map Node.id) (g : Graph) :
    (nodes.foldl restore g).find? id = g.find? id := by
  induction nodes generalizing g with
  | nil => rfl
  | cons n nodes ih =>
    rw [List.map_cons, List.mem_cons, not_or] at absent
    rw [List.foldl_cons, ih absent.2, find?_restore, if_neg absent.1]

/-- A node that was restored is found, if no other one has its id. -/
theorem find?_foldl_restore_of_mem {nodes : List Node} (once : (nodes.map Node.id).Nodup) {n : Node}
    (mem : n ∈ nodes) (g : Graph) :
    (nodes.foldl restore g).find? n.id = some { n with parent := none } := by
  induction nodes generalizing g with
  | nil => exact absurd mem List.not_mem_nil
  | cons first nodes ih =>
    obtain ⟨absent, once⟩ := List.nodup_cons.1 once
    rw [List.foldl_cons]
    rcases List.mem_cons.1 mem with rfl | later
    · rw [find?_foldl_restore_of_notMem absent, find?_restore, if_pos rfl]
    · exact ih once later _

/-- The records of all nodes of a graph give all of them back, without parents. -/
theorem find?_foldl_restore {f g : Graph} (indexed : f.nodes.Indexed)
    (nothing : ∀ id, g.find? id = none) {listed : List Node} (once : (listed.map Node.id).Nodup)
    (all : ∀ n, n ∈ listed ↔ f.find? n.id = some n) (id : NodeId) :
    (listed.foldl restore g).find? id = (f.find? id).map fun n => { n with parent := none } := by
  cases found : f.find? id with
  | some n =>
    have own : n.id = id := indexed.id_eq found
    subst own
    exact find?_foldl_restore_of_mem once ((all n).2 found) g
  | none =>
    have absent : id ∉ listed.map Node.id := by
      intro mem
      obtain ⟨n, among, rfl⟩ := List.mem_map.1 mem
      rw [(all n).1 among] at found
      cases found
    rw [find?_foldl_restore_of_notMem absent, nothing]
    rfl

/-! ## Linking what was read -/

/-- Nodes that are put below others keep all but their parents; of several parents one counts. -/
theorem find?_foldl_adopt (links : List (NodeId × Parent)) (g : Graph) (id : NodeId) :
    ∃ parent : Option Parent,
      (links.foldl (fun g link => g.updateNode link.1 fun n => { n with parent := some link.2 })
        g).find? id = (g.find? id).map (fun n => { n with parent := parent.or n.parent }) ∧
      (∀ p, parent = some p → (id, p) ∈ links) ∧ (parent = none → ∀ p, (id, p) ∉ links) := by
  induction links generalizing g with
  | nil =>
    refine ⟨none, Option.map_id'.symm, fun p absent => ?_, fun _ p => List.not_mem_nil⟩
    cases absent
  | cons link links ih =>
    obtain ⟨parent, found, given, free⟩ :=
      ih (g.updateNode link.1 fun n => { n with parent := some link.2 })
    rw [List.foldl_cons, found, find?_updateNode]
    by_cases here : id = link.1
    · -- a later link to the same node overrides this one
      refine ⟨parent.or (some link.2), ?_, fun p same => ?_, fun nowhere => ?_⟩
      · rw [if_pos here, here, Option.map_map]
        congr 1
        funext n
        simp only [Function.comp_apply, Option.or_assoc]
        cases parent <;> rfl
      · cases parent with
        | none =>
          cases same
          exact here ▸ List.mem_cons_self
        | some q =>
          cases same
          exact List.mem_cons_of_mem _ (given _ rfl)
      · cases parent <;> cases nowhere
    · refine ⟨parent, ?_, fun p same => List.mem_cons_of_mem _ (given p same), fun none p mem => ?_⟩
      · rw [if_neg here]
      · rcases List.mem_cons.1 mem with same | later
        · exact here (congrArg Prod.fst same)
        · exact free none p later

/-- Linking changes nothing about the nodes but their parents. -/
theorem nodes_link (g : Graph) (first : Option NodeId) :
    (link g first).nodes = (linkParents g).nodes := by
  have kept : (linkSingletons (linkParents g)).nodes = (linkParents g).nodes := by
    apply linkSingletons_preserves (P := fun h => h.nodes = (linkParents g).nodes)
    · exact fun _ _ same => same
    · exact fun _ _ same => same
    · rfl
  exact kept

/-- Finding parents again keeps the texts. -/
theorem texts_linkParents (g : Graph) : (linkParents g).texts = g.texts :=
  List.foldlRecOn (motive := fun h : Graph => h.texts = g.texts) _ _ rfl fun _ same _ _ => same

/-- Linking only adds texts. -/
theorem texts_link {P : TextTable → Prop} (intern : ∀ t s, P t → P (t.intern s).2) {g : Graph}
    (start : P g.texts) (first : Option NodeId) : P (link g first).texts := by
  rw [← texts_linkParents g] at start
  exact linkSingletons_preserves (P := fun h => P h.texts) (fun h s => intern h.texts s)
    (fun _ _ before => before) start

/-- Finding again what nodes stand for keeps the texts, types apart. -/
theorem texts_foldl_rememberNode (nodes : List Node) (g : Graph) :
    (nodes.foldl rememberNode g).texts = g.texts := by
  refine List.foldlRecOn (motive := fun h : Graph => h.texts = g.texts) nodes _ rfl
    fun h same n _ => ?_
  unfold rememberNode
  split
  · exact (texts_remember h _ n.id).trans same
  · exact same

/-- Remembering types takes at most one key for each of them. -/
theorem keysBelow_foldl_rememberType (nodes : List Node) {g : Graph} {n : Nat}
    (below : g.texts.KeysBelow n) (small : n + nodes.length < UInt32.size) :
    (nodes.foldl rememberType g).texts.KeysBelow (n + nodes.length) := by
  induction nodes generalizing g n with
  | nil => exact below
  | cons type nodes ih =>
    rw [List.length_cons] at small ⊢
    have one : (rememberType g type).texts.KeysBelow (n + 1) := by
      unfold rememberType
      split
      · rw [texts_remember]
        exact below.intern (by omega) _
      · exact below.mono (Nat.le_succ n)
    have others := ih one (by omega)
    rw [Nat.add_assoc, Nat.add_comm 1] at others
    exact others

/-- Linking takes at most one key for each id. -/
theorem keysBelow_link {g : Graph} {n : Nat} (below : g.texts.KeysBelow n) (first : Option NodeId)
    (small : n + (link g first).size < UInt32.size) :
    (link g first).texts.KeysBelow (n + (link g first).size) := by
  have few : (linkParents g).nodeList.length ≤ (link g first).size := by
    have size : (link g first).size = (linkParents g).nodes.size :=
      congrArg NodeTable.size (nodes_link g first)
    rw [size]
    exact (linkParents g).nodes.length_toList_le
  have plain : ((linkParents g).nodeList.foldl rememberNode
      { linkParents g with singletons := [] }).texts.KeysBelow n := by
    rw [texts_foldl_rememberNode]
    exact (texts_linkParents g).symm ▸ below
  have types := keysBelow_foldl_rememberType (linkParents g).nodeList plain (by omega)
  exact types.mono (by omega)

/-- The records of nodes and the mark that ends them are read from the start of a file's content. -/
theorem loadNodes_saved {g : Graph} (nothing : ∀ id, g.find? id = none) {nodes : List Node}
    (wf : ∀ n ∈ nodes, n.WellFormed) (suits : ∀ n ∈ nodes, Attributes.Suits n.kind n.attributes)
    (once : (nodes.map Node.id).Nodup) (rest : Bytes) :
    loadNodes g (nodes.flatMap Node.record ++ endOfNodes ++ rest) =
      (⟨nodes.foldl restore g, nodes.head?.map Node.id⟩, .ok rest) := by
  have takes : ∀ n ∈ nodes, n.record ≠ [] := by
    intro n _ nothing
    have length := congrArg List.length nothing
    simp [Node.record, Codec.u32] at length
  have counted := InPlace.length_le_flatMap takes
  have enough : nodes.length < (nodes.flatMap Node.record ++ endOfNodes ++ rest).length + 1 := by
    simp only [List.length_append]
    omega
  exact loadNodeRounds_records wf suits once enough { graph := g } (fun n _ => nothing n.id) rest

/-- What a file holds after its header fills an empty graph. -/
theorem loadContent_saved {g : Graph} (nothing : ∀ id, g.find? id = none) (noTexts : g.texts = .empty)
    {nodes : List Node} (wf : ∀ n ∈ nodes, n.WellFormed)
    (suits : ∀ n ∈ nodes, Attributes.Suits n.kind n.attributes)
    (once : (nodes.map Node.id).Nodup) {texts : TextTable}
    (positive : ∀ entry ∈ texts.toList, 0 < entry.1.raw)
    (short : ∀ entry ∈ texts.toList, (Utf8.encode entry.2).length < 2 ^ 32) :
    loadContent g (nodes.flatMap Node.record ++ endOfNodes ++ texts.save) =
      (.ok (), link { nodes.foldl restore g with texts := texts.rebuilt }
        (nodes.head?.map Node.id)) := by
  have read := TextTable.load_save positive short []
  rw [List.append_nil] at read
  unfold loadContent
  rw [loadNodes_saved nothing wf suits once]
  simp only [texts_foldl_restore, noTexts, read]

end GraphFile

namespace Graph

/-! ## Parents -/

/-- All edges, node by node. -/
def allEdges (g : Graph) : List Edge :=
  g.nodeList.flatMap Node.edges

/-- The nodes that contain a node, one for each containment edge to it. -/
def containers (g : Graph) (id : NodeId) : List NodeId :=
  (g.allEdges.filter fun e => e.kind.isContainment && decide (e.target = id)).map Edge.source

/-- Every node is contained in its parent, by one edge, and in no other node. -/
def IsForest (g : Graph) : Prop :=
  ∀ id n, g.find? id = some n → g.containers id = n.parentId?.toList

/-- The edges of a graph are those of its nodes. -/
theorem mem_allEdges {g : Graph} (indexed : g.nodes.Indexed) (e : Edge) :
    e ∈ g.allEdges ↔ ∃ n, g.find? n.id = some n ∧ e ∈ n.edges := by
  unfold allEdges nodeList
  rw [List.mem_flatMap]
  constructor
  · rintro ⟨n, listed, edge⟩
    exact ⟨n, (indexed.mem_toList_iff n).1 listed, edge⟩
  · rintro ⟨n, found, edge⟩
    exact ⟨n, (indexed.mem_toList_iff n).2 found, edge⟩

/-- Parents are found again from the containment edges. -/
theorem mem_parentage_iff (g : Graph) (id : NodeId) (p : Parent) :
    (id, p) ∈ GraphFile.parentage g ↔
      ∃ e ∈ g.allEdges, e.kind.isContainment = true ∧ e.target = id ∧ p = ⟨e.source, e.kind⟩ := by
  unfold GraphFile.parentage allEdges
  rw [List.mem_flatMap]
  constructor
  · rintro ⟨n, listed, mem⟩
    obtain ⟨e, edge, same⟩ := List.mem_map.1 mem
    obtain ⟨edge, contains⟩ := List.mem_filter.1 edge
    cases same
    exact ⟨e, List.mem_flatMap.2 ⟨n, listed, edge⟩, contains, rfl, rfl⟩
  · rintro ⟨e, mem, contains, rfl, rfl⟩
    obtain ⟨n, listed, edge⟩ := List.mem_flatMap.1 mem
    exact ⟨n, listed, List.mem_map.2 ⟨e, List.mem_filter.2 ⟨edge, contains⟩, rfl⟩⟩

/-- In a forest the containment edges to a node tell its parent. -/
theorem IsForest.parent_eq {g : Graph} (sound : g.nodes.Sound) (forest : g.IsForest) {id : NodeId}
    {n : Node} (found : g.find? id = some n) {parent : Option Parent}
    (given : ∀ p, parent = some p → (id, p) ∈ GraphFile.parentage g)
    (free : parent = none → ∀ p, (id, p) ∉ GraphFile.parentage g) : parent = n.parent := by
  have only := forest id n found
  unfold containers Node.parentId? at only
  -- all containment edges to the node are among those that the forest allows
  have counted : ∀ p, (id, p) ∈ GraphFile.parentage g → ∃ e ∈ g.allEdges.filter fun e =>
      e.kind.isContainment && decide (e.target = id), p = ⟨e.source, e.kind⟩ := by
    intro p mem
    obtain ⟨e, edge, contains, target, same⟩ := (mem_parentage_iff g id p).1 mem
    refine ⟨e, List.mem_filter.2 ⟨edge, ?_⟩, same⟩
    rw [contains, target, decide_eq_true rfl]
    rfl
  cases above : n.parent with
  | none =>
    rw [above] at only
    have nothing := List.map_eq_nil_iff.1 only
    cases parent with
    | none => rfl
    | some p =>
      obtain ⟨e, mem, -⟩ := counted p (given p rfl)
      rw [nothing] at mem
      exact absurd mem List.not_mem_nil
  | some q =>
    rw [above] at only
    obtain ⟨e₀, single, -⟩ := List.map_eq_singleton_iff.1 only
    obtain ⟨contains, m, source, far, mem, rfl⟩ := sound.backed id n q found above
    have own : m.id = q.id := sound.indexed.id_eq source
    have link : (far.id, q) ∈ GraphFile.parentage g := by
      have distinct := (sound.wellFormed q.id m source).distinct
      have edge : ⟨q.edge, m.id, far.id, far.value⟩ ∈ m.edges :=
        (Node.mem_edges_iff distinct _).2 ⟨rfl, mem⟩
      refine (mem_parentage_iff g far.id q).2
        ⟨_, (mem_allEdges sound.indexed _).2 ⟨m, own.symm ▸ source, edge⟩, contains, rfl, ?_⟩
      rw [own]
    have unique : ∀ p, (far.id, p) ∈ GraphFile.parentage g → p = ⟨e₀.source, e₀.kind⟩ := by
      intro p among
      obtain ⟨e, mem, same⟩ := counted p among
      rw [single] at mem
      rw [same, List.mem_singleton.1 mem]
    cases parent with
    | none => exact absurd link (free rfl q)
    | some p => rw [unique p (given p rfl), unique q link]

/-! ## The round trip -/

/-- What a graph has to keep to so that a file can tell all of it. -/
structure Storable (g : Graph) : Prop where
  /-- Ids have not run out. -/
  ids : g.size < idLimit
  /-- Keys have not run out. -/
  keys : g.texts.SparesLastKey
  /-- The length of every text can be written. -/
  short : ∀ entry ∈ g.texts.toList, (Utf8.encode entry.2).length < 2 ^ 32
  /-- Every chain of parents ends. -/
  rooted : g.Rooted

/-- The list of the nodes tells whether all chains of parents end. -/
theorem rooted_of_nodeList {g : Graph} (indexed : g.nodes.Indexed) {steps : Nat}
    (reaches : ∀ n ∈ g.nodeList, g.reachesRoot steps n.id = true) : g.Rooted := by
  intro id n found
  have own : n.id = id := indexed.id_eq found
  subst own
  exact ⟨steps, reaches n ((indexed.mem_toList_iff n).2 found)⟩

/-- There are at least as many unused keys as ids in use. -/
def LeavesKeys (g : Graph) : Prop :=
  ∀ entry ∈ g.texts.toList, entry.1.raw.toNat + g.size + 1 < UInt32.size

instance (g : Graph) : Decidable g.LeavesKeys :=
  inferInstanceAs (Decidable (∀ entry ∈ g.texts.toList, _ < UInt32.size))

/-- What a graph that was loaded has in common with the one that was saved, texts and parents
apart. -/
structure Restored (saved loaded : Graph) : Prop where
  language : loaded.language = saved.language
  size : loaded.size = saved.size
  /-- The same ids are in use. -/
  ids : ∀ id, (loaded.find? id).isSome = (saved.find? id).isSome
  /-- Every node has its kind, name, attributes and edges. -/
  nodes : ∀ id n m, saved.find? id = some n → loaded.find? id = some m →
    m.kind = n.kind ∧ m.name = n.name ∧ m.attributes = n.attributes ∧ m.edges = n.edges
  /-- No node is hidden. -/
  filter : ∀ id, loaded.filter.state? id =
    if id.index < loaded.size then some .notFiltered else none

/-- A history that gives nodes only attributes that suit their kinds leaves sound nodes with such
attributes, while ids last. -/
theorem suited_after {language : Language} {history : List Operation}
    (suits : (new language).Along (fun g operation => operation.Describes Attributes.Suits g) history)
    (room : ((new language).after history).size < idLimit) :
    ((new language).after history).nodes.Sound ∧ ((new language).after history).nodes.Suited := by
  let Inv : Graph → Prop := fun g => g.nodes.Sound
  have edits : ∀ g h, Edit Attributes.Suits g h → g.size < idLimit → Inv g → Inv h :=
    fun g h edit => edit.sound
  have loads : ∀ g headers input, Operation.Describes Attributes.Suits g (.load headers input) →
      (g.size < idLimit → Inv g) → (g.load headers input).2.2.size < idLimit →
      Inv (g.load headers input).2.2 := by
    intro g headers input _ inv room
    rcases g.loads_load headers input with same | ⟨language, run⟩
    · rw [same] at room ⊢
      exact inv room
    · exact run.preserves (fun _ _ step => step.sound) NodeTable.sound_empty
  have sound : Inv ((new language).after history) :=
    suits.preserves_while_room (fun _ _ suits => suits) edits (fun _ _ => NodeTable.sound_empty)
      (fun _ _ describes => describes) loads room
  exact ⟨sound, suited_nodes_after language history suits⟩

/-- Graphs whose nodes differ only in their parents have the same containment edges. -/
theorem mem_parentage_congr {g h : Graph} (indexed : g.nodes.Indexed) (indexed' : h.nodes.Indexed)
    (same : ∀ id, h.find? id = (g.find? id).map fun n => { n with parent := none }) (id : NodeId)
    (p : Parent) : (id, p) ∈ GraphFile.parentage h ↔ (id, p) ∈ GraphFile.parentage g := by
  have edges : ∀ e, e ∈ h.allEdges ↔ e ∈ g.allEdges := by
    intro e
    rw [mem_allEdges indexed, mem_allEdges indexed']
    constructor
    · rintro ⟨m, found, edge⟩
      rw [same] at found
      obtain ⟨n, there, rfl⟩ := Option.map_eq_some_iff.1 found
      exact ⟨n, there, edge⟩
    · rintro ⟨n, found, edge⟩
      refine ⟨{ n with parent := none }, ?_, edge⟩
      rw [same]
      exact congrArg (Option.map _) found
  rw [mem_parentage_iff, mem_parentage_iff]
  simp only [edges]

/-- What has been read of a saved graph before anything is linked: its nodes without their parents,
and its texts. -/
structure ReadBack (saved read : Graph) : Prop where
  indexed : read.nodes.Indexed
  nodes : ∀ id, read.find? id = (saved.find? id).map fun n => { n with parent := none }
  numbered : read.texts.Numbered
  texts : read.texts.texts = saved.texts.texts
  /-- The texts were stored one after another. -/
  rebuilt : read.texts = saved.texts.rebuilt

/-- A saved graph loads: what is read from its file is the graph without parents, which is linked
then, in a run of steps of loading. The first saved node becomes the root. -/
theorem exists_link_saved {f : Graph} (sound : f.nodes.Sound) (suited : f.nodes.Suited)
    (numbered : f.texts.Numbered) (storable : f.Storable) :
    (f.save [] .unlimited).2.outcome = .ok () ∧
      ∀ (g : Graph) (headers : List Header), ∃ read, f.ReadBack read ∧
      (g.load headers (f.save [] .unlimited).2.written).1 = .ok () ∧
      (g.load headers (f.save [] .unlimited).2.written).2.2 =
        GraphFile.link read ((GraphFile.savedNodes f).head?.map Node.id) ∧
      LoadRun (empty f.language g.filterOn)
        (GraphFile.link read ((GraphFile.savedNodes f).head?.map Node.id)) := by
  obtain ⟨header, saved, reads⟩ := f.exists_save
  have all := GraphFile.mem_savedNodes sound storable.rooted
  have once := GraphFile.nodup_savedNodes sound.indexed
  generalize GraphFile.savedNodes f = listed at saved all once ⊢
  rw [saved, Sink.written_holding]
  refine ⟨rfl, fun g headers => ?_⟩
  have wf : ∀ n ∈ listed, n.WellFormed := fun n mem => sound.wellFormed n.id n ((all n).1 mem)
  have suits : ∀ n ∈ listed, Attributes.Suits n.kind n.attributes :=
    fun n mem => suited n.id n ((all n).1 mem)
  have positive : ∀ entry ∈ f.texts.toList, 0 < entry.1.raw := fun entry mem =>
    ((numbered.inRange storable.keys.unused).2 entry mem).1
  have nothing : ∀ id, (empty f.language g.filterOn).find? id = none := NodeTable.find?_empty
  have content := GraphFile.loadContent_saved nothing rfl wf suits once positive storable.short
  have run := GraphFile.loads_loadContent (g := empty f.language g.filterOn) NodeTable.sound_empty
    (listed.flatMap Node.record ++ GraphFile.endOfNodes ++ f.texts.save)
  rw [content] at run
  let read : Graph :=
    { listed.foldl GraphFile.restore (empty f.language g.filterOn) with texts := f.texts.rebuilt }
  have found : ∀ id, read.find? id = (f.find? id).map fun n => { n with parent := none } :=
    GraphFile.find?_foldl_restore sound.indexed nothing once all
  have indexed : read.nodes.Indexed :=
    GraphFile.indexed_foldl_restore listed (g := empty f.language g.filterOn) NodeTable.indexed_empty
  have ordered : read.texts.Numbered := by
    have loaded := TextTable.numbered_empty.load (f.texts.save ++ [])
    rw [TextTable.load_save positive storable.short] at loaded
    exact loaded
  obtain ⟨scan, headerRead, accepted⟩ := reads headers
    (listed.flatMap Node.record ++ GraphFile.endOfNodes ++ f.texts.save)
  have loaded : g.load headers (GraphFile.magic ++ (header ++
      (listed.flatMap Node.record ++ GraphFile.endOfNodes ++ f.texts.save))) =
      (.ok (), scan.headers, GraphFile.link read (listed.head?.map Node.id)) := by
    have content' : GraphFile.loadContent { g.clear with language := f.language }
        (listed.flatMap Node.record ++ GraphFile.endOfNodes ++ f.texts.save) =
        (.ok (), GraphFile.link read (listed.head?.map Node.id)) := content
    unfold load
    rw [Reader.bytes_append]
    simp only [if_true, headerRead, accepted, content']
  rw [loaded]
  exact ⟨read, ⟨indexed, found, ordered, TextTable.texts_rebuilt numbered.sorted, rfl⟩, rfl, rfl, run⟩

/-- A storable graph is saved, and its file loads into any graph as what was read back, linked. -/
theorem exists_load_saved {f : Graph} (sound : f.nodes.Sound) (suited : f.nodes.Suited)
    (numbered : f.texts.Numbered) (storable : f.Storable) :
    (f.save [] .unlimited).2.outcome = .ok () ∧
      ∀ (g : Graph) (headers : List Header), ∃ read first, f.ReadBack read ∧
      (g.load headers (f.save [] .unlimited).2.written).1 = .ok () ∧
      (g.load headers (f.save [] .unlimited).2.written).2.2 = GraphFile.link read first ∧
      LoadRun (empty f.language g.filterOn) (GraphFile.link read first) := by
  obtain ⟨written, loads⟩ := exists_link_saved sound suited numbered storable
  refine ⟨written, fun g headers => ?_⟩
  obtain ⟨read, back, loaded, linked, run⟩ := loads g headers
  exact ⟨read, _, back, loaded, linked, run⟩

/-- Linking gives a node that was read back a parent, if a containment edge tells one. -/
theorem ReadBack.find?_link {f read : Graph} (back : f.ReadBack read) (first : Option NodeId)
    (id : NodeId) : ∃ parent : Option Parent,
      (GraphFile.link read first).find? id = (f.find? id).map (fun n => { n with parent }) ∧
      (∀ p, parent = some p → (id, p) ∈ GraphFile.parentage read) ∧
      (parent = none → ∀ p, (id, p) ∉ GraphFile.parentage read) := by
  obtain ⟨parent, found, given, free⟩ :=
    GraphFile.find?_foldl_adopt (GraphFile.parentage read) read id
  refine ⟨parent, ?_, given, free⟩
  have linked : (GraphFile.link read first).find? id = (GraphFile.linkParents read).find? id := by
    unfold find?
    rw [GraphFile.nodes_link]
  rw [linked]
  refine found.trans ?_
  rw [back.nodes, Option.map_map]
  congr 1
  funext n
  simp only [Function.comp_apply, Option.or_none]

/-- What is linked after a graph was read back has all that the graph had, texts and parents
apart. -/
theorem ReadBack.restored {f read : Graph} (sound : f.nodes.Sound) (back : f.ReadBack read)
    {first : Option NodeId} {filterOn : Bool}
    (run : LoadRun (empty f.language filterOn) (GraphFile.link read first)) :
    f.Restored (GraphFile.link read first) := by
  have loaded := run.preserves (fun _ _ step => step.sound) NodeTable.sound_empty
  have nothing : (empty f.language filterOn).HidesNothing := rfl
  have shown := run.preserves (fun _ _ step => step.hidesNothing) nothing
  let Told : Graph → Prop := fun h => h.language = f.language
  have step : ∀ g h, LoadStep g h → Told g → Told h := fun _ _ step => step.language_eq.trans
  have language : Told (GraphFile.link read first) := run.preserves step rfl
  have ids : ∀ id, ((GraphFile.link read first).find? id).isSome = (f.find? id).isSome := by
    intro id
    obtain ⟨parent, found, -⟩ := back.find?_link first id
    rw [found, Option.isSome_map]
  refine ⟨language, Nat.le_antisymm ?_ ?_, ids, ?_, shown.state?⟩
  · exact loaded.trim.size_le loaded.indexed fun id there => (ids id).symm.trans there
  · exact sound.trim.size_le sound.indexed fun id there => (ids id).trans there
  · intro id n m there found
    obtain ⟨parent, same, -⟩ := back.find?_link first id
    rw [there] at same
    cases found.symm.trans same
    exact ⟨rfl, rfl, rfl, rfl⟩

/-- Linking leaves the texts that were read back where they are, if the last key stays unused. -/
theorem ReadBack.find?_texts {f read : Graph} (back : f.ReadBack read) (first : Option NodeId)
    (unused : (GraphFile.link read first).texts.texts.find? TextTable.lastKey = none)
    (key : TextKey) (text : String) (found : f.texts.find? key = some text) :
    (GraphFile.link read first).texts.find? key = some text := by
  let Keeps : TextTable → Prop := fun t => t.Numbered ∧
    (t.texts.find? TextTable.lastKey = none →
      ∀ key text, f.texts.find? key = some text → t.find? key = some text)
  have step : ∀ t s, Keeps t → Keeps (t.intern s).2 := by
    rintro t s ⟨numbered, keeps⟩
    refine ⟨numbered.intern s, fun unused key text found => ?_⟩
    obtain ⟨before, still⟩ := TextTable.find?_intern numbered unused
    exact still key text (keeps before key text found)
  have start : Keeps read.texts := by
    refine ⟨back.numbered, fun _ key text found => ?_⟩
    unfold TextTable.find? at found ⊢
    rw [back.texts]
    exact found
  exact (GraphFile.texts_link step start first).2 unused key text found

/-- What was read back takes no key above those of the saved texts. -/
theorem ReadBack.keysBelow {f read : Graph} (back : f.ReadBack read) {n : Nat} (positive : 0 < n)
    (small : n < UInt32.size) (inside : ∀ entry ∈ f.texts.toList, entry.1.raw.toNat < n) :
    read.texts.KeysBelow n := by
  rw [back.rebuilt]
  exact TextTable.keysBelow_rebuilt positive small inside

/-- If keys are left for all ids, linking what was read back does not use up the keys. -/
theorem ReadBack.sparesLastKey {f read : Graph} (back : f.ReadBack read) (leaves : f.LeavesKeys)
    {entry : TextKey × String} (mem : entry ∈ f.texts.toList) {first : Option NodeId}
    (size : (GraphFile.link read first).size = f.size) :
    (GraphFile.link read first).texts.SparesLastKey := by
  have room := leaves entry mem
  have inside : ∀ entry ∈ f.texts.toList, entry.1.raw.toNat < UInt32.size - f.size - 1 := by
    intro entry mem
    have left := leaves entry mem
    omega
  have below := GraphFile.keysBelow_link (back.keysBelow (by omega) (by omega) inside) first
    (by rw [size]; omega)
  exact below.sparesLastKey (by rw [size]; omega)

/-- Linking gives the nodes of a forest the parents that they had. -/
theorem ReadBack.parent_link {f read : Graph} (sound : f.nodes.Sound) (back : f.ReadBack read)
    (forest : f.IsForest) (first : Option NodeId) (id : NodeId) :
    ((GraphFile.link read first).find? id).map Node.parent = (f.find? id).map Node.parent := by
  obtain ⟨parent, found, given, free⟩ := back.find?_link first id
  have same := mem_parentage_congr sound.indexed back.indexed back.nodes id
  rw [found, Option.map_map]
  cases there : f.find? id with
  | none => rfl
  | some n =>
    have told : parent = n.parent :=
      forest.parent_eq sound there (fun p is => (same p).1 (given p is))
        fun none p mem => free none p ((same p).2 mem)
    exact congrArg some told

/-- Whatever is done to a new graph, if no node gets attributes that do not suit its kind and the
graph is storable, it can be saved, and its file can be loaded into any graph, whatever headers the
reader brings along. The loaded graph has the same language, size and nodes, and hides nothing.
Every key leads to the same text, if loading does not use up the keys: it adds texts for types that
have none, at most one for each id. If containment edges form a forest, parents are the same
too. -/
theorem load_saved_after (language : Language) (history : List Operation)
    (suits : (new language).Along (fun g operation => operation.Describes Attributes.Suits g) history)
    (storable : ((new language).after history).Storable) :
    let f := (new language).after history
    let saved := (f.save [] .unlimited).2
    saved.outcome = .ok () ∧
      ∀ (g : Graph) (headers : List Header),
        let loaded := (g.load headers saved.written).2.2
        (g.load headers saved.written).1 = .ok () ∧ f.Restored loaded ∧
          (f.LeavesKeys ∨ loaded.texts.SparesLastKey → ∀ key text,
            f.texts.find? key = some text → loaded.texts.find? key = some text) ∧
          (f.IsForest → ∀ id,
            (loaded.find? id).map Node.parent = (f.find? id).map Node.parent) := by
  intro f saved
  obtain ⟨sound, suited⟩ : f.nodes.Sound ∧ f.nodes.Suited := suited_after suits storable.ids
  obtain ⟨written, loads⟩ :=
    exists_load_saved sound suited (numbered_after language history) storable
  refine ⟨written, fun g headers => ?_⟩
  obtain ⟨read, first, back, result, linked, run⟩ := loads g headers
  have restored := back.restored sound run
  simp only [saved, linked]
  refine ⟨result, restored, fun left key text found => ?_, fun forest => ?_⟩
  · by_cases zero : key.isEmpty = true
    · -- the empty text needs no key
      unfold TextTable.find? at found ⊢
      rw [if_pos zero] at found ⊢
      exact found
    · have mem : (key, text) ∈ f.texts.toList := by
        unfold TextTable.find? at found
        rw [if_neg zero] at found
        exact SortedMap.mem_of_find? found
      have spares : (GraphFile.link read first).texts.SparesLastKey :=
        left.elim (fun leaves => back.sparesLastKey leaves mem restored.size) id
      exact back.find?_texts first spares.unused key text found
  · exact back.parent_link sound forest first

/-- A history with a class and a method in it, other attributes, edges of all sorts, a file and a
hidden node. -/
def nestedHistory : List Operation :=
  [.createNode .plainClass,
    .setAttributes (madeId 0) (.classes { commentLines := 7, isStatic := true } {} {}),
    .addEdge .scopeHasMember rootId (madeId 0), .setName (madeId 0) "Größe",
    .createNode .method, .addEdge .scopeHasMember (madeId 0) (madeId 1),
    .setEdge .memberDeclares (madeId 1) (some (madeId 0)),
    .createFile "src/a.rs",
    .addValueEdge .memberIsContainedIn (madeId 0) (madeId 2)
      (.position { line := 3, endLine := 9 }),
    .typeReference (some (madeId 0)), .buildType [madeId 3],
    .hide (madeId 0)]

/-- The graph with a class, a method and a file in it comes back whole from its file. -/
theorem load_saved_after_nested :
    let f := (new .java).after nestedHistory
    let saved := (f.save [] .unlimited).2
    f.Storable ∧ f.LeavesKeys ∧ f.IsForest ∧ f.size = 108 ∧ saved.outcome = .ok () ∧
      ∀ (g : Graph) (headers : List Header),
        let loaded := (g.load headers saved.written).2.2
        (g.load headers saved.written).1 = .ok () ∧ f.Restored loaded ∧
          (∀ key text, f.texts.find? key = some text → loaded.texts.find? key = some text) ∧
          ∀ id, (loaded.find? id).map Node.parent = (f.find? id).map Node.parent := by
  have suits : (new .java).Along (fun g operation => operation.Describes Attributes.Suits g)
      nestedHistory := by
    refine ⟨trivial, fun n found => ?_, trivial, trivial, trivial, trivial, trivial, trivial,
      trivial, trivial, trivial, trivial, trivial⟩
    have created : ((((Operation.createNode .plainClass).perform (new .java)).2.find?
        (madeId 0)).map Node.kind) = some .plainClass := by decide +kernel
    rw [found] at created
    have kind : n.kind = .plainClass := Option.some.inj created
    rw [kind]
    exact .classes ..
  obtain ⟨f, is⟩ : ∃ f, f = (new .java).after nestedHistory := ⟨_, rfl⟩
  have facts : f.size = 108 ∧ f.texts.SparesLastKey ∧ f.LeavesKeys ∧
      (∀ entry ∈ f.texts.toList, (Utf8.encode entry.2).length < 2 ^ 32) ∧
      ∀ n ∈ f.nodeList, f.reachesRoot 3 n.id = true ∧ f.containers n.id = n.parentId?.toList := by
    rw [is]
    decide +kernel
  obtain ⟨size, keys, leaves, short, nodes⟩ := facts
  have listed : ∀ id n, f.find? id = some n → n ∈ f.nodeList ∧ n.id = id := by
    intro id n found
    have indexed : f.nodes.Indexed := is ▸ indexed_after .java nestedHistory
    have own : n.id = id := indexed.id_eq found
    exact ⟨(indexed.mem_toList_iff n).2 (own.symm ▸ found), own⟩
  have storable : f.Storable := by
    refine ⟨by rw [size]; decide, keys, short, fun id n found => ?_⟩
    obtain ⟨mem, rfl⟩ := listed id n found
    exact ⟨3, (nodes n mem).1⟩
  have forest : f.IsForest := by
    intro id n found
    obtain ⟨mem, rfl⟩ := listed id n found
    exact (nodes n mem).2
  have saves := load_saved_after .java nestedHistory suits (is ▸ storable)
  rw [← is] at saves ⊢
  obtain ⟨written, loads⟩ := saves
  refine ⟨storable, leaves, forest, size, written, fun g headers => ?_⟩
  obtain ⟨result, restored, texts, parents⟩ := loads g headers
  exact ⟨result, restored, texts (Or.inl leaves), parents forest⟩

/-- A history that makes three types with different formers, whose texts are not interned, and reads a
text under the last key but one. -/
def crowdedHistory : List Operation :=
  [.createNodeWithId .type (madeId 0), .createNodeWithId .type (madeId 1),
    .createNodeWithId .type (madeId 2), .arrayFormer,
    .addEdge .typeHasTypeFormer (madeId 1) (madeId 3),
    .addEdge .typeHasTypeFormer (madeId 2) (madeId 3),
    .addEdge .typeHasTypeFormer (madeId 2) (madeId 3),
    .loadTexts (TextTable.magic ++ TextTable.entryBytes (⟨0xFFFFFFFE⟩, "a") ++ wordBytes 4 0)]

/-- Loading interns the texts of the three types under the last key, the key zero and the key one, which
was the key of the name of the root. -/
theorem name_overwritten_by_loading :
    let f := (new .java).after crowdedHistory
    let saved := (f.save [] .unlimited).2
    (new .java).Along (fun g operation => operation.Describes Attributes.Suits g) crowdedHistory ∧
      f.Storable ∧ f.texts.find? ⟨1⟩ = some "global namespace" ∧ saved.outcome = .ok () ∧
      ((new .java).load [] saved.written).1 = .ok () ∧
      ((new .java).load [] saved.written).2.2.texts.find? ⟨1⟩ = some "[106,106]" := by
  have suits : (new .java).Along (fun g operation => operation.Describes Attributes.Suits g)
      crowdedHistory :=
    ⟨trivial, trivial, trivial, trivial, trivial, trivial, trivial, trivial, trivial⟩
  have indexed := indexed_after .java crowdedHistory
  obtain ⟨f, is⟩ : ∃ f, f = (new .java).after crowdedHistory := ⟨_, rfl⟩
  rw [← is] at indexed ⊢
  have facts : f.size < idLimit ∧ f.texts.SparesLastKey ∧
      (∀ entry ∈ f.texts.toList, (Utf8.encode entry.2).length < 2 ^ 32) ∧
      (∀ n ∈ f.nodeList, f.reachesRoot 1 n.id = true) ∧
      f.texts.find? ⟨1⟩ = some "global namespace" ∧ (f.save [] .unlimited).2.outcome = .ok () ∧
      ((new .java).load [] (f.save [] .unlimited).2.written).1 = .ok () ∧
      ((new .java).load [] (f.save [] .unlimited).2.written).2.2.texts.find? ⟨1⟩ =
        some "[106,106]" := by
    rw [is]
    decide +kernel
  obtain ⟨ids, keys, short, ends, results⟩ := facts
  exact ⟨suits, ⟨ids, keys, short, rooted_of_nodeList indexed ends⟩, results⟩

end Graph

end CodeGraph
