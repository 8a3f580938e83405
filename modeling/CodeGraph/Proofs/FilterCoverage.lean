import CodeGraph.Proofs.Failures
import CodeGraph.Proofs.FilterFiles

/-!
# The filter covers the graph

The filter of a graph has one state for each position of the table of nodes. A node is made together
with its state, and hiding and showing set the states of what containment reaches and of ancestors.
Ancestors always lie within the table, and what containment reaches does so too unless a file was
loaded: a stored edge may point beyond all nodes. A node from which such an edge is reached can be
hidden, and then the filter grows longer than the table and is refused when it is read back. Main
statement: `Graph.filter_covers_after`.
-/

set_option autoImplicit false

namespace CodeGraph

/-! ## What lies within the table of nodes -/

namespace NodeTable

variable {t : NodeTable}

/-- The parents of all nodes lie within the table. -/
def ParentsWithin (t : NodeTable) : Prop :=
  ∀ id n, t.find? id = some n → ∀ p, n.parent = some p → p.id.index < t.size

/-- The edges of all nodes end within the table. -/
def EdgesWithin (t : NodeTable) : Prop :=
  ∀ id n, t.find? id = some n → ∀ e, ∀ far ∈ n.targets e, far.id.index < t.size

/-- Inserting a node never makes a table smaller. -/
theorem size_le_insert (t : NodeTable) (id : NodeId) (n : Node) : t.size ≤ (t.insert id n).size := by
  rw [size_insert]
  exact Nat.le_max_left _ _

/-- A fresh node has no parent, so parents stay within the table. -/
theorem ParentsWithin.insert (within : t.ParentsWithin) (id : NodeId) (kind : NodeKind) :
    (t.insert id (.fresh id kind)).ParentsWithin := by
  intro other n found p parent
  rw [find?_insert] at found
  split at found
  · cases found
    cases parent
  · exact Nat.lt_of_lt_of_le (within other n found p parent) (t.size_le_insert _ _)

/-- Parents stay within the table if a changed node has its old parent or one within. -/
theorem ParentsWithin.update (within : t.ParentsWithin) {id : NodeId} {f : Node → Node}
    (keeps : ∀ n, t.find? id = some n → ∀ p, (f n).parent = some p →
      n.parent = some p ∨ p.id.index < t.size) : (t.update id f).ParentsWithin := by
  unfold ParentsWithin
  rw [size_update]
  refine forall_update within fun n found p parent => ?_
  exact (keeps n found p parent).elim (within id n found p) fun inside => inside

/-- A fresh node has no edges, so edges stay within the table. -/
theorem EdgesWithin.insert (within : t.EdgesWithin) (id : NodeId) (kind : NodeKind) :
    (t.insert id (.fresh id kind)).EdgesWithin := by
  intro other n found e far mem
  rw [find?_insert] at found
  split at found
  · cases found
    rw [Node.targets_fresh] at mem
    exact absurd mem List.not_mem_nil
  · exact Nat.lt_of_lt_of_le (within other n found e far mem) (t.size_le_insert _ _)

/-- Edges stay within the table if those of a changed node are old or end within. -/
theorem EdgesWithin.update (within : t.EdgesWithin) {id : NodeId} {f : Node → Node}
    (keeps : ∀ n, t.find? id = some n → ∀ e, ∀ far ∈ (f n).targets e,
      far ∈ n.targets e ∨ far.id.index < t.size) : (t.update id f).EdgesWithin := by
  unfold EdgesWithin
  rw [size_update]
  refine forall_update within fun n found e far mem => ?_
  exact (keeps n found e far mem).elim (within id n found e far) fun inside => inside

/-- What containment reaches from an id within the table lies within the table if all edges end
there. -/
theorem EdgesWithin.reaches (within : t.EdgesWithin) (wf : t.WellFormed) {id x : NodeId}
    (inside : id.index < t.size) (path : t.Reaches id x) : x.index < t.size := by
  induction path with
  | refl => exact inside
  | @tail p x _ child _ =>
    unfold children at child
    split at child
    · next n found =>
      obtain ⟨e, edge, rfl⟩ := List.mem_map.1 child
      have listed := (Node.mem_edges_iff (wf p n found).distinct e).1 (List.mem_filter.1 edge).1
      exact within p n found e.kind _ listed.2
    · cases child

end NodeTable

namespace Graph

variable {g h : Graph} {rule : NodeKind → Attributes → Prop}

/-- Every edit keeps parents within the table: a node that gets a parent gets one that exists. -/
theorem Edit.parentsWithin (edit : Edit rule g h) (within : g.nodes.ParentsWithin) :
    h.nodes.ParentsWithin := by
  cases edit with
  | create concrete => exact within.insert _ _
  | createAt concrete valid hole => exact within.insert _ _
  | touch cosmetic =>
    refine within.update fun n found p parent => Or.inl ?_
    rw [(cosmetic n found).rest] at parent
    exact parent
  | widen found wider => exact within.update fun n _ p parent => Or.inl parent
  | @link e source t accepts =>
    obtain ⟨n, found, -⟩ := accepts.source
    have added : (g.nodes.update source fun n => n.addTarget e t).ParentsWithin :=
      within.update fun _ _ _ parent => Or.inl parent
    rw [nodes_link]
    split
    · refine added.update fun m _ p parent => Or.inr ?_
      cases parent
      rw [NodeTable.size_update]
      exact NodeTable.index_lt_size found
    · exact added
  | @sever e source target n found points =>
    have removed : (g.nodes.update source fun n => n.removeTarget e target).ParentsWithin :=
      within.update fun _ _ _ parent => Or.inl parent
    rw [nodes_unlink]
    split
    · exact removed.update fun m _ p parent => Or.inl (Node.parent_freed parent).1
    · exact removed
  | intern s => exact within
  | loadTexts input => exact within
  | index selector => exact within
  | filter filter filterOn => exact within
  | language language => exact within
  | remember key id =>
    unfold Graph.remember
    split <;> exact within

/-- Loading keeps parents within the table: a node is put below one that lists it. -/
theorem LoadStep.parentsWithin (step : LoadStep g h) (within : g.nodes.ParentsWithin) :
    h.nodes.ParentsWithin := by
  cases step with
  | @fill kind id concrete valid hole input =>
    obtain ⟨name, attributes, slots, loaded, -⟩ := Node.load_eq (.fresh id kind) input
    have nobody : ((Node.fresh id kind).load input).1.parent = none := by rw [loaded]; rfl
    rw [nodes_updateNode, nodes_insertNode]
    refine (within.insert id kind).update fun n _ p parent => ?_
    rw [nobody] at parent
    cases parent
  | texts input => exact within
  | intern s => exact within
  | adopt contains lists =>
    obtain ⟨n, found, -⟩ := lists
    refine within.update fun m _ p parent => Or.inr ?_
    cases parent
    exact NodeTable.index_lt_size found
  | values singletons => exact within
  | places root fileSystem systemComponent => exact within

/-- Every edit keeps edges within the table: an edge that is added ends at a node. -/
theorem Edit.edgesWithin (edit : Edit rule g h) (wf : g.nodes.WellFormed)
    (within : g.nodes.EdgesWithin) : h.nodes.EdgesWithin := by
  cases edit with
  | create concrete => exact within.insert _ _
  | createAt concrete valid hole => exact within.insert _ _
  | touch cosmetic =>
    refine within.update fun n found e far mem => Or.inl ?_
    rw [(cosmetic n found).rest] at mem
    exact mem
  | @widen id kind n found wider =>
    obtain ⟨-, -, -, more, -⟩ := widened?_spec wider
    refine within.update fun m here e far mem => Or.inl ?_
    have same : m = n := Option.some.inj (here.symm.trans found)
    rw [Node.targets_promote ((wf id m here).kinds ▸ same ▸ more)] at mem
    exact mem
  | @link e source t accepts =>
    obtain ⟨n, found, -⟩ := accepts.target
    have added : (g.nodes.update source fun n => n.addTarget e t).EdgesWithin := by
      refine within.update fun m _ other far mem => ?_
      rcases Node.mem_targets_of_addTarget mem with old | ⟨-, rfl⟩
      · exact Or.inl old
      · exact Or.inr (NodeTable.index_lt_size found)
    rw [nodes_link]
    split
    · exact added.update fun _ _ _ _ mem => Or.inl mem
    · exact added
  | @sever e source target n found points =>
    have removed : (g.nodes.update source fun n => n.removeTarget e target).EdgesWithin :=
      within.update fun _ _ _ _ mem => Or.inl (Node.mem_targets_of_removeTarget mem)
    rw [nodes_unlink]
    split
    · refine removed.update fun m _ other far mem => Or.inl ?_
      rw [Node.freed_eq] at mem
      exact mem
    · exact removed
  | intern s => exact within
  | loadTexts input => exact within
  | index selector => exact within
  | filter filter filterOn => exact within
  | language language => exact within
  | remember key id =>
    unfold Graph.remember
    split <;> exact within

/-- Whatever is done to a new graph, parents lie within the table. -/
theorem parentsWithin_after (language : Language) (history : List Operation) :
    ((new language).after history).nodes.ParentsWithin := by
  have edits : ∀ g h, Edit (fun _ _ => True) g h → g.nodes.ParentsWithin → h.nodes.ParentsWithin :=
    fun _ _ edit => edit.parentsWithin
  exact preserves_after edits (fun _ _ step => step.parentsWithin)
    (fun _ _ id n found => by simp [empty] at found) language history

/-- Without loading, all edges end within the table. -/
theorem edgesWithin_after (language : Language) {history : List Operation}
    (noLoad : ∀ operation ∈ history, operation.isLoad = false) :
    ((new language).after history).nodes.EdgesWithin := by
  let Inv : Graph → Prop := fun g => g.nodes.WellFormed ∧ g.nodes.EdgesWithin
  have edits : ∀ g h, Edit (fun _ _ => True) g h → Inv g → Inv h :=
    fun _ _ edit inv => ⟨edit.wellFormed inv.1, edit.edgesWithin inv.1 inv.2⟩
  have clears : ∀ language filterOn, Inv (empty language filterOn) := fun language filterOn =>
    ⟨wellFormed_empty language filterOn, fun id n found => by simp [empty] at found⟩
  have step : ∀ (g : Graph) (operation : Operation), operation.isLoad = false → Inv g →
      Inv (operation.perform g).2 := by
    intro g operation plain
    refine preserves_perform (fun _ _ _ => trivial) edits clears ?_
      (operation.describes_of_forall (fun _ _ => trivial) g)
    rintro headers input rfl
    cases plain
  have along : (new language).Along (fun _ operation => operation.isLoad = false) history :=
    along_of_forall (fun operation mem _ => noLoad operation mem) _
  exact (along.preserves step (preserves_new edits clears language)).2

/-! ## Operations that set no states -/

/-- The filter has one state for each position of the table of nodes. -/
structure FilterFits (g : Graph) : Prop where
  size : g.filter.size = g.size
  clean : g.filter.Clean

namespace FilterFits

/-- The filter of an empty graph fits. -/
theorem empty (language : Language) (filterOn : Bool) : (Graph.empty language filterOn).FilterFits :=
  ⟨rfl, Filter.clean_empty⟩

variable (fits : g.FilterFits)
include fits

/-- The filter fits as long as it and the size stay the same. -/
theorem congr (size : h.size = g.size) (filter : h.filter = g.filter) : h.FilterFits := by
  refine ⟨?_, ?_⟩
  · rw [filter, size]
    exact fits.size
  · rw [filter]
    exact fits.clean

/-- A node is made together with its state. -/
theorem insertNode (kind : NodeKind) (id : NodeId) : (g.insertNode kind id).FilterFits := by
  have inside : id.index + 1 ≤ (g.insertNode kind id).size := by
    rw [size_insertNode]
    exact Nat.le_max_right _ _
  refine ⟨?_, (fits.clean.resize _).set id .notFiltered⟩
  change ((g.filter.resize (g.insertNode kind id).size).set id .notFiltered).size = _
  rw [Filter.size_set, Filter.size_resize]
  exact Nat.max_eq_left inside

/-- The filter still fits after a node is changed. -/
theorem updateNode (id : NodeId) (f : Node → Node) : (g.updateNode id f).FilterFits :=
  fits.congr (size_updateNode g id f) rfl

/-- The filter still fits after an edge is linked. -/
theorem link (e : EdgeKind) (source : NodeId) (t : Target) : (g.link e source t).FilterFits :=
  link_preserves (P := FilterFits) (fun _ id f fits => fits.updateNode id f)
    (fun _ _ fits => fits.congr rfl rfl) e source t fits

/-- The filter still fits after a node is put on record. -/
theorem remember (key : SingletonKey) (id : NodeId) : (g.remember key id).FilterFits := by
  refine fits.congr (size_remember g key id) ?_
  unfold Graph.remember
  split <;> rfl

/-- The filter still fits after a text is interned. -/
theorem intern (s : String) : (g.intern s).2.FilterFits :=
  fits.congr rfl rfl

/-- The filter still fits after an edge is added. -/
theorem withEdge {e : EdgeKind} {source target : NodeId} (added : g.withEdge e source target = .ok h) :
    h.FilterFits := by
  obtain ⟨-, rfl⟩ := withEdge_eq_ok added
  exact fits.link e source _

/-- The filter still fits after an edge is removed. -/
theorem withoutEdge {e : EdgeKind} {source target : NodeId} {removed : Bool}
    (done : g.withoutEdge e source target = .ok (removed, h)) : h.FilterFits := by
  obtain rfl | ⟨n, -, -, rfl⟩ := withoutEdge_eq_ok done
  · exact fits
  · exact unlink_preserves (P := FilterFits) (fun _ id f fits => fits.updateNode id f)
      (fun _ _ fits => fits.congr rfl rfl) e source target (fits.updateNode source _)

/-- The filter still fits after the one edge of a kind is set. -/
theorem withSingle {e : EdgeKind} {source : NodeId} {target : Option NodeId}
    (done : g.withSingle e source target = .ok h) : h.FilterFits := by
  obtain ⟨-, rfl | ⟨t, -, rfl⟩ | ⟨previous, removed, taken⟩⟩ := withSingle_eq_ok done
  · exact fits
  · exact fits.link e source _
  · exact fits.withoutEdge taken

/-- The filter still fits after a node is made, as it grows with the table. -/
theorem newNodeWith (kind : NodeKind) (f : Node → Node) : (g.newNodeWith kind f).2.FilterFits :=
  (fits.insertNode kind _).updateNode _ f

/-- The filter still fits after the node of a value is asked for. -/
theorem singletonNode (key : SingletonKey) (kind : NodeKind) (f : Node → Node) :
    (g.singletonNode key kind f).2.FilterFits := by
  unfold Graph.singletonNode
  split
  · exact fits
  · exact (fits.newNodeWith kind f).remember key _

/-- The filter still fits after a reference is asked for. -/
theorem referenceNode (key : SingletonKey) (kind : NodeKind) (e : EdgeKind)
    (target : Option NodeId) (check : Except Error Unit) :
    (g.referenceNode key kind e target check).2.FilterFits := by
  refine referenceNode_preserves (P := FilterFits) fits ?_ fun _ id made => made.remember key id
  rw [newNodeTo_eq]
  unfold withNodeTo
  simp only
  split
  · exact fits.insertNode kind _
  · next linked => exact (fits.insertNode kind _).withSingle linked

omit fits in
/-- The filter still fits after edges are added one by one. -/
theorem addEdges {e : EdgeKind} {source : NodeId} (targets : List NodeId) {g : Graph}
    (fits : g.FilterFits) : (g.addEdges e source targets).2.FilterFits := by
  rw [addEdges_eq]
  induction targets generalizing g with
  | nil => exact fits
  | cons target targets ih =>
    unfold withEdges
    split
    · exact fits
    · next first => exact ih (fits.withEdge first)

/-- The filter still fits after a type is built. -/
theorem buildType (stack : List NodeId) : (g.buildType stack).2.FilterFits :=
  buildType_preserves (P := FilterFits) fits (fits.intern _)
    (fun _ => addEdges stack.reverse ((fits.intern _).insertNode .type _))
    fun _ key id made => made.remember key id

/-- The filter still fits after an entry is opened. -/
theorem openEntry (container : NodeId) (name : String) (kind : NodeKind) :
    (g.openEntry container name kind).2.FilterFits := by
  rw [openEntry_eq]
  unfold withEntry
  split
  · exact fits
  · split
    · exact fits
    · have made := (fits.intern name).newNodeWith kind fun n => n.setName (g.intern name).1
      simp only
      split
      · exact made
      · next added => exact made.withEdge added

/-- The filter still fits after a file is asked for. -/
theorem createFileFrom (path : String) (start : NodeId) : (g.createFileFrom path start).2.FilterFits :=
  createFileFrom_preserves (P := FilterFits)
    (fun _ container name fits => fits.openEntry container name .folder)
    (fun _ container name fits => fits.openEntry container name .file) g path start fits

/-- The filter still fits after name or attributes of a node are changed. -/
theorem touch (id : NodeId) (f : Node → Node) : (g.touch id f).2.FilterFits := by
  unfold Graph.touch
  split
  · exact fits.updateNode id f
  · exact fits

end FilterFits

/-! ## Operations that set states -/

/-- A filter that hides nothing fits. -/
theorem HidesNothing.filterFits (nothing : g.HidesNothing) : g.FilterFits := by
  constructor
  · unfold Filter.size
    rw [nothing, Array.size_replicate]
  · unfold Filter.Clean
    rw [nothing, Array.getElem?_replicate]
    split <;> simp

/-- A graph that is loaded comes with a filter that hides nothing. -/
theorem FilterFits.load (fits : g.FilterFits) (headers : List Header) (input : Bytes) :
    (g.load headers input).2.2.FilterFits := by
  rcases g.loads_load headers input with same | ⟨language, run⟩
  · rw [same]
    exact fits
  · exact (run.preserves (fun _ _ step => step.hidesNothing) rfl).filterFits

/-- The filter still fits after a single node is hidden or shown. -/
theorem FilterFits.withState (fits : g.FilterFits) {site : Site} {id : NodeId}
    {state : FilterState} (done : g.withState site id state = .ok h) : h.FilterFits := by
  unfold Graph.withState at done
  split at done
  · cases done
  · next n found =>
    cases done
    have inside : id.index + 1 ≤ g.filter.size := fits.size ▸ NodeTable.index_lt_size found
    refine ⟨?_, fits.clean.set id state⟩
    rw [Filter.size_set, Nat.max_eq_left inside]
    exact fits.size

/-- A filter that was loaded fits. -/
theorem filterFits_withFilter {input : Bytes} (loaded : g.withFilter input = .ok h) :
    h.FilterFits := by
  unfold withFilter at loaded
  cases result : Filter.stored g.size input with
  | error cause =>
    rw [result] at loaded
    cases loaded
  | ok filter =>
    rw [result] at loaded
    cases loaded
    obtain ⟨size, clean⟩ := Filter.size_of_stored result
    exact ⟨size, clean⟩

end Graph

namespace Operation

/-- The node that an operation hides or shows together with all that belongs to it. -/
def aim? : Operation → Option NodeId
  | .hide id => some id
  | .reveal id => some id
  | _ => none

/-- Whether an operation hides or shows a node from which containment reaches an id beyond the
table of nodes. -/
def Overshoots (g : Graph) (operation : Operation) : Prop :=
  ∃ id ∈ operation.aim?, g.nodes.contains id = true ∧ ∃ x, g.nodes.Reaches id x ∧ g.size ≤ x.index

instance decidableOvershoots (g : Graph) (operation : Operation) :
    Decidable (operation.Overshoots g) :=
  have : (∃ id ∈ operation.aim?, g.nodes.contains id = true ∧
      ∃ x ∈ g.nodes.subtree id, g.size ≤ x.index) ↔ operation.Overshoots g := by
    simp only [NodeTable.mem_subtree_iff, Overshoots]
  decidable_of_iff _ this

end Operation

namespace Graph

variable {g h : Graph} {operation : Operation} {id : NodeId}

/-- Hiding and showing set the states of all that containment reaches, and else only of parents. -/
theorem exists_setAll_of_aim (aims : operation.aim? = some id) {n : Node}
    (found : g.find? id = some n) :
    ∃ ids state, (operation.perform g).2 = { g with filter := g.filter.setAll ids state } ∧
      (∀ x, g.nodes.Reaches id x → x ∈ ids) ∧
      ∀ x ∈ ids, g.nodes.Reaches id x ∨ ∃ y m, g.nodes.find? y = some m ∧ m.parentId? = some x := by
  have reached := g.nodes.mem_subtree_iff id
  cases operation with
  | hide target =>
    cases aims
    refine ⟨g.nodes.subtree id, .filtered, ?_, fun x => (reached x).2,
      fun x mem => Or.inl ((reached x).1 mem)⟩
    rw [Operation.perform_eq]
    change (Outcome.orKeep g (g.withHidden id)).2 = _
    rw [withHidden_of_find? found]
    rfl
  | reveal target =>
    cases aims
    have found' : g.nodes.find? id = some n := found
    obtain ⟨above, shown, parents⟩ := Filter.exists_showAncestors g.nodes (g.nodes.size + 1)
      n.parentId? (g.filter.setAll (g.nodes.subtree id) .notFiltered)
    refine ⟨g.nodes.subtree id ++ above, .notFiltered, ?_,
      fun x path => List.mem_append_left _ ((reached x).2 path), fun x mem => ?_⟩
    · have both : g.filter.setAll (g.nodes.subtree id ++ above) .notFiltered =
          (g.filter.setAll (g.nodes.subtree id) .notFiltered).setAll above .notFiltered :=
        List.foldl_append
      change (g.reveal id).2 = _
      unfold reveal
      rw [Filter.reveal_of_find? found', both, ← shown]
    · rcases List.mem_append.1 mem with below | higher
      · exact Or.inl ((reached x).1 below)
      · rcases parents x higher with first | further
        · exact Or.inr ⟨id, n, found', first⟩
        · exact Or.inr further
  | _ => cases aims

/-- Hiding or showing a node that does not exist changes nothing. -/
theorem perform_of_missing_aim (aims : operation.aim? = some id) (missing : g.find? id = none) :
    (operation.perform g).2 = g := by
  cases operation with
  | hide target =>
    cases aims
    rw [Operation.perform_eq]
    change (Outcome.orKeep g (g.withHidden id)).2 = g
    rw [withHidden_of_missing missing]
    rfl
  | reveal target =>
    cases aims
    change (g.reveal id).2 = g
    rw [reveal_of_missing missing]
  | _ => cases aims

/-- Hiding and showing within the table of nodes leave the filter as long as it was. -/
theorem FilterFits.aim (fits : g.FilterFits) (within : g.nodes.ParentsWithin)
    (aims : operation.aim? = some id) (inside : ¬ operation.Overshoots g) :
    (operation.perform g).2.FilterFits := by
  cases found : g.find? id with
  | none =>
    rw [perform_of_missing_aim aims found]
    exact fits
  | some n =>
    obtain ⟨ids, state, performed, -, origin⟩ := exists_setAll_of_aim aims found
    have there : g.nodes.contains id = true := Option.isSome_iff_exists.2 ⟨n, found⟩
    have covered : ∀ x ∈ ids, x.index < g.filter.size := by
      intro x mem
      rw [fits.size]
      rcases origin x mem with path | ⟨y, m, holds, parent⟩
      · by_contra beyond
        exact inside ⟨id, aims, there, x, path, Nat.le_of_not_lt beyond⟩
      · obtain ⟨p, named, rfl⟩ := Option.map_eq_some_iff.1 parent
        exact within y m holds p named
    rw [performed]
    refine ⟨?_, fits.clean.setAll ids state⟩
    have size : (g.filter.setAll ids state).size = g.filter.size :=
      Nat.le_antisymm (Filter.size_setAll_le (Nat.le_refl _) covered state)
        (g.filter.size_le_setAll ids state)
    exact size.trans fits.size

/-- Every operation that does not overshoot leaves a filter that covers the graph. -/
theorem FilterFits.perform (fits : g.FilterFits) (within : g.nodes.ParentsWithin)
    (inside : ¬ operation.Overshoots g) : (operation.perform g).2.FilterFits := by
  by_cases aims : operation.aim?.isSome
  · obtain ⟨id, aims⟩ := Option.isSome_iff_exists.1 aims
    exact fits.aim within aims inside
  rw [Operation.perform_eq]
  cases operation with
  | setLanguage | intern | loadTexts | turnFilterOn | turnFilterOff => exact fits.congr rfl rfl
  | clear => exact .empty g.language g.filterOn
  | createNode kind =>
    refine nodeOrKeep_preserves fits fun id h created => ?_
    obtain ⟨-, made⟩ := withNode_eq_ok created
    cases made
    exact fits.insertNode kind _
  | createNodeWithId kind id =>
    refine nodeOrKeep_preserves fits fun made h created => ?_
    cases result : g.withNodeAt kind id with
    | error cause => simp [result, Except.map] at created
    | ok next =>
      rw [result] at created
      cases created
      obtain ⟨-, -, -, rfl⟩ := withNodeAt_eq_ok result
      exact fits.insertNode kind id
  | replaceNode id kind =>
    refine orKeep_preserves fits fun h replaced => ?_
    obtain ⟨n, -, -, rfl⟩ := withKind_eq_ok replaced
    exact fits.updateNode id _
  | simpleType | pointerFormer | arrayFormer | nonTypeFormer => exact fits.singletonNode _ _ _
  | typeReference | attributeAccess | methodCall => exact fits.referenceNode _ _ _ _ _
  | methodFormer => exact fits.insertNode _ _
  | comment text => exact (fits.intern text).singletonNode _ _ _
  | component name => exact (fits.intern name).singletonNode _ _ _
  | friendship grantee => exact (fits.intern grantee).newNodeWith _ _
  | buildType stack => exact fits.buildType stack
  | createFile path => exact fits.createFileFrom path g.fileSystem
  | createFileFrom path start => exact fits.createFileFrom path start
  | setName id name =>
    refine orKeep_preserves fits fun h named => ?_
    rw [withName_eq_ok named]
    exact (fits.intern name).updateNode id _
  | setNameKey | setAttributes => exact fits.touch _ _
  | addEdge edge source target => exact orKeep_preserves fits fun h added => fits.withEdge added
  | addValueEdge edge source target value =>
    refine orKeep_preserves fits fun h added => ?_
    obtain ⟨-, rfl⟩ := withValueEdge_eq_ok added
    exact fits.link edge source _
  | setEdge edge source target => exact orKeep_preserves fits fun h done => fits.withSingle done
  | removeEdge edge source target =>
    exact flagOrKeep_preserves fits fun removed h done => fits.withoutEdge done
  | buildIndex selector =>
    change (g.withIndex selector).2.FilterFits
    rcases snd_withIndex g selector with same | built
    · rw [same]
      exact fits
    · rw [built]
      exact fits.congr rfl rfl
  | hide id | reveal id => exact absurd rfl aims
  | hideOnly | revealOnly => exact orKeep_preserves fits fun h done => fits.withState done
  | resetFilter => exact ⟨g.size_resetFilter, Filter.clean_reset _⟩
  | loadFilter input => exact orKeep_preserves fits fun h loaded => filterFits_withFilter loaded
  | load headers input => exact fits.load headers input

/-! ## Histories -/

/-- An operation that overshoots leaves a filter longer than the table of nodes. -/
theorem size_lt_of_overshoots (fits : g.FilterFits) (overshoots : operation.Overshoots g) :
    let h := (operation.perform g).2
    0 < h.size ∧ h.size < h.filter.size ∧ h.filter.size ≤ idLimit := by
  intro h
  obtain ⟨id, aims, there, x, path, beyond⟩ := overshoots
  obtain ⟨n, found⟩ := Option.isSome_iff_exists.1 there
  obtain ⟨ids, state, performed, reached, -⟩ := exists_setAll_of_aim aims found
  have same : h = { g with filter := g.filter.setAll ids state } := performed
  have start : id.index < g.size := NodeTable.index_lt_size found
  have far : x.index < (g.filter.setAll ids state).size :=
    Filter.index_lt_size_setAll _ (reached x path) state
  have room : g.filter.size ≤ idLimit := by
    rw [fits.size]
    exact Nat.le_of_lt (Nat.lt_of_le_of_lt beyond x.raw.toNat_lt)
  have few : (g.filter.setAll ids state).size ≤ idLimit :=
    Filter.size_setAll_le room (fun y _ => y.raw.toNat_lt) state
  rw [same]
  exact ⟨Nat.lt_of_le_of_lt (Nat.zero_le _) start, Nat.lt_of_le_of_lt beyond far, few⟩

/-- A filter that is longer than the table of nodes is refused when it is read back. -/
theorem loadFilter_of_size_lt (nonempty : 0 < g.size) (longer : g.size < g.filter.size)
    (few : g.filter.size ≤ idLimit) :
    g.loadFilter g.filter.save =
      (.error (.filterSizeMismatch (g.filter.size % UInt32.size) g.size), g) := by
  have other : g.filter.size % UInt32.size ≠ g.size := by
    rcases Nat.lt_or_eq_of_le few with less | full
    · have kept : g.filter.size % UInt32.size = g.filter.size := Nat.mod_eq_of_lt less
      rw [kept]
      exact Nat.ne_of_gt longer
    · rw [full]
      change idLimit % idLimit ≠ g.size
      rw [Nat.mod_self]
      exact Nat.ne_of_lt nonempty
  rw [loadFilter_eq, withFilter, Filter.stored_save_of_ne other]
  rfl

/-- A filter that covers the graph is read back if the number of states can be written. -/
theorem FilterFits.loadFilter_save (fits : g.FilterFits) :
    g.loadFilter g.filter.save = (.ok (), g) ↔ g.size < idLimit := by
  rw [loadFilter_eq, withFilter]
  constructor
  · intro loaded
    by_contra many
    have other : g.filter.size % UInt32.size ≠ g.size := by
      have less : g.filter.size % UInt32.size < UInt32.size := Nat.mod_lt _ (by decide)
      exact Nat.ne_of_lt (Nat.lt_of_lt_of_le less (Nat.le_of_not_lt many))
    rw [Filter.stored_save_of_ne other] at loaded
    cases loaded
  · intro room
    rw [← fits.size, Filter.stored_save fits.clean (fits.size ▸ room)]
    rfl

/-- Without loading, no operation overshoots. -/
theorem along_inside (language : Language) {history : List Operation}
    (noLoad : ∀ operation ∈ history, operation.isLoad = false) :
    (new language).Along (fun g operation => ¬ operation.Overshoots g) history := by
  apply along_of_prefixes
  rintro before operation rest rfl ⟨id, -, there, x, path, beyond⟩
  obtain ⟨n, found⟩ := Option.isSome_iff_exists.1 there
  have within := edgesWithin_after language fun operation mem =>
    noLoad operation (List.mem_append_left _ mem)
  have inside := within.reaches (wellFormed_nodes_after language before)
    (NodeTable.index_lt_size found) path
  exact Nat.lt_irrefl _ (Nat.lt_of_lt_of_le inside beyond)

/-- The filter of a new graph fits. -/
theorem filterFits_new (language : Language) : (new language).FilterFits := by
  have reserve : ∀ {g : Graph} (kind : NodeKind) (id : NodeId) (name : String), g.FilterFits →
      (g.reserve kind id name).FilterFits := fun kind id name fits =>
    ((fits.intern name).insertNode kind id).updateNode id _
  rw [new_eq]
  exact (reserve _ _ _ (reserve _ _ _ (reserve _ _ _ (.empty language true)))).remember _ _

/-- A history in which no operation overshoots leaves a filter that covers the graph. -/
theorem filterFits_after {language : Language} {history : List Operation}
    (along : (new language).Along (fun g operation => ¬ operation.Overshoots g) history) :
    ((new language).after history).FilterFits := by
  induction history using List.reverseRecOn with
  | nil => exact filterFits_new language
  | append_singleton before operation ih =>
    obtain ⟨earlier, inside, -⟩ := along_append.1 along
    rw [after_append]
    exact (ih earlier).perform (parentsWithin_after language before) inside

/-- As long as nothing is loaded, or no operation overshoots, the filter has one state for each
position of the table of nodes, and is read back after it was stored, unless there are more
positions than a stored number can tell. An operation that overshoots leaves a filter that is longer
and refused. -/
theorem filter_covers_after (language : Language) (history : List Operation)
    (inside : (∀ operation ∈ history, operation.isLoad = false) ∨
      (new language).Along (fun g operation => ¬ operation.Overshoots g) history) :
    let g := (new language).after history
    g.filter.size = g.size ∧ (g.loadFilter g.filter.save = (.ok (), g) ↔ g.size < idLimit) ∧
      ∀ operation : Operation, operation.Overshoots g →
        let h := (operation.perform g).2
        h.size < h.filter.size ∧ h.loadFilter h.filter.save =
          (.error (.filterSizeMismatch (h.filter.size % UInt32.size) h.size), h) := by
  intro g
  have along : (new language).Along (fun g operation => ¬ operation.Overshoots g) history :=
    inside.elim (along_inside language) fun along => along
  have fits : g.FilterFits := filterFits_after along
  refine ⟨fits.size, fits.loadFilter_save, fun operation overshoots => ?_⟩
  obtain ⟨nonempty, longer, few⟩ := size_lt_of_overshoots fits overshoots
  exact ⟨longer, loadFilter_of_size_lt nonempty longer few⟩

/-- The file of a graph whose root has an edge to an id beyond all nodes. -/
def danglingFile : Bytes :=
  let dangling := (new .java).updateNode rootId fun n =>
    n.addTarget .scopeHasMember { id := madeId 97 }
  (dangling.save [] .unlimited).2.written

/-- A history that loads such a file, and hides and shows nodes other than the root. -/
def danglingHistory : List Operation :=
  [.createNode .package, .load [] danglingFile, .createNode .package, .hideOnly rootId,
    .hide (madeId 0), .hide (madeId 9), .loadFilter [], .reveal fileSystemId]

/-- The filter covers the loaded graph and is read back, until the root is hidden with all that it
contains. -/
theorem filter_covers_after_dangling :
    let g := (new .java).after danglingHistory
    let h := ((Operation.hide rootId).perform g).2
    (new .java).Along (fun g operation => ¬ operation.Overshoots g) danglingHistory ∧
      g.filter.size = 104 ∧ g.size = 104 ∧ g.loadFilter g.filter.save = (.ok (), g) ∧
      h.size < h.filter.size ∧ h.loadFilter h.filter.save =
        (.error (.filterSizeMismatch (h.filter.size % UInt32.size) h.size), h) := by
  have facts : (new .java).Along (fun g operation => ¬ operation.Overshoots g) danglingHistory ∧
      ((new .java).after danglingHistory).size = 104 ∧
      (Operation.hide rootId).Overshoots ((new .java).after danglingHistory) := by decide +kernel
  obtain ⟨along, size, overshoots⟩ := facts
  obtain ⟨covers, restores, grows⟩ := filter_covers_after .java danglingHistory (Or.inr along)
  have room : ((new .java).after danglingHistory).size < idLimit := by
    rw [size]
    decide
  exact ⟨along, covers.trans size, size, restores.2 room, grows (.hide rootId) overshoots⟩

/-- Once the root is hidden with all that it contains, the filter of the loaded graph is longer than
the graph and refused by it. -/
theorem filter_overgrown :
    let g := (new .java).after [.load [] danglingFile, .hide rootId]
    g.size = 103 ∧ g.filter.size = 201 ∧
      g.loadFilter g.filter.save = (.error (.filterSizeMismatch 201 103), g) := by
  intro g
  have facts : g.size = 103 ∧ g.filter.size = 201 := by decide +kernel
  clear_value g
  obtain ⟨size, covers⟩ := facts
  have few : g.filter.size ≤ idLimit := by
    rw [covers]
    decide
  have refused := loadFilter_of_size_lt (by omega) (by omega) few
  rw [size, covers] at refused
  exact ⟨size, covers, refused⟩

end Graph

end CodeGraph
