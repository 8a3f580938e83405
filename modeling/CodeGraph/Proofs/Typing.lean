import CodeGraph.Proofs.History
import CodeGraph.Proofs.Structure

/-!
# Graphs stay well typed

A graph is well typed if every node lies at its id, has a concrete kind and the slots of that kind,
and if every edge points to a node of the kind that it asks for and carries a value of the kind
that it asks for. Edits keep a graph so while ids last (`Edit.targeted`), hence so does every
history that loads no file. Main statement: `wellTyped_after`.
-/

set_option autoImplicit false

namespace CodeGraph

namespace NodeTable

/-- Whether a node of a kind is found under an id. -/
def Has (t : NodeTable) (id : NodeId) (kind : NodeKind) : Prop :=
  ∃ n, t.find? id = some n ∧ n.is kind = true

/-- Every edge points to a node of the kind that its own kind asks for. -/
def Targeted (t : NodeTable) : Prop :=
  ∀ id n e, t.find? id = some n → ∀ far ∈ n.targets e, t.Has far.id e.target

/-- A change that keeps what a node is keeps which kinds are found where. -/
theorem Has.update {t : NodeTable} {id other : NodeId} {kind : NodeKind} {f : Node → Node}
    (has : t.Has other kind)
    (keeps : ∀ n, t.find? id = some n → n.is kind = true → (f n).is kind = true) :
    (t.update id f).Has other kind := by
  obtain ⟨n, found, right⟩ := has
  by_cases same : other = id
  · subst same
    refine ⟨f n, ?_, keeps n found right⟩
    rw [find?_update_same, found]
    rfl
  · exact ⟨n, (find?_update_other t same f).trans found, right⟩

/-- A change that keeps what a node is, and after which its edges point where they did or to nodes
of the right kind, keeps all edges pointing to nodes of the right kind. -/
theorem Targeted.update {t : NodeTable} (targeted : t.Targeted) {id : NodeId} {f : Node → Node}
    (keepsKind : ∀ n kind, t.find? id = some n → n.is kind = true → (f n).is kind = true)
    (keepsEdges : ∀ n e, t.find? id = some n → ∀ far ∈ (f n).targets e,
      far ∈ n.targets e ∨ t.Has far.id e.target) : (t.update id f).Targeted := by
  intro other n e found far mem
  obtain ⟨old, was, rfl⟩ := exists_of_find?_update found
  have before : t.Has far.id e.target := by
    split at mem
    · next same =>
      rcases keepsEdges old e (same ▸ was) far mem with kept | new
      · exact targeted other old e was far kept
      · exact new
    · exact targeted other old e was far mem
  exact before.update fun n here => keepsKind n e.target here

/-- A fresh node at an unused id keeps all edges pointing to nodes of the right kind. -/
theorem Targeted.insert {t : NodeTable} (targeted : t.Targeted) {id : NodeId} (kind : NodeKind)
    (hole : t.find? id = none) : (t.insert id (.fresh id kind)).Targeted := by
  intro other n e found far mem
  rw [find?_insert] at found
  split at found
  · cases found
    rw [Node.targets_fresh] at mem
    exact absurd mem List.not_mem_nil
  · obtain ⟨m, there, right⟩ := targeted other n e found far mem
    have different : far.id ≠ id := by
      rintro same
      rw [same, hole] at there
      cases there
    exact ⟨m, (find?_insert_other t different _).trans there, right⟩

end NodeTable

namespace Graph

variable {rule : NodeKind → Attributes → Prop}

/-- A graph in which every node and every edge is as its kind asks for. -/
structure WellTyped (g : Graph) : Prop where
  /-- The node at a position has that position as its id, and the two lowest ids are not used. -/
  placed : ∀ (i : Nat) (n : Node), g.nodes.items[i]? = some (some n) → n.id.index = i ∧ 1 < i
  /-- No node is of an abstract kind. -/
  concrete : ∀ n ∈ g.nodeList, n.kind.isAbstract = false
  /-- The slots of a node are those of its kind, in their order. -/
  slots : ∀ n ∈ g.nodeList, n.edgeKinds = n.kind.edgeKinds
  /-- The target of an edge exists and is of the kind that the edge asks for. -/
  targets : ∀ n ∈ g.nodeList, ∀ e ∈ n.edges,
    ∃ m, g.find? e.target = some m ∧ m.kind.isKindOf e.kind.target = true
  /-- An edge carries a value of the kind that it asks for, or none if it asks for none. -/
  values : ∀ n ∈ g.nodeList, ∀ e ∈ n.edges, EdgeValue.kindOf e.value = e.kind.carries
  /-- There is at most one edge of a kind that allows only one. -/
  single : ∀ n ∈ g.nodeList, ∀ s ∈ n.slots, s.kind.isSingle = true → s.targets.length ≤ 1

/-- Every edit keeps all edges pointing to nodes of the right kind while ids last. -/
theorem Edit.targeted {g h : Graph} (edit : Edit rule g h) (room : g.size < idLimit)
    (sound : g.nodes.Sound) (targeted : g.nodes.Targeted) : h.nodes.Targeted := by
  cases edit with
  | create concrete => exact targeted.insert _ (nextId_fresh room).2
  | createAt concrete valid hole => exact targeted.insert _ hole
  | touch cosmetic =>
    apply targeted.update
    · intro n kind found right
      rw [(cosmetic n found).rest]
      exact right
    · intro n e found far mem
      rw [(cosmetic n found).rest] at mem
      exact Or.inl mem
  | @widen id kind n found wider =>
    obtain ⟨-, -, above, more, -⟩ := widened?_spec wider
    have only : ∀ m, g.nodes.find? id = some m → m = n :=
      fun m here => Option.some.inj (here.symm.trans found)
    apply targeted.update
    · -- edges to the node asked for a kind that the wider one still is
      intro m asked here right
      rw [only m here] at right
      exact NodeKind.isKindOf_trans above right
    · intro m e here far mem
      rw [only m here, Node.targets_promote ((sound.wellFormed id n found).kinds ▸ more)] at mem
      exact Or.inl (only m here ▸ mem)
  | @link e source t accepts =>
    have added : (g.nodes.update source fun n => n.addTarget e t).Targeted := by
      apply targeted.update
      · intro n kind _ right
        exact right
      · intro n other _ far mem
        rcases Node.mem_targets_of_addTarget mem with old | ⟨rfl, rfl⟩
        · exact Or.inl old
        · exact Or.inr accepts.target
    rw [nodes_link]
    split
    · exact added.update (fun _ _ _ right => right) fun _ _ _ _ mem => Or.inl mem
    · exact added
  | @sever e source target n found points =>
    have removed : (g.nodes.update source fun n => n.removeTarget e target).Targeted := by
      apply targeted.update
      · intro n kind _ right
        exact right
      · intro n other _ far mem
        exact Or.inl (Node.mem_targets_of_removeTarget mem)
    rw [nodes_unlink]
    split
    · apply removed.update
      · intro n kind _ right
        rw [Node.freed_eq]
        exact right
      · intro n other _ far mem
        rw [Node.freed_eq] at mem
        exact Or.inl mem
    · exact removed
  | intern s => exact targeted
  | loadTexts input => exact targeted
  | index selector => exact targeted
  | filter filter filterOn => exact targeted
  | language language => exact targeted
  | remember key id =>
    unfold Graph.remember
    split <;> exact targeted

/-- Sound nodes whose edges point to nodes of the right kind make a well-typed graph. -/
theorem wellTyped_of_sound {g : Graph} (sound : g.nodes.Sound) (targeted : g.nodes.Targeted) :
    g.WellTyped := by
  have wellFormed : ∀ n ∈ g.nodeList, n.WellFormed := fun n mem =>
    sound.wellFormed n.id n ((sound.indexed.mem_toList_iff n).1 mem)
  refine ⟨?_, ?_, ?_, ?_, ?_, ?_⟩
  · intro i n held
    have position := sound.indexed i n held
    refine ⟨position, ?_⟩
    have found : g.nodes.find? n.id = some n := by
      rw [NodeTable.find?_eq_some_iff, position]
      exact held
    have valid := (sound.wellFormed n.id n found).valid
    unfold NodeId.isValid at valid
    rw [decide_eq_true_eq, UInt32.lt_iff_toNat_lt] at valid
    rw [← position]
    exact valid
  · exact fun n mem => (wellFormed n mem).concrete
  · exact fun n mem => (wellFormed n mem).kinds
  · intro n mem e edge
    obtain ⟨-, far⟩ := (Node.mem_edges_iff (wellFormed n mem).distinct e).1 edge
    exact targeted n.id n e.kind ((sound.indexed.mem_toList_iff n).1 mem) _ far
  · intro n mem e edge
    obtain ⟨-, far⟩ := (Node.mem_edges_iff (wellFormed n mem).distinct e).1 edge
    exact (wellFormed n mem).kindOf_value far
  · exact fun n mem s slot => ((wellFormed n mem).slots s slot).single

/-- A new graph stays well typed along every history that loads no file and does not run out of
ids, whatever fails on the way. -/
theorem wellTyped_after (language : Language) (history : List Operation)
    (noLoad : ∀ operation ∈ history, operation.isLoad = false)
    (room : ((new language).after history).size < idLimit) :
    ((new language).after history).WellTyped := by
  let anything : NodeKind → Attributes → Prop := fun _ _ => True
  let Inv : Graph → Prop := fun g => g.nodes.Sound ∧ g.nodes.Targeted
  have edits : ∀ g h, Edit anything g h → g.size < idLimit → Inv g → Inv h :=
    fun g h edit room inv => ⟨edit.sound room inv.1, edit.targeted room inv.1 inv.2⟩
  have clears : ∀ language filterOn, Inv (empty language filterOn) := fun _ _ =>
    ⟨NodeTable.sound_empty, fun id n e found => by simp [empty] at found⟩
  have along : (new language).Along (fun _ operation => operation.isLoad = false) history :=
    along_of_forall (fun operation mem _ => noLoad operation mem) _
  obtain ⟨sound, targeted⟩ : Inv ((new language).after history) := by
    refine along.preserves_while_room (fun _ _ _ => trivial) edits clears ?_ ?_ room
    · intro g operation _
      exact operation.describes_of_forall (fun _ _ => trivial) g
    · intro g headers input isLoad
      cases isLoad
  exact wellTyped_of_sound sound targeted

/-- A history with a widened class, a replaced edge, a refused edge and a removed one. -/
def wideningHistory : List Operation :=
  [.createNode .plainClass, .addEdge .scopeHasMember rootId (madeId 0),
    .createNode .classGenericSpec, .createNode .classGeneric,
    .replaceNode (madeId 0) .classGeneric,
    .setEdge .classGenericSpecSpecialize (madeId 1) (some (madeId 0)),
    .setEdge .classGenericSpecSpecialize (madeId 1) (some (madeId 2)),
    .addEdge .folderContains rootId (madeId 0),
    .removeEdge .scopeHasMember rootId (madeId 0)]

/-- The history with a widened class leaves a well-typed graph. -/
theorem wellTyped_after_widening :
    (∀ operation ∈ wideningHistory, operation.isLoad = false) ∧
      ((new .java).after wideningHistory).size = 106 ∧
      ((new .java).after wideningHistory).WellTyped := by
  have noLoad : ∀ operation ∈ wideningHistory, operation.isLoad = false := by decide
  have size : ((new .java).after wideningHistory).size = 106 := by decide +kernel
  refine ⟨noLoad, size, wellTyped_after .java wideningHistory noLoad ?_⟩
  rw [size]
  decide

end Graph

end CodeGraph
