import CodeGraph.Proofs.EdgeChanges

/-!
# What operations do to single nodes

A law says what may become of a node, and what new nodes are like (`NodeLaw`). Nodes follow a law from
one graph to another if every node is still there and has become what the law allows, and all other
nodes are new ones (`Follows`). That is so of the small changes that operations consist of, and from
these of whole operations. Main statement: `follows_perform`, an operation follows every law that
allows the changes that it was asked for (`Operation.Respects`), while ids last.
-/

set_option autoImplicit false

namespace CodeGraph

namespace Graph

/-- The edges by which nodes are told apart that stand for something. -/
def valueEdges : List EdgeKind :=
  [.typeFormerTypeRefersTo, .attributeAccessAttribute, .methodCallMethod, .typeHasTypeFormer]

/-- What may become of nodes. -/
structure NodeLaw where
  /-- What the node at an id may turn into. -/
  allows : NodeId → Node → Node → Prop
  /-- What nodes are like that did not exist before. -/
  new : Node → Prop
  refl : ∀ id n, allows id n n
  trans : ∀ {id n m l}, allows id n m → allows id m l → allows id n l
  /-- Parents do not matter. -/
  parent : ∀ id n p, allows id n { n with parent := p }
  /-- What is allowed to a new node leaves it new. -/
  still : ∀ {id n m}, new n → allows id n m → new m
  /-- Fresh nodes are new, whatever their names and attributes. -/
  fresh : ∀ id kind name attributes, new { Node.fresh id kind with name, attributes }
  /-- Nodes may be made to stand for something. -/
  value : ∀ id n, ∀ e ∈ valueEdges, ∀ f, allows id n (n.mapTargets e f)

/-- While ids last, every node of a graph has become what a law allows, and the others are new. -/
structure Follows (law : NodeLaw) (g h : Graph) : Prop where
  size : g.size ≤ h.size
  kept : h.size < idLimit → ∀ id n, g.find? id = some n →
    ∃ m, h.find? id = some m ∧ law.allows id n m
  made : h.size < idLimit → ∀ id m, g.find? id = none → h.find? id = some m → law.new m

variable {law : NodeLaw} {g h k : Graph}

namespace Follows

/-- Where nodes stay as they are, every law is followed. -/
theorem of_nodes (same : h.nodes = g.nodes) : Follows law g h where
  size := Nat.le_of_eq (congrArg NodeTable.size same).symm
  kept _ id n found := by
    unfold find?
    rw [same]
    exact ⟨n, found, law.refl id n⟩
  made _ id m hole found := by
    unfold find? at hole found
    rw [same, hole] at found
    cases found

/-- Every law is followed where nothing is done. -/
theorem refl (g : Graph) : Follows law g g :=
  of_nodes rfl

/-- A law that is followed twice is followed. -/
theorem trans (first : Follows law g h) (second : Follows law h k) : Follows law g k where
  size := Nat.le_trans first.size second.size
  kept room id n found := by
    obtain ⟨m, there, before⟩ := first.kept (Nat.lt_of_le_of_lt second.size room) id n found
    obtain ⟨l, here, after⟩ := second.kept room id m there
    exact ⟨l, here, law.trans before after⟩
  made room id l hole found := by
    cases there : h.find? id with
    | none => exact second.made room id l there found
    | some m =>
      have new := first.made (Nat.lt_of_le_of_lt second.size room) id m hole there
      obtain ⟨l', here, after⟩ := second.kept room id m there
      cases found.symm.trans here
      exact law.still new after

/-- Only the nodes count. -/
theorem congr (follows : Follows law g h) (same : k.nodes = h.nodes) : Follows law g k :=
  follows.trans (of_nodes same)

end Follows

/-! ## Nodes -/

/-- Changing a node follows a law that allows the change. -/
theorem follows_updateNode {id : NodeId} {f : Node → Node}
    (allowed : ∀ n, g.find? id = some n → law.allows id n (f n)) :
    Follows law g (g.updateNode id f) where
  size := Nat.le_of_eq (size_updateNode g id f).symm
  kept _ other n found := by
    rw [find?_updateNode]
    split
    · next here =>
      subst here
      exact ⟨f n, congrArg (Option.map f) found, allowed n found⟩
    · exact ⟨n, found, law.refl other n⟩
  made _ other m hole found := by
    rw [find?_updateNode] at found
    split at found
    · next here =>
      rw [here] at hole
      rw [hole] at found
      cases found
    · rw [hole] at found
      cases found

/-- A fresh node at an unused id follows every law. -/
theorem follows_insertNode {id : NodeId} (kind : NodeKind) (hole : g.find? id = none) :
    Follows law g (g.insertNode kind id) where
  size := by
    rw [size_insertNode]
    exact Nat.le_max_left _ _
  kept _ other n found := by
    have different : other ≠ id := by
      rintro rfl
      rw [hole] at found
      cases found
    rw [find?_insertNode, if_neg different]
    exact ⟨n, found, law.refl other n⟩
  made _ other m unused found := by
    rw [find?_insertNode] at found
    split at found
    · cases found
      exact law.fresh id kind _ _
    · rw [unused] at found
      cases found

/-- A new node takes the next id, while ids last. -/
theorem follows_newNode (g : Graph) (kind : NodeKind) : Follows law g (g.newNode kind).2 := by
  have size : (g.newNode kind).2.size = max g.size (g.nextId.index + 1) := size_insertNode g kind _
  have unused : (g.newNode kind).2.size < idLimit → g.find? g.nextId = none :=
    fun room => (nextId_fresh (by omega)).2
  exact ⟨by omega, fun room => (follows_insertNode kind (unused room)).kept room,
    fun room => (follows_insertNode kind (unused room)).made room⟩

/-- Making a node with a name or attributes follows every law. -/
theorem follows_newNodeWith (g : Graph) {kind : NodeKind} {f : Node → Node}
    (cosmetic : ∀ id, Cosmetic (fun _ _ => True) (.fresh id kind) (f (.fresh id kind))) :
    Follows law g (g.newNodeWith kind f).2 := by
  have made : Follows law g (g.newNode kind).2 := follows_newNode g kind
  have size : (g.newNodeWith kind f).2.size = (g.newNode kind).2.size := size_updateNode _ _ _
  refine ⟨size.symm ▸ made.size, fun room id n found => ?_, fun room id m hole found => ?_⟩
  · have unused : g.find? g.nextId = none :=
      (nextId_fresh (Nat.lt_of_le_of_lt made.size (size ▸ room))).2
    have different : id ≠ g.nextId := by
      rintro rfl
      rw [unused] at found
      cases found
    rw [find?_newNodeWith, if_neg different]
    exact ⟨n, found, law.refl id n⟩
  · rw [find?_newNodeWith] at found
    split at found
    · cases found
      rw [(cosmetic g.nextId).rest]
      exact law.fresh _ _ _ _
    · rw [hole] at found
      cases found

/-! ## Edges -/

/-- Linking an edge follows a law that allows its source to get it. -/
theorem follows_link {e : EdgeKind} {source : NodeId} {t : Target}
    (allowed : ∀ n, g.find? source = some n → law.allows source n (n.addTarget e t)) :
    Follows law g (g.link e source t) := by
  have added : Follows law g (g.updateNode source fun n => n.addTarget e t) :=
    follows_updateNode allowed
  have nodes := nodes_link g e source t
  split at nodes
  · have adopted : Follows law (g.updateNode source fun n => n.addTarget e t)
        ((g.updateNode source fun n => n.addTarget e t).updateNode t.id
          (Node.adopted ⟨source, e⟩)) :=
      follows_updateNode fun n _ => law.parent t.id n _
    exact (added.trans adopted).congr nodes
  · exact added.congr nodes

/-- Adding an edge follows a law that allows its source to get it. -/
theorem follows_withEdge {e : EdgeKind} {source target : NodeId}
    (allowed : ∀ n, g.find? source = some n → ∀ t, law.allows source n (n.addTarget e t))
    (added : g.withEdge e source target = .ok h) : Follows law g h := by
  obtain ⟨-, rfl⟩ := withEdge_eq_ok added
  exact follows_link fun n found => allowed n found _

section Targets

variable {e : EdgeKind} {source : NodeId}
  (allowed : ∀ n, g.find? source = some n → ∀ f, law.allows source n (n.mapTargets e f))

include allowed

/-- Removing an edge follows a law that allows its source to change its edges of the kind. -/
theorem follows_withoutEdge {target : NodeId} {removed : Bool}
    (done : g.withoutEdge e source target = .ok (removed, h)) : Follows law g h := by
  obtain rfl | ⟨-, -, -, rfl⟩ := withoutEdge_eq_ok done
  · exact .refl h
  · have taken : Follows law g (g.updateNode source fun n => n.removeTarget e target) :=
      follows_updateNode fun n found => allowed n found _
    have nodes := nodes_unlink (g.updateNode source fun n => n.removeTarget e target) e source target
    split at nodes
    · have freed : Follows law (g.updateNode source fun n => n.removeTarget e target)
          ((g.updateNode source fun n => n.removeTarget e target).updateNode target
            (Node.freed source)) := by
        refine follows_updateNode fun n _ => ?_
        rw [Node.freed_eq]
        exact law.parent target n _
      exact (taken.trans freed).congr nodes
    · exact taken.congr nodes

/-- Setting the one edge of a kind follows a law that allows its source to change it. -/
theorem follows_withSingle {target : Option NodeId} (done : g.withSingle e source target = .ok h) :
    Follows law g h := by
  obtain ⟨-, rfl | ⟨t, -, rfl⟩ | ⟨previous, removed, gone⟩⟩ := withSingle_eq_ok done
  · exact .refl h
  · exact follows_link fun n found => allowed n found _
  · exact follows_withoutEdge allowed gone

end Targets

/-- Adding edges one by one follows a law that allows their source to get them. -/
theorem follows_addEdges {e : EdgeKind} {source : NodeId}
    (allowed : ∀ n t, law.allows source n (n.addTarget e t)) (targets : List NodeId) (g : Graph) :
    Follows law g (g.addEdges e source targets).2 := by
  rw [addEdges_eq]
  induction targets generalizing g with
  | nil => exact .refl g
  | cons target targets ih =>
    unfold withEdges
    split
    · exact .refl g
    · next added => exact (follows_withEdge (fun n _ => allowed n) added).trans (ih _)

/-! ## Values -/

/-- Remembering what a node stands for follows every law. -/
theorem follows_remember (g : Graph) (key : SingletonKey) (id : NodeId) :
    Follows law g (g.remember key id) :=
  .of_nodes (g.nodes_remember key id)

/-- Asking for the node of a value follows every law. -/
theorem follows_singletonNode (g : Graph) (key : SingletonKey) {kind : NodeKind} {f : Node → Node}
    (cosmetic : ∀ id, Cosmetic (fun _ _ => True) (.fresh id kind) (f (.fresh id kind))) :
    Follows law g (g.singletonNode key kind f).2 := by
  unfold singletonNode
  split
  · exact .refl g
  · exact (follows_newNodeWith g cosmetic).trans (follows_remember _ key _)

/-- Making a node with an edge to what it stands for follows every law. -/
theorem follows_newNodeTo (g : Graph) (kind : NodeKind) {e : EdgeKind} (value : e ∈ valueEdges)
    (target : Option NodeId) : Follows law g (g.newNodeTo kind e target).2 := by
  rw [newNodeTo_eq]
  unfold withNodeTo
  simp only
  split
  · exact follows_newNode g kind
  · next linked =>
    exact (follows_newNode g kind).trans
      (follows_withSingle (fun n _ => law.value _ n e value) linked)

/-- Asking for a reference follows every law. -/
theorem follows_referenceNode (g : Graph) (key : SingletonKey) (kind : NodeKind) {e : EdgeKind}
    (value : e ∈ valueEdges) (target : Option NodeId) (check : Except Error Unit) :
    Follows law g (g.referenceNode key kind e target check).2 :=
  referenceNode_preserves (P := Follows law g) (.refl g) (follows_newNodeTo g kind value target)
    fun h id before => before.trans (follows_remember h key id)

/-- Building a type follows every law. -/
theorem follows_buildType (g : Graph) (stack : List NodeId) :
    Follows law g (g.buildType stack).2 := by
  have interned : Follows law g (g.intern (typeText stack.reverse)).2 := .of_nodes rfl
  refine buildType_preserves (P := Follows law g) (.refl g) interned (fun id => ?_)
    fun h key id before => before.trans (follows_remember h key id)
  exact (interned.trans (follows_newNode _ .type)).trans
    (follows_addEdges (fun n t => law.value id n _ (by decide) _) stack.reverse _)

/-! ## Files -/

section Entries

variable (entries : ∀ id n m t, law.allows id n (n.addTarget (entryEdge m) t))

include entries

/-- Opening an entry follows a law that allows containers to get entries. -/
theorem follows_openEntry (g : Graph) (container : NodeId) (name : String) (kind : NodeKind) :
    Follows law g (g.openEntry container name kind).2 := by
  rw [openEntry_eq]
  unfold withEntry
  split
  · exact .refl g
  · next holder _ =>
    split
    · exact .refl g
    · have interned : Follows law g (g.intern name).2 := .of_nodes rfl
      have created : Follows law (g.intern name).2
          ((g.intern name).2.newNodeWith kind fun n => n.setName (g.intern name).1).2 :=
        follows_newNodeWith _ fun id => cosmetic_setName (.fresh id kind) _
      simp only
      split
      · exact interned.trans created
      · next added =>
        exact (interned.trans created).trans (follows_withEdge (fun n _ => entries _ n holder) added)

/-- Asking for a file follows a law that allows containers to get entries. -/
theorem follows_createFileFrom (g : Graph) (path : String) (start : NodeId) :
    Follows law g (g.createFileFrom path start).2 :=
  createFileFrom_preserves (P := Follows law g)
    (fun h container name before => before.trans (follows_openEntry entries h container name .folder))
    (fun h container name before => before.trans (follows_openEntry entries h container name .file))
    g path start (.refl g)

end Entries

/-! ## Operations -/

end Graph

namespace Operation

open CodeGraph.Graph

/-- Whether a law allows what an operation asks for. -/
def Respects (law : NodeLaw) (g : Graph) : Operation → Prop
  | .clear | .load _ _ => False
  | .replaceNode id kind => ∀ n ∈ g.find? id, widened? n.kind = some kind →
    law.allows id n (n.promote kind)
  | .createFile _ | .createFileFrom _ _ =>
    ∀ id n m t, law.allows id n (n.addTarget (entryEdge m) t)
  | .setName id _ | .setNameKey id _ => ∀ n ∈ g.find? id, ∀ key, law.allows id n (n.setName key)
  | .setAttributes id attributes => ∀ n ∈ g.find? id, law.allows id n { n with attributes }
  | .addEdge e source _ | .addValueEdge e source _ _ | .setEdge e source _
  | .removeEdge e source _ => ∀ n ∈ g.find? source, ∀ f, law.allows source n (n.mapTargets e f)
  | _ => True

end Operation

namespace Graph

variable {law : NodeLaw} {g : Graph}

/-- An operation follows a law if its successes do. -/
theorem follows_orKeep {result : Except Error Graph}
    (succeeds : ∀ h, result = .ok h → Follows law g h) :
    Follows law g (Outcome.orKeep g result).2 :=
  orKeep_preserves (P := Follows law g) (.refl g) succeeds

/-- Changing name or attributes of a node, if it exists, follows a law that allows it. -/
theorem follows_touch {id : NodeId} {f : Node → Node}
    (allowed : ∀ n ∈ g.find? id, law.allows id n (f n)) : Follows law g (g.touch id f).2 := by
  unfold touch
  split
  · exact follows_updateNode allowed
  · exact .refl g

/-- A change of the filter follows every law. -/
theorem Refilters.follows {h : Graph} (refilters : g.Refilters h) : Follows law g h := by
  obtain ⟨filter, rfl⟩ := refilters
  exact .of_nodes rfl

/-- An operation follows a law that allows what it asks for. -/
theorem follows_perform {operation : Operation} (respects : operation.Respects law g) :
    Follows law g (operation.perform g).2 := by
  have described : ∀ (n : Node) attributes, Cosmetic (fun _ _ => True) n { n with attributes } :=
    fun _ _ => cosmetic_describe trivial
  rw [Operation.perform_eq]
  cases operation with
  | clear => exact respects.elim
  | load headers input => exact respects.elim
  | simpleType kind => exact follows_singletonNode g _ fun id => described _ _
  | pointerFormer kind => exact follows_singletonNode g _ fun id => described _ _
  | arrayFormer => exact follows_singletonNode g _ fun id => .refl _
  | nonTypeFormer => exact follows_singletonNode g _ fun id => .refl _
  | typeReference refersTo => exact follows_referenceNode g _ _ (by decide) _ _
  | attributeAccess accessed => exact follows_referenceNode g _ _ (by decide) _ _
  | methodCall method => exact follows_referenceNode g _ _ (by decide) _ _
  | comment text =>
    have interned : Follows law g (g.intern text).2 := .of_nodes rfl
    exact interned.trans (follows_singletonNode _ _ fun id => described _ _)
  | component name =>
    have interned : Follows law g (g.intern name).2 := .of_nodes rfl
    exact interned.trans (follows_singletonNode _ _ fun id => cosmetic_setName _ _)
  | buildType stack => exact follows_buildType g stack
  | setLanguage language => exact .of_nodes rfl
  | intern text => exact .of_nodes rfl
  | loadTexts input => exact .of_nodes rfl
  | createNode kind =>
    refine nodeOrKeep_preserves (P := Follows law g) (.refl g) fun id h created => ?_
    obtain ⟨-, made⟩ := withNode_eq_ok created
    cases made
    exact follows_newNode g kind
  | createNodeWithId kind id =>
    refine nodeOrKeep_preserves (P := Follows law g) (.refl g) fun made h created => ?_
    cases result : g.withNodeAt kind id with
    | error cause => simp [result, Except.map] at created
    | ok next =>
      rw [result] at created
      cases created
      obtain ⟨-, -, hole, rfl⟩ := withNodeAt_eq_ok result
      exact follows_insertNode kind hole
  | replaceNode id kind =>
    apply follows_orKeep
    intro h replaced
    obtain ⟨n, found, wider, rfl⟩ := withKind_eq_ok replaced
    refine follows_updateNode fun m here => ?_
    cases found.symm.trans here
    exact respects n found wider
  | methodFormer => exact follows_newNode g .typeFormerMethod
  | friendship grantee =>
    have interned : Follows law g (g.intern grantee).2 := .of_nodes rfl
    exact interned.trans (follows_newNodeWith _ fun id => described _ _)
  | createFile path => exact follows_createFileFrom respects g path g.fileSystem
  | createFileFrom path start => exact follows_createFileFrom respects g path start
  | setName id name =>
    apply follows_orKeep
    intro h named
    rw [withName_eq_ok named]
    have interned : Follows law g (g.intern name).2 := .of_nodes rfl
    exact interned.trans (follows_updateNode fun n found => respects n found _)
  | setNameKey id name => exact follows_touch fun n found => respects n found name
  | setAttributes id attributes => exact follows_touch respects
  | addEdge edge source target =>
    exact follows_orKeep fun h added => follows_withEdge (fun n found t => respects n found _) added
  | addValueEdge edge source target value =>
    apply follows_orKeep
    intro h added
    obtain ⟨-, rfl⟩ := withValueEdge_eq_ok added
    exact follows_link fun n found => respects n found _
  | setEdge edge source target => exact follows_orKeep fun h done => follows_withSingle respects done
  | removeEdge edge source target =>
    exact flagOrKeep_preserves (P := Follows law g) (.refl g) fun removed h done =>
      follows_withoutEdge respects done
  | buildIndex selector =>
    change Follows law g (g.withIndex selector).2
    rcases snd_withIndex g selector with same | built
    · rw [same]
      exact .refl g
    · rw [built]
      exact .of_nodes rfl
  | turnFilterOn => exact .of_nodes rfl
  | turnFilterOff => exact .of_nodes rfl
  | hide id => exact follows_orKeep fun h hidden => (refilters_withHidden hidden).follows
  | reveal id => exact .of_nodes rfl
  | hideOnly id => exact follows_orKeep fun h hidden => (refilters_withState hidden).follows
  | revealOnly id => exact follows_orKeep fun h shown => (refilters_withState shown).follows
  | resetFilter => exact .of_nodes rfl
  | loadFilter input => exact follows_orKeep fun h loaded => (refilters_map loaded).follows

end Graph

end CodeGraph
