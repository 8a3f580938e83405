import CodeGraph.Proofs.Values

/-!
# Nodes that are put on record

Asking for the node of a value gives the node that is on record for it, or makes one and puts it on
record (`Makes`). Main statements: `makes_singletonNode`, `referenceNode_eq_ok` and `buildType_eq_ok`,
what the ways of asking give; types are on record under the text that lists their formers.
-/

set_option autoImplicit false

namespace CodeGraph

open Relation

namespace Graph

variable {g h m : Graph} {key : SingletonKey} {n : Node}

/-- A graph that has one more node, which is on record for a value that had none. -/
structure Makes (g : Graph) (key : SingletonKey) (n : Node) (h : Graph) : Prop where
  new : g.singleton? key = none
  hole : g.find? n.id = none
  find : ∀ other, h.find? other = if other = n.id then some n else g.find? other
  singletons : h.singletons = (key, n.id) :: g.singletons
  texts : h.texts = g.texts

/-- A node that is made is on record under its key, and the others stay. -/
theorem Makes.singleton? (makes : g.Makes key n h) (other : SingletonKey) :
    h.singleton? other = if key = other then some n.id else g.singleton? other := by
  unfold Graph.singleton?
  rw [makes.singletons]
  rfl

/-- A node that is made shows what it shows, and the others go on showing the same. -/
theorem Makes.shown {α : Type} (makes : g.Makes key n h) (view : Node → Option α) (id : NodeId) :
    h.shown view id = if id = n.id then view n else g.shown view id := by
  unfold Graph.shown
  rw [makes.find]
  split <;> rfl

/-- Adding a node and remembering it under a new key makes it. -/
theorem makes_remember (new : g.singleton? key = none) (hole : g.find? n.id = none)
    (find : ∀ other, h.find? other = if other = n.id then some n else g.find? other)
    (singletons : h.singletons = g.singletons) (texts : h.texts = g.texts) :
    g.Makes key n (h.remember key n.id) := by
  have still : h.singleton? key = none := by
    unfold singleton? at new ⊢
    rw [singletons]
    exact new
  have remembered :
      h.remember key n.id = { h with singletons := (key, n.id) :: h.singletons } := by
    unfold remember
    rw [still]
  rw [remembered]
  exact ⟨new, hole, find, congrArg _ singletons, texts⟩

/-- A value on record is given and nothing is changed. -/
theorem singletonNode_of_known {id : NodeId} (known : g.singleton? key = some id) (kind : NodeKind)
    (f : Node → Node) : g.singletonNode key kind f = (id, g) := by
  unfold singletonNode
  rw [known]

/-- The node of a value that had none is made, and is on record then. -/
theorem makes_singletonNode (room : g.size < idLimit) (new : g.singleton? key = none)
    (kind : NodeKind) {f : Node → Node} (own : ∀ n, (f n).id = n.id) :
    g.Makes key (f (.fresh g.nextId kind)) (g.singletonNode key kind f).2 ∧
      (g.singletonNode key kind f).1 = g.nextId := by
  have same : (f (.fresh g.nextId kind)).id = g.nextId := own _
  unfold singletonNode
  rw [new]
  refine ⟨?_, rfl⟩
  have made := makes_remember (h := (g.newNodeWith kind f).2) new
    (same.symm ▸ (nextId_fresh room).2) (fun other => ?_) rfl rfl
  · rw [same] at made
    exact made
  · rw [same, find?_newNodeWith]

/-! ## References -/

/-- Linking an edge that does not contain changes its source only. -/
theorem find?_link_cross {e : EdgeKind} (cross : e.isContainment = false) (g : Graph)
    (source : NodeId) (t : Target) (other : NodeId) :
    (g.link e source t).find? other =
      if other = source then (g.find? source).map fun n => n.addTarget e t else g.find? other := by
  unfold find?
  rw [nodes_link, cross, if_neg Bool.false_ne_true, NodeTable.find?_update]

/-- A node that refers to nothing is a fresh one. -/
theorem newNodeTo_none (g : Graph) (kind : NodeKind) {e : EdgeKind} (single : e.isSingle = true) :
    g.newNodeTo kind e none = (.ok g.nextId, g.insertNode kind g.nextId) := by
  have found : (g.insertNode kind g.nextId).find? g.nextId = some (.fresh g.nextId kind) := by
    rw [find?_insertNode, if_pos rfl]
  have unset : (Node.fresh g.nextId kind).single? e = none := by
    unfold Node.single?
    rw [Node.targets_fresh]
    rfl
  rw [newNodeTo_eq]
  unfold withNodeTo newNode withSingle
  simp only [single, if_true, found, unset]

/-- A node that refers to another is a fresh one with an edge, if the edge is not refused. -/
theorem newNodeTo_linked {kind : NodeKind} {e : EdgeKind} (single : e.isSingle = true) {t : NodeId}
    (checked : (g.insertNode kind g.nextId).checkEdge .setEdge e g.nextId t none = .ok ()) :
    g.newNodeTo kind e (some t) =
      (.ok g.nextId, (g.insertNode kind g.nextId).link e g.nextId { id := t }) := by
  rw [newNodeTo_eq]
  unfold withNodeTo newNode withSingle
  simp only [single, if_true, checked]

/-- A new node whose edge is refused stays without it. -/
theorem newNodeTo_refused {kind : NodeKind} {e : EdgeKind} (single : e.isSingle = true) {t : NodeId}
    {cause : Error}
    (checked : (g.insertNode kind g.nextId).checkEdge .setEdge e g.nextId t none = .error cause) :
    g.newNodeTo kind e (some t) = (.error cause, g.insertNode kind g.nextId) := by
  rw [newNodeTo_eq]
  unfold withNodeTo newNode withSingle
  simp only [single, if_true, checked]

/-- A new node with its one edge set. -/
theorem newNodeTo_eq_ok {kind : NodeKind} {e : EdgeKind} {target : Option NodeId} {id : NodeId}
    (single : e.isSingle = true) (has : e ∈ kind.edgeKinds)
    (made : g.newNodeTo kind e target = (.ok id, h)) :
    id = g.nextId ∧ h.singletons = g.singletons ∧ h.texts = g.texts ∧ ∃ n : Node, n.id = id ∧
      n.kind = kind ∧ n.attributes = .ofKind kind ∧ n.single? e = target ∧
      ∀ other, h.find? other = if other = id then some n else g.find? other := by
  cases target with
  | none =>
    rw [newNodeTo_none g kind single] at made
    cases made
    have unset : (Node.fresh g.nextId kind).single? e = none := by
      unfold Node.single?
      rw [Node.targets_fresh]
      rfl
    exact ⟨rfl, rfl, rfl, .fresh g.nextId kind, rfl, rfl, rfl, unset, find?_insertNode g kind _⟩
  | some t =>
    cases checked : (g.insertNode kind g.nextId).checkEdge .setEdge e g.nextId t none with
    | error cause =>
      rw [newNodeTo_refused single checked] at made
      cases made
    | ok done =>
      rw [newNodeTo_linked single checked] at made
      cases made
      refine ⟨rfl, singletons_link _ _ _ _, texts_link _ _ _ _,
        (Node.fresh g.nextId kind).addTarget e { id := t }, rfl, rfl, rfl, ?_, fun other => ?_⟩
      · have slot : e ∈ (Node.fresh g.nextId kind).edgeKinds := by
          rw [Node.edgeKinds_fresh]
          exact has
        unfold Node.single? Node.addTarget
        rw [Node.targets_mapTargets_same slot, Node.targets_fresh, single]
        rfl
      · rw [find?_link_cross (EdgeKind.isContainment_of_isSingle single), find?_insertNode,
          find?_insertNode, if_pos rfl]
        split <;> rfl

/-- The node that refers to another one is on record, or is made and is on record then. -/
theorem referenceNode_eq_ok {kind : NodeKind} {e : EdgeKind} {target : Option NodeId}
    {check : Except Error Unit} {id : NodeId} (single : e.isSingle = true)
    (has : e ∈ kind.edgeKinds) (room : g.size < idLimit)
    (made : g.referenceNode key kind e target check = (.ok id, h)) :
    g.singleton? key = some id ∧ h = g ∨
      ∃ n, g.Makes key n h ∧ n.id = id ∧ n.kind = kind ∧ n.attributes = .ofKind kind ∧
        n.single? e = target := by
  unfold referenceNode at made
  split at made
  · next known =>
    cases made
    exact Or.inl ⟨known, rfl⟩
  · next new =>
    split at made
    · cases made
    · split at made
      · cases made
      · next created =>
        cases made
        obtain ⟨rfl, singletons, texts, n, own, kind, attributes, points, find⟩ :=
          newNodeTo_eq_ok single has created
        rw [← own] at find ⊢
        exact Or.inr ⟨n, makes_remember new (own.symm ▸ (nextId_fresh room).2) find singletons texts,
          rfl, kind, attributes, points⟩

/-! ## Types -/

/-- The formers of a type. -/
def typeFormers? (n : Node) : Option (List NodeId) :=
  if n.kind = .type then some ((n.targets .typeHasTypeFormer).map Target.id) else none

/-- Only types have formers. -/
theorem typeFormers?_eq_none {n : Node} (other : n.kind ≠ .type) : typeFormers? n = none :=
  if_neg other

/-- A kind of nodes that stand for nothing but themselves is not that of types. -/
theorem ne_type_of_plain {kind : NodeKind} (plain : kind ∈ plainKinds) : kind ≠ .type := by
  rintro rfl
  revert plain
  decide

/-- The formers of types depend on the edges of types only. -/
theorem isView_typeFormers? : IsView [.type] typeFormers? where
  parent n p := rfl
  edges n slots free := by
    have other : n.kind ≠ .type := fun is => free (List.mem_singleton.2 is)
    rw [typeFormers?_eq_none other]
    exact typeFormers?_eq_none other
  entries n m t := by
    have different : EdgeKind.typeHasTypeFormer ≠ entryEdge m := by
      unfold entryEdge
      split <;> decide
    unfold typeFormers? Node.addTarget
    rw [Node.targets_mapTargets_other n different]
    rfl
  name n name other := rfl
  attributes n attributes other suits suits' := rfl
  fresh id kind plain := typeFormers?_eq_none (n := .fresh id kind) (ne_type_of_plain plain)
  promote n kind wider := by
    obtain ⟨plain, plain'⟩ := plain_of_widened wider
    rw [typeFormers?_eq_none (ne_type_of_plain plain)]
    exact typeFormers?_eq_none (n := n.promote kind) (ne_type_of_plain plain')

/-- Edges of one kind are added one after another. -/
theorem find?_addEdges {e : EdgeKind} (cross : e.isContainment = false) {source : NodeId}
    (targets : List NodeId) {g : Graph} (added : g.addEdges e source targets = (.ok (), h)) :
    h.singletons = g.singletons ∧ h.texts = g.texts ∧ ∀ other, h.find? other =
      if other = source then (g.find? source).map (fun n =>
        targets.foldl (fun n target => n.addTarget e { id := target }) n)
      else g.find? other := by
  rw [addEdges_eq] at added
  induction targets generalizing g with
  | nil =>
    cases added
    refine ⟨rfl, rfl, fun other => ?_⟩
    split
    · next here =>
      rw [here]
      exact Option.map_id'.symm
    · rfl
  | cons target targets ih =>
    unfold withEdges withEdge at added
    split at added
    · cases added
    · next first =>
      split at first
      · cases first
      · cases first
        obtain ⟨singletons, texts, find⟩ := ih added
        refine ⟨singletons.trans (singletons_link _ _ _ _),
          texts.trans (texts_link _ _ _ _), fun other => ?_⟩
        rw [find, find?_link_cross cross, find?_link_cross cross, if_pos rfl,
          Option.map_map]
        split <;> rfl

/-- A type gets its formers as targets, in order. -/
theorem addTarget_formers (formers : List NodeId) (n : Node)
    (has : EdgeKind.typeHasTypeFormer ∈ n.edgeKinds) :
    ∃ slots, formers.foldl (fun n former => n.addTarget .typeHasTypeFormer { id := former }) n =
        { n with slots } ∧
      (({ n with slots } : Node).targets .typeHasTypeFormer).map Target.id =
        (n.targets .typeHasTypeFormer).map Target.id ++ formers := by
  induction formers generalizing n with
  | nil => exact ⟨n.slots, rfl, (List.append_nil _).symm⟩
  | cons former formers ih =>
    have still : EdgeKind.typeHasTypeFormer ∈
        (n.addTarget .typeHasTypeFormer { id := former }).edgeKinds := by
      unfold Node.addTarget
      rw [Node.edgeKinds_mapTargets]
      exact has
    obtain ⟨slots, made, targets⟩ := ih _ still
    have first : (n.addTarget .typeHasTypeFormer { id := former }).targets .typeHasTypeFormer =
        n.targets .typeHasTypeFormer ++ [{ id := former }] :=
      Node.targets_mapTargets_same has _
    refine ⟨slots, made, ?_⟩
    rw [first, List.map_append, List.append_assoc] at targets
    exact targets

/-- A type is on record under the text of its formers, or is made and is on record then. -/
theorem buildType_eq_ok {stack : List NodeId} {id : NodeId} (room : g.size < idLimit)
    (built : g.buildType stack = (.ok id, h)) :
    let interned := g.intern (typeText stack.reverse)
    interned.2.singleton? (.type interned.1) = some id ∧ h = interned.2 ∨
      ∃ n, interned.2.Makes (.type interned.1) n h ∧ n.id = id ∧ n.kind = .type ∧
        n.attributes = .ofKind .type ∧ typeFormers? n = some stack.reverse := by
  intro interned
  unfold buildType at built
  split at built
  · cases built
  · split at built
    · cases built
    · simp only at built
      split at built
      · next known =>
        cases built
        exact Or.inl ⟨known, rfl⟩
      · next new =>
        split at built
        · cases built
        · next linked added =>
          cases built
          obtain ⟨singletons, texts, find⟩ := find?_addEdges rfl _ added
          have has : EdgeKind.typeHasTypeFormer ∈ (Node.fresh interned.2.nextId .type).edgeKinds := by
            rw [Node.edgeKinds_fresh]
            decide
          obtain ⟨slots, made, targets⟩ := addTarget_formers stack.reverse _ has
          have hole : interned.2.find? interned.2.nextId = none := (nextId_fresh room).2
          refine Or.inr ⟨{ Node.fresh interned.2.nextId .type with slots },
            makes_remember new hole (fun other => ?_) singletons texts, rfl, rfl, rfl, ?_⟩
          · rw [find]
            change (if other = interned.2.nextId then
              ((interned.2.insertNode .type interned.2.nextId).find? interned.2.nextId).map _
              else (interned.2.insertNode .type interned.2.nextId).find? other) = _
            rw [find?_insertNode, find?_insertNode, if_pos rfl]
            by_cases here : other = interned.2.nextId
            · rw [if_pos here]
              exact (congrArg some made).trans (if_pos here).symm
            · rw [if_neg here, if_neg here]
              exact (if_neg here).symm
          · rw [Node.targets_fresh] at targets
            exact congrArg some targets

end Graph

end CodeGraph
