import CodeGraph.Proofs.ValueUniqueness

/-!
# Graphs that differ in parents only

Two graphs are twins if they have the same nodes but for their parents, the same texts, and the same
nodes on record for values. Twins give the same answer when they are asked for the node of a value or
for a type, and stay twins: `Twin.perform`. What is asked for is given whenever it can be made:
`exists_node_of_ready`.
-/

set_option autoImplicit false

namespace CodeGraph

namespace Node

/-- The node without its parent. -/
def orphan (n : Node) : Node :=
  { n with parent := none }

/-- A node is renamed with or without its parent. -/
theorem orphan_setName (n : Node) (name : TextKey) :
    (n.setName name).orphan = n.orphan.setName name := by
  have same : n.orphan.isNamed = n.isNamed := rfl
  unfold setName
  rw [same]
  split <;> rfl

end Node

namespace Graph

variable {g h : Graph}

/-- Two graphs that differ in nothing that counts for values, types and their nodes. -/
structure Twin (g h : Graph) : Prop where
  size : h.size = g.size
  texts : h.texts = g.texts
  record : ∀ key, h.singleton? key = g.singleton? key
  nodes : ∀ id, (h.find? id).map Node.orphan = (g.find? id).map Node.orphan

namespace Twin

/-- A twin has a node where the other one has, of the same kind and with the same edges. -/
theorem find?_cases (twin : g.Twin h) (id : NodeId) :
    g.find? id = none ∧ h.find? id = none ∨
      ∃ n m, g.find? id = some n ∧ h.find? id = some m ∧ m.kind = n.kind ∧ m.slots = n.slots := by
  have same := twin.nodes id
  cases there : g.find? id with
  | none =>
    rw [there] at same
    exact Or.inl ⟨rfl, Option.map_eq_none_iff.1 same⟩
  | some n =>
    rw [there] at same
    obtain ⟨m, found, equal⟩ := Option.map_eq_some_iff.1 same
    have kind : m.orphan.kind = n.orphan.kind := congrArg Node.kind equal
    have slots : m.orphan.slots = n.orphan.slots := congrArg Node.slots equal
    exact Or.inr ⟨n, m, rfl, found, kind, slots⟩

/-- Twins have nodes at the same ids. -/
theorem isSome_find? (twin : g.Twin h) (id : NodeId) :
    (h.find? id).isSome = (g.find? id).isSome := by
  rw [← Option.isSome_map (f := Node.orphan), twin.nodes, Option.isSome_map]

/-- Twins have the same next new id. -/
theorem nextId (twin : g.Twin h) : h.nextId = g.nextId := by
  unfold Graph.nextId
  rw [twin.size]

/-- Interning a text in twins gives the same key and leaves twins. -/
theorem intern (twin : g.Twin h) (s : String) :
    (h.intern s).1 = (g.intern s).1 ∧ (g.intern s).2.Twin (h.intern s).2 := by
  unfold Graph.intern
  rw [twin.texts]
  exact ⟨rfl, twin.size, rfl, twin.record, twin.nodes⟩

/-- Inserting a node into twins leaves twins. -/
theorem insertNode (twin : g.Twin h) (kind : NodeKind) (id : NodeId) :
    (g.insertNode kind id).Twin (h.insertNode kind id) := by
  refine ⟨?_, twin.texts, twin.record, fun other => ?_⟩
  · rw [size_insertNode, size_insertNode, twin.size]
  · rw [find?_insertNode, find?_insertNode]
    split
    · rfl
    · exact twin.nodes other

/-- Changing a node of twins leaves twins, if the change does not look at parents. -/
theorem updateNode (twin : g.Twin h) {f : Node → Node} (own : ∀ n, (f n).orphan = f n.orphan)
    (id : NodeId) : (g.updateNode id f).Twin (h.updateNode id f) := by
  refine ⟨?_, twin.texts, twin.record, fun other => ?_⟩
  · rw [size_updateNode, size_updateNode, twin.size]
  · have same : Node.orphan ∘ f = f ∘ Node.orphan := funext own
    rw [find?_updateNode, find?_updateNode]
    split
    · rw [Option.map_map, Option.map_map, same, ← Option.map_map, ← Option.map_map, twin.nodes]
    · exact twin.nodes other

end Twin

/-- Remembering a node under a key changes nothing if one is remembered there. -/
theorem singleton?_remember (g : Graph) (key other : SingletonKey) (id : NodeId) :
    (g.remember key id).singleton? other =
      (g.singleton? other).or (if key = other then some id else none) := by
  cases known : g.singleton? key with
  | some first =>
    have same : g.remember key id = g := by
      unfold remember
      rw [known]
    rw [same]
    split
    · next is => rw [← is, known, Option.some_or]
    · rw [Option.or_none]
  | none =>
    have added : (g.remember key id).singletons = (key, id) :: g.singletons := by
      unfold remember
      rw [known]
    have lookup : (g.remember key id).singleton? other =
        if key = other then some id else g.singleton? other := by
      unfold singleton?
      rw [added]
      rfl
    rw [lookup]
    split
    · next is => rw [← is, known, Option.none_or]
    · rw [Option.or_none]

namespace Twin

/-- Remembering a node in twins leaves twins. -/
theorem remember (twin : g.Twin h) (key : SingletonKey) (id : NodeId) :
    (g.remember key id).Twin (h.remember key id) := by
  have find : ∀ (k : Graph) other, (k.remember key id).find? other = k.find? other := by
    intro k other
    unfold Graph.remember
    split <;> rfl
  refine ⟨?_, ?_, fun other => ?_, fun other => ?_⟩
  · rw [size_remember, size_remember, twin.size]
  · rw [texts_remember, texts_remember, twin.texts]
  · rw [singleton?_remember, singleton?_remember, twin.record]
  · rw [find, find, twin.nodes]

/-- Making a node in twins gives the same id and leaves twins. -/
theorem newNodeWith (twin : g.Twin h) (kind : NodeKind) {f : Node → Node}
    (own : ∀ n, (f n).orphan = f n.orphan) :
    (h.newNodeWith kind f).1 = (g.newNodeWith kind f).1 ∧
      (g.newNodeWith kind f).2.Twin (h.newNodeWith kind f).2 := by
  unfold Graph.newNodeWith
  rw [twin.nextId]
  exact ⟨rfl, (twin.insertNode kind _).updateNode own _⟩

/-- Asking twins for the node of a value gives the same id and leaves twins. -/
theorem singletonNode (twin : g.Twin h) (key : SingletonKey) (kind : NodeKind) {f : Node → Node}
    (own : ∀ n, (f n).orphan = f n.orphan) :
    (h.singletonNode key kind f).1 = (g.singletonNode key kind f).1 ∧
      (g.singletonNode key kind f).2.Twin (h.singletonNode key kind f).2 := by
  unfold Graph.singletonNode
  rw [twin.record]
  cases g.singleton? key with
  | some id => exact ⟨rfl, twin⟩
  | none =>
    obtain ⟨id, made⟩ := twin.newNodeWith kind own
    simp only
    rw [id]
    exact ⟨rfl, made.remember key _⟩

/-! ## Edges -/

/-- Twins refuse the same targets. -/
theorem checkTarget (twin : g.Twin h) (site : Site) (e : EdgeKind) (target : NodeId) :
    h.checkTarget site e target = g.checkTarget site e target := by
  unfold Graph.checkTarget
  rcases twin.find?_cases target with ⟨none, none'⟩ | ⟨n, m, found, found', kind, -⟩
  · rw [none, none']
  · have is : m.is e.target = n.is e.target := congrArg (NodeKind.isKindOf · e.target) kind
    rw [found, found']
    simp only
    rw [is, kind]

/-- Twins refuse the same edges. -/
theorem checkEdge (twin : g.Twin h) (site : Site) (e : EdgeKind) (source target : NodeId)
    (value : Option EdgeValue) :
    h.checkEdge site e source target value = g.checkEdge site e source target value := by
  unfold Graph.checkEdge
  rw [twin.checkTarget]
  rcases twin.find?_cases source with ⟨none, none'⟩ | ⟨n, m, found, found', kind, slots⟩
  · rw [none, none']
  · have has : m.hasEdgeKind e = n.hasEdgeKind e := by
      unfold Node.hasEdgeKind Node.slot?
      rw [slots]
    rw [found, found']
    simp only
    rw [has, kind]

/-- Linking an edge that does not contain leaves twins. -/
theorem link (twin : g.Twin h) {e : EdgeKind} (cross : e.isContainment = false)
    (source : NodeId) (t : Target) : (g.link e source t).Twin (h.link e source t) := by
  refine ⟨?_, ?_, fun key => ?_, fun other => ?_⟩
  · rw [size_link, size_link, twin.size]
  · rw [texts_link, texts_link, twin.texts]
  · unfold singleton?
    rw [singletons_link, singletons_link]
    exact twin.record key
  · rw [find?_link_cross cross, find?_link_cross cross]
    have own : Node.orphan ∘ (fun n => n.addTarget e t) =
        (fun n => n.addTarget e t) ∘ Node.orphan := rfl
    split
    · rw [Option.map_map, Option.map_map, own, ← Option.map_map, ← Option.map_map, twin.nodes]
    · exact twin.nodes other

end Twin

/-- The same result, in twins. -/
def Alike {α : Type} (first second : α × Graph) : Prop :=
  second.1 = first.1 ∧ first.2.Twin second.2

namespace Twin

/-- Adding edges to twins one by one ends alike. -/
theorem addEdges {e : EdgeKind} (cross : e.isContainment = false) (source : NodeId)
    (targets : List NodeId) {g h : Graph} (twin : g.Twin h) :
    Alike (g.addEdges e source targets) (h.addEdges e source targets) := by
  rw [addEdges_eq, addEdges_eq]
  induction targets generalizing g h with
  | nil => exact ⟨rfl, twin⟩
  | cons target targets ih =>
    unfold withEdges withEdge
    rw [twin.checkEdge]
    cases g.checkEdge .addEdge e source target none with
    | error cause => exact ⟨rfl, twin⟩
    | ok done => exact ih (twin.link cross source _)

/-- Making a node with an edge to another ends alike in twins. -/
theorem newNodeTo (twin : g.Twin h) (kind : NodeKind) {e : EdgeKind} (single : e.isSingle = true)
    (target : Option NodeId) : Alike (g.newNodeTo kind e target) (h.newNodeTo kind e target) := by
  have created := twin.insertNode kind g.nextId
  cases target with
  | none =>
    rw [newNodeTo_none g kind single, newNodeTo_none h kind single, twin.nextId]
    exact ⟨rfl, created⟩
  | some t =>
    have cross := EdgeKind.isContainment_of_isSingle single
    have same : (h.insertNode kind h.nextId).checkEdge .setEdge e h.nextId t none =
        (g.insertNode kind g.nextId).checkEdge .setEdge e g.nextId t none := by
      rw [twin.nextId]
      exact created.checkEdge _ _ _ _ _
    cases checked : (g.insertNode kind g.nextId).checkEdge .setEdge e g.nextId t none with
    | error cause =>
      rw [newNodeTo_refused single checked, newNodeTo_refused single (same.trans checked),
        twin.nextId]
      exact ⟨rfl, created⟩
    | ok done =>
      rw [newNodeTo_linked single checked, newNodeTo_linked single (same.trans checked),
        twin.nextId]
      exact ⟨rfl, created.link cross _ _⟩

/-- Asking twins for a reference ends alike. -/
theorem referenceNode (twin : g.Twin h) (key : SingletonKey) (kind : NodeKind) {e : EdgeKind}
    (single : e.isSingle = true) (target : Option NodeId) {check check' : Except Error Unit}
    (same : check' = check) :
    Alike (g.referenceNode key kind e target check) (h.referenceNode key kind e target check') := by
  have made := twin.newNodeTo kind single target
  unfold Graph.referenceNode
  rw [twin.record, same]
  cases g.singleton? key with
  | some id => exact ⟨rfl, twin⟩
  | none =>
    cases check with
    | error cause => exact ⟨rfl, twin⟩
    | ok done =>
      simp only
      generalize g.newNodeTo kind e target = mine, h.newNodeTo kind e target = yours at made ⊢
      obtain ⟨_, mine⟩ := mine
      obtain ⟨result, yours⟩ := yours
      obtain ⟨rfl, created⟩ := made
      cases result with
      | error cause => exact ⟨rfl, created⟩
      | ok id => exact ⟨rfl, created.remember key id⟩

/-- Twins refuse the same formers. -/
theorem checkFormers (twin : g.Twin h) (formers : List NodeId) :
    h.checkFormers formers = g.checkFormers formers := by
  induction formers with
  | nil => rfl
  | cons former formers ih =>
    unfold Graph.checkFormers
    rcases twin.find?_cases former with ⟨none, none'⟩ | ⟨n, m, found, found', kind, -⟩
    · rw [none, none']
    · have is : m.is .typeFormer = n.is .typeFormer := congrArg (NodeKind.isKindOf · .typeFormer) kind
      rw [found, found']
      simp only
      rw [is, kind, ih]

/-- Building a type ends alike in twins. -/
theorem buildType (twin : g.Twin h) (stack : List NodeId) :
    Alike (g.buildType stack) (h.buildType stack) := by
  have interned := twin.intern (typeText stack.reverse)
  unfold Graph.buildType
  rw [twin.checkFormers]
  split
  · exact ⟨rfl, twin⟩
  · cases g.checkFormers stack with
    | error cause => exact ⟨rfl, twin⟩
    | ok done =>
      simp only
      generalize g.intern (typeText stack.reverse) = mine, h.intern (typeText stack.reverse) = yours
        at interned ⊢
      obtain ⟨key, twin⟩ := interned
      rw [key, twin.record]
      cases mine.2.singleton? (.type mine.1) with
      | some id => exact ⟨rfl, twin⟩
      | none =>
        have linked := (twin.insertNode .type mine.2.nextId).addEdges (e := .typeHasTypeFormer) rfl
          mine.2.nextId stack.reverse
        unfold newNode
        simp only
        rw [twin.nextId]
        generalize (mine.2.insertNode .type mine.2.nextId).addEdges _ _ _ = made,
          (yours.2.insertNode .type mine.2.nextId).addEdges _ _ _ = made' at linked ⊢
        obtain ⟨_, made⟩ := made
        obtain ⟨result, made'⟩ := made'
        obtain ⟨rfl, linked⟩ := linked
        cases result with
        | error cause => exact ⟨rfl, linked⟩
        | ok done => exact ⟨rfl, linked.remember _ _⟩

/-- Answers with alike nodes are alike. -/
theorem node {first second : NodeId × Graph} (alike : Alike first second) :
    Alike (Outcome.node first) (Outcome.node second) :=
  ⟨congrArg (fun id => Except.ok (Answer.node id)) alike.1, alike.2⟩

/-- Answers with alike nodes or failures are alike. -/
theorem nodeHalf {first second : Except Error NodeId × Graph} (alike : Alike first second) :
    Alike (Outcome.nodeHalf first) (Outcome.nodeHalf second) :=
  ⟨congrArg (Except.map Answer.node) alike.1, alike.2⟩

/-- Twins that are asked for a value or a type give the same answer and stay twins. -/
theorem perform (twin : g.Twin h) {operation : Operation}
    (asks : operation.asksForValue = true ∨ operation.asksForType = true) :
    (operation.perform h).1 = (operation.perform g).1 ∧
      (operation.perform g).2.Twin (operation.perform h).2 := by
  cases operation with
  | simpleType kind => exact node (twin.singletonNode _ _ fun _ => rfl)
  | pointerFormer kind => exact node (twin.singletonNode _ _ fun _ => rfl)
  | arrayFormer => exact node (twin.singletonNode _ _ fun _ => rfl)
  | nonTypeFormer => exact node (twin.singletonNode _ _ fun _ => rfl)
  | comment text =>
    obtain ⟨key, interned⟩ := twin.intern text
    apply node
    unfold Graph.comment
    simp only
    rw [key]
    exact interned.singletonNode _ _ fun _ => rfl
  | component name =>
    obtain ⟨key, interned⟩ := twin.intern name
    apply node
    unfold Graph.component
    simp only
    rw [key]
    exact interned.singletonNode _ _ fun n => n.orphan_setName _
  | typeReference refersTo =>
    refine nodeHalf (twin.referenceNode _ _ rfl _ ?_)
    cases refersTo with
    | none => rfl
    | some target =>
      unfold Graph.node
      rcases twin.find?_cases target with ⟨none, none'⟩ | ⟨n, m, found, found', -⟩
      · simp only [none, none']
      · simp only [found, found']
        rfl
  | attributeAccess accessed =>
    exact nodeHalf (twin.referenceNode _ _ rfl _ (twin.checkTarget _ _ _))
  | methodCall method =>
    exact nodeHalf (twin.referenceNode _ _ rfl _ (twin.checkTarget _ _ _))
  | buildType stack => exact nodeHalf (twin.buildType stack)
  | _ => rcases asks with asks | asks <;> cases asks

end Twin

end Graph

namespace Operation

/-- Whether the nodes are there that an operation needs which asks for a value or a type. -/
def Ready (g : Graph) : Operation → Prop
  | .typeReference refersTo => ∀ target ∈ refersTo, g.nodes.Has target .base
  | .attributeAccess accessed => g.nodes.Has accessed .attribute
  | .methodCall method => g.nodes.Has method .method
  | .buildType stack => stack ≠ [] ∧ ∀ former ∈ stack, g.nodes.Has former .typeFormer
  | _ => True

end Operation

namespace Graph

variable {g : Graph}

/-- A node that was made is the answer. -/
theorem exists_node_of_ok {result : Except Error NodeId × Graph}
    (made : ∃ id h, result = (.ok id, h)) : ∃ id, (Outcome.nodeHalf result).1 = .ok (.node id) := by
  obtain ⟨id, h, rfl⟩ := made
  exact ⟨id, rfl⟩

/-- While ids last, every value and every type is given whose nodes are there. -/
theorem exists_node_of_ready (room : g.size < idLimit) {operation : Operation}
    (asks : operation.asksForValue = true ∨ operation.asksForType = true)
    (ready : operation.Ready g) : ∃ id, (operation.perform g).1 = .ok (.node id) := by
  cases operation with
  | simpleType | pointerFormer | arrayFormer | nonTypeFormer | comment | component =>
    exact ⟨_, rfl⟩
  | typeReference refersTo =>
    apply exists_node_of_ok
    cases refersTo with
    | none => exact exists_referenceNode room _ rfl (by decide) ready
    | some target =>
      obtain ⟨n, found, -⟩ := ready target rfl
      have found : g.find? target = some n := found
      unfold typeReference Graph.node
      simp only [found]
      exact exists_referenceNode room _ rfl (by decide) ready
  | attributeAccess accessed =>
    apply exists_node_of_ok
    unfold attributeAccess
    rw [checkTarget_of_has (e := .attributeAccessAttribute) ready]
    refine exists_referenceNode room _ rfl (by decide) ?_
    rintro _ ⟨⟩
    exact ready
  | methodCall method =>
    apply exists_node_of_ok
    unfold methodCall
    rw [checkTarget_of_has (e := .methodCallMethod) ready]
    refine exists_referenceNode room _ rfl (by decide) ?_
    rintro _ ⟨⟩
    exact ready
  | buildType stack => exact exists_node_of_ok (exists_buildType room ready.1 ready.2)
  | _ => rcases asks with asks | asks <;> cases asks

end Graph

end CodeGraph
