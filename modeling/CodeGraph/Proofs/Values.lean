import CodeGraph.Proofs.Views

/-!
# What nodes stand for

What a node stands for is told by its attributes, or by its kind together with its name or its one
edge. Both how it is told when a file is loaded (`GraphFile.singletonKey?`) and what it means
(`Node.StandsFor`) agree for attributes that suit the kind. Main statements:
`singletonKey?_eq_some_iff` and `isView_singletonKey?`.
-/

set_option autoImplicit false

namespace CodeGraph

namespace GraphFile

open CodeGraph.Graph

/-- What attributes tell of the value that a node stands for. -/
def attributesKey? : Attributes → Option SingletonKey
  | .simpleType kind => some (.simpleType kind)
  | .pointer kind => some (.pointer kind)
  | .comment text => some (.comment text)
  | _ => none

/-- What the kind of a node tells of the value that it stands for. -/
def kindKey? (n : Node) : Option SingletonKey :=
  match n.kind with
  | .typeFormerArray => some .array
  | .typeFormerNonType => some .nonType
  | .typeFormerType => some (.typeReference (n.single? .typeFormerTypeRefersTo))
  | .attributeAccess => (n.single? .attributeAccessAttribute).map .attributeAccess
  | .methodCall => (n.single? .methodCallMethod).map .methodCall
  | .component => some (.component n.name)
  | _ => none

/-- What a node stands for is told by its attributes, or else by its kind. -/
theorem singletonKey?_eq (n : Node) :
    singletonKey? n = (attributesKey? n.attributes).or (kindKey? n) := by
  obtain ⟨id, kind, parent, name, attributes, slots⟩ := n
  cases attributes <;> cases kind <;> rfl

/-- The edges that tell what a node stands for. -/
def referenceEdges : List EdgeKind :=
  [.typeFormerTypeRefersTo, .attributeAccessAttribute, .methodCallMethod]

/-- Nodes of the same kind stand for the same if they agree in what that kind looks at. -/
theorem kindKey?_congr {n m : Node} (kind : m.kind = n.kind)
    (name : n.kind = .component → m.name = n.name)
    (edges : n.kind ∈ referenceKinds → ∀ e ∈ referenceEdges, m.single? e = n.single? e) :
    kindKey? m = kindKey? n := by
  have single : ∀ kind ∈ referenceKinds, n.kind = kind → ∀ e ∈ referenceEdges,
      m.single? e = n.single? e := fun kind mem is => edges (is ▸ mem)
  unfold kindKey?
  rw [kind]
  split
  · rfl
  · rfl
  · next is => rw [single _ (by decide) is _ (by decide)]
  · next is => rw [single _ (by decide) is _ (by decide)]
  · next is => rw [single _ (by decide) is _ (by decide)]
  · next is => rw [name is]
  · rfl

/-- The kinds that tell what a node stands for. -/
def valueKinds : List NodeKind :=
  [.typeFormerArray, .typeFormerNonType, .typeFormerType, .attributeAccess, .methodCall, .component]

/-- A node of another kind stands for nothing by its kind. -/
theorem kindKey?_eq_none {n : Node} (other : n.kind ∉ valueKinds) : kindKey? n = none := by
  have not : ∀ kind ∈ valueKinds, n.kind ≠ kind := fun kind mem is => other (is ▸ mem)
  unfold kindKey?
  split
  case h_7 => rfl
  all_goals next is => exact absurd is (not _ (by decide))

/-- Attributes of the same layers tell a value or not alike. -/
theorem attributesKey?_sameLayers {a b : Attributes} (layers : a.SameLayers b)
    (nothing : attributesKey? a = none) : attributesKey? b = none := by
  cases layers <;> first | rfl | cases nothing

/-- Only the attributes of a few kinds tell what a node stands for. -/
theorem attributesKey?_suits {kind : NodeKind} {a : Attributes} (suits : Attributes.Suits kind a)
    (other : kind ∉ describedKinds) : attributesKey? a = none := by
  apply attributesKey?_sameLayers suits
  revert other
  cases kind <;> decide

/-- Edges of other kinds do not tell what a node stands for. -/
theorem singletonKey?_mapTargets {e : EdgeKind} (other : e ∉ referenceEdges) (n : Node)
    (f : List Target → List Target) : singletonKey? (n.mapTargets e f) = singletonKey? n := by
  have single : ∀ refers ∈ referenceEdges, (n.mapTargets e f).single? refers = n.single? refers := by
    intro refers mem
    have different : refers ≠ e := fun same => other (same ▸ mem)
    unfold Node.single?
    rw [Node.targets_mapTargets_other n different]
  have key : kindKey? (n.mapTargets e f) = kindKey? n :=
    kindKey?_congr rfl (fun _ => rfl) fun _ => single
  rw [singletonKey?_eq, singletonKey?_eq, key]
  rfl

/-- What nodes stand for depends on the edges of three kinds of nodes only. -/
theorem isView_singletonKey? : IsView referenceKinds singletonKey? where
  parent n p := rfl
  edges n slots free := by
    rw [singletonKey?_eq, singletonKey?_eq]
    congr 1
    exact kindKey?_congr rfl (fun _ => rfl) fun mem => absurd mem free
  entries n m t := by
    have other : entryEdge m ∉ referenceEdges := by
      unfold entryEdge
      split <;> decide
    exact singletonKey?_mapTargets other n _
  name n name other := by
    rw [singletonKey?_eq, singletonKey?_eq]
    congr 1
    exact kindKey?_congr rfl (fun is => absurd is other) fun _ _ _ => rfl
  attributes n attributes other suits suits' := by
    rw [singletonKey?_eq, singletonKey?_eq, attributesKey?_suits suits other]
    have told : attributesKey? attributes = none := attributesKey?_suits suits' other
    simp only [told, Option.none_or]
    exact kindKey?_congr rfl (fun _ => rfl) fun _ _ _ => rfl
  fresh id kind plain := by
    have nothing : ∀ kind ∈ plainKinds,
        attributesKey? (.ofKind kind) = none ∧ kind ∉ valueKinds := by decide
    obtain ⟨untold, other⟩ := nothing kind plain
    rw [singletonKey?_eq, kindKey?_eq_none other, Option.or_none]
    exact untold
  promote n kind wider := by
    obtain ⟨plain, plain'⟩ := plain_of_widened wider
    have other : ∀ kind ∈ plainKinds, kind ∉ valueKinds := by decide
    rw [singletonKey?_eq, singletonKey?_eq, kindKey?_eq_none (other _ plain),
      kindKey?_eq_none (n := n.promote kind) (other _ plain')]
    rfl

/-- The kind of the nodes whose attributes tell what they stand for. -/
theorem kind_of_suits {kind : NodeKind} {a : Attributes} (suits : Attributes.Suits kind a) :
    (∀ k, a = .simpleType k → kind = .simpleType) ∧
      (∀ k, a = .pointer k → kind = .typeFormerPointer) ∧
      ∀ text, a = .comment text → kind = .comment := by
  refine ⟨?_, ?_, ?_⟩ <;> rintro _ rfl <;> cases kind <;> first | rfl | cases suits

end GraphFile

/-- What it means for a node to stand for a value, types apart. -/
def Node.StandsFor (n : Node) : SingletonKey → Prop
  | .simpleType kind => n.kind = .simpleType ∧ n.attributes = .simpleType kind
  | .pointer kind => n.kind = .typeFormerPointer ∧ n.attributes = .pointer kind
  | .array => n.kind = .typeFormerArray
  | .nonType => n.kind = .typeFormerNonType
  | .typeReference target =>
    n.kind = .typeFormerType ∧ n.single? .typeFormerTypeRefersTo = target
  | .attributeAccess accessed =>
    n.kind = .attributeAccess ∧ n.single? .attributeAccessAttribute = some accessed
  | .methodCall method => n.kind = .methodCall ∧ n.single? .methodCallMethod = some method
  | .comment text => n.kind = .comment ∧ n.attributes = .comment text
  | .component name => n.kind = .component ∧ n.name = name
  | .type _ => False

namespace GraphFile

open CodeGraph.Graph

/-- A node stands for the value that its kind tells. -/
theorem standsFor_of_kindKey? {n : Node} {key : SingletonKey} (told : kindKey? n = some key) :
    n.StandsFor key := by
  unfold kindKey? at told
  split at told
  · next is =>
    cases told
    exact is
  · next is =>
    cases told
    exact is
  · next is =>
    cases told
    exact ⟨is, rfl⟩
  · next is =>
    obtain ⟨accessed, points, rfl⟩ := Option.map_eq_some_iff.1 told
    exact ⟨is, points⟩
  · next is =>
    obtain ⟨method, points, rfl⟩ := Option.map_eq_some_iff.1 told
    exact ⟨is, points⟩
  · next is =>
    cases told
    exact ⟨is, rfl⟩
  · cases told

/-- Loading finds out what a node stands for. -/
theorem singletonKey?_eq_some_iff {n : Node} (suits : Attributes.Suits n.kind n.attributes)
    (key : SingletonKey) : singletonKey? n = some key ↔ n.StandsFor key := by
  rw [singletonKey?_eq]
  constructor
  · intro told
    obtain ⟨simple, pointer, comment⟩ := kind_of_suits suits
    rcases Option.or_eq_some_iff.1 told with described | ⟨-, kind⟩
    · unfold attributesKey? at described
      split at described
      · next k is =>
        cases described
        exact ⟨simple k is, is⟩
      · next k is =>
        cases described
        exact ⟨pointer k is, is⟩
      · next text is =>
        cases described
        exact ⟨comment text is, is⟩
      · cases described
    · exact standsFor_of_kindKey? kind
  · intro stands
    have untold : ∀ kind ∉ describedKinds, n.kind = kind → attributesKey? n.attributes = none :=
      fun kind other is => attributesKey?_suits suits (is ▸ other)
    cases key with
    | simpleType k | pointer k | comment text =>
      rw [stands.2]
      rfl
    | array | nonType =>
      have is : n.kind = _ := stands
      rw [untold _ (by decide) is, kindKey?, is]
      rfl
    | typeReference target | attributeAccess target | methodCall target | component target =>
      rw [untold _ (by decide) stands.1, kindKey?, stands.1]
      simp [stands.2]
    | type formers => exact stands.elim

end GraphFile

end CodeGraph
