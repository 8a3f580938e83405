import CodeGraph.Proofs.EdgeChanges
import CodeGraph.Proofs.Layouts
import Mathlib.Algebra.BigOperators.Group.List.Basic

/-!
# Payloads

Whatever the bytes, what is read into a fresh node leaves it well formed and with attributes that
suit its kind, even if the bytes break off. The payload of a node restores its name, its attributes and
its edges from a fresh node of its kind, whatever follows it. Main statements: `Node.wellFormed_load`,
`Node.suits_load` and `Node.payload_restored`; `Node.load_save` is the case of a node of a graph.
-/

set_option autoImplicit false

namespace CodeGraph

namespace InPlace

variable {α β : Type}

/-- What storing a value that was read keeps, reading a list of values keeps. -/
theorem loadRounds_preserves {read : Reader (Option β)} {store : β → α → α} {P : α → Prop}
    (step : ∀ b a input rest, read input = .ok (some b, rest) → P a → P (store b a))
    (rounds : Bytes) {a : α} (start : P a) (input : Bytes) :
    P (loadRounds read store rounds a input).1 := by
  induction rounds generalizing a input with
  | nil => exact start
  | cons round rounds ih =>
    unfold loadRounds
    split
    · exact start
    · exact start
    · next b rest taken => exact ih (step b a input rest taken start) rest

/-- A list of values is restored from its bytes one by one, up to the mark that ends it, if a value
takes at least one byte. -/
theorem loadRounds_flatMap {read : Reader (Option β)} {store : β → α → α} {bytes : β → Bytes}
    {mark : Bytes} (values : List β) {rounds : Bytes} (rest : Bytes)
    (reads : ∀ b ∈ values, ∀ rest, read (bytes b ++ rest) = .ok (some b, rest))
    (ends : ∀ rest, read (mark ++ rest) = .ok (none, rest)) (enough : values.length < rounds.length)
    (a : α) :
    loadRounds read store rounds a (values.flatMap bytes ++ mark ++ rest) =
      (values.foldl (fun a b => store b a) a, .ok rest) := by
  induction values generalizing a rounds with
  | nil =>
    cases rounds with
    | nil => exact absurd enough (Nat.not_lt_zero _)
    | cons round rounds =>
      unfold loadRounds
      rw [List.flatMap_nil, List.nil_append, ends]
      rfl
  | cons b values ih =>
    cases rounds with
    | nil => exact absurd enough (Nat.not_lt_zero _)
    | cons round rounds =>
      unfold loadRounds
      rw [List.flatMap_cons, List.append_assoc, List.append_assoc,
        reads b List.mem_cons_self, ← List.append_assoc]
      exact ih (fun c mem => reads c (List.mem_cons_of_mem b mem))
        (Nat.lt_of_succ_lt_succ enough) (store b a)

/-- Values of at least one byte each take as many bytes as they are, or more. -/
theorem length_le_flatMap {bytes : β → Bytes} {values : List β}
    (takes : ∀ b ∈ values, bytes b ≠ []) : values.length ≤ (values.flatMap bytes).length := by
  calc values.length = (values.map fun b => (bytes b).length).length := (List.length_map _).symm
    _ ≤ (values.map fun b => (bytes b).length).sum := by
      apply List.length_le_sum_of_one_le
      intro length mem
      obtain ⟨b, among, rfl⟩ := List.mem_map.1 mem
      exact List.length_pos_iff.2 (takes b among)
    _ = (values.flatMap bytes).length := List.length_flatMap.symm

/-- A list of values is restored from its bytes and the mark that ends it. -/
theorem loadList_flatMap {read : Reader (Option β)} {store : β → α → α} {bytes : β → Bytes}
    {mark : Bytes} (values : List β) (rest : Bytes)
    (reads : ∀ b ∈ values, ∀ rest, read (bytes b ++ rest) = .ok (some b, rest))
    (ends : ∀ rest, read (mark ++ rest) = .ok (none, rest)) (takes : ∀ b, bytes b ≠ []) (a : α) :
    loadList read store a (values.flatMap bytes ++ mark ++ rest) =
      (values.foldl (fun a b => store b a) a, .ok rest) := by
  have counted := length_le_flatMap fun b (_ : b ∈ values) => takes b
  refine loadRounds_flatMap values rest reads ends ?_ a
  simp only [List.length_cons, List.length_append]
  omega

end InPlace

/-! ## What any bytes leave -/

/-- A value that was read is of the kind asked for. -/
theorem ValueKind.kindOf_of_read {kind : ValueKind} {input rest : Bytes} {value : Option EdgeValue}
    (taken : kind.read input = .ok (value, rest)) : EdgeValue.kindOf value = kind := by
  cases kind with
  | nothing =>
    cases taken
    rfl
  | text | position | bound | parameter =>
    simp only [read, Reader.map_apply] at taken
    split at taken
    · cases taken
      rfl
    · cases taken

namespace Slot

/-- One more edge with a value of the right kind keeps the values of a slot right. -/
theorem carried_push {s : Slot} {t : Target} (carried : EdgeValue.kindOf t.value = s.kind.carries)
    (all : ∀ t ∈ s.targets, EdgeValue.kindOf t.value = s.kind.carries) :
    ∀ other ∈ (s.push t).targets, EdgeValue.kindOf other.value = (s.push t).kind.carries := by
  intro other mem
  rcases List.mem_append.1 mem with old | new
  · exact all other old
  · rw [List.mem_singleton.1 new]
    exact carried

/-- A far end that was read carries a value of the kind asked for. -/
theorem kindOf_of_readTarget {kind : ValueKind} {input rest : Bytes} {t : Target}
    (taken : readTarget kind input = .ok (some t, rest)) : EdgeValue.kindOf t.value = kind := by
  unfold readTarget at taken
  rw [Reader.bind_apply] at taken
  split at taken
  · next id? left idRead =>
    cases id? with
    | none => cases taken
    | some id =>
      simp only [Reader.bind_apply] at taken
      split at taken
      · next value _ valueRead =>
        cases taken
        exact ValueKind.kindOf_of_read valueRead
      · cases taken
  · cases taken

/-- Reading into an empty slot keeps its kind and leaves it well formed. -/
theorem wellFormed_load (e : EdgeKind) (input : Bytes) :
    (load { kind := e } input).1.kind = e ∧ (load { kind := e } input).1.WellFormed := by
  unfold load
  by_cases single : e.isSingle = true
  · rw [if_pos single]
    split
    · exact ⟨rfl, wellFormed_empty e⟩
    · exact ⟨rfl, wellFormed_empty e⟩
    · refine ⟨rfl, ⟨?_, fun _ => Nat.le_refl 1⟩⟩
      refine carried_push ?_ fun _ absent => absurd absent List.not_mem_nil
      exact (EdgeKind.carries_of_isSingle single).symm
  · rw [if_neg single]
    -- a slot for several edges keeps its kind and right values as each edge is read
    let Right : Slot → Prop := fun s =>
      s.kind = e ∧ ∀ t ∈ s.targets, EdgeValue.kindOf t.value = s.kind.carries
    have step : ∀ (t : Target) (s : Slot) (input rest : Bytes),
        readTarget e.carries input = .ok (some t, rest) → Right s → Right (push t s) := by
      rintro t s input rest taken ⟨kind, carried⟩
      refine ⟨kind, carried_push ?_ carried⟩
      rw [kind]
      exact kindOf_of_readTarget taken
    have start : Right { kind := e } := ⟨rfl, fun _ absent => absurd absent List.not_mem_nil⟩
    obtain ⟨kind, carried⟩ := InPlace.loadRounds_preserves step (0 :: input) start input
    refine ⟨kind, carried, fun allowsOne => ?_⟩
    have sameKind := congrArg EdgeKind.isSingle kind
    exact absurd (sameKind.symm.trans allowsOne) single

/-- Reading into empty slots keeps their kinds and leaves them well formed. -/
theorem wellFormed_loadAll (kinds : List EdgeKind) (input : Bytes) :
    let loaded := (loadAll (kinds.map fun e => { kind := e }) input).1
    loaded.map Slot.kind = kinds ∧ ∀ s ∈ loaded, s.WellFormed := by
  induction kinds generalizing input with
  | nil => exact ⟨rfl, fun _ absent => absurd absent List.not_mem_nil⟩
  | cons e kinds ih =>
    obtain ⟨kind, wf⟩ := wellFormed_load e input
    rw [List.map_cons]
    unfold loadAll
    split
    · next s left taken =>
      rw [taken] at kind wf
      obtain ⟨kinds', all⟩ := ih left
      refine ⟨?_, List.forall_mem_cons.2 ⟨wf, all⟩⟩
      rw [List.map_cons, kind, kinds']
    · next s cause taken =>
      rw [taken] at kind wf
      refine ⟨?_, List.forall_mem_cons.2 ⟨wf, ?_⟩⟩
      · rw [List.map_cons, kind, List.map_map]
        exact congrArg (e :: ·) (List.map_id _)
      · intro s mem
        obtain ⟨other, -, rfl⟩ := List.mem_map.1 mem
        exact wellFormed_empty other

end Slot

/-- Reading attributes keeps their layers. -/
theorem Attributes.sameLayers_load (a : Attributes) (input : Bytes) :
    a.SameLayers (a.load input).1 := by
  cases a <;> constructor

namespace Node

/-- Reading a payload changes the name of a named node, what the layers of its attributes hold, and
its slots. -/
theorem load_eq (n : Node) (input : Bytes) :
    ∃ name attributes slots, (n.load input).1 = { n with name, attributes, slots } ∧
      (n.isNamed = false → name = n.name) ∧ n.attributes.SameLayers attributes ∧
      (slots = n.slots ∨ ∃ left, slots = (Slot.loadAll n.slots left).1) := by
  have kept : n.isNamed = false → (n.loadName input).1 = n.name := by
    intro unnamed
    rw [loadName, unnamed]
    rfl
  unfold load
  split
  · next name cause taken =>
    rw [taken] at kept
    exact ⟨name, n.attributes, n.slots, rfl, kept, .refl n.attributes, Or.inl rfl⟩
  · next name left taken =>
    rw [taken] at kept
    have layers := n.attributes.sameLayers_load left
    split
    · next attributes cause read =>
      rw [read] at layers
      exact ⟨name, attributes, n.slots, rfl, kept, layers, Or.inl rfl⟩
    · next attributes last read =>
      rw [read] at layers
      exact ⟨name, attributes, _, rfl, kept, layers, Or.inr ⟨last, rfl⟩⟩

/-- A node that was read into a fresh one is well formed, even if the bytes broke off. -/
theorem wellFormed_load {id : NodeId} {kind : NodeKind} (valid : id.isValid = true)
    (concrete : kind.isAbstract = false) (input : Bytes) :
    ((fresh id kind).load input).1.WellFormed := by
  obtain ⟨name, attributes, slots, loaded, kept, -, filled⟩ := load_eq (fresh id kind) input
  have wf := wellFormed_fresh valid concrete
  rw [loaded]
  rcases filled with rfl | ⟨left, rfl⟩
  · exact ⟨valid, concrete, wf.kinds, wf.slots, fun unnamed => kept unnamed⟩
  · obtain ⟨kinds, all⟩ := Slot.wellFormed_loadAll kind.edgeKinds left
    exact ⟨valid, concrete, kinds, all, fun unnamed => kept unnamed⟩

/-- A node that was read into a fresh one has attributes that suit its kind. -/
theorem suits_load (id : NodeId) (kind : NodeKind) (input : Bytes) :
    Attributes.Suits kind ((fresh id kind).load input).1.attributes := by
  obtain ⟨name, attributes, slots, loaded, -, layers, -⟩ := load_eq (fresh id kind) input
  rw [loaded]
  exact layers

end Node

/-! ## What the bytes of a node restore -/

open Layout

/-- The second of two flags is read from the lowest bit. -/
theorem low_packFlags (high low : Bool) : (packFlags [high, low] &&& 1 != 0) = low := by
  cases high <;> cases low <;> decide

/-- The first of two flags is read from the bit above. -/
theorem high_packFlags (high low : Bool) : (packFlags [high, low] &&& 2 != 0) = high := by
  cases high <;> cases low <;> decide

/-- A single flag is read from the lowest bit. -/
theorem single_packFlags (flag : Bool) : (packFlags [flag] &&& 1 != 0) = flag := by
  cases flag <;> decide

/-- The layout of the layer of members is faithful. -/
theorem MemberAttributes.faithful_layout : MemberAttributes.layout.Faithful := by
  have access := Codec.lawful_enumerated Accessibility (by decide)
  have language := Codec.lawful_enumerated Language (by decide)
  refine Restores.faithful
    (restores_append (restores_field Codec.lawful_u8 _ _) <|
      restores_append (restores_field access _ _) <|
      restores_append (restores_field Codec.lawful_u32 _ _) <|
      restores_append (restores_field Codec.lawful_textKey _ _) <|
      restores_append (restores_field language _ _) <|
      restores_append (restores_field Codec.lawful_textKey _ _) restores_nothing) ?_
  intro a b
  simp only [high_packFlags, low_packFlags]

/-- The layout of the layer of scopes is faithful. -/
theorem ScopeAttributes.faithful_layout : ScopeAttributes.layout.Faithful := by
  have number := Codec.lawful_u32
  refine Restores.faithful
    (restores_append (restores_field number _ _) <|
      restores_append (restores_field number _ _) <|
      restores_append (restores_field number _ _) <|
      restores_append (restores_field number _ _) <|
      restores_append (restores_field Codec.lawful_bool _ _) restores_nothing) ?_
  intro a b
  rfl

/-- The layout of the layer of classes is faithful. -/
theorem ClassAttributes.faithful_layout : ClassAttributes.layout.Faithful := by
  have kind := Codec.lawful_enumerated ClassKind (by decide)
  refine Restores.faithful
    (restores_append (restores_field Codec.lawful_u8 _ _) <|
      restores_append (restores_field kind _ _) <|
      restores_append (restores_field Codec.lawful_u32 _ _) restores_nothing) ?_
  intro a b
  simp only [single_packFlags]

/-- The layout of the layer of methods is faithful. -/
theorem MethodAttributes.faithful_layout : MethodAttributes.layout.Faithful := by
  have kind := Codec.lawful_enumerated MethodKind (by decide)
  have number := Codec.lawful_u32
  refine Restores.faithful
    (restores_append (restores_field Codec.lawful_u8 _ _) <|
      restores_append (restores_field kind _ _) <|
      restores_append (restores_field number _ _) <|
      restores_append (restores_field number _ _) <|
      restores_append (restores_field number _ _) <|
      restores_append (restores_field number _ _) <|
      restores_append (restores_field number _ _) <|
      restores_append (restores_field number _ _) <|
      restores_append (restores_field number _ _) <|
      restores_append (restores_field number _ _) restores_nothing) ?_
  intro a b
  simp only [high_packFlags, low_packFlags]

/-- The layout of the layer of components is faithful. -/
theorem ComponentAttributes.faithful_layout : ComponentAttributes.layout.Faithful := by
  have time := Codec.lawful_enumerated AnalysisTime (by decide)
  refine Restores.faithful
    (restores_append (restores_field Codec.lawful_u32 _ _) <|
      restores_append (restores_field Codec.lawful_u32 _ _) <|
      restores_append (restores_field time _ _) <|
      restores_append (restores_field Codec.lawful_textKey _ _) <|
      restores_append (restores_field Codec.lawful_textKey _ _) restores_nothing) ?_
  intro a b
  rfl

/-- The layout of the layer of files is faithful. -/
theorem FileAttributes.faithful_layout : FileAttributes.layout.Faithful := by
  have number := Codec.lawful_u32
  refine Restores.faithful
    (restores_append (restores_field number _ _) <|
      restores_append (restores_field number _ _) <|
      restores_append (restores_field number _ _) <|
      restores_append (restores_field number _ _) restores_nothing) ?_
  intro a b
  rfl

/-- The layout of three layers is faithful if that of the third one is. -/
theorem Layout.faithful_scoped {α : Type} {own : Layout α} (faithful : own.Faithful) :
    (Layout.scoped own).Faithful := by
  refine Restores.faithful
    (restores_append (restores_part MemberAttributes.faithful_layout _ _) <|
      restores_append (restores_part ScopeAttributes.faithful_layout _ _) <|
      restores_append (restores_part faithful _ _) restores_nothing) ?_
  intro a b
  rfl

/-- The bytes of attributes restore them from any attributes with the same layers. -/
theorem Attributes.load_save {a b : Attributes} (same : b.SameLayers a) (rest : Bytes) :
    b.load (a.save ++ rest) = (a, .ok rest) := by
  rw [load_eq_layout, save_eq_layout]
  have text := faithful_value Codec.lawful_textKey
  cases same with
  | empty => rfl
  | comment old new => simp only [layout, rebuild, text new old]
  | component old new => simp only [layout, rebuild, ComponentAttributes.faithful_layout new old]
  | friendship old new => simp only [layout, rebuild, text new old]
  | genericParameter old new =>
    have kind := faithful_value (Codec.lawful_enumerated GenericParameterKind (by decide))
    simp only [layout, rebuild, kind new old]
  | parameter old new =>
    have kind := faithful_value (Codec.lawful_enumerated ParameterKind (by decide))
    simp only [layout, rebuild, kind new old]
  | file old new => simp only [layout, rebuild, FileAttributes.faithful_layout new old]
  | «attribute» old new => simp only [layout, rebuild, MemberAttributes.faithful_layout new old]
  | classes m m' s s' old new =>
    have whole := faithful_scoped ClassAttributes.faithful_layout
    simp only [layout, rebuild, whole (m', s', new) (m, s, old)]
  | method m m' s s' old new =>
    have whole := faithful_scoped MethodAttributes.faithful_layout
    simp only [layout, rebuild, whole (m', s', new) (m, s, old)]
  | package m m' s s' old new =>
    have kind := faithful_value (Codec.lawful_enumerated PackageKind (by decide))
    simp only [layout, rebuild, faithful_scoped kind (m', s', new) (m, s, old)]
  | simpleType old new =>
    have kind := faithful_value (Codec.lawful_enumerated SimpleTypeKind (by decide))
    simp only [layout, rebuild, kind new old]
  | pointer old new =>
    have kind := faithful_value (Codec.lawful_enumerated PointerKind (by decide))
    simp only [layout, rebuild, kind new old]

/-- The bytes of a place in a file restore it. -/
theorem SourcePosition.read_save (p : SourcePosition) (rest : Bytes) :
    read (p.save ++ rest) = .ok (p, rest) := by
  have kind := Codec.lawful_enumerated Realization (by decide)
  have number := Codec.lawful_u32
  simp only [save, read, List.append_assoc, Reader.bind_apply, kind p.realization, number p.line,
    number p.column, number p.endLine, number p.endColumn, Reader.pure_apply]

/-- The bytes of a value restore it if its kind is known. -/
theorem ValueKind.read_save (value : Option EdgeValue) (rest : Bytes) :
    (EdgeValue.kindOf value).read (EdgeValue.save value ++ rest) = .ok (value, rest) := by
  cases value with
  | none => rfl
  | some value =>
    cases value with
    | text key =>
      simp only [EdgeValue.kindOf, EdgeValue.kind, read, EdgeValue.save, Reader.map_apply,
        Codec.lawful_textKey key rest]
    | position place =>
      simp only [EdgeValue.kindOf, EdgeValue.kind, read, EdgeValue.save, Reader.map_apply,
        place.read_save rest]
    | bound kind =>
      have lawful := Codec.lawful_enumerated TypeArgumentBound (by decide)
      simp only [EdgeValue.kindOf, EdgeValue.kind, read, EdgeValue.save, Reader.map_apply,
        lawful kind rest]
    | parameter kind =>
      have lawful := Codec.lawful_enumerated ParameterKind (by decide)
      simp only [EdgeValue.kindOf, EdgeValue.kind, read, EdgeValue.save, Reader.map_apply,
        lawful kind rest]

namespace Slot

/-- The bytes of an edge restore its far end. -/
theorem readTarget_save {kind : ValueKind} {t : Target} (carried : EdgeValue.kindOf t.value = kind)
    (rest : Bytes) :
    readTarget kind (Codec.nodeId.encode (some t.id) ++ EdgeValue.save t.value ++ rest) =
      .ok (some t, rest) := by
  unfold readTarget
  rw [Reader.bind_apply, List.append_assoc, Codec.lawful_nodeId]
  simp only [Reader.bind_apply]
  rw [← carried, ValueKind.read_save]
  rfl

/-- The id zero ends the edges of a slot. -/
theorem readTarget_end (kind : ValueKind) (rest : Bytes) :
    readTarget kind (Codec.nodeId.encode none ++ rest) = .ok (none, rest) := by
  unfold readTarget
  rw [Reader.bind_apply, Codec.lawful_nodeId]
  rfl

/-- Edges that are read one after another come after those that a slot holds. -/
theorem foldl_push (ts : List Target) (s : Slot) :
    ts.foldl (fun s t => push t s) s = { s with targets := s.targets ++ ts } := by
  induction ts generalizing s with
  | nil => rw [List.append_nil]; rfl
  | cons t ts ih =>
    rw [List.foldl_cons, ih]
    simp [push]

/-- The bytes of a well-formed slot restore it from an empty one. -/
theorem load_save {s : Slot} (wf : s.WellFormed) (rest : Bytes) :
    load { kind := s.kind } (s.save ++ rest) = (s, .ok rest) := by
  obtain ⟨kind, targets⟩ := s
  unfold load save
  by_cases single : kind.isSingle = true
  · rw [if_pos single, if_pos single, Codec.lawful_nodeId]
    have few := wf.single single
    match targets with
    | [] => rfl
    | [t] =>
      -- an edge of such a kind carries nothing, so that its id is all there is to it
      obtain ⟨id, value⟩ := t
      have carried := wf.carried ⟨id, value⟩ List.mem_cons_self
      rw [EdgeKind.carries_of_isSingle single] at carried
      cases value with
      | none => rfl
      | some value => cases value <;> cases carried
    | _ :: _ :: _ => exact absurd few (by simp)
  · rw [if_neg single, if_neg single]
    have reads : ∀ t ∈ targets, ∀ rest,
        readTarget kind.carries
          (Codec.nodeId.encode (some t.id) ++ EdgeValue.save t.value ++ rest) =
        .ok (some t, rest) := fun t mem rest => readTarget_save (wf.carried t mem) rest
    have takes : ∀ t : Target,
        Codec.nodeId.encode (some t.id) ++ EdgeValue.save t.value ≠ [] := by
      intro t nothing
      have length := congrArg List.length (List.append_eq_nil_iff.1 nothing).1
      simp [Codec.nodeId, Codec.u32] at length
    rw [InPlace.loadList_flatMap targets rest reads (readTarget_end _) takes, foldl_push]
    rfl

/-- The bytes of well-formed slots restore them from empty ones. -/
theorem loadAll_save {slots : List Slot} (wf : ∀ s ∈ slots, s.WellFormed) (rest : Bytes) :
    loadAll (slots.map fun s => { kind := s.kind }) (slots.flatMap save ++ rest) =
      (slots, .ok rest) := by
  induction slots with
  | nil => rfl
  | cons s slots ih =>
    obtain ⟨first, others⟩ := List.forall_mem_cons.1 wf
    rw [List.map_cons, List.flatMap_cons, List.append_assoc]
    unfold loadAll
    rw [load_save first]
    simp only [ih others]

end Slot

namespace Node

/-- The bytes of a name restore it in a node that is named as well, and are none otherwise. -/
theorem loadName_saveName (n m : Node) (named : m.isNamed = n.isNamed) (rest : Bytes) :
    m.loadName (n.saveName ++ rest) = (if n.isNamed then n.name else m.name, .ok rest) := by
  unfold loadName saveName
  rw [named]
  cases n.isNamed with
  | true => exact Layout.faithful_value Codec.lawful_textKey n.name m.name rest
  | false => rfl

/-- The bytes of a node with well-formed slots restore its name if it is named, its attributes and its
edges, from any node of its kind that has attributes of the same layers and no edges. -/
theorem load_save_into (n m : Node) (kind : m.kind = n.kind)
    (layers : m.attributes.SameLayers n.attributes)
    (empty : m.slots = n.slots.map fun s => { kind := s.kind }) (wf : ∀ s ∈ n.slots, s.WellFormed)
    (rest : Bytes) :
    m.load (n.save ++ rest) =
      ({ m with
          name := if n.isNamed then n.name else m.name
          attributes := n.attributes
          slots := n.slots }, .ok rest) := by
  have named : m.isNamed = n.isNamed := congrArg (NodeKind.isKindOf · .named) kind
  unfold load save
  rw [List.append_assoc, List.append_assoc, loadName_saveName n m named]
  simp only [Attributes.load_save layers, empty, Slot.loadAll_save wf]

/-- The payload of a well-formed node restores all of it but its parent. -/
theorem load_save {n : Node} (wf : n.WellFormed) (suits : Attributes.Suits n.kind n.attributes)
    (rest : Bytes) :
    (fresh n.id n.kind).load (n.save ++ rest) = ({ n with parent := none }, .ok rest) := by
  have slots : slotsOf n.kind = n.slots.map fun s => { kind := s.kind } := by
    have kinds := congrArg (List.map fun e => ({ kind := e } : Slot)) wf.kinds
    unfold edgeKinds at kinds
    rw [List.map_map] at kinds
    exact kinds.symm
  have name : (if n.isNamed then n.name else .empty) = n.name := by
    split
    · rfl
    · next unnamed => exact (wf.unnamed (Bool.eq_false_iff.2 unnamed)).symm
  have loaded := load_save_into n (fresh n.id n.kind) rfl suits slots wf.slots rest
  change _ = ({ n with parent := none, name := if n.isNamed then n.name else .empty }, _) at loaded
  rwa [name] at loaded

/-- For every kind of node, every name, all attributes of that kind, and all far ends of its edges that
carry values of the kinds that the edges ask for, at most one where a kind allows only one edge: the
bytes of the node, whatever follows them, are read into a fresh node of the kind. That gives it the
attributes, the edges of every kind in their order, and the name if nodes of the kind are named; and
exactly what followed is left. -/
theorem payload_restored (kind : NodeKind) (id other : NodeId) (parent : Option Parent)
    (name : TextKey) {attributes : Attributes} (suits : Attributes.Suits kind attributes)
    {far : EdgeKind → List Target}
    (carried : ∀ e ∈ kind.edgeKinds, ∀ t ∈ far e, EdgeValue.kindOf t.value = e.carries)
    (single : ∀ e ∈ kind.edgeKinds, e.isSingle = true → (far e).length ≤ 1) (rest : Bytes) :
    let slots := kind.edgeKinds.map fun e => { kind := e, targets := far e }
    let n : Node := { id, kind, parent, name, attributes, slots }
    (fresh other kind).load (n.save ++ rest) =
      ({ id := other, kind, attributes, slots, name := if n.isNamed then name else .empty },
        .ok rest) := by
  intro slots n
  have empty : (fresh other kind).slots = n.slots.map fun s => { kind := s.kind } := by
    change slotsOf kind = (kind.edgeKinds.map _).map _
    rw [List.map_map]
    rfl
  have wf : ∀ s ∈ n.slots, s.WellFormed := by
    intro s mem
    obtain ⟨e, has, rfl⟩ := List.mem_map.1 mem
    exact ⟨carried e has, single e has⟩
  exact load_save_into n (fresh other kind) rfl suits empty wf rest

/-- Far ends of the edges of a method: two dependencies with their texts, a place in a file, two types
that it returns, an argument with its bound, and the method that it specializes. -/
def specialEnds : EdgeKind → List Target
  | .namedDependsOn =>
    [⟨Graph.rootId, some (.text ⟨0xFFFFFFFF⟩)⟩, ⟨Graph.rootId, some (.text .empty)⟩]
  | .memberIsContainedIn => [⟨Graph.firstId, some (.position ⟨.defines, 7, 0, 0x10000, 256⟩)⟩]
  | .methodReturns => [{ id := Graph.systemComponentId }, { id := default }]
  | .methodGenericSpecHasArguments => [⟨Graph.rootId, some (.bound .upperBounded)⟩]
  | .methodGenericSpecSpecialize => [{ id := Graph.fileSystemId }]
  | _ => []

/-- Attributes of a method with all flags of one layer set, and one of two in another. -/
def specialAttributes : Attributes :=
  .method { isCompilerGenerated := true, isStatic := true, language := .csharp, mangledName := ⟨258⟩ }
    { tloc := 0xFFFFFFFF, isAnonymous := true }
    { methodKind := .subroutine, isAbstract := true, totalOperators := 511 }

/-- The bytes of a special method are read into a fresh one, and those of what follows are left. -/
theorem payload_restored_special :
    let kind := NodeKind.methodGenericSpec
    let slots := kind.edgeKinds.map fun e => { kind := e, targets := specialEnds e }
    let n : Node := { id := default, kind, name := ⟨5⟩, attributes := specialAttributes, slots }
    Attributes.Suits kind specialAttributes ∧
      (∀ e ∈ kind.edgeKinds, ∀ t ∈ specialEnds e, EdgeValue.kindOf t.value = e.carries) ∧
      (∀ e ∈ kind.edgeKinds, e.isSingle = true → (specialEnds e).length ≤ 1) ∧
      (fresh Graph.rootId kind).load (n.save ++ [0, 1]) =
        ({ n with id := Graph.rootId }, .ok [0, 1]) := by
  have suits : Attributes.Suits .methodGenericSpec specialAttributes := .method _ _ _ _ _ _
  have carried : ∀ e ∈ NodeKind.edgeKinds .methodGenericSpec, ∀ t ∈ specialEnds e,
      EdgeValue.kindOf t.value = e.carries := by decide
  have single : ∀ e ∈ NodeKind.edgeKinds .methodGenericSpec, e.isSingle = true →
      (specialEnds e).length ≤ 1 := by decide
  exact ⟨suits, carried, single,
    payload_restored .methodGenericSpec default Graph.rootId none ⟨5⟩ suits carried single [0, 1]⟩

end Node

end CodeGraph
