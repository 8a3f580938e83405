import CodeGraph.Proofs.Filing

/-!
# One node for each value

A graph that was built by operations which spare what nodes stand for has at most one node for each
value, and whoever asks for a value gets that node, now and later. Main statement:
`values_unique_after`. It rests on what one call puts on record (`record_perform`), on what stays on
record (`Gives.record`), and on what a call does for a value that is on record
(`perform_of_record`).
-/

set_option autoImplicit false

namespace CodeGraph

namespace Operation

variable {t t' : TextTable} {operation : Operation} {key : SingletonKey}

/-- The key under which the node that an operation asks for is on record. -/
def valueKey? (t : TextTable) : Operation → Option SingletonKey
  | .simpleType kind => some (.simpleType kind)
  | .pointerFormer kind => some (.pointer kind)
  | .arrayFormer => some .array
  | .nonTypeFormer => some .nonType
  | .typeReference refersTo => some (.typeReference refersTo)
  | .attributeAccess accessed => some (.attributeAccess accessed)
  | .methodCall method => some (.methodCall method)
  | .comment text => (t.keyOf? text).map .comment
  | .component name => (t.keyOf? name).map .component
  | _ => none

/-- The operation that asks for the node on record under a key. -/
def ofKey? (t : TextTable) : SingletonKey → Option Operation
  | .simpleType kind => some (.simpleType kind)
  | .pointer kind => some (.pointerFormer kind)
  | .array => some .arrayFormer
  | .nonType => some .nonTypeFormer
  | .typeReference refersTo => some (.typeReference refersTo)
  | .attributeAccess accessed => some (.attributeAccess accessed)
  | .methodCall method => some (.methodCall method)
  | .comment text => (t.find? text).map .comment
  | .component name => (t.find? name).map .component
  | .type _ => none

/-- The key of a value tells the operation that asks for it. -/
theorem ofKey?_of_valueKey? (interned : t.Interned) (asks : operation.valueKey? t = some key) :
    ofKey? t key = some operation := by
  cases operation with
  | comment text | component text =>
    obtain ⟨own, known, rfl⟩ := Option.map_eq_some_iff.1 asks
    exact Option.map_eq_some_iff.2 ⟨text, (interned.find?_eq_some_iff own text).2 known, rfl⟩
  | _ => cases asks <;> rfl

/-- Operations that ask for the same node are the same. -/
theorem valueKey?_inj (interned : t.Interned) {other : Operation}
    (asks : operation.valueKey? t = some key) (asks' : other.valueKey? t = some key) :
    operation = other :=
  Option.some.inj
    ((ofKey?_of_valueKey? interned asks).symm.trans (ofKey?_of_valueKey? interned asks'))

/-- The key of a value lasts as long as texts keep their keys. -/
theorem valueKey?_lasts (keep : ∀ s key, t.keyOf? s = some key → t'.keyOf? s = some key)
    (asks : operation.valueKey? t = some key) : operation.valueKey? t' = some key := by
  cases operation with
  | comment text | component text =>
    obtain ⟨own, known, rfl⟩ := Option.map_eq_some_iff.1 asks
    exact Option.map_eq_some_iff.2 ⟨own, keep text own known, rfl⟩
  | _ => exact asks

/-- The key of a value is not that of a type. -/
theorem covers_of_valueKey? (asks : operation.valueKey? t = some key) :
    Graph.values.covers key = true := by
  cases operation with
  | comment text | component text =>
    obtain ⟨own, known, rfl⟩ := Option.map_eq_some_iff.1 asks
    rfl
  | _ => cases asks <;> rfl

end Operation

namespace Graph

variable {g : Graph} {operation : Operation} {key : SingletonKey} {id : NodeId}

/-- What it means that a node is of the kind that an operation asks for and carries the value that it
asks for. -/
def Answers (g : Graph) (n : Node) : Operation → Prop
  | .simpleType kind => n.kind = .simpleType ∧ n.attributes = .simpleType kind
  | .pointerFormer kind => n.kind = .typeFormerPointer ∧ n.attributes = .pointer kind
  | .arrayFormer => n.kind = .typeFormerArray
  | .nonTypeFormer => n.kind = .typeFormerNonType
  | .typeReference refersTo =>
    n.kind = .typeFormerType ∧ n.single? .typeFormerTypeRefersTo = refersTo
  | .attributeAccess accessed =>
    n.kind = .attributeAccess ∧ n.single? .attributeAccessAttribute = some accessed
  | .methodCall method => n.kind = .methodCall ∧ n.single? .methodCallMethod = some method
  | .comment text =>
    n.kind = .comment ∧ ∃ key, n.attributes = .comment key ∧ g.texts.find? key = some text
  | .component name => n.kind = .component ∧ g.texts.find? n.name = some name
  | _ => False

/-- A node answers an operation if it stands for what the operation asks for. -/
theorem answers_iff (interned : g.texts.Interned) (n : Node) (operation : Operation) :
    g.Answers n operation ↔ ∃ key, operation.valueKey? g.texts = some key ∧ n.StandsFor key := by
  cases operation with
  | comment text =>
    constructor
    · rintro ⟨kind, key, carries, found⟩
      exact ⟨.comment key, Option.map_eq_some_iff.2
        ⟨key, (interned.find?_eq_some_iff key text).1 found, rfl⟩, kind, carries⟩
    · rintro ⟨_, asks, stands⟩
      obtain ⟨key, known, rfl⟩ := Option.map_eq_some_iff.1 asks
      exact ⟨stands.1, key, stands.2, (interned.find?_eq_some_iff key text).2 known⟩
  | component name =>
    constructor
    · rintro ⟨kind, found⟩
      exact ⟨.component n.name, Option.map_eq_some_iff.2
        ⟨n.name, (interned.find?_eq_some_iff n.name name).1 found, rfl⟩, kind, rfl⟩
    · rintro ⟨_, asks, stands⟩
      obtain ⟨key, known, rfl⟩ := Option.map_eq_some_iff.1 asks
      obtain ⟨kind, rfl⟩ := stands
      exact ⟨kind, (interned.find?_eq_some_iff n.name name).2 known⟩
  | _ => simp [Answers, Operation.valueKey?, Node.StandsFor]

/-! ## One call -/

/-- The node of a value that is given is on record under its key, and no text is added. -/
theorem record_singletonNode (room : g.size < idLimit) (key : SingletonKey) (kind : NodeKind)
    {f : Node → Node} (own : ∀ n, (f n).id = n.id) :
    (g.singletonNode key kind f).2.singleton? key = some (g.singletonNode key kind f).1 ∧
      (g.singletonNode key kind f).2.texts = g.texts := by
  cases known : g.singleton? key with
  | some id =>
    rw [singletonNode_of_known known]
    exact ⟨known, rfl⟩
  | none =>
    obtain ⟨makes, id⟩ := makes_singletonNode room known kind own
    rw [makes.singleton?, if_pos rfl, id]
    exact ⟨congrArg some (own _), makes.texts⟩

/-- A text that a call asks for is interned first. -/
theorem record_interned (room : g.size < idLimit) (s : String) (make : TextKey → SingletonKey)
    (kind : NodeKind) {f : TextKey → Node → Node} (own : ∀ key n, (f key n).id = n.id) :
    let interned := g.intern s
    let made := interned.2.singletonNode (make interned.1) kind (f interned.1)
    made.2.texts.keyOf? s = some interned.1 ∧
      made.2.singleton? (make interned.1) = some made.1 := by
  intro interned made
  have roomy : interned.2.size < idLimit := room
  obtain ⟨record, texts⟩ := record_singletonNode roomy (make interned.1) kind (own interned.1)
  rw [texts]
  exact ⟨g.texts.keyOf?_intern_self s, record⟩

/-- A reference that is given is on record under its key. -/
theorem record_referenceNode {kind : NodeKind} {e : EdgeKind} {target : Option NodeId}
    {check : Except Error Unit} (room : g.size < idLimit) (single : e.isSingle = true)
    (has : e ∈ kind.edgeKinds)
    (gives : (Outcome.nodeHalf (g.referenceNode key kind e target check)).1 = .ok (.node id)) :
    (g.referenceNode key kind e target check).2.singleton? key = some id := by
  rcases made : g.referenceNode key kind e target check with ⟨cause | given, h⟩
  · rw [made] at gives
    cases gives
  · rw [made] at gives
    cases gives
    rcases referenceNode_eq_ok single has room made with ⟨known, rfl⟩ | ⟨n, makes, own, -⟩
    · exact known
    · rw [makes.singleton?, if_pos rfl, own]

/-- The node that a call gives is on record for what the call asks for. -/
theorem record_perform (room : g.size < idLimit) (asks : operation.asksForValue = true)
    (gives : (operation.perform g).1 = .ok (.node id)) :
    ∃ key, operation.valueKey? (operation.perform g).2.texts = some key ∧
      (operation.perform g).2.singleton? key = some id := by
  cases operation with
  | simpleType kind =>
    cases gives
    refine ⟨.simpleType kind, rfl, (record_singletonNode room _ _ ?_).1⟩
    exact fun _ => rfl
  | pointerFormer kind =>
    cases gives
    refine ⟨.pointer kind, rfl, (record_singletonNode room _ _ ?_).1⟩
    exact fun _ => rfl
  | arrayFormer =>
    cases gives
    refine ⟨.array, rfl, (record_singletonNode room _ _ ?_).1⟩
    exact fun _ => rfl
  | nonTypeFormer =>
    cases gives
    refine ⟨.nonType, rfl, (record_singletonNode room _ _ ?_).1⟩
    exact fun _ => rfl
  | typeReference target =>
    exact ⟨.typeReference target, rfl, record_referenceNode room rfl (by decide) gives⟩
  | attributeAccess target =>
    exact ⟨.attributeAccess target, rfl, record_referenceNode room rfl (by decide) gives⟩
  | methodCall target =>
    exact ⟨.methodCall target, rfl, record_referenceNode room rfl (by decide) gives⟩
  | comment text =>
    cases gives
    obtain ⟨known, record⟩ := record_interned room text .comment .comment
      (f := fun key n => { n with attributes := .comment key }) fun _ _ => rfl
    exact ⟨_, Option.map_eq_some_iff.2 ⟨_, known, rfl⟩, record⟩
  | component name =>
    cases gives
    obtain ⟨known, record⟩ := record_interned room name .component .component
      (f := fun key n => n.setName key) fun key n => n.id_setName key
    exact ⟨_, Option.map_eq_some_iff.2 ⟨_, known, rfl⟩, record⟩
  | _ => cases asks

/-- A reference on record is given and nothing is changed. -/
theorem referenceNode_of_known (known : g.singleton? key = some id) (kind : NodeKind) (e : EdgeKind)
    (target : Option NodeId) (check : Except Error Unit) :
    g.referenceNode key kind e target check = (.ok id, g) := by
  unfold referenceNode
  rw [known]

/-- Interning a known text gives its key and changes nothing. -/
theorem intern_of_keyOf? {text : String} {own : TextKey} (known : g.texts.keyOf? text = some own) :
    g.intern text = (own, g) := by
  unfold intern
  rw [TextTable.intern_of_known known]

/-- A call for a value that is on record gives the node on record and changes nothing. -/
theorem perform_of_record (asks : operation.valueKey? g.texts = some key)
    (known : g.singleton? key = some id) : operation.perform g = (.ok (.node id), g) := by
  cases operation with
  | simpleType kind | pointerFormer kind =>
    cases asks
    exact congrArg Outcome.node (singletonNode_of_known known _ _)
  | arrayFormer | nonTypeFormer =>
    cases asks
    exact congrArg Outcome.node (singletonNode_of_known known _ _)
  | typeReference target | attributeAccess target | methodCall target =>
    cases asks
    exact congrArg Outcome.nodeHalf (referenceNode_of_known known _ _ _ _)
  | comment text =>
    obtain ⟨own, interned, rfl⟩ := Option.map_eq_some_iff.1 asks
    change Outcome.node (g.comment text) = _
    rw [comment, intern_of_keyOf? interned]
    exact congrArg Outcome.node (singletonNode_of_known known _ _)
  | component name =>
    obtain ⟨own, interned, rfl⟩ := Option.map_eq_some_iff.1 asks
    change Outcome.node (g.component name) = _
    rw [component, intern_of_keyOf? interned]
    exact congrArg Outcome.node (singletonNode_of_known known _ _)
  | _ => cases asks

/-! ## Calls of a history -/

/-- A call of a history gives a node. -/
def Gives (g : Graph) (history : List Operation) (operation : Operation) (id : NodeId) : Prop :=
  ∃ before after, history = before ++ operation :: after ∧
    (operation.perform (g.after before)).1 = .ok (.node id)

/-- Along edits that only add to what is on record, and while ids and keys last, a call that gave a node
was made with room for more, and the keys and the record that it left are still there in the end. -/
theorem Gives.lasting {language : Language} {history : List Operation}
    {rule : Graph → Operation → Prop}
    (isEdit : ∀ g (operation : Operation), rule g operation → operation.IsEdit)
    (grows : ∀ g operation, rule g operation → g.size < idLimit →
      g.Extends (operation.perform g).2)
    (along : (new language).Along rule history)
    (room : ((new language).after history).size < idLimit)
    (unused : ((new language).after history).texts.texts.find? TextTable.lastKey = none)
    (gives : (new language).Gives history operation id) :
    ∃ g : Graph, g.size < idLimit ∧ (operation.perform g).1 = .ok (.node id) ∧
      (∀ s key, (operation.perform g).2.texts.keyOf? s = some key →
        ((new language).after history).texts.keyOf? s = some key) ∧
      ∀ key id, (operation.perform g).2.singleton? key = some id →
        ((new language).after history).singleton? key = some id := by
  obtain ⟨before, after, rfl, given⟩ := gives
  obtain ⟨-, here, rest⟩ := along_append.1 along
  have numbered := numbered_after language (before ++ [operation])
  rw [after_append, after_cons] at numbered room unused ⊢
  have later := rest.extends_of isEdit grows room
  obtain ⟨-, keep, -⟩ := (later.texts.spec numbered).2 unused
  have roomBefore : ((new language).after before).size < idLimit :=
    Nat.lt_of_le_of_lt
      (Nat.le_trans (size_le_of_isEdit (isEdit _ _ here)) (rest.size_le_of_isEdit isEdit)) room
  exact ⟨(new language).after before, roomBefore, given, keep, later.record⟩

/-- What a call of a history gives is on record in the end, while ids and keys last. -/
theorem Gives.lasts {language : Language} {history : List Operation}
    (keeps : (new language).Along Operation.KeepsRecord history)
    (room : ((new language).after history).size < idLimit)
    (gives : (new language).Gives history operation id) (asks : operation.asksForValue = true)
    (unused : ((new language).after history).texts.texts.find? TextTable.lastKey = none) :
    ∃ key, operation.valueKey? ((new language).after history).texts = some key ∧
      ((new language).after history).singleton? key = some id := by
  obtain ⟨g, roomThen, given, keep, record⟩ := gives.lasting (fun _ _ keeps => keeps.isEdit)
    (fun _ _ => extends_perform) keeps room unused
  obtain ⟨key, named, known⟩ := record_perform roomThen asks given
  exact ⟨key, Operation.valueKey?_lasts keep named, record key id known⟩

section Uniqueness

variable {language : Language} {history : List Operation}
  (spares : (new language).Along (Operation.Spares referenceKinds) history)
  (room : ((new language).after history).size < idLimit)

include spares room

/-- A node that was given for a value is on record under its key at the end of the history. -/
theorem Gives.record (gives : (new language).Gives history operation id)
    (asks : operation.asksForValue = true)
    (unused : ((new language).after history).texts.texts.find? TextTable.lastKey = none) :
    ∃ key, operation.valueKey? ((new language).after history).texts = some key ∧
      ((new language).after history).singleton? key = some id :=
  gives.lasts (spares.mono fun _ _ => Operation.Spares.keepsRecord) room asks unused

/-- A node is on record for what it answers, and for nothing else. -/
theorem record_iff_answers
    (unused : ((new language).after history).texts.texts.find? TextTable.lastKey = none)
    {f : Graph} (left : (new language).after history = f)
    (named : operation.valueKey? f.texts = some key) :
    f.singleton? key = some id ↔ ∃ n, f.find? id = some n ∧ f.Answers n operation := by
  obtain ⟨suited, -, inStep⟩ := inStep_after lawful_values spares
  obtain ⟨filed, interned⟩ := inStep room unused
  rw [left] at suited filed interned
  rw [filed.record_iff (Operation.covers_of_valueKey? named), shown, Option.bind_eq_some_iff]
  constructor
  · rintro ⟨n, found, stands⟩
    have stands := (GraphFile.singletonKey?_eq_some_iff (suited id n found) key).1 stands
    exact ⟨n, found, (answers_iff interned n operation).2 ⟨key, named, stands⟩⟩
  · rintro ⟨n, found, answers⟩
    obtain ⟨key', named', stands⟩ := (answers_iff interned n operation).1 answers
    cases named.symm.trans named'
    have stands := (GraphFile.singletonKey?_eq_some_iff (suited id n found) key).2 stands
    exact ⟨n, found, stands⟩

end Uniqueness

/-- After a history that spares what nodes stand for, and while ids and keys last, there is at most
one node for each value. Two calls of the history give the same node exactly if they ask for the
same value. The node that a call gave is of the kind and carries the value that were asked for, and
the same call now gives it again and changes nothing. -/
theorem values_unique_after {language : Language} {history : List Operation}
    (spares : (new language).Along (Operation.Spares referenceKinds) history)
    (room : ((new language).after history).size < idLimit)
    (keys : ((new language).after history).texts.SparesLastKey) :
    let f := (new language).after history
    (∀ operation a b n m, f.find? a = some n → f.find? b = some m →
      f.Answers n operation → f.Answers m operation → a = b) ∧
    (∀ first second a b, first.asksForValue = true → second.asksForValue = true →
      (new language).Gives history first a → (new language).Gives history second b →
      (a = b ↔ first = second)) ∧
    ∀ operation id, operation.asksForValue = true → (new language).Gives history operation id →
      (∃ n, f.find? id = some n ∧ f.Answers n operation) ∧
      operation.perform f = (.ok (.node id), f) := by
  intro f
  have unused := keys.unused
  obtain ⟨-, -, inStep⟩ := inStep_after lawful_values spares
  obtain ⟨filed, interned⟩ := inStep room unused
  refine ⟨?_, ?_, ?_⟩
  · intro operation a b n m foundA foundB answersA answersB
    obtain ⟨key, named, -⟩ := (answers_iff interned n operation).1 answersA
    have recordA := (record_iff_answers spares room unused rfl named).2 ⟨n, foundA, answersA⟩
    have recordB := (record_iff_answers spares room unused rfl named).2 ⟨m, foundB, answersB⟩
    exact Option.some.inj (recordA.symm.trans recordB)
  · intro first second a b asks asks' gives gives'
    obtain ⟨key, named, record⟩ := gives.record spares room asks unused
    obtain ⟨key', named', record'⟩ := gives'.record spares room asks' unused
    constructor
    · rintro rfl
      -- one node shows one key only
      rw [filed.record_iff (Operation.covers_of_valueKey? named)] at record
      rw [filed.record_iff (Operation.covers_of_valueKey? named')] at record'
      cases record.symm.trans record'
      exact Operation.valueKey?_inj interned named named'
    · rintro rfl
      cases named.symm.trans named'
      exact Option.some.inj (record.symm.trans record')
  · intro operation id asks gives
    obtain ⟨key, named, record⟩ := gives.record spares room asks unused
    exact ⟨(record_iff_answers spares room unused rfl named).1 record,
      perform_of_record named record⟩

/-- A history with a comment that is asked for twice, a class that is renamed, the empty comment, a
reference to the class and one to nothing, and an access to the class, which is refused. -/
def valueHistory : List Operation :=
  [.comment "a", .createNode .plainClass, .typeReference (some (madeId 1)),
    .setName (madeId 1) "A", .comment "", .typeReference none, .attributeAccess (madeId 1),
    .comment "a"]

/-- A reference that was asked for before is found again at the end of that history. -/
theorem values_unique_after_calls :
    let f := (new .java).after valueHistory
    (new .java).Along (Operation.Spares referenceKinds) valueHistory ∧ f.size = 108 ∧
      f.texts.SparesLastKey ∧
      (new .java).Gives valueHistory (.typeReference (some (madeId 1))) (madeId 2) ∧
      (Operation.typeReference (some (madeId 1))).perform f = (.ok (.node (madeId 2)), f) := by
  intro f
  have facts : (((new .java).after (valueHistory.take 3)).find? (madeId 1)).map Node.kind =
        some .plainClass ∧
      ((Operation.typeReference (some (madeId 1))).perform
        ((new .java).after (valueHistory.take 2))).1 = .ok (.node (madeId 2)) ∧
      f.size = 108 ∧ f.texts.SparesLastKey := by decide +kernel
  obtain ⟨kind, given, size, keys⟩ := facts
  have renamed : ∀ n ∈ ((new .java).after (valueHistory.take 3)).find? (madeId 1),
      n.kind ≠ .component := by
    intro n found
    rw [Option.mem_def.1 found] at kind
    have is : n.kind = .plainClass := Option.some.inj kind
    rw [is]
    decide
  have spares : (new .java).Along (Operation.Spares referenceKinds) valueHistory :=
    ⟨trivial, trivial, trivial, renamed, trivial, trivial, trivial, trivial, trivial⟩
  have room : f.size < idLimit := by
    rw [size]
    decide
  have gives : (new .java).Gives valueHistory (.typeReference (some (madeId 1))) (madeId 2) :=
    ⟨valueHistory.take 2, valueHistory.drop 3, rfl, given⟩
  exact ⟨spares, size, keys, gives,
    ((values_unique_after spares room keys).2.2 _ _ rfl gives).2⟩

end Graph

end CodeGraph
