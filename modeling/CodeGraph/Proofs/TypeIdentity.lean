import CodeGraph.Proofs.Stability
import CodeGraph.Proofs.ValueUniqueness

/-!
# One type for each list of formers

A type is on record under a text that lists the numbers of its formers. Different lists have
different texts (`typeText_injective`), and a text has one key, whoever interned it first. So as long
as nobody changes the edges of a type behind the record, types and lists of formers are in step
(`filed_types_after`), and two calls give the same type exactly if they name the same formers. Main
statement: `types_canonical_after`.
-/

set_option autoImplicit false

namespace CodeGraph

namespace NodeId

/-- An id is written with the digits of its index. -/
theorem toList_toString (id : NodeId) : id.toString.toList = Nat.toDigits 10 id.index := by
  unfold NodeId.toString
  rw [Nat.toString_eq_ofList_toDigits, String.toList_ofList]

/-- Different ids are written differently. -/
theorem toList_toString_inj {a b : NodeId} (same : a.toString.toList = b.toString.toList) :
    a = b := by
  rw [toList_toString, toList_toString] at same
  apply index_inj
  rw [← Nat.ofDigitChars_ten_toDigits (n := a.index), same, Nat.ofDigitChars_ten_toDigits]

/-- No id is written as nothing. -/
theorem toList_toString_ne_nil (id : NodeId) : id.toString.toList ≠ [] := by
  rw [toList_toString]
  exact Nat.toDigits_ne_nil

/-- No id is written with a comma. -/
theorem comma_notMem_toString (id : NodeId) : ',' ∉ id.toString.toList := by
  rw [toList_toString]
  intro mem
  exact absurd (Nat.isDigit_of_mem_toDigits (by decide) (by decide) mem) (by decide)

end NodeId

namespace Operation

/-- Whether an operation neither starts over, nor loads texts, nor chooses an id, nor names a type as
the source of an edge to change. Names and attributes may be set to anything. -/
def SparesTypes (g : Graph) : Operation → Prop
  | .clear | .loadTexts _ | .createNodeWithId _ _ | .load _ _ => False
  | .addEdge _ source _ | .addValueEdge _ source _ _ | .setEdge _ source _
  | .removeEdge _ source _ => ∀ n ∈ g.find? source, n.kind ≠ .type
  | _ => True

/-- An operation that spares types is an edit. -/
theorem SparesTypes.isEdit {g : Graph} {operation : Operation} (spares : operation.SparesTypes g) :
    operation.IsEdit := by
  cases operation with
  | clear => exact spares.elim
  | load headers input => exact spares.elim
  | _ => trivial

end Operation

namespace Graph

variable {g : Graph} {operation : Operation}

/-! ## The text of a type -/

/-- The digits of each former. -/
def formerDigits (formers : List NodeId) : List (List Char) :=
  formers.map fun id => id.toString.toList

/-- The text of a type is made of the digits of its formers, with commas between and brackets
around. -/
theorem toList_typeText (formers : List NodeId) :
    (typeText formers).toList = '[' :: ([','].intercalate (formerDigits formers) ++ [']']) := by
  unfold typeText formerDigits
  rw [String.toList_append, String.toList_append, String.toList_intercalate, List.map_map]
  rfl

/-- Cut at its commas, what stands between the brackets gives the digits of the formers again. The
empty piece of a type without formers is left out. -/
theorem splitOn_formerDigits (formers : List NodeId) :
    (([','].intercalate (formerDigits formers)).splitOn ',').filter (· ≠ []) =
      formerDigits formers := by
  have numbers : ∀ digits ∈ formerDigits formers, digits ≠ [] ∧ ',' ∉ digits := by
    intro digits mem
    obtain ⟨id, -, rfl⟩ := List.mem_map.1 mem
    exact ⟨id.toList_toString_ne_nil, id.comma_notMem_toString⟩
  cases formers with
  | nil => rfl
  | cons former formers =>
    rw [List.splitOn_intercalate ',' (fun digits mem => (numbers digits mem).2)
      (List.cons_ne_nil _ _), List.filter_eq_self]
    intro digits mem
    exact decide_eq_true (numbers digits mem).1

/-- Types with different formers have different texts. -/
theorem typeText_injective : Function.Injective typeText := by
  intro a b same
  have inner : [','].intercalate (formerDigits a) = [','].intercalate (formerDigits b) := by
    have same := congrArg String.toList same
    rw [toList_typeText, toList_typeText, List.cons_inj_right] at same
    exact List.append_cancel_right same
  have digits : formerDigits a = formerDigits b := by
    rw [← splitOn_formerDigits a, inner, splitOn_formerDigits]
  exact List.map_injective_iff.2 (fun _ _ => NodeId.toList_toString_inj) digits

/-! ## Types on record -/

/-- An operation that spares types asks for a node, or leaves all types as they are. -/
theorem asked_or_keepsTypes (spares : operation.SparesTypes g) (room : g.size < idLimit) :
    g.Asked (operation.perform g).2 ∨ KeepsView typeFormers? g (operation.perform g).2 := by
  have law := isView_typeFormers?
  cases operation with
  | clear => exact spares.elim
  | loadTexts input => exact spares.elim
  | createNodeWithId kind id => exact spares.elim
  | load headers input => exact spares.elim
  | setAttributes id attributes =>
    -- the attributes need not suit the kind, as a type is not told by its attributes
    exact Or.inr (keepsView_touch fun _ _ => rfl)
  | setName id name | setNameKey id name =>
    have unseen : ∀ n ∈ g.find? id, ∀ key, typeFormers? (n.setName key) = typeFormers? n := by
      intro n _ key
      unfold Node.setName
      split <;> rfl
    exact asked_or_keepsView law trivial unseen room
  | addEdge e source target | addValueEdge e source target value | setEdge e source target
  | removeEdge e source target =>
    have unseen : ∀ n ∈ g.find? source, ∀ f, typeFormers? (n.mapTargets e f) = typeFormers? n :=
      fun n found => law.mapTargets (fun mem => spares n found (List.mem_singleton.1 mem)) e
    exact asked_or_keepsView law trivial unseen room
  | _ => exact asked_or_keepsView law trivial trivial room

/-- An operation that spares types only adds to texts and record. -/
theorem extends_of_sparesTypes (spares : operation.SparesTypes g) (room : g.size < idLimit) :
    g.Extends (operation.perform g).2 := by
  rcases asked_or_keepsTypes spares room with asked | keeps
  · exact asked.extended
  · exact keeps.extended

/-- Types are on record for their formers, as long as ids and keys last. -/
def TypesFiled (g : Graph) : Prop :=
  g.size < idLimit → g.texts.Numbered ∧
    (g.texts.texts.find? TextTable.lastKey = none → Filed types g ∧ g.texts.Interned)

/-- In a new graph types are on record for their formers, as there are none. -/
theorem typesFiled_new (language : Language) : (new language).TypesFiled :=
  fun room => ⟨(inStep_new lawful_types language).numbered,
    (inStep_new lawful_types language).filed room⟩

/-- An operation that spares types keeps them on record for their formers. -/
theorem TypesFiled.perform (before : g.TypesFiled) (spares : operation.SparesTypes g) :
    (operation.perform g).2.TypesFiled := by
  intro room
  have roomBefore : g.size < idLimit := Nat.lt_of_le_of_lt (size_le_of_isEdit spares.isEdit) room
  obtain ⟨numbered, filedBefore⟩ := before roomBefore
  obtain ⟨numbered', grows⟩ := (extends_of_sparesTypes spares roomBefore).texts.spec numbered
  refine ⟨numbered', fun unused => ?_⟩
  obtain ⟨unusedBefore, keep, interned⟩ := grows unused
  obtain ⟨filed, internedBefore⟩ := filedBefore unusedBefore
  refine ⟨?_, interned internedBefore⟩
  rcases asked_or_keepsTypes spares roomBefore with asked | keeps
  · exact filed.asked lawful_types asked roomBefore keep
  · exact filed.keeps lawful_types.lasting keeps keep room

/-! ## Calls for types -/

/-- A type that a call gives is on record under the text of its formers. -/
theorem record_buildType {h : Graph} {stack : List NodeId} {id : NodeId} (room : g.size < idLimit)
    (built : g.buildType stack = (.ok id, h)) :
    ∃ key, h.texts.keyOf? (typeText stack.reverse) = some key ∧
      h.singleton? (.type key) = some id := by
  have known := g.texts.keyOf?_intern_self (typeText stack.reverse)
  rcases buildType_eq_ok room built with ⟨record, rfl⟩ | ⟨n, makes, own, -⟩
  · exact ⟨_, known, record⟩
  · refine ⟨(g.intern (typeText stack.reverse)).1, makes.texts ▸ known, ?_⟩
    rw [makes.singleton?, if_pos rfl, own]

/-- A call for a type succeeds exactly if it names formers, and all of them are there. -/
theorem buildType_succeeds_iff (room : g.size < idLimit) (stack : List NodeId) :
    (∃ id, ((Operation.buildType stack).perform g).1 = .ok (.node id)) ↔
      stack ≠ [] ∧ ∀ former ∈ stack, ∃ n, g.find? former = some n ∧ n.is .typeFormer = true := by
  constructor
  · rintro ⟨id, given⟩
    have built := nodeHalf_eq_ok given
    unfold buildType at built
    split at built
    · cases built
    · next nonempty =>
      split at built
      · cases built
      · next checked =>
        exact ⟨fun empty => nonempty (List.isEmpty_iff.2 empty), has_of_checkFormers stack checked⟩
  · rintro ⟨nonempty, ready⟩
    obtain ⟨id, h, built⟩ := exists_buildType room nonempty ready
    refine ⟨id, ?_⟩
    change (Outcome.nodeHalf (g.buildType stack)).1 = _
    rw [built]
    rfl

section Histories

variable {language : Language} {history : List Operation}
  (along : (new language).Along Operation.SparesTypes history)
  (room : ((new language).after history).size < idLimit)
  (unused : ((new language).after history).texts.texts.find? TextTable.lastKey = none)

include along room unused

/-- After a history that spares types they are on record for their formers, while ids and keys last.
-/
theorem filed_types_after : Filed types ((new language).after history) ∧
    ((new language).after history).texts.Interned :=
  (along.preserves (fun _ _ spares filed => filed.perform spares) (typesFiled_new language)
    room).2 unused

/-- A type that a call of a history gave is on record in the end. -/
theorem Gives.record_type {stack : List NodeId} {id : NodeId}
    (gives : (new language).Gives history (.buildType stack) id) :
    ∃ key, ((new language).after history).texts.keyOf? (typeText stack.reverse) = some key ∧
      ((new language).after history).singleton? (.type key) = some id := by
  obtain ⟨g, roomThen, given, keep, record⟩ := gives.lasting (fun _ _ spares => spares.isEdit)
    (fun _ _ => extends_of_sparesTypes) along room unused
  obtain ⟨key, known, here⟩ := record_buildType roomThen (nodeHalf_eq_ok given)
  exact ⟨key, keep _ _ known, record _ _ here⟩

/-- The node that a call for a type gave has the formers that were asked for. -/
theorem Gives.shown_type {stack : List NodeId} {id : NodeId}
    (gives : (new language).Gives history (.buildType stack) id) :
    ((new language).after history).shown typeFormers? id = some stack.reverse := by
  obtain ⟨filed, interned⟩ := filed_types_after along room unused
  obtain ⟨key, known, record⟩ := gives.record_type along room unused
  obtain ⟨formers, shows, named⟩ := (filed.filed (.type key) id rfl).1 record
  obtain ⟨own, known', same⟩ := Option.map_eq_some_iff.1 named
  cases same
  -- both texts have the key, so they are the same
  rw [← interned.find?_eq_some_iff] at known known'
  have texts : typeText formers = typeText stack.reverse := Option.some.inj (known'.symm.trans known)
  exact shows.trans (congrArg some (typeText_injective texts))

end Histories

/-- After a history that spares types, and while ids and keys last, two calls of the history gave the
same type exactly if they named the same formers in the same order, whatever was done and interned
between them. A type that a call gave is there and has the formers of the call, the last one first. A
call for a type succeeds exactly if it names at least one former, and nothing but formers that are
there. -/
theorem types_canonical_after {language : Language} {history : List Operation}
    (along : (new language).Along Operation.SparesTypes history)
    (room : ((new language).after history).size < idLimit)
    (keys : ((new language).after history).texts.SparesLastKey) :
    let f := (new language).after history
    (∀ s t a b, (new language).Gives history (.buildType s) a →
      (new language).Gives history (.buildType t) b → (a = b ↔ s = t)) ∧
    (∀ s a, (new language).Gives history (.buildType s) a →
      ∃ n, f.find? a = some n ∧ n.kind = .type ∧
        (n.targets .typeHasTypeFormer).map Target.id = s.reverse) ∧
    ∀ s, (∃ id, ((Operation.buildType s).perform f).1 = .ok (.node id)) ↔
      s ≠ [] ∧ ∀ former ∈ s, ∃ n, f.find? former = some n ∧ n.is .typeFormer = true := by
  intro f
  have unused := keys.unused
  refine ⟨fun s t a b gives gives' => ⟨?_, ?_⟩, fun s a gives => ?_, buildType_succeeds_iff room⟩
  · rintro rfl
    have shows := gives.shown_type along room unused
    have shows' := gives'.shown_type along room unused
    exact List.reverse_injective (Option.some.inj (shows.symm.trans shows'))
  · rintro rfl
    obtain ⟨key, known, record⟩ := gives.record_type along room unused
    obtain ⟨key', known', record'⟩ := gives'.record_type along room unused
    cases known.symm.trans known'
    exact Option.some.inj (record.symm.trans record')
  · obtain ⟨n, found, shows⟩ := Option.bind_eq_some_iff.1 (gives.shown_type along room unused)
    unfold typeFormers? at shows
    split at shows
    · next kind => exact ⟨n, found, kind, Option.some.inj shows⟩
    · cases shows

/-- A history with a comment that reads like the text of the type that is asked for next. The type then
gets attributes that do not suit it, its formers are asked for in the other order, an edge from a former
is refused, and the first type is asked for again. -/
def formerHistory : List Operation :=
  [.arrayFormer, .nonTypeFormer, .comment "[104,103]", .buildType [madeId 0, madeId 1],
    .setAttributes (madeId 3) (.comment .empty), .buildType [madeId 1, madeId 0],
    .addEdge .typeHasTypeFormer (madeId 0) (madeId 1), .buildType [madeId 0, madeId 1]]

/-- At the end of that history there are two types, with their formers in different orders. -/
theorem types_canonical_after_comment :
    let f := (new .java).after formerHistory
    (new .java).Along Operation.SparesTypes formerHistory ∧ f.size = 108 ∧ f.texts.SparesLastKey ∧
      (new .java).Gives formerHistory (.buildType [madeId 0, madeId 1]) (madeId 3) ∧
      (∀ b, (new .java).Gives formerHistory (.buildType [madeId 0, madeId 1]) b → b = madeId 3) ∧
      (∀ b, (new .java).Gives formerHistory (.buildType [madeId 1, madeId 0]) b → b ≠ madeId 3) ∧
      (∃ n, f.find? (madeId 3) = some n ∧
        (n.targets .typeHasTypeFormer).map Target.id = [madeId 1, madeId 0]) ∧
      ¬ ∃ id, ((Operation.buildType [madeId 0, madeId 2]).perform f).1 = .ok (.node id) := by
  intro f
  have facts : (((new .java).after (formerHistory.take 6)).find? (madeId 0)).map Node.kind =
        some .typeFormerArray ∧
      ((Operation.buildType [madeId 0, madeId 1]).perform
        ((new .java).after (formerHistory.take 3))).1 = .ok (.node (madeId 3)) ∧
      (f.find? (madeId 2)).map (fun n => n.is .typeFormer) = some false ∧
      f.size = 108 ∧ f.texts.SparesLastKey := by decide +kernel
  obtain ⟨kind, given, comment, size, keys⟩ := facts
  have linked : ∀ n ∈ ((new .java).after (formerHistory.take 6)).find? (madeId 0),
      n.kind ≠ .type := by
    intro n found
    rw [Option.mem_def.1 found] at kind
    rw [show n.kind = .typeFormerArray from Option.some.inj kind]
    decide
  have along : (new .java).Along Operation.SparesTypes formerHistory :=
    ⟨trivial, trivial, trivial, trivial, trivial, trivial, linked, trivial, trivial⟩
  have room : f.size < idLimit := by
    rw [size]
    decide
  have gives : (new .java).Gives formerHistory (.buildType [madeId 0, madeId 1]) (madeId 3) :=
    ⟨formerHistory.take 3, formerHistory.drop 4, rfl, given⟩
  obtain ⟨same, formers, succeeds⟩ := types_canonical_after along room keys
  obtain ⟨n, found, -, points⟩ := formers _ _ gives
  refine ⟨along, size, keys, gives, fun b gives' => (same _ _ _ _ gives' gives).2 rfl,
    fun b gives' equal => ?_, ⟨n, found, points⟩, fun builds => ?_⟩
  · exact absurd ((same _ _ _ _ gives' gives).1 equal) (by decide)
  · -- the comment is no former
    obtain ⟨n, found, is⟩ := ((succeeds _).1 builds).2 (madeId 2) (by decide)
    rw [show f.find? (madeId 2) = some n from found] at comment
    cases comment.symm.trans (congrArg some is)

end Graph

end CodeGraph
