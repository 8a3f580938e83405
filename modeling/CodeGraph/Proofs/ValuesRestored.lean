import CodeGraph.Proofs.RoundTrip
import CodeGraph.Proofs.Twins

/-!
# Values and types of a loaded graph

A file does not store which nodes are on record for values and types. After loading they are found
again by one scan of the nodes for values and another one for types. If record and nodes of the saved
graph were in step, the scans find the record that the saved graph had, and add no text. Main
statement: `values_restored_after`, that a graph and what is loaded from its file answer alike when
they are asked for a value or a type. It rests on `ReadBack.twin_link`.
-/

set_option autoImplicit false

namespace CodeGraph

namespace Graph

variable {α : Type} {c : Filing α} {f g : Graph}

/-- The key under which a node is on record. -/
def Filing.nodeKey? (c : Filing α) (t : TextTable) (n : Node) : Option SingletonKey :=
  (c.view n).bind (c.key? t)

/-- The first node with a key is the one on record for it, if record and nodes are in step. -/
theorem Filed.find?_nodeList (filed : Filed c f) (indexed : g.nodes.Indexed)
    (shown : ∀ id, g.shown c.view id = f.shown c.view id) (key : SingletonKey) :
    (g.nodeList.find? fun n => c.nodeKey? f.texts n = some key).map Node.id =
      if c.covers key then f.singleton? key else none := by
  have told : ∀ n ∈ g.nodeList, ∀ a, c.view n = some a → f.shown c.view n.id = some a := by
    intro n mem a view
    have found : g.find? n.id = some n := (indexed.mem_toList_iff n).1 mem
    rw [← shown, Graph.shown, found]
    exact view
  cases first : g.nodeList.find? fun n => c.nodeKey? f.texts n = some key with
  | none =>
    rw [List.find?_eq_none] at first
    split
    · next covers =>
      cases known : f.singleton? key with
      | none => rfl
      | some id =>
        obtain ⟨a, shows, named⟩ := (filed.filed key id covers).1 known
        rw [← shown] at shows
        obtain ⟨n, found, view⟩ := Option.bind_eq_some_iff.1 shows
        have own : n.id = id := indexed.id_eq found
        have mem : n ∈ g.nodeList := (indexed.mem_toList_iff n).2 (own.symm ▸ found)
        have same : c.nodeKey? f.texts n = some key := Option.bind_eq_some_iff.2 ⟨a, view, named⟩
        exact absurd (decide_eq_true same) (first n mem)
    · rfl
  | some n =>
    have mem := List.mem_of_find?_eq_some first
    have same : c.nodeKey? f.texts n = some key := by simpa using List.find?_some first
    obtain ⟨a, view, named⟩ := Option.bind_eq_some_iff.1 same
    obtain ⟨key', named', covers⟩ := filed.known n.id a (told n mem a view)
    cases named.symm.trans named'
    rw [if_pos covers]
    exact ((filed.filed key n.id covers).2 ⟨a, told n mem a view, named⟩).symm

end Graph

namespace GraphFile

open CodeGraph.Graph

variable {t : TextTable} {nodes : List Node}

/-- A step that adds no text and puts a node on record under its key, unless another node is. -/
def Records (t : TextTable) (key? : Node → Option SingletonKey) (step : Graph → Node → Graph)
    (nodes : List Node) : Prop :=
  ∀ g n, n ∈ nodes → g.texts = t → (step g n).texts = t ∧ ∀ key,
    (step g n).singleton? key =
      (g.singleton? key).or (if key? n = some key then some n.id else none)

/-- A scan finds the first node with a key. -/
theorem Records.foldl {key? : Node → Option SingletonKey} {step : Graph → Node → Graph}
    (records : Records t key? step nodes) {g : Graph} (texts : g.texts = t) :
    (nodes.foldl step g).texts = t ∧ ∀ key, (nodes.foldl step g).singleton? key =
      (g.singleton? key).or ((nodes.find? fun n => key? n = some key).map Node.id) := by
  induction nodes generalizing g with
  | nil => exact ⟨texts, fun key => Option.or_none.symm⟩
  | cons n nodes ih =>
    obtain ⟨still, record⟩ := records g n List.mem_cons_self texts
    obtain ⟨last, rest⟩ := ih (fun g m mem => records g m (List.mem_cons_of_mem _ mem)) still
    refine ⟨last, fun key => ?_⟩
    rw [List.foldl_cons, rest, record, Option.or_assoc, List.find?_cons]
    by_cases here : key? n = some key
    · rw [if_pos here, decide_eq_true here]
      rfl
    · rw [if_neg here, decide_eq_false here, Option.none_or]

/-- Finding again what nodes stand for puts the first of each value on record. -/
theorem records_rememberNode (t : TextTable) (nodes : List Node) :
    Records t (values.nodeKey? t) rememberNode nodes := by
  intro g n _ texts
  have same : values.nodeKey? t n = singletonKey? n := Option.bind_fun_some _
  unfold rememberNode
  rw [same]
  cases singletonKey? n with
  | some key =>
    refine ⟨(texts_remember g key n.id).trans texts, fun other => ?_⟩
    rw [singleton?_remember]
    simp only [Option.some_inj]
  | none => exact ⟨texts, fun other => Option.or_none.symm⟩

/-- Types whose texts are known are put on record like all else. -/
theorem records_rememberType
    (known : ∀ n ∈ nodes, ∀ formers, typeFormers? n = some formers →
      ∃ key, types.key? t formers = some key) :
    Records t (types.nodeKey? t) rememberType nodes := by
  intro g n mem texts
  by_cases kind : n.kind = .type
  · have formers : typeFormers? n = some ((n.targets .typeHasTypeFormer).map Target.id) :=
      if_pos kind
    obtain ⟨key, named⟩ := known n mem _ formers
    have told : types.nodeKey? t n = some key := Option.bind_eq_some_iff.2 ⟨_, formers, named⟩
    obtain ⟨text, interned, rfl⟩ := Option.map_eq_some_iff.1 named
    rw [← texts] at interned
    unfold rememberType
    rw [if_pos kind, intern_of_keyOf? interned, told]
    refine ⟨(texts_remember g _ n.id).trans texts, fun other => ?_⟩
    rw [singleton?_remember]
    simp only [Option.some_inj]
  · have told : types.nodeKey? t n = none := by
      unfold Filing.nodeKey?
      rw [show types.view n = none from typeFormers?_eq_none kind]
      rfl
    unfold rememberType
    rw [if_neg kind, told]
    exact ⟨texts, fun other => Option.or_none.symm⟩

/-- Both scans together. -/
theorem linkSingletons_spec {g : Graph} (texts : g.texts = t)
    (known : ∀ n ∈ g.nodeList, ∀ formers, typeFormers? n = some formers →
      ∃ key, types.key? t formers = some key) :
    (linkSingletons g).texts = t ∧ ∀ key, (linkSingletons g).singleton? key =
      ((g.nodeList.find? fun n => values.nodeKey? t n = some key).map Node.id).or
        ((g.nodeList.find? fun n => types.nodeKey? t n = some key).map Node.id) := by
  have start : ({ g with singletons := [] } : Graph).texts = t := texts
  obtain ⟨middle, first⟩ := (records_rememberNode t g.nodeList).foldl start
  obtain ⟨last, second⟩ := (records_rememberType known).foldl middle
  refine ⟨last, fun key => ?_⟩
  refine (second key).trans ?_
  rw [first]
  rfl

end GraphFile

namespace Graph

variable {f read : Graph}

/-- What is linked after a graph was read back is its twin, if record and nodes were in step. -/
theorem ReadBack.twin_link (back : f.ReadBack read) (sound : f.nodes.Sound)
    (filed : Filed values f) (filedTypes : Filed types f) (interned : f.texts.Interned)
    {first : Option NodeId} {filterOn : Bool}
    (run : LoadRun (empty f.language filterOn) (GraphFile.link read first)) :
    f.Twin (GraphFile.link read first) := by
  have indexed : (GraphFile.link read first).nodes.Indexed :=
    (run.preserves (fun _ _ step => step.sound) NodeTable.sound_empty).indexed
  have nodes : ∀ id, ((GraphFile.link read first).find? id).map Node.orphan =
      (f.find? id).map Node.orphan := by
    intro id
    obtain ⟨parent, found, -⟩ := back.find?_link first id
    rw [found, Option.map_map]
    rfl
  have shown : ∀ {α : Type} {view : Node → Option α} {fixed : List NodeKind}, IsView fixed view →
      ∀ id, (GraphFile.link read first).shown view id = f.shown view id := by
    intro α view fixed law id
    obtain ⟨parent, found, -⟩ := back.find?_link first id
    unfold Graph.shown
    rw [found, Option.bind_map]
    congr 1
    funext n
    exact law.parent n parent
  have listed : (GraphFile.linkParents read).nodeList = (GraphFile.link read first).nodeList :=
    congrArg NodeTable.toList (GraphFile.nodes_link read first).symm
  have texts : (GraphFile.linkParents read).texts = f.texts := by
    rw [GraphFile.texts_linkParents, back.rebuilt, interned.rebuilt]
  have known : ∀ n ∈ (GraphFile.linkParents read).nodeList, ∀ formers,
      typeFormers? n = some formers → ∃ key, types.key? f.texts formers = some key := by
    intro n mem formers view
    rw [listed] at mem
    have found : (GraphFile.link read first).find? n.id = some n :=
      (indexed.mem_toList_iff n).1 mem
    have shows : f.shown typeFormers? n.id = some formers := by
      rw [← shown isView_typeFormers?, Graph.shown, found]
      exact view
    obtain ⟨key, named, -⟩ := filedTypes.known n.id formers shows
    exact ⟨key, named⟩
  obtain ⟨same, record⟩ := GraphFile.linkSingletons_spec texts known
  refine ⟨(back.restored sound run).size, same, fun key => (record key).trans ?_, nodes⟩
  rw [listed, filed.find?_nodeList indexed (shown lawful_values.isView),
    filedTypes.find?_nodeList indexed (shown lawful_types.isView)]
  have apart : values.covers key = !types.covers key := rfl
  rw [apart]
  cases types.covers key with
  | true => rfl
  | false => exact Option.or_none

end Graph

/-- Whether an operation makes a node. -/
def Operation.Creates (g : Graph) (operation : Operation) : Prop :=
  ∃ id, (g.find? id).isSome = false ∧ ((operation.perform g).2.find? id).isSome = true

namespace Graph

/-- An operation that asks for a value or a type makes a node in both of two twins or in none. -/
theorem Twin.creates_iff {g h : Graph} (twin : g.Twin h) {operation : Operation}
    (asks : operation.asksForValue = true ∨ operation.asksForType = true) :
    operation.Creates h ↔ operation.Creates g := by
  refine exists_congr fun id => ?_
  rw [twin.isSome_find?, (twin.perform asks).2.isSome_find?]

/-- A graph that was built by operations which spare what nodes stand for, types included, and that
is storable can be saved, and its file can be loaded into any graph. Asked for any value or any type,
the loaded graph gives the same node as the saved one or fails in the same way, and makes a node
exactly if the saved one does. Neither fails if the nodes are there that the value or the type is
made of. -/
theorem values_restored_after {language : Language} {history : List Operation}
    (spares : (new language).Along (Operation.Spares (.type :: referenceKinds)) history)
    (storable : ((new language).after history).Storable) :
    let f := (new language).after history
    let saved := (f.save [] .unlimited).2
    saved.outcome = .ok () ∧ ∀ (g : Graph) (headers : List Header),
      let loaded := (g.load headers saved.written).2.2
      (g.load headers saved.written).1 = .ok () ∧
        ∀ operation : Operation, operation.asksForValue = true ∨ operation.asksForType = true →
          (operation.perform loaded).1 = (operation.perform f).1 ∧
          (operation.Creates loaded ↔ operation.Creates f) ∧
          (operation.Ready f → ∃ id, (operation.perform loaded).1 = .ok (.node id)) := by
  intro f saved
  have describes := spares.mono fun _ _ => Operation.Spares.describes
  obtain ⟨sound, suited⟩ : f.nodes.Sound ∧ f.nodes.Suited := suited_after describes storable.ids
  have unused := storable.keys.unused
  have valuesInStep := inStep_after (lawful_values.mono (List.subset_cons_self _ _)) spares
  have typesInStep := inStep_after (lawful_types.mono (by decide)) spares
  obtain ⟨filed, interned⟩ := valuesInStep.filed storable.ids unused
  obtain ⟨filedTypes, -⟩ := typesInStep.filed storable.ids unused
  obtain ⟨written, loads⟩ := exists_load_saved sound suited valuesInStep.numbered storable
  refine ⟨written, fun g headers => ?_⟩
  obtain ⟨read, first, back, result, linked, run⟩ := loads g headers
  have twin : f.Twin (GraphFile.link read first) :=
    back.twin_link sound filed filedTypes interned run
  simp only [saved, linked]
  refine ⟨result, fun operation asks => ?_⟩
  have answer := (twin.perform asks).1
  refine ⟨answer, twin.creates_iff asks, fun ready => ?_⟩
  rw [answer]
  exact exists_node_of_ready storable.ids asks ready

/-- A history with a class, a reference to it, a pointer, the type that both make, and a comment. -/
def typeHistory : List Operation :=
  [.createNode .plainClass, .typeReference (some (madeId 0)), .pointerFormer .pointer,
    .buildType [madeId 1, madeId 2], .comment "a"]

/-- The type of that history is found again in what is loaded from the file of the graph, and a
comment with another text is made there. -/
theorem values_restored_after_type :
    let f := (new .java).after typeHistory
    (new .java).Along (Operation.Spares (.type :: referenceKinds)) typeHistory ∧ f.Storable ∧
      ∀ (g : Graph) (headers : List Header),
        let loaded := (g.load headers (f.save [] .unlimited).2.written).2.2
        ((Operation.buildType [madeId 1, madeId 2]).perform loaded).1 = .ok (.node (madeId 3)) ∧
          ((Operation.comment "b").perform loaded).1 = .ok (.node (madeId 5)) := by
  have spares : (new .java).Along (Operation.Spares (.type :: referenceKinds)) typeHistory :=
    ⟨trivial, trivial, trivial, trivial, trivial, trivial⟩
  obtain ⟨f, is⟩ : ∃ f, f = (new .java).after typeHistory := ⟨_, rfl⟩
  have facts : f.size = 108 ∧ f.texts.SparesLastKey ∧
      (∀ entry ∈ f.texts.toList, (Utf8.encode entry.2).length < 2 ^ 32) ∧
      (∀ n ∈ f.nodeList, f.reachesRoot 3 n.id = true) ∧
      ((Operation.buildType [madeId 1, madeId 2]).perform f).1 = .ok (.node (madeId 3)) ∧
      ((Operation.comment "b").perform f).1 = .ok (.node (madeId 5)) := by
    rw [is]
    decide +kernel
  obtain ⟨size, keys, short, reaches, type, comment⟩ := facts
  have indexed : f.nodes.Indexed := is ▸ indexed_after .java typeHistory
  have storable : f.Storable :=
    ⟨by rw [size]; decide, keys, short, rooted_of_nodeList indexed reaches⟩
  have restored := values_restored_after spares (is ▸ storable)
  rw [← is] at restored ⊢
  refine ⟨spares, storable, fun g headers => ?_⟩
  obtain ⟨-, same⟩ := restored.2 g headers
  exact ⟨(same _ (Or.inr rfl)).1.trans type, (same _ (Or.inl rfl)).1.trans comment⟩

end Graph

end CodeGraph
