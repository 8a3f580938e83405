import CodeGraph.Proofs.NestingChanges
import CodeGraph.Proofs.NodeChanges

/-!
# Nodes are stable

Unless a graph is started over, a node stays where it is, and only turning a class or a method into
its generic form changes its kind (`exists_kind_after`). Turning it keeps all its edges in their order,
and everything else in the graph (`replaceNode_frame`). A node that is made gets an id above all that
are in use, also if folders are made on the way to it (`numbers_perform`). Main statement:
`nodes_stable_after`.
-/

set_option autoImplicit false

namespace CodeGraph

/-! ## Turning a node into its generic form -/

/-- A longer list without repetitions gives the same if what it has more gives nothing. -/
theorem flatMap_of_sublist {α β : Type} {f : α → List β} {few many : List α}
    (sublist : few.Sublist many) (distinct : many.Nodup)
    (nothing : ∀ a ∈ many, a ∉ few → f a = []) : many.flatMap f = few.flatMap f := by
  induction sublist with
  | slnil => rfl
  | @cons few many a rest ih =>
    obtain ⟨absent, distinct⟩ := List.nodup_cons.1 distinct
    obtain ⟨here, others⟩ := List.forall_mem_cons.1 nothing
    have more : a ∉ few := fun mem => absent (rest.subset mem)
    rw [List.flatMap_cons, here more, List.nil_append, ih distinct others]
  | @cons_cons few many a rest ih =>
    obtain ⟨absent, distinct⟩ := List.nodup_cons.1 distinct
    have others : ∀ b ∈ many, b ∉ few → f b = [] := by
      intro b mem more
      refine nothing b (List.mem_cons_of_mem a mem) fun mem' => ?_
      rcases List.mem_cons.1 mem' with rfl | mem'
      · exact absent mem
      · exact more mem'
    rw [List.flatMap_cons, List.flatMap_cons, ih distinct others]

namespace Node

variable {n : Node}

/-- The edges of a node, kind by kind. -/
theorem edges_eq (distinct : n.edgeKinds.Nodup) :
    n.edges = n.edgeKinds.flatMap fun e =>
      (n.targets e).map fun t => ⟨e, n.id, t.id, t.value⟩ := by
  unfold edges edgeKinds
  rw [List.flatMap_map]
  refine List.flatMap_congr fun s mem => ?_
  rw [targets_of_mem distinct mem]

/-- A kind that has the same slots and more keeps the edges in their order. -/
theorem edges_promote (wf : n.WellFormed) {kind : NodeKind}
    (sublist : n.kind.edgeKinds.Sublist kind.edgeKinds) : (n.promote kind).edges = n.edges := by
  have distinct := kind.nodup_edgeKinds
  have wider : n.edgeKinds ⊆ kind.edgeKinds := wf.kinds ▸ sublist.subset
  have promoted : (n.promote kind).edgeKinds.Nodup := (edgeKinds_promote n kind).symm ▸ distinct
  rw [edges_eq promoted, edges_eq wf.distinct, edgeKinds_promote, wf.kinds]
  simp only [targets_promote wider]
  refine flatMap_of_sublist sublist distinct fun e _ more => ?_
  rw [targets_eq_nil (wf.kinds ▸ more)]
  rfl

end Node

namespace Graph

variable {g h : Graph} {id : NodeId}

/-- The kinds that can be turned into another one, and those that they are turned into. -/
theorem widened?_eq_some {kind wider : NodeKind} (widened : widened? kind = some wider) :
    (kind = .plainClass ∧ wider = .classGeneric ∨ kind = .method ∧ wider = .methodGeneric) ∧
      kind.edgeKinds.Sublist wider.edgeKinds := by
  unfold widened? at widened
  split at widened
  · cases widened
    decide
  · cases widened
    decide
  · cases widened

/-- Turning a node into its generic form changes its kind and adds to the edges that it may have.
Everything else about it and in the graph stays. -/
theorem replaceNode_frame (wf : g.nodes.WellFormed) {kind : NodeKind}
    (replaced : g.replaceNode id kind = (.ok (), h)) :
    ∃ n m, g.find? id = some n ∧ h.find? id = some m ∧ m = { n with kind, slots := m.slots } ∧
      n.edgeKinds.Sublist m.edgeKinds ∧ m.edgeKinds = kind.edgeKinds ∧ m.edges = n.edges ∧
      h = { g with nodes := h.nodes } ∧ h.size = g.size ∧
      ∀ other, other ≠ id → h.find? other = g.find? other := by
  rw [replaceNode_eq, settle_eq_ok_iff] at replaced
  obtain ⟨n, found, wider, rfl⟩ := withKind_eq_ok replaced
  obtain ⟨-, sublist⟩ := widened?_eq_some wider
  have more : n.edgeKinds.Sublist (n.promote kind).edgeKinds := by
    rw [Node.edgeKinds_promote, (wf id n found).kinds]
    exact sublist
  refine ⟨n, n.promote kind, found, ?_, rfl, more, n.edgeKinds_promote kind,
    Node.edges_promote (wf id n found) sublist, rfl, size_updateNode g id _, fun other different => ?_⟩
  · rw [find?_updateNode, if_pos rfl, found]
    rfl
  · rw [find?_updateNode, if_neg different]

/-! ## Kinds -/

/-- Nodes keep their kinds. -/
def kindLaw : NodeLaw where
  allows _ n m := m.kind = n.kind
  new _ := True
  refl _ _ := rfl
  trans first second := second.trans first
  parent _ _ _ := rfl
  still _ _ := trivial
  fresh _ _ _ _ := trivial
  value _ _ _ _ _ := rfl

/-- An edit that replaces no node keeps the kinds of all. -/
theorem respects_kindLaw {operation : Operation} (isEdit : operation.IsEdit)
    (other : ∀ id kind, operation ≠ .replaceNode id kind) : operation.Respects kindLaw g := by
  cases operation with
  | clear => exact isEdit
  | load headers input => exact isEdit
  | replaceNode id kind => exact absurd rfl (other id kind)
  | createFile path | createFileFrom path start => exact fun _ _ _ _ => rfl
  | setName id name | setNameKey id name => exact fun n _ key => n.kind_setName key
  | setAttributes id attributes => exact fun _ _ => rfl
  | addEdge | addValueEdge | setEdge | removeEdge => exact fun _ _ _ => rfl
  | _ => trivial

/-- An operation turns the node at an id, a class or a method, into its generic form. -/
structure Widens (g : Graph) (operation : Operation) (id : NodeId) (kind wider : NodeKind) :
    Prop where
  asks : operation = .replaceNode id wider
  succeeds : (operation.perform g).1 = .ok .done
  kinds : kind = .plainClass ∧ wider = .classGeneric ∨ kind = .method ∧ wider = .methodGeneric

/-- An operation that does not start a graph over keeps every node at its id. Its kind stays too,
unless the operation turns it into its generic form. -/
theorem exists_kind_perform {operation : Operation} (isEdit : operation.IsEdit)
    (room : (operation.perform g).2.size < idLimit) {n : Node} (found : g.find? id = some n) :
    ∃ m, (operation.perform g).2.find? id = some m ∧
      (m.kind = n.kind ∨ g.Widens operation id n.kind m.kind) := by
  by_cases replaces : ∃ other kind, operation = .replaceNode other kind
  · obtain ⟨other, kind, rfl⟩ := replaces
    rw [Operation.perform_eq]
    change ∃ m, (Outcome.orKeep g (g.withKind other kind)).2.find? id = some m ∧ _
    cases result : g.withKind other kind with
    | error cause => exact ⟨n, found, Or.inl rfl⟩
    | ok h =>
      obtain ⟨old, there, wider, rfl⟩ := withKind_eq_ok result
      by_cases here : id = other
      · subst here
        cases found.symm.trans there
        have succeeds : ((Operation.replaceNode id kind).perform g).1 = .ok .done := by
          rw [Operation.perform_eq]
          change (Outcome.orKeep g (g.withKind id kind)).1 = _
          rw [result]
          rfl
        refine ⟨n.promote kind, ?_, Or.inr ⟨rfl, succeeds, (widened?_eq_some wider).1⟩⟩
        exact (find?_updateNode g id id _).trans (by rw [if_pos rfl, found]; rfl)
      · exact ⟨n, (find?_updateNode g other id _).trans ((if_neg here).trans found), Or.inl rfl⟩
  · have other : ∀ id kind, operation ≠ .replaceNode id kind :=
      fun id kind same => replaces ⟨id, kind, same⟩
    obtain ⟨m, there, same⟩ :=
      (follows_perform (respects_kindLaw isEdit other)).kept room id n found
    exact ⟨m, there, Or.inl same⟩

/-- A history of edits never makes a graph smaller. -/
theorem size_le_after {history : List Operation} (edits : ∀ operation ∈ history, operation.IsEdit) :
    g.size ≤ (g.after history).size := by
  have along : g.Along (fun _ operation => operation.IsEdit) history :=
    along_of_forall (fun operation mem _ => edits operation mem) g
  exact along.size_le_of_isEdit fun _ _ isEdit => isEdit

/-- A history that does not start a graph over keeps every node at its id. Its kind stays too, unless
the history turns it into its generic form. -/
theorem exists_kind_after {history : List Operation}
    (edits : ∀ operation ∈ history, operation.IsEdit) (room : (g.after history).size < idLimit)
    {n : Node} (found : g.find? id = some n) :
    ∃ m, (g.after history).find? id = some m ∧ (m.kind = n.kind ∨
      ∃ before operation rest, history = before ++ operation :: rest ∧
        (g.after before).Widens operation id n.kind m.kind) := by
  induction history generalizing g n with
  | nil => exact ⟨n, found, Or.inl rfl⟩
  | cons operation rest ih =>
    obtain ⟨isEdit, edits⟩ := List.forall_mem_cons.1 edits
    rw [after_cons] at room ⊢
    have early := Nat.lt_of_le_of_lt (size_le_after edits) room
    obtain ⟨m, there, first⟩ := exists_kind_perform isEdit early found
    obtain ⟨l, last, later⟩ := ih edits room there
    refine ⟨l, last, ?_⟩
    rcases first with same | widens
    · rcases later with same' | ⟨before, op, rest, rfl, widens⟩
      · exact Or.inl (same'.trans same)
      · exact Or.inr ⟨operation :: before, op, rest, rfl, same ▸ widens⟩
    · rcases later with same' | ⟨before, op, rest, rfl, again⟩
      · exact Or.inr ⟨[], operation, rest, rfl, same'.symm ▸ widens⟩
      · -- a generic form cannot be turned into another one
        rcases widens.kinds with ⟨-, is⟩ | ⟨-, is⟩ <;>
          rcases again.kinds with ⟨was, -⟩ | ⟨was, -⟩ <;> cases is.symm.trans was

/-! ## Ids of new nodes -/

/-- An id above all that are in use, and above those that are reserved. -/
structure Above (g : Graph) (id : NodeId) : Prop where
  unused : g.find? id = none
  above : ∀ other n, g.find? other = some n → other < id
  valid : 1 < id.index

/-- A valid id beyond the table of nodes is above all that are in use. -/
theorem above_of_size_le (beyond : g.size ≤ id.index) (valid : id.isValid = true) : g.Above id where
  unused := NodeTable.find?_of_size_le beyond
  above _ _ found := UInt32.lt_iff_toNat_lt.2
    (Nat.lt_of_lt_of_le (NodeTable.index_lt_size found) beyond)
  valid := UInt32.lt_iff_toNat_lt.1 (of_decide_eq_true valid)

/-- While ids last, the next new id lies beyond all nodes. -/
theorem size_le_nextId (room : g.size < idLimit) : g.size ≤ g.nextId.index := by
  have number : (UInt32.ofNat g.size).toNat = g.size := by
    rw [UInt32.toNat_ofNat']
    exact Nat.mod_eq_of_lt room
  have first : firstId.index = 2 := rfl
  unfold nextId NodeId.ofIndex? NodeId.ofRaw?
  by_cases nonzero : UInt32.ofNat g.size ≠ 0
  · simp only [dif_pos nonzero]
    split
    · exact Nat.le_of_eq number.symm
    · next invalid =>
      have small : ¬ 1 < g.size := by
        intro large
        apply invalid
        unfold NodeId.isValid
        rw [decide_eq_true_eq, UInt32.lt_iff_toNat_lt, number]
        exact large
      omega
  · simp only [dif_neg nonzero]
    rw [not_not] at nonzero
    rw [nonzero] at number
    have zero : (0 : UInt32).toNat = 0 := rfl
    omega

/-- The next new id of a graph is above all that were in use before, while ids last. -/
theorem above_nextId (le : g.size ≤ h.size) (room : h.size < idLimit) : g.Above h.nextId :=
  above_of_size_le (Nat.le_trans le (size_le_nextId room)) (nextId_fresh room).1

/-- A node that is given was there, and then all nodes stay as they are, or it is new. -/
def Numbers (g : Graph) (id : NodeId) (h : Graph) : Prop :=
  h.nodes = g.nodes ∨ g.Above id ∧ ∃ m, h.find? id = some m

/-- Only the nodes count. -/
theorem Numbers.of_nodes {k : Graph} (numbers : k.Numbers id h) (same : k.nodes = g.nodes) :
    g.Numbers id h := by
  unfold Numbers at numbers ⊢
  rw [← same]
  refine numbers.imp_right fun ⟨above, there⟩ => ⟨⟨?_, ?_, above.valid⟩, there⟩
  · have unused := above.unused
    unfold find? at unused ⊢
    rw [← same]
    exact unused
  · intro other n found
    unfold find? at found
    rw [← same] at found
    exact above.above other n found

/-- The node of a value was there, or is new and above all others. -/
theorem numbers_singletonNode (room : g.size < idLimit) (key : SingletonKey) (kind : NodeKind)
    (f : Node → Node) : g.Numbers (g.singletonNode key kind f).1 (g.singletonNode key kind f).2 := by
  unfold singletonNode
  split
  · exact Or.inl rfl
  · refine Or.inr ⟨above_nextId (Nat.le_refl _) room, f (.fresh g.nextId kind), ?_⟩
    unfold find?
    rw [nodes_remember]
    exact (find?_newNodeWith g kind f g.nextId).trans (if_pos rfl)

/-- A new node that was given edges and remembered is new. -/
theorem numbers_remember {kind : NodeKind} (follows : Follows kindLaw (g.newNode kind).2 h)
    (room : h.size < idLimit) (key : SingletonKey) :
    g.Numbers g.nextId (h.remember key g.nextId) := by
  have created : Follows kindLaw g (g.newNode kind).2 := follows_newNode g kind
  have fresh : (g.newNode kind).2.find? g.nextId = some (.fresh g.nextId kind) :=
    (find?_insertNode g kind g.nextId g.nextId).trans (if_pos rfl)
  obtain ⟨m, there, -⟩ := follows.kept room _ _ fresh
  have early : g.size < idLimit := Nat.lt_of_le_of_lt (created.trans follows).size room
  refine Or.inr ⟨above_nextId (Nat.le_refl _) early, m, ?_⟩
  unfold find?
  rw [nodes_remember]
  exact there

/-- A reference that is given was there, or is new and above all others. -/
theorem numbers_referenceNode {key : SingletonKey} {kind : NodeKind} {e : EdgeKind}
    {target : Option NodeId} {check : Except Error Unit} (room : h.size < idLimit)
    (made : g.referenceNode key kind e target check = (.ok id, h)) : g.Numbers id h := by
  unfold referenceNode at made
  split at made
  · cases made
    exact Or.inl rfl
  · split at made
    · cases made
    · split at made
      · cases made
      · next between created =>
        cases made
        rw [newNodeTo_eq] at created
        unfold withNodeTo at created
        simp only at created
        split at created
        · cases created
        · next linked =>
          cases created
          rw [size_remember] at room
          exact numbers_remember (follows_withSingle (fun _ _ _ => rfl) linked) room key

/-- A type that is given was there, or is new and above all others. -/
theorem numbers_buildType {stack : List NodeId} (room : h.size < idLimit)
    (built : g.buildType stack = (.ok id, h)) : g.Numbers id h := by
  unfold buildType at built
  split at built
  · cases built
  · split at built
    · cases built
    · simp only at built
      split at built
      · cases built
        exact Or.inl rfl
      · split at built
        · cases built
        · next linked added =>
          cases built
          rw [size_remember] at room
          have follows : Follows kindLaw ((g.intern (typeText stack.reverse)).2.newNode .type).2
              (((g.intern (typeText stack.reverse)).2.newNode .type).2.addEdges .typeHasTypeFormer
                ((g.intern (typeText stack.reverse)).2.newNode .type).1 stack.reverse).2 :=
            follows_addEdges (fun _ _ => rfl) stack.reverse _
          rw [added] at follows
          exact (numbers_remember follows room _).of_nodes rfl

/-! ## Ids of new files -/

/-- There is a node without edges at an id. -/
def IsBare (g : Graph) (id : NodeId) : Prop :=
  ∃ n, g.find? id = some n ∧ ∀ e, n.targets e = []

section Entries

variable {container : NodeId} {name : String} {kind : NodeKind}

/-- A new entry has no edges. -/
theorem Enters.isBare {holder : Node} (enters : g.Enters container holder name kind id h) :
    h.IsBare id :=
  ⟨_, (enters.find id).trans (if_pos rfl), targets_newEntry container holder id kind _⟩

/-- No entry is found in a container without edges. -/
theorem not_findEntry_of_isBare {holder : Node} {entry : NodeId} (bare : g.IsBare container)
    (holds : g.find? container = some holder) : g.findEntry holder name kind ≠ some entry := by
  obtain ⟨n, found, nothing⟩ := bare
  cases found.symm.trans holds
  unfold findEntry
  rw [nothing]
  intro listed
  split at listed <;> cases listed

/-- In a folder without entries all folders are made. -/
theorem isBare_openFolders {names : List String} (room : h.size < idLimit)
    (bare : g.IsBare container) (opened : g.openFolders container names = (.ok id, h)) :
    h.IsBare id := by
  induction names generalizing g container with
  | nil =>
    cases opened
    exact bare
  | cons name names ih =>
    obtain ⟨-, folder, between, first, others⟩ := openFolders_cons_eq_ok opened
    have le := size_le_of_openEntry rfl first
    have le' := size_le_of_openFolders others
    rcases openEntry_eq_ok (by omega) first with ⟨holder, holds, entry, -⟩ | ⟨holder, enters⟩
    · exact absurd entry (not_findEntry_of_isBare bare holds)
    · exact ih enters.isBare others

/-- From the first folder on that is missing, all folders are made. -/
theorem eq_or_isBare_openFolders {names : List String} (room : h.size < idLimit)
    (opened : g.openFolders container names = (.ok id, h)) : h = g ∨ h.IsBare id := by
  induction names generalizing g container with
  | nil =>
    cases opened
    exact Or.inl rfl
  | cons name names ih =>
    obtain ⟨-, folder, between, first, others⟩ := openFolders_cons_eq_ok opened
    have le := size_le_of_openEntry rfl first
    have le' := size_le_of_openFolders others
    rcases openEntry_eq_ok (by omega) first with ⟨holder, -, -, rfl⟩ | ⟨holder, enters⟩
    · exact ih others
    · exact Or.inr (isBare_openFolders room enters.isBare others)

/-- A file that is not new lies in folders that are not new. -/
theorem numbers_createFileFrom {path : String} {start : NodeId} (room : h.size < idLimit)
    (created : g.createFileFrom path start = (.ok id, h)) : g.Numbers id h := by
  obtain ⟨n, folder, between, -, -, opened, -, last⟩ := createFileFrom_eq_ok created
  have le := size_le_of_openFolders opened
  have early : between.size < idLimit := Nat.lt_of_le_of_lt (size_le_of_openEntry rfl last) room
  rcases openEntry_eq_ok early last with ⟨holder, holds, entry, rfl⟩ | ⟨holder, enters⟩
  · rcases eq_or_isBare_openFolders early opened with rfl | bare
    · exact Or.inl rfl
    · exact absurd entry (not_findEntry_of_isBare bare holds)
  · refine Or.inr ⟨?_, _, (enters.find id).trans (if_pos rfl)⟩
    rw [enters.next]
    exact above_nextId le early

end Entries

end Graph

/-- Whether an operation makes a node without looking for one. -/
def Operation.alwaysMakes : Operation → Bool
  | .createNode _ | .methodFormer | .friendship _ => true
  | _ => false

namespace Graph

variable {g : Graph} {id : NodeId}

/-- An answer with a node comes from a call that gave this node. -/
theorem nodeHalf_eq_ok {result : Except Error NodeId × Graph}
    (given : (Outcome.nodeHalf result).1 = .ok (.node id)) : result = (.ok id, result.2) := by
  obtain ⟨cause | made, h⟩ := result
  · cases given
  · cases given
    rfl

/-- An operation that gives a node has found it, or has made it with an id above all others. -/
theorem numbers_perform {operation : Operation} (takes : operation.takesIds = true)
    (room : (operation.perform g).2.size < idLimit)
    (given : (operation.perform g).1 = .ok (.node id)) :
    operation.alwaysMakes = false ∧ (operation.perform g).2.nodes = g.nodes ∨
      g.Above id ∧ ∃ m, (operation.perform g).2.find? id = some m := by
  have isEdit : operation.IsEdit := by
    cases operation with
    | clear | load => cases takes
    | _ => trivial
  have le := size_le_of_isEdit (g := g) isEdit
  have early : g.size < idLimit := Nat.lt_of_le_of_lt le room
  -- operations that look for a node first
  have found : ∀ {h}, g.Numbers id h → operation.alwaysMakes = false →
      operation.alwaysMakes = false ∧ h.nodes = g.nodes ∨
        g.Above id ∧ ∃ m, h.find? id = some m :=
    fun numbers looks => numbers.imp_left fun same => ⟨looks, same⟩
  cases operation with
  | createNode kind =>
    rw [Operation.perform_eq] at given ⊢
    change (Outcome.nodeOrKeep g (g.withNode kind)).1 = _ at given
    change _ ∨ _ ∧ ∃ m, (Outcome.nodeOrKeep g (g.withNode kind)).2.find? id = some m
    cases result : g.withNode kind with
    | error cause =>
      rw [result] at given
      cases given
    | ok made =>
      obtain ⟨made, h⟩ := made
      obtain ⟨-, new⟩ := withNode_eq_ok result
      rw [result] at given
      cases new
      cases given
      exact Or.inr ⟨above_nextId (Nat.le_refl _) early, _,
        (find?_insertNode g kind g.nextId g.nextId).trans (if_pos rfl)⟩
  | methodFormer =>
    cases given
    exact Or.inr ⟨above_nextId (Nat.le_refl _) early, _,
      (find?_insertNode g .typeFormerMethod g.nextId g.nextId).trans (if_pos rfl)⟩
  | friendship grantee =>
    cases given
    exact Or.inr ⟨above_nextId (Nat.le_refl _) early, _,
      (find?_newNodeWith (g.intern grantee).2 .friendship _ g.nextId).trans (if_pos rfl)⟩
  | simpleType kind =>
    cases given
    exact found (numbers_singletonNode early _ _ _) rfl
  | pointerFormer kind =>
    cases given
    exact found (numbers_singletonNode early _ _ _) rfl
  | arrayFormer =>
    cases given
    exact found (numbers_singletonNode early _ _ _) rfl
  | nonTypeFormer =>
    cases given
    exact found (numbers_singletonNode early _ _ _) rfl
  | comment text =>
    cases given
    have numbers := numbers_singletonNode (g := (g.intern text).2) early
      (.comment (g.intern text).1) .comment fun n =>
        { n with attributes := .comment (g.intern text).1 }
    exact found (numbers.of_nodes rfl) rfl
  | component name =>
    cases given
    have numbers := numbers_singletonNode (g := (g.intern name).2) early
      (.component (g.intern name).1) .component fun n => n.setName (g.intern name).1
    exact found (numbers.of_nodes rfl) rfl
  | typeReference refersTo =>
    exact found (numbers_referenceNode room (nodeHalf_eq_ok given)) rfl
  | attributeAccess accessed =>
    exact found (numbers_referenceNode room (nodeHalf_eq_ok given)) rfl
  | methodCall method => exact found (numbers_referenceNode room (nodeHalf_eq_ok given)) rfl
  | buildType stack => exact found (numbers_buildType room (nodeHalf_eq_ok given)) rfl
  | createFile path => exact found (numbers_createFileFrom room (nodeHalf_eq_ok given)) rfl
  | createFileFrom path start =>
    exact found (numbers_createFileFrom room (nodeHalf_eq_ok given)) rfl
  | _ => cases takes

/-- Whatever has been done to a graph, and as long as ids last: operations other than clearing and
loading never make it smaller, and keep every node at its id; a node changes its kind only if it is
turned into its generic form. An operation that gives a node has changed no node, or has made this one,
with an id above all that were in use. If a node is turned into its generic form then nothing but its
kind and its slots changes: its edges stay in their order, and so does everything else in the graph. -/
theorem nodes_stable_after (language : Language) (history : List Operation) :
    let g := (new language).after history
    (∀ later : List Operation, (∀ operation ∈ later, operation.IsEdit) →
      (g.after later).size < idLimit →
      g.size ≤ (g.after later).size ∧
      ∀ id n, g.find? id = some n → ∃ m, (g.after later).find? id = some m ∧ m.id = id ∧
        (m.kind = n.kind ∨ ∃ before operation rest, later = before ++ operation :: rest ∧
          (g.after before).Widens operation id n.kind m.kind)) ∧
    (∀ (operation : Operation) (id : NodeId), operation.takesIds = true →
      (operation.perform g).2.size < idLimit →
      (operation.perform g).1 = .ok (.node id) →
      operation.alwaysMakes = false ∧ (operation.perform g).2.nodes = g.nodes ∨
        g.Above id ∧ ∃ m, (operation.perform g).2.find? id = some m) ∧
    ∀ id kind h, g.replaceNode id kind = (.ok (), h) →
      ∃ n m, g.find? id = some n ∧ h.find? id = some m ∧ m = { n with kind, slots := m.slots } ∧
        n.edgeKinds.Sublist m.edgeKinds ∧ m.edgeKinds = kind.edgeKinds ∧ m.edges = n.edges ∧
        h = { g with nodes := h.nodes } ∧ h.size = g.size ∧
        ∀ other, other ≠ id → h.find? other = g.find? other := by
  intro g
  refine ⟨fun later edits room => ⟨size_le_after edits, fun id n found => ?_⟩, ?_, ?_⟩
  · obtain ⟨m, there, kinds⟩ := exists_kind_after edits room found
    have indexed : (g.after later).nodes.Indexed := by
      rw [← after_append]
      exact indexed_after language (history ++ later)
    exact ⟨m, there, indexed.id_eq there, kinds⟩
  · exact fun operation id takes room given => numbers_perform takes room given
  · exact fun id kind h replaced => replaceNode_frame (wellFormed_nodes_after language history) replaced

/-- A class with a member, and an index of incoming edges. -/
def memberHistory : List Operation :=
  [.createNode .plainClass, .createNode .attribute, .addEdge .scopeHasMember (madeId 0) (madeId 1),
    .buildIndex none]

/-- The class becomes a generic one and keeps its member; a file in a new folder comes after both. -/
theorem nodes_stable_after_widening :
    let g := (new .java).after memberHistory
    let later := [Operation.replaceNode (madeId 0) .classGeneric, .createFile "a\\b"]
    (g.after later).size < idLimit ∧ g.size ≤ (g.after later).size ∧
      (g.find? (madeId 0)).map Node.kind = some .plainClass ∧
      ((g.after later).find? (madeId 0)).map Node.kind = some .classGeneric ∧
      (∃ h n m, g.replaceNode (madeId 0) .classGeneric = (.ok (), h) ∧ g.find? (madeId 0) = some n ∧
        h.find? (madeId 0) = some m ∧ m.edges = n.edges ∧ n.edges.length = 1 ∧ h.index = g.index) ∧
      ((Operation.createFile "a\\b").perform g).1 = .ok (.node (madeId 3)) ∧ g.Above (madeId 3) := by
  dsimp only
  generalize start : (new .java).after memberHistory = g
  generalize widening : [Operation.replaceNode (madeId 0) .classGeneric, .createFile "a\\b"] = later
  have facts : (g.after later).size < idLimit ∧
      (g.find? (madeId 0)).map Node.kind = some .plainClass ∧
      ((g.after later).find? (madeId 0)).map Node.kind = some .classGeneric ∧
      (g.find? (madeId 0)).map (fun n => n.edges.length) = some 1 ∧
      (g.replaceNode (madeId 0) .classGeneric).1 = .ok () ∧
      ((Operation.createFile "a\\b").perform g).1 = .ok (.node (madeId 3)) ∧
      ((Operation.createFile "a\\b").perform g).2.size < idLimit ∧
      ((Operation.createFile "a\\b").perform g).2.nodes.size ≠ g.nodes.size := by
    rw [← start, ← widening]
    decide +kernel
  obtain ⟨room, was, is, edge, widens, given, room', more⟩ := facts
  have edits : ∀ operation ∈ later, operation.IsEdit := by
    rw [← widening]
    exact List.forall_mem_cons.2 ⟨trivial, List.forall_mem_singleton.2 trivial⟩
  have stable := nodes_stable_after .java memberHistory
  dsimp only at stable
  rw [start] at stable
  obtain ⟨stays, numbers, frame⟩ := stable
  refine ⟨room, (stays later edits room).1, was, is, ?_, given, ?_⟩
  · have replaced : g.replaceNode (madeId 0) .classGeneric =
        (.ok (), (g.replaceNode (madeId 0) .classGeneric).2) := Prod.ext widens rfl
    obtain ⟨n, m, found, there, -, -, -, edges, same, -⟩ := frame _ _ _ replaced
    have index : (g.replaceNode (madeId 0) .classGeneric).2.index = g.index := by rw [same]
    rw [found] at edge
    exact ⟨_, n, m, replaced, found, there, edges, Option.some.inj edge, index⟩
  · rcases numbers _ _ rfl room' given with ⟨-, same⟩ | ⟨above, -⟩
    · exact absurd (congrArg NodeTable.size same) more
    · exact above

end Graph

end CodeGraph
