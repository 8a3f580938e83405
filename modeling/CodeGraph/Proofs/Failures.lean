import CodeGraph.Header.Overrides
import CodeGraph.Proofs.FilterStates
import CodeGraph.Proofs.ValueCalls

/-!
# Operations that fail

All operations but opening a file, loading texts and loading a graph are done whole or not at all.
Most of them check all they need before they change anything; where they look up a node again that
they found before, it is still there (`Operation.perform_eq`). A call for a reference or a type makes
its node first and links it then; nothing is refused there while ids last, as what it links has been
checked and the new node lies at an id of its own. Showing a node changes the filter before it looks
up the parents, and finds them all, as a parent that does not exist lists no node. Main statements:
`failures_change_nothing`, and `after_successes`, that failures may be left out of a history.
-/

set_option autoImplicit false

namespace CodeGraph

/-- Whether an operation is done whole or not at all. The others keep what they did before they
failed. -/
def Operation.isAtomic : Operation → Bool
  | .loadTexts _ | .createFile _ | .createFileFrom _ _ | .load _ _ => false
  | _ => true

namespace Outcome

variable {g : Graph} {cause : Error}

/-- An operation that fails this way keeps the graph. -/
theorem orKeep_of_error {result : Except Error Graph}
    (failed : (orKeep g result).1 = .error cause) : (orKeep g result).2 = g := by
  cases result with
  | error refusal => rfl
  | ok next => cases failed

/-- An operation for a node that fails this way keeps the graph. -/
theorem nodeOrKeep_of_error {result : Except Error (NodeId × Graph)}
    (failed : (nodeOrKeep g result).1 = .error cause) : (nodeOrKeep g result).2 = g := by
  cases result with
  | error refusal => rfl
  | ok made => cases failed

/-- An operation for a truth value that fails this way keeps the graph. -/
theorem flagOrKeep_of_error {result : Except Error (Bool × Graph)}
    (failed : (flagOrKeep g result).1 = .error cause) : (flagOrKeep g result).2 = g := by
  cases result with
  | error refusal => rfl
  | ok made => cases failed

/-- The outcome of an operation that may fail half way but does not. -/
theorem half_of_error {α : Type} {r : Except Error α × Graph} {f : α → Answer}
    (keeps : ∀ {refusal h}, r = (.error refusal, h) → h = g)
    (failed : r.1.map f = .error cause) : r.2 = g := by
  obtain ⟨refusal | done, h⟩ := r
  · exact keeps rfl
  · cases failed

end Outcome

/-- What both checks let pass is recorded, and nothing is if one of them fails. -/
theorem Overrides.tryAdd_of_error {o : Overrides} {g : Graph} {method overridden : NodeId}
    {cause : Error} (failed : (o.tryAdd g method overridden).1 = .error cause) :
    (o.tryAdd g method overridden).2 = o := by
  unfold tryAdd at failed ⊢
  split at failed
  · rfl
  · split at failed
    · rfl
    · cases failed

namespace Graph

variable {g h : Graph} {cause : Error}

/-! ## Showing -/

/-- Where parents list their nodes, parents exist. -/
theorem exists_parent (backed : g.nesting.Backed) {id p : NodeId} {n : Node}
    (found : g.find? id = some n) (parent : n.parentId? = some p) : ∃ m, g.find? p = some m := by
  obtain ⟨q, names, rfl⟩ := Option.map_eq_some_iff.1 parent
  obtain ⟨-, m, there, -⟩ :=
    NodeTable.mem_held_nesting.1 (backed id q ((nesting_parent found).trans names))
  exact ⟨m, there⟩

/-- Showing ancestors never meets a parent that does not exist, however far it goes. -/
theorem showAncestors_succeeds (backed : g.nesting.Backed) (steps : Nat) {start : Option NodeId}
    (there : ∀ p ∈ start, ∃ m, g.find? p = some m) (f : Filter) :
    (Filter.showAncestors g.nodes steps start f).2 = .ok () := by
  induction steps generalizing start f with
  | zero => rfl
  | succ steps ih =>
    cases start with
    | none => rfl
    | some p =>
      obtain ⟨m, found⟩ := there p rfl
      have found' : g.nodes.find? p = some m := found
      unfold Filter.showAncestors
      simp only [found']
      exact ih (fun _ parent => exists_parent backed found parent) _

/-- Showing a node fails only if the node itself is missing. -/
theorem reveal_eq_error (backed : g.nesting.Backed) {id : NodeId}
    (failed : g.reveal id = (.error cause, h)) : h = g := by
  cases found : g.find? id with
  | none =>
    rw [reveal_of_missing found] at failed
    cases failed
    rfl
  | some n =>
    have found' : g.nodes.find? id = some n := found
    have shown := showAncestors_succeeds backed (g.nodes.size + 1)
      (fun _ parent => exists_parent backed found parent)
      (g.filter.setAll (g.nodes.subtree id) .notFiltered)
    have succeeds : (g.reveal id).1 = .ok () := by
      unfold reveal
      rw [Filter.reveal_of_find? found']
      exact shown
    rw [failed] at succeeds
    cases succeeds

/-! ## Operations -/

/-- If ids last for an operation that takes new ones, there was one before. -/
theorem room_of_idsLast {operation : Operation} (takes : operation.takesIds = true)
    (last : operation.IdsLast g) : g.size < idLimit :=
  Nat.lt_of_le_of_lt (grows_perform takes).size (last takes)

/-- In a graph whose parents list their nodes, an operation that is done whole or not at all changes
nothing if it fails, while ids last. -/
theorem perform_of_error (backed : g.nesting.Backed) {operation : Operation}
    (last : operation.IdsLast g) (atomic : operation.isAtomic = true)
    (failed : (operation.perform g).1 = .error cause) : (operation.perform g).2 = g := by
  rw [Operation.perform_eq] at failed ⊢
  cases operation with
  | createNode | createNodeWithId => exact Outcome.nodeOrKeep_of_error failed
  | replaceNode | setName | addEdge | addValueEdge | setEdge | hide | hideOnly | revealOnly
  | loadFilter => exact Outcome.orKeep_of_error failed
  | typeReference refersTo =>
    have room := room_of_idsLast rfl last
    exact Outcome.half_of_error (r := g.typeReference refersTo) (typeReference_eq_error room) failed
  | attributeAccess accessed =>
    have room := room_of_idsLast rfl last
    exact Outcome.half_of_error (r := g.attributeAccess accessed) (attributeAccess_eq_error room)
      failed
  | methodCall method =>
    have room := room_of_idsLast rfl last
    exact Outcome.half_of_error (r := g.methodCall method) (methodCall_eq_error room) failed
  | buildType stack =>
    have room := room_of_idsLast rfl last
    exact Outcome.half_of_error (r := g.buildType stack) (buildType_eq_error room) failed
  | reveal id => exact Outcome.half_of_error (r := g.reveal id) (reveal_eq_error backed) failed
  | removeEdge => exact Outcome.flagOrKeep_of_error failed
  | setNameKey | setAttributes =>
    unfold Operation.effect Operation.perform touch at failed
    simp only at failed
    split at failed <;> cases failed
  | loadTexts | createFile | createFileFrom | load => cases atomic
  | _ => cases failed

/-- After every history, while ids last, an operation that is done whole or not at all changes
nothing if it fails, and overrides that cannot be recorded leave those on record as they are. -/
theorem failures_change_nothing (language : Language) (history : List Operation)
    (last : (new language).Along (fun g operation => operation.IdsLast g) history) :
    let g := (new language).after history
    (∀ (operation : Operation) cause, operation.isAtomic = true → operation.IdsLast g →
      (operation.perform g).1 = .error cause → (operation.perform g).2 = g) ∧
    ∀ (o : Overrides) (f : Graph) (method overridden : NodeId) cause,
      (o.tryAdd f method overridden).1 = .error cause → (o.tryAdd f method overridden).2 = o := by
  intro g
  constructor
  · intro operation cause atomic lasts failed
    exact perform_of_error (backed_after last) lasts atomic failed
  · intro o f method overridden cause failed
    exact o.tryAdd_of_error failed

/-- A history that makes a class with a method in it, a pointer former and a call of the method. -/
def callingHistory : List Operation :=
  [.createNode .plainClass, .createNode .method, .addEdge .scopeHasMember (madeId 0) (madeId 1),
    .pointerFormer .pointer, .methodCall (madeId 1)]

/-- The class can be neither called nor be a former above the pointer, the node after the last one
cannot be shown, and the method cannot override the class. -/
theorem failures_change_nothing_calling :
    let g := (new .java).after callingHistory
    let call := (Operation.methodCall (madeId 0)).perform g
    let type := (Operation.buildType [madeId 2, madeId 0]).perform g
    let shown := (Operation.reveal (madeId 4)).perform g
    let o := Overrides.empty.insert (madeId 1) (madeId 1)
    let added := o.tryAdd g (madeId 1) (madeId 0)
    (call.1 = .error (.wrongKind .methodCall .plainClass) ∧ call.2 = g) ∧
      (type.1 = .error (.wrongKind .endType .plainClass) ∧ type.2 = g) ∧
      (shown.1 = .error (.noSuchNode .showNodes 107) ∧ shown.2 = g) ∧
      added.1 = .error (.refused .addOverride (.notMethod (madeId 0) .plainClass)) ∧
        added.2 = o := by
  intro g call type shown o added
  have facts : (new .java).Along (fun g operation => operation.IdsLast g) callingHistory ∧
      call.2.size < idLimit ∧ type.2.size < idLimit ∧
      call.1 = .error (.wrongKind .methodCall .plainClass) ∧
      type.1 = .error (.wrongKind .endType .plainClass) ∧
      shown.1 = .error (.noSuchNode .showNodes 107) ∧
      added.1 = .error (.refused .addOverride (.notMethod (madeId 0) .plainClass)) := by
    decide +kernel
  obtain ⟨last, callRoom, typeRoom, callFails, typeFails, showFails, addFails⟩ := facts
  obtain ⟨kept, keptOverrides⟩ := failures_change_nothing .java callingHistory last
  have callKeeps := kept (.methodCall (madeId 0)) _ rfl (fun _ => callRoom) callFails
  have typeKeeps := kept (.buildType [madeId 2, madeId 0]) _ rfl (fun _ => typeRoom) typeFails
  have showKeeps := kept (.reveal (madeId 4)) _ rfl (fun takes => by cases takes) showFails
  exact ⟨⟨callFails, callKeeps⟩, ⟨typeFails, typeKeeps⟩, ⟨showFails, showKeeps⟩, addFails,
    keptOverrides o g (madeId 1) (madeId 0) _ addFails⟩

/-- A file without a name is refused, and the folder that was made for it stays. -/
example :
    let outcome := (Operation.createFile "a\\").perform (new .java)
    outcome.1 = .error (.refused .createFile .emptyFileName) ∧
      outcome.2.size = (new .java).size + 1 := by
  decide +kernel

/-! ## Histories -/

/-- The operations of a history that succeed, each in the graph that all before it leave. -/
def successes (g : Graph) : List Operation → List Operation
  | [] => []
  | operation :: rest =>
    let (result, h) := operation.perform g
    if result.isOk then operation :: h.successes rest else h.successes rest

/-- A rule that holds after every beginning of a history is obeyed along it. -/
theorem along_of_prefixes {rule : Graph → Operation → Prop} {history : List Operation} {g : Graph}
    (holds : ∀ before operation rest, history = before ++ operation :: rest →
      rule (g.after before) operation) : g.Along rule history := by
  induction history generalizing g with
  | nil => trivial
  | cons operation rest ih =>
    refine ⟨holds [] operation rest rfl, ih fun before next after split => ?_⟩
    exact holds (operation :: before) next after (congrArg (List.cons operation) split)

/-- An operation that succeeds counts among the successes. -/
theorem successes_of_ok {g h : Graph} {operation : Operation} {answer : Answer}
    (done : operation.perform g = (.ok answer, h)) (rest : List Operation) :
    g.successes (operation :: rest) = operation :: h.successes rest := by
  rw [successes, done]
  rfl

/-- An operation that fails is left out of the successes. -/
theorem successes_of_error {g h : Graph} {operation : Operation} {cause : Error}
    (failed : operation.perform g = (.error cause, h)) (rest : List Operation) :
    g.successes (operation :: rest) = h.successes rest := by
  rw [successes, failed]
  rfl

/-- A history in which failures change nothing leaves what its successful operations leave. -/
theorem Along.after_successes {history : List Operation} {g : Graph}
    (quiet : g.Along (fun g operation => ∀ cause, (operation.perform g).1 = .error cause →
      (operation.perform g).2 = g) history) :
    g.after (g.successes history) = g.after history := by
  induction history generalizing g with
  | nil => rfl
  | cons operation rest ih =>
    obtain ⟨first, others⟩ := quiet
    have later := ih others
    rw [after_cons, ← later]
    rcases outcome : operation.perform g with ⟨cause | answer, h⟩
    · obtain rfl : h = g := by
        have same := first cause (by rw [outcome])
        rw [outcome] at same
        exact same
      rw [successes_of_error outcome]
    · rw [successes_of_ok outcome, after_cons, outcome]

/-- Failures may be left out of a history of operations that are done whole or not at all. -/
theorem after_successes (language : Language) (history : List Operation)
    (last : (new language).Along (fun g operation => operation.IdsLast g) history)
    (atomic : ∀ operation ∈ history, operation.isAtomic = true) :
    (new language).after ((new language).successes history) = (new language).after history := by
  apply Along.after_successes
  apply along_of_prefixes
  rintro before operation rest rfl cause failed
  obtain ⟨earlier, lasts, -⟩ := along_append.1 last
  have whole := atomic operation (List.mem_append_right before List.mem_cons_self)
  exact perform_of_error (backed_after earlier) lasts whole failed

end Graph

end CodeGraph
