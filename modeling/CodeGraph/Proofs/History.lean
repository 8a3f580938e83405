import CodeGraph.Proofs.Edits

/-!
# Histories

A history is a list of operations. What a history leaves is known from what each of its operations
does: an invariant that holds at the start, and that every operation keeps which obeys a rule,
holds after every history whose operations all obey that rule when they are performed
(`Along.preserves`). An invariant of edits that holds without nodes is one of operations, loading
apart (`preserves_perform`), and holds in a new graph (`preserves_new`). If edits keep it only while
there are unused ids, it holds after every history that leaves one (`Along.preserves_while_room`).
-/

set_option autoImplicit false

namespace CodeGraph

namespace Operation

/-- Whether an operation loads a graph from a file. -/
def isLoad : Operation → Bool
  | .load _ _ => true
  | _ => false

end Operation

namespace Graph

/-- The numbers of new nodes do not wrap around to zero. -/
theorem madeId_ne_zero (k : UInt8) : 103 + k.toUInt32 ≠ 0 := by
  intro zero
  have small := k.toNat_lt
  have sum := congrArg UInt32.toNat zero
  simp only [UInt32.toNat_add, UInt8.toNat_toUInt32] at sum
  change (103 + k.toNat) % 4294967296 = 0 at sum
  omega

/-- The id of the node that a new graph makes after `k` others. -/
def madeId (k : UInt8) : NodeId :=
  ⟨103 + k.toUInt32, madeId_ne_zero k⟩

/-- Every operation of a history obeys a rule in the graph that it is performed on. -/
def Along (rule : Graph → Operation → Prop) : Graph → List Operation → Prop
  | _, [] => True
  | g, operation :: rest => rule g operation ∧ (operation.perform g).2.Along rule rest

/-- Whether a history obeys a rule that can be checked can be checked. -/
instance decidableAlong {rule : Graph → Operation → Prop} [∀ g operation, Decidable (rule g operation)] :
    ∀ (g : Graph) (history : List Operation), Decidable (g.Along rule history)
  | _, [] => isTrue trivial
  | g, operation :: rest =>
    have : Decidable ((operation.perform g).2.Along rule rest) := decidableAlong _ rest
    inferInstanceAs (Decidable (rule g operation ∧ (operation.perform g).2.Along rule rest))

/-- A history starts with its first operation. -/
theorem after_cons (g : Graph) (operation : Operation) (rest : List Operation) :
    g.after (operation :: rest) = (operation.perform g).2.after rest :=
  rfl

/-- One history after another is one history. -/
theorem after_append (g : Graph) (first second : List Operation) :
    g.after (first ++ second) = (g.after first).after second :=
  List.foldl_append

/-- A rule is obeyed along two histories if it is obeyed along both in turn. -/
theorem along_append {rule : Graph → Operation → Prop} {first second : List Operation} {g : Graph} :
    g.Along rule (first ++ second) ↔ g.Along rule first ∧ (g.after first).Along rule second := by
  induction first generalizing g with
  | nil => exact (iff_of_eq (true_and _)).symm
  | cons operation first ih => exact (and_congr_right fun _ => ih).trans and_assoc.symm

/-- An invariant that operations keep is kept along histories. -/
theorem Along.preserves {rule : Graph → Operation → Prop} {Inv : Graph → Prop}
    (step : ∀ g operation, rule g operation → Inv g → Inv (operation.perform g).2)
    {history : List Operation} {g : Graph} (along : g.Along rule history) (start : Inv g) :
    Inv (g.after history) := by
  induction history generalizing g with
  | nil => exact start
  | cons operation rest ih =>
    rw [after_cons]
    exact ih along.2 (step g operation along.1 start)

/-- A weaker rule is obeyed as well. -/
theorem Along.mono {rule weaker : Graph → Operation → Prop}
    (implies : ∀ g operation, rule g operation → weaker g operation) {history : List Operation}
    {g : Graph} (along : g.Along rule history) : g.Along weaker history := by
  induction history generalizing g with
  | nil => trivial
  | cons operation rest ih => exact ⟨implies g operation along.1, ih along.2⟩

/-- Two rules are obeyed together if each is obeyed. -/
theorem Along.and {rule other : Graph → Operation → Prop} {history : List Operation} {g : Graph}
    (along : g.Along rule history) (too : g.Along other history) :
    g.Along (fun g operation => rule g operation ∧ other g operation) history := by
  induction history generalizing g with
  | nil => trivial
  | cons operation rest ih => exact ⟨⟨along.1, too.1⟩, ih along.2 too.2⟩

/-- A history of operations that obey a rule in every graph obeys it. -/
theorem along_of_forall {rule : Graph → Operation → Prop} {history : List Operation}
    (all : ∀ operation ∈ history, ∀ g, rule g operation) (g : Graph) : g.Along rule history := by
  induction history generalizing g with
  | nil => trivial
  | cons operation rest ih =>
    obtain ⟨first, others⟩ := List.forall_mem_cons.1 all
    exact ⟨first g, ih others _⟩

/-- An operation that does not start a graph over never makes it smaller. -/
theorem size_le_of_isEdit {g : Graph} {operation : Operation} (isEdit : operation.IsEdit) :
    g.size ≤ (operation.perform g).2.size := by
  have described : operation.Describes (fun _ _ => True) g :=
    operation.describes_of_forall (fun _ _ => trivial) g
  exact (edits_perform (fun _ _ _ => trivial) g operation isEdit described).size_le

/-- A history of edits never makes a graph smaller. -/
theorem Along.size_le_of_isEdit {rule : Graph → Operation → Prop}
    (isEdit : ∀ (g : Graph) (operation : Operation), rule g operation → operation.IsEdit)
    {history : List Operation} {g : Graph} (along : g.Along rule history) :
    g.size ≤ (g.after history).size := by
  have step : ∀ (h : Graph) (operation : Operation), rule h operation → g.size ≤ h.size →
      g.size ≤ (operation.perform h).2.size :=
    fun h operation obeys le =>
      Nat.le_trans le (Graph.size_le_of_isEdit (isEdit h operation obeys))
  exact along.preserves step (Nat.le_refl _)

section Edits

variable {rule : NodeKind → Attributes → Prop} {Inv : Graph → Prop}

/-- An operation keeps what edits keep and what holds without nodes. Loading is looked at on its
own. -/
theorem preserves_perform (allowed : ∀ kind a, Attributes.Suits kind a → rule kind a)
    (edits : ∀ g h, Edit rule g h → Inv g → Inv h)
    (clears : ∀ language filterOn, Inv (empty language filterOn)) {g : Graph}
    {operation : Operation}
    (loads : ∀ headers input, operation = .load headers input → Inv (operation.perform g).2)
    (describes : operation.Describes rule g) (inv : Inv g) : Inv (operation.perform g).2 := by
  by_cases isEdit : operation.IsEdit
  · exact (edits_perform allowed g operation isEdit describes).preserves edits inv
  · cases operation with
    | clear => exact clears g.language g.filterOn
    | load headers input => exact loads headers input rfl
    | _ => exact absurd trivial isEdit

/-- A new graph has what edits keep and what holds without nodes. -/
theorem preserves_new (edits : ∀ g h, Edit rule g h → Inv g → Inv h)
    (clears : ∀ language filterOn, Inv (empty language filterOn)) (language : Language) :
    Inv (new language) :=
  (edits_new language).preserves edits (clears language true)

/-- An invariant that edits keep while ids last, and that holds without nodes, holds after every
history that leaves an unused id, if loading keeps it on the same condition. -/
theorem Along.preserves_while_room (allowed : ∀ kind a, Attributes.Suits kind a → rule kind a)
    (edits : ∀ g h, Edit rule g h → g.size < idLimit → Inv g → Inv h)
    (clears : ∀ language filterOn, Inv (empty language filterOn))
    {obeys : Graph → Operation → Prop}
    (describes : ∀ g operation, obeys g operation → operation.Describes rule g)
    (loads : ∀ g headers input, obeys g (.load headers input) → (g.size < idLimit → Inv g) →
      (g.load headers input).2.2.size < idLimit → Inv (g.load headers input).2.2)
    {language : Language} {history : List Operation} (along : (new language).Along obeys history)
    (room : ((new language).after history).size < idLimit) :
    Inv ((new language).after history) := by
  let InvWhile : Graph → Prop := fun g => g.size < idLimit → Inv g
  have edit : ∀ g h, Edit rule g h → InvWhile g → InvWhile h := Edit.while_room edits
  have clear : ∀ language filterOn, InvWhile (empty language filterOn) :=
    fun language filterOn _ => clears language filterOn
  have step : ∀ g operation, obeys g operation → InvWhile g → InvWhile (operation.perform g).2 := by
    intro g operation allowedHere inv
    refine preserves_perform allowed edit clear ?_ (describes g operation allowedHere) inv
    rintro headers input rfl
    exact loads g headers input allowedHere inv
  exact along.preserves step (preserves_new edit clear language) room

end Edits

end Graph

end CodeGraph
