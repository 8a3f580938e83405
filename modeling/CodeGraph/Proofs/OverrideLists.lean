import CodeGraph.Header.Overrides
import CodeGraph.Proofs.Texts

/-!
# Overrides as lists

What is kept of a method that overrides any has two shapes. They are a way to keep lists: the overrides
go along with a map that has a list for each method, in which one more override is one more entry at
the end of a list. All that the overrides answer can be read off that map, and since several methods
are kept only where there are at least two, the shapes can be read off it as well. Main statements:
`Overrides.lists_insert`, `Overrides.get_eq`, `Overrides.count_eq`, `Overrides.size_lists` and
`Overrides.WellFormed.find?_eq`.
-/

set_option autoImplicit false

namespace CodeGraph

/-- Ids are ordered as their numbers are. -/
instance : IsStrictTotalOrder NodeId (· < ·) where
  trichotomous a b notBelow notAbove := by
    have below : ¬ a.raw < b.raw := notBelow
    have above : ¬ b.raw < a.raw := notAbove
    rw [UInt32.lt_iff_toNat_lt] at below above
    have same : a.raw.toNat = b.raw.toNat := by omega
    exact NodeId.eq_of_raw (UInt32.toNat_inj.1 same)
  irrefl a := UInt32.lt_irrefl a.raw
  trans a b c := fun (first : a.raw < b.raw) (second : b.raw < c.raw) =>
    UInt32.lt_trans first second

/-! ## Maps with other values -/

namespace SortedMap

variable {κ α β : Type}

/-- The map with every value replaced, under the same keys. -/
def mapValues (f : α → β) (m : SortedMap κ α) : SortedMap κ β :=
  ⟨m.entries.map fun entry => (entry.1, f entry.2)⟩

/-- A key leads to the replaced value. -/
theorem find?_mapValues [DecidableEq κ] (f : α → β) (m : SortedMap κ α) (key : κ) :
    (m.mapValues f).find? key = (m.find? key).map f := by
  obtain ⟨entries⟩ := m
  unfold mapValues find?
  simp only
  induction entries with
  | nil => rfl
  | cons entry rest ih =>
    rw [List.map_cons, lookup, lookup, ih]
    split <;> rfl

/-- A value is replaced before it is entered or after it. -/
theorem mapValues_insert [DecidableEq κ] [LT κ] [DecidableLT κ] (f : α → β) (m : SortedMap κ α)
    (key : κ) (value : α) :
    (m.insert key value).mapValues f = (m.mapValues f).insert key (f value) := by
  obtain ⟨entries⟩ := m
  unfold mapValues insert
  simp only [mk.injEq]
  induction entries with
  | nil => rfl
  | cons entry rest ih =>
    rw [List.map_cons, insertEntry, insertEntry]
    split
    · rfl
    · split
      · rfl
      · rw [List.map_cons, ih]

end SortedMap

/-! ## The two shapes -/

namespace Overridden

/-- The methods that are kept in either shape. -/
def toList : Overridden → List NodeId
  | .single id => [id]
  | .multi ids => ids

/-- Several methods are at least two. -/
def Tight : Overridden → Prop
  | .single _ => True
  | .multi ids => 2 ≤ ids.length

/-- The shape in which a list is kept, if there is anything in it. -/
def ofList? : List NodeId → Option Overridden
  | [] => none
  | [id] => some (.single id)
  | first :: second :: ids => some (.multi (first :: second :: ids))

/-- A shape with as many methods as it is for is that of its list. -/
theorem Tight.ofList?_toList {kept : Overridden} (tight : kept.Tight) :
    ofList? kept.toList = some kept := by
  cases kept with
  | single id => rfl
  | multi ids =>
    have several : 2 ≤ ids.length := tight
    match ids, several with
    | first :: second :: ids, _ => rfl

end Overridden

/-! ## The lists -/

namespace Overrides

variable {o p : Overrides}

/-- The list of each method that overrides any. -/
def lists (o : Overrides) : SortedMap NodeId (List NodeId) :=
  o.methods.mapValues Overridden.toList

/-- There is a list for each method that overrides any. -/
theorem size_lists (o : Overrides) : o.lists.size = o.size :=
  List.length_map _

/-- What a method overrides is its list, if it has one. -/
theorem get_eq (o : Overrides) (method : NodeId) :
    o.get method = (o.lists.find? method).getD [] := by
  unfold get lists
  rw [SortedMap.find?_mapValues]
  cases o.methods.find? method with
  | none => rfl
  | some kept => cases kept <;> rfl

/-- The number of methods that a method overrides is the length of its list. -/
theorem count_eq (o : Overrides) (method : NodeId) : o.count method = (o.get method).length := by
  unfold count get
  cases o.methods.find? method with
  | none => rfl
  | some kept => cases kept <;> rfl

/-- One more override is one more entry at the end of a list, whatever shape the list is kept in. -/
theorem lists_insert (o : Overrides) (method overridden : NodeId) :
    (o.insert method overridden).lists =
      o.lists.insert method (o.get method ++ [overridden]) := by
  unfold insert get lists
  cases o.methods.find? method with
  | none => exact SortedMap.mapValues_insert _ _ _ _
  | some kept =>
    cases kept with
    | single first => exact SortedMap.mapValues_insert _ _ _ _
    | multi ids => exact SortedMap.mapValues_insert _ _ _ _

/-- One more override is listed last for its method, and changes nothing for the others. -/
theorem get_insert (o : Overrides) (method overridden other : NodeId) :
    (o.insert method overridden).get other =
      o.get other ++ if method = other then [overridden] else [] := by
  rw [get_eq, lists_insert]
  split
  · next same =>
    subst same
    rw [SortedMap.find?_insert_same]
    rfl
  · next different =>
    rw [SortedMap.find?_insert_other _ (Ne.symm different), ← get_eq, List.append_nil]

/-! ## The shapes of the lists -/

/-- The methods stand in order, and each of them is kept in the shape for what it overrides. -/
structure WellFormed (o : Overrides) : Prop where
  sorted : o.methods.Sorted
  tight : ∀ entry ∈ o.methods.entries, entry.2.Tight

/-- Nothing has been told yet. -/
theorem wellFormed_empty : empty.WellFormed :=
  ⟨SortedMap.sorted_empty, fun _ mem => absurd mem List.not_mem_nil⟩

/-- The second method that is told makes a list of two, and every later one a longer list. -/
theorem WellFormed.insert (wf : o.WellFormed) (method overridden : NodeId) :
    (o.insert method overridden).WellFormed := by
  have entered : ∀ kept : Overridden, kept.Tight →
      (⟨o.methods.insert method kept⟩ : Overrides).WellFormed := by
    intro kept tight
    refine ⟨wf.sorted.insert _ _, fun entry mem => ?_⟩
    rcases SortedMap.mem_insert mem with rfl | old
    · exact tight
    · exact wf.tight entry old
  unfold Overrides.insert
  split
  · exact entered (.single overridden) trivial
  · next first _ => exact entered (.multi [first, overridden]) (Nat.le_refl 2)
  · next ids found =>
    have several : 2 ≤ ids.length := wf.tight _ (SortedMap.mem_of_find? found)
    refine entered (.multi (ids ++ [overridden])) ?_
    change 2 ≤ (ids ++ [overridden]).length
    rw [List.length_append]
    omega

/-- What is kept of a method is its list, in the shape for it. -/
theorem WellFormed.find?_eq (wf : o.WellFormed) (method : NodeId) :
    o.methods.find? method = Overridden.ofList? (o.get method) := by
  rw [get_eq, lists, SortedMap.find?_mapValues]
  cases found : o.methods.find? method with
  | none => rfl
  | some kept => exact (wf.tight _ (SortedMap.mem_of_find? found)).ofList?_toList.symm

/-- Overrides with the same lists are the same. -/
theorem WellFormed.ext (wf : o.WellFormed) (wf' : p.WellFormed)
    (same : ∀ method, o.get method = p.get method) : o = p := by
  have kept : ∀ method, o.methods.find? method = p.methods.find? method := by
    intro method
    rw [wf.find?_eq, wf'.find?_eq, same]
  obtain ⟨methods⟩ := o
  obtain ⟨methods'⟩ := p
  exact congrArg Overrides.mk (wf.sorted.ext wf'.sorted kept)

end Overrides

end CodeGraph
