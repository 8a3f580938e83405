import CodeGraph.Proofs.FilterFiles
import CodeGraph.Proofs.History

/-!
# Histories of a filter

A filter is resized and reset, its states are set one by one or for all that containment reaches in
some table of nodes, and stored filters take its place. None of that filters position zero, which
belongs to no node. So a filter that has any such history is read back from its bytes without a loss,
although its reader does not keep what is stored for position zero. What can be read is told by the
bytes alone, and bytes that cannot be read change nothing. Main statement:
`Filter.stored_filters_after`.
-/

set_option autoImplicit false

namespace CodeGraph

namespace Filter

/-- Something that is done to a filter. -/
inductive Change
  | resize (size : Nat)
  | reset
  | set (id : NodeId) (state : FilterState)
  | hide (nodes : NodeTable) (id : NodeId)
  | reveal (nodes : NodeTable) (id : NodeId)
  | load (graphSize : Nat) (input : Bytes)

/-- The filter after a change, and whether the change succeeded. -/
def Change.perform (f : Filter) : Change → Filter × Except Error Unit
  | .resize size => (f.resize size, .ok ())
  | .reset => (f.reset, .ok ())
  | .set id state => (f.set id state, .ok ())
  | .hide nodes id => f.hide nodes id
  | .reveal nodes id => f.reveal nodes id
  | .load graphSize input => f.load graphSize input

/-- The filter after several changes, failed ones included. -/
def after (f : Filter) (changes : List Change) : Filter :=
  changes.foldl (fun f change => (change.perform f).1) f

variable {f : Filter}

/-! ## What every change keeps -/

/-- Hiding a node sets states, if it succeeds. -/
theorem Clean.hide (clean : f.Clean) (nodes : NodeTable) (id : NodeId) :
    (f.hide nodes id).1.Clean := by
  unfold Filter.hide setSubtree
  split
  · exact clean
  · exact clean.setAll _ _

/-- Showing a node sets states, whether or not it succeeds. -/
theorem Clean.reveal (clean : f.Clean) (nodes : NodeTable) (id : NodeId) :
    (f.reveal nodes id).1.Clean := by
  cases found : nodes.find? id with
  | none =>
    rw [reveal_of_missing found]
    exact clean
  | some n =>
    obtain ⟨above, shown, -⟩ := exists_showAncestors nodes (nodes.size + 1) n.parentId?
      (f.setAll (nodes.subtree id) .notFiltered)
    rw [reveal_of_find? found, shown]
    exact (clean.setAll _ _).setAll _ _

/-- What takes the place of a filter is clean, and so is a filter that stays. -/
theorem Clean.load (clean : f.Clean) (graphSize : Nat) (input : Bytes) :
    (f.load graphSize input).1.Clean := by
  rw [load_eq]
  cases loaded : stored graphSize input with
  | error cause => exact clean
  | ok h => exact (size_of_stored loaded).2

/-- Every change keeps a filter clean. -/
theorem Clean.perform (clean : f.Clean) (change : Change) : (change.perform f).1.Clean := by
  cases change with
  | resize size => exact clean.resize size
  | reset => exact clean_reset f
  | set id state => exact clean.set id state
  | hide nodes id => exact clean.hide nodes id
  | reveal nodes id => exact clean.reveal nodes id
  | load graphSize input => exact clean.load graphSize input

/-- A filter is clean after any changes. -/
theorem clean_after (changes : List Change) : (empty.after changes).Clean :=
  List.foldlRecOn changes _ clean_empty fun _ clean change _ => clean.perform change

/-! ## What can be read -/

/-- Bytes start with a stored filter for a graph: the magic, the size of the graph as a word, and as
many bytes, each of which is zero or one. -/
def Stored (graphSize : Nat) (input : Bytes) : Prop :=
  ∃ (size : UInt32) (states rest : Bytes), size.toNat = graphSize ∧ states.length = graphSize ∧
    (∀ b ∈ states, b = 0 ∨ b = 1) ∧ input = magic ++ Codec.u32.encode size ++ states ++ rest

/-- Bytes that are zero or one are those of states. -/
theorem exists_map_stateByte {bytes : Bytes} (known : ∀ b ∈ bytes, b = 0 ∨ b = 1) :
    ∃ states : List FilterState, bytes = states.map stateByte := by
  induction bytes with
  | nil => exact ⟨[], rfl⟩
  | cons b bytes ih =>
    obtain ⟨first, others⟩ := List.forall_mem_cons.1 known
    obtain ⟨states, rfl⟩ := ih others
    rcases first with rfl | rfl
    · exact ⟨.notFiltered :: states, rfl⟩
    · exact ⟨.filtered :: states, rfl⟩

/-- There is a filter to take exactly if the bytes start with a stored one. -/
theorem stored_isOk_iff (graphSize : Nat) (input : Bytes) :
    (∃ h, stored graphSize input = .ok h) ↔ Stored graphSize input := by
  have taken : (∃ h, stored graphSize input = .ok h) ↔
      ∃ h rest, read graphSize input = .ok (h, rest) := by
    unfold stored
    cases read graphSize input with
    | error cause => simp [Except.map]
    | ok result => simp [Except.map, Prod.ext_iff]
  rw [taken]
  constructor
  · rintro ⟨h, rest, result⟩
    obtain ⟨states, -, length, small, rfl⟩ := read_eq_ok_iff.1 result
    have size : (UInt32.ofNat graphSize).toNat = graphSize := UInt32.toNat_ofNat_of_lt small
    refine ⟨UInt32.ofNat graphSize, states.map stateByte, rest, size, ?_, ?_, ?_⟩
    · rw [List.length_map, length]
    · intro b mem
      obtain ⟨state, -, rfl⟩ := List.mem_map.1 mem
      cases state with
      | notFiltered => exact Or.inl rfl
      | filtered => exact Or.inr rfl
    · simp only [Codec.u32, size, List.append_assoc]
  · rintro ⟨size, bytes, rest, rfl, length, known, rfl⟩
    obtain ⟨states, rfl⟩ := exists_map_stateByte known
    rw [List.length_map] at length
    refine ⟨ofStates states, rest, read_eq_ok_iff.2 ⟨states, rfl, length, size.toNat_lt, ?_⟩⟩
    simp only [Codec.u32, List.append_assoc]

/-- A filter with any history is read back from its bytes, for a graph of its own size and in place of
any filter, if its size can be written. A stored filter is read exactly if the bytes start with one
for the graph, and bytes that cannot be read leave the filter as it is. -/
theorem stored_filters_after (changes : List Change) :
    let t := empty.after changes
    (t.size < UInt32.size → ∀ f : Filter, (Change.load t.size t.save).perform f = (t, .ok ())) ∧
    ∀ (f : Filter) (graphSize : Nat) (input : Bytes),
      let loaded := (Change.load graphSize input).perform f
      (loaded.2 = .ok () ↔ Stored graphSize input) ∧ (loaded.2 ≠ .ok () → loaded.1 = f) := by
  intro t
  constructor
  · intro small f
    have restored := stored_save (clean_after changes) small
    unfold Change.perform
    dsimp only
    rw [load_eq, restored]
    rfl
  · intro f graphSize input loaded
    have outcome : loaded = f.settle (stored graphSize input) := f.load_eq graphSize input
    rw [← stored_isOk_iff, outcome]
    cases stored graphSize input with
    | error cause => simp [settle]
    | ok h => simp [settle]

/-- Changes that read a filter whose position zero is stored as filtered, set a state beyond it, and fail
to hide a node and to read a filter of another size. -/
def readingChanges : List Change :=
  [.load 3 (magic ++ wordBytes 4 3 ++ [1, 1, 1]), .set (Graph.madeId 0) .filtered,
    .hide .empty (Graph.madeId 1), .load 3 (magic ++ wordBytes 4 2 ++ [1, 1])]

/-- What was stored for position zero is gone, and all else is read back; a byte that is no state is
refused. -/
theorem stored_filters_after_reading :
    let t := empty.after readingChanges
    let f := empty.resize 7
    (t.size = 104 ∧ t.states[0]? = some .notFiltered ∧ t.isFiltered Graph.firstId = true ∧
      t.isFiltered (Graph.madeId 0) = true) ∧
      (Change.load t.size t.save).perform f = (t, .ok ()) ∧
      ¬ Stored 1 (magic ++ wordBytes 4 1 ++ [2]) ∧
      ((Change.load 1 (magic ++ wordBytes 4 1 ++ [2])).perform f).1 = f := by
  intro t f
  have facts : t.size = 104 ∧ t.states[0]? = some .notFiltered ∧
      t.isFiltered Graph.firstId = true ∧ t.isFiltered (Graph.madeId 0) = true ∧
      ((Change.load 1 (magic ++ wordBytes 4 1 ++ [2])).perform f).2 ≠ .ok () := by
    decide +kernel
  obtain ⟨size, zero, low, high, refused⟩ := facts
  obtain ⟨restored, accepted⟩ := stored_filters_after readingChanges
  have small : t.size < UInt32.size := by
    rw [size]
    decide
  obtain ⟨exactly, kept⟩ := accepted f 1 (magic ++ wordBytes 4 1 ++ [2])
  exact ⟨⟨size, zero, low, high⟩, restored small f, fun stored => refused (exactly.2 stored),
    kept refused⟩

end Filter

end CodeGraph
