import CodeGraph.Node.Table
import Mathlib.Data.List.Nodup

/-!
# What a table of nodes holds

A table is known by what it finds under each id. A table is indexed if every node lies at the
position of its own id; then the list of its nodes is the set of all that can be found, each node
once. A table is trim if its last position holds a node, so that its size is one more than the
largest id. Main statements: `find?_update`, `mem_toList_iff` and `nodup_ids`, and that insertions
and changes keep tables indexed and trim.
-/

set_option autoImplicit false

namespace CodeGraph

/-- After a write every position is as it was, except the written one and the new holes before
it. -/
theorem IdTable.getElem?_set {α : Type} (t : IdTable α) (id : NodeId) (value : α) (i : Nat) :
    (t.set id value).items[i]? =
      if i = id.index then some value
      else if i < t.size then t.items[i]?
      else if i < id.index then some t.fill else none := by
  unfold IdTable.set IdTable.grow IdTable.size
  by_cases here : i = id.index
  · subst here
    have reached : id.index <
        (t.items ++ Array.replicate (id.index + 1 - t.items.size) t.fill).size := by
      simp only [Array.size_append, Array.size_replicate]
      omega
    rw [if_pos rfl, Array.getElem?_setIfInBounds_self_of_lt reached]
  · rw [if_neg here, Array.getElem?_setIfInBounds_ne (Ne.symm here), Array.getElem?_append]
    by_cases inside : i < t.items.size
    · simp [inside]
    · rw [if_neg inside, if_neg inside, Array.getElem?_replicate]
      have shift : i - t.items.size < id.index + 1 - t.items.size ↔ i < id.index := by omega
      simp only [shift]

namespace NodeTable

/-- Every node lies at the position of its id. -/
def Indexed (t : NodeTable) : Prop :=
  ∀ (i : Nat) (n : Node), t.items[i]? = some (some n) → n.id.index = i

/-- The last position, if there is one, holds a node. -/
def Trim (t : NodeTable) : Prop :=
  t.size = 0 ∨ ∃ n : Node, t.items[t.size - 1]? = some (some n)

/-- A node is found if it lies at the position of the id. -/
theorem find?_eq_some_iff (t : NodeTable) (id : NodeId) (n : Node) :
    t.find? id = some n ↔ t.items[id.index]? = some (some n) := by
  unfold find? IdTable.get IdTable.get? table
  cases h : t.items[id.index]? with
  | none => simp
  | some n? => simp

/-- Ids of nodes lie within the table. -/
theorem index_lt_size {t : NodeTable} {id : NodeId} {n : Node} (found : t.find? id = some n) :
    id.index < t.size := by
  rw [find?_eq_some_iff] at found
  exact (Array.getElem?_eq_some_iff.1 found).1

/-- Nothing is found beyond the table. -/
theorem find?_of_size_le {t : NodeTable} {id : NodeId} (beyond : t.size ≤ id.index) :
    t.find? id = none := by
  by_contra found
  obtain ⟨n, found⟩ := Option.ne_none_iff_exists'.1 found
  have inside := index_lt_size found
  omega

/-- Nothing is found in an empty table. -/
@[simp] theorem find?_empty (id : NodeId) : empty.find? id = none :=
  find?_of_size_le (Nat.zero_le _)

/-- Inserting a node changes no other position. -/
theorem find?_insert (t : NodeTable) (id other : NodeId) (n : Node) :
    (t.insert id n).find? other = if other = id then some n else t.find? other := by
  by_cases same : other = id
  · subst same
    rw [if_pos rfl, find?_insert_same]
  · rw [if_neg same, find?_insert_other t same]

/-- What a change of one node makes a table find. -/
theorem find?_update (t : NodeTable) (id other : NodeId) (f : Node → Node) :
    (t.update id f).find? other = if other = id then (t.find? id).map f else t.find? other := by
  unfold update
  cases found : t.find? id with
  | none =>
    by_cases same : other = id
    · subst same
      simp [found]
    · simp [same]
  | some n =>
    rw [find?_insert]
    rfl

/-- Changing a node changes no other one. -/
@[simp] theorem find?_update_other (t : NodeTable) {id other : NodeId} (different : other ≠ id)
    (f : Node → Node) : (t.update id f).find? other = t.find? other := by
  rw [find?_update, if_neg different]

/-- A node that was changed is found as it is now. -/
@[simp] theorem find?_update_same (t : NodeTable) (id : NodeId) (f : Node → Node) :
    (t.update id f).find? id = (t.find? id).map f := by
  rw [find?_update, if_pos rfl]

/-- Who is found after a change was found before it, changed or not. -/
theorem exists_of_find?_update {t : NodeTable} {id other : NodeId} {f : Node → Node} {n : Node}
    (found : (t.update id f).find? other = some n) :
    ∃ old, t.find? other = some old ∧ n = if other = id then f old else old := by
  rw [find?_update] at found
  split at found
  · next same =>
    obtain ⟨old, was, rfl⟩ := Option.map_eq_some_iff.1 found
    exact ⟨old, same ▸ was, (if_pos same).symm⟩
  · next different => exact ⟨n, found, (if_neg different).symm⟩

/-- Changing a node keeps the size of a table. -/
@[simp] theorem size_update (t : NodeTable) (id : NodeId) (f : Node → Node) :
    (t.update id f).size = t.size := by
  unfold update
  cases found : t.find? id with
  | none => rfl
  | some n =>
    have inside := index_lt_size found
    simp only [size_insert]
    omega

/-- Changing a node that exists is inserting the changed one. -/
theorem update_eq_insert {t : NodeTable} {id : NodeId} {n : Node} (found : t.find? id = some n)
    (f : Node → Node) : t.update id f = t.insert id (f n) := by
  unfold update
  rw [found]

/-- Changing a node that does not exist does nothing. -/
theorem update_eq_self {t : NodeTable} {id : NodeId} (hole : t.find? id = none)
    (f : Node → Node) : t.update id f = t := by
  unfold update
  rw [hole]

/-- A node lies at the position of its id in an indexed table. -/
theorem Indexed.id_eq {t : NodeTable} (indexed : t.Indexed) {id : NodeId} {n : Node}
    (found : t.find? id = some n) : n.id = id := by
  rw [find?_eq_some_iff] at found
  exact NodeId.index_inj (indexed _ _ found)

/-- The nodes of an indexed table are those that can be found. -/
theorem Indexed.mem_toList_iff {t : NodeTable} (indexed : t.Indexed) (n : Node) :
    n ∈ t.toList ↔ t.find? n.id = some n := by
  unfold toList
  rw [List.mem_filterMap, find?_eq_some_iff]
  constructor
  · rintro ⟨n?, mem, rfl⟩
    rw [Array.mem_toList_iff, Array.mem_iff_getElem?] at mem
    obtain ⟨i, at_i⟩ := mem
    have position := indexed i n at_i
    rw [position]
    exact at_i
  · intro found
    refine ⟨some n, ?_, rfl⟩
    rw [Array.mem_toList_iff]
    exact Array.mem_of_getElem? found

/-- The nodes of an indexed table are listed by increasing ids. -/
theorem Indexed.sorted_toList {t : NodeTable} (indexed : t.Indexed) :
    t.toList.Pairwise fun m n => m.id.index < n.id.index := by
  have ordered : t.items.toList.Pairwise fun a b =>
      ∀ m n : Node, a = some m → b = some n → m.id.index < n.id.index := by
    rw [List.pairwise_iff_getElem]
    intro i j hi hj before m n at_i at_j
    rw [Array.length_toList] at hi hj
    rw [Array.getElem_toList] at at_i at_j
    have position_i := indexed i m (by rw [Array.getElem?_eq_getElem hi, at_i])
    have position_j := indexed j n (by rw [Array.getElem?_eq_getElem hj, at_j])
    omega
  unfold toList
  rw [List.pairwise_filterMap]
  exact ordered.imp fun before m hm n hn => before m n hm hn

/-- No two nodes of an indexed table have one id. -/
theorem Indexed.nodup_ids {t : NodeTable} (indexed : t.Indexed) : (t.toList.map Node.id).Nodup := by
  unfold List.Nodup
  rw [List.pairwise_map]
  refine indexed.sorted_toList.imp fun before same => ?_
  rw [same] at before
  exact Nat.lt_irrefl _ before

/-- There are not more nodes than positions. -/
theorem length_toList_le (t : NodeTable) : t.toList.length ≤ t.size := by
  unfold toList size
  rw [← Array.length_toList]
  exact List.length_filterMap_le _ _

/-- A node that is put at its id lies at the position of its id. -/
theorem Indexed.insert {t : NodeTable} (indexed : t.Indexed) (n : Node) :
    (t.insert n.id n).Indexed := by
  intro i m found
  unfold NodeTable.insert at found
  rw [IdTable.getElem?_set] at found
  by_cases here : i = n.id.index
  · rw [if_pos here] at found
    cases found
    exact here.symm
  · rw [if_neg here] at found
    split at found
    · exact indexed i m found
    · split at found <;> cases found

/-- A change that keeps the id of a node keeps every node at its position. -/
theorem Indexed.update {t : NodeTable} (indexed : t.Indexed) (id : NodeId) {f : Node → Node}
    (keeps : ∀ n, t.find? id = some n → (f n).id = n.id) : (t.update id f).Indexed := by
  cases found : t.find? id with
  | none =>
    rw [update_eq_self found]
    exact indexed
  | some n =>
    have own : (f n).id = id := (keeps n found).trans (indexed.id_eq found)
    rw [update_eq_insert found, ← own]
    exact indexed.insert (f n)

/-- In an empty table no node is out of place. -/
theorem indexed_empty : empty.Indexed := by
  intro i n found
  simp [empty] at found

/-- Inserting a node leaves a node at the last position. -/
theorem Trim.insert {t : NodeTable} (trim : t.Trim) (id : NodeId) (n : Node) :
    (t.insert id n).Trim := by
  right
  rw [size_insert]
  have entry : ∀ i, (t.insert id n).items[i]? =
      if i = id.index then some (some n)
      else if i < t.size then t.items[i]?
      else if i < id.index then some none else none :=
    fun i => IdTable.getElem?_set t.table id (some n) i
  rw [entry]
  by_cases last : t.size ≤ id.index + 1
  · refine ⟨n, if_pos ?_⟩
    omega
  · -- the last position is an old one, and it holds a node already
    rcases trim with nothing | ⟨m, held⟩
    · omega
    · refine ⟨m, ?_⟩
      have position : max t.size (id.index + 1) - 1 = t.size - 1 := by omega
      rw [position, if_neg (by omega), if_pos (by omega)]
      exact held

/-- Changing a node leaves a node at the last position. -/
theorem Trim.update {t : NodeTable} (trim : t.Trim) (id : NodeId) (f : Node → Node) :
    (t.update id f).Trim := by
  cases found : t.find? id with
  | none =>
    rw [update_eq_self found]
    exact trim
  | some n =>
    rw [update_eq_insert found]
    exact trim.insert id (f n)

/-- A trim table is no larger than one that has nodes at all of its ids. -/
theorem Trim.size_le {t u : NodeTable} (trim : t.Trim) (indexed : t.Indexed)
    (more : ∀ id, (t.find? id).isSome = true → (u.find? id).isSome = true) : t.size ≤ u.size := by
  rcases trim with nothing | ⟨n, held⟩
  · omega
  · have position := indexed _ n held
    have found : t.find? n.id = some n := by
      rw [find?_eq_some_iff, position]
      exact held
    obtain ⟨m, there⟩ := Option.isSome_iff_exists.1 (more n.id (by rw [found]; rfl))
    have inside := index_lt_size there
    omega

/-- An empty table has no last position. -/
theorem trim_empty : empty.Trim :=
  Or.inl rfl

end NodeTable

end CodeGraph
