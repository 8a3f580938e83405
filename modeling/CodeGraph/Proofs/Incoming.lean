import CodeGraph.Proofs.History
import CodeGraph.Proofs.Structure
import Mathlib.Data.List.Count
import Mathlib.Data.List.Perm.Basic

/-!
# The index of incoming edges is the inverse of the edges

An index inverts a table of nodes if it lists every source of an edge as often as that source has
the edge, for the edge kinds that it records, lists nothing else, and knows every node. Main
statements: an index that is built inverts the nodes (`inverts_build`), and so does one that is
kept up to date (`Edit.indexInverts`, in the module on the upkeep of the index); hence both list the
same sources, in some order.
-/

set_option autoImplicit false

namespace CodeGraph

/-! ## Counting edges -/

/-- The number of edges of a kind from a node to an id. -/
def Node.edgesTo (n : Node) (e : EdgeKind) (target : NodeId) : Nat :=
  ((n.targets e).map Target.id).count target

/-- The number of edges of a kind between two ids. -/
def NodeTable.edgesBetween (t : NodeTable) (e : EdgeKind) (source target : NodeId) : Nat :=
  match t.find? source with
  | some n => n.edgesTo e target
  | none => 0

namespace Node

/-- Changing edges of one kind keeps the number of those of another. -/
theorem edgesTo_mapTargets_other (n : Node) {e other : EdgeKind} (different : other ≠ e)
    (f : List Target → List Target) (target : NodeId) :
    (n.mapTargets e f).edgesTo other target = n.edgesTo other target := by
  unfold edgesTo
  rw [targets_mapTargets_other n different]

/-- An added edge counts, and the one it replaces does no longer. -/
theorem edgesTo_addTarget {n : Node} {e : EdgeKind} (has : e ∈ n.edgeKinds) (t : Target)
    (target : NodeId) :
    (n.addTarget e t).edgesTo e target =
      n.edgesTo e target - (if (n.replaced? e).map Target.id = some target then 1 else 0) +
        if t.id = target then 1 else 0 := by
  unfold edgesTo addTarget replaced?
  rw [targets_mapTargets_same has, List.map_append, List.count_append, List.map_singleton,
    List.count_singleton]
  congr 1
  · by_cases single : e.isSingle = true
    · rw [if_pos single, if_pos single]
      -- a slot for one edge that holds edges gives up its last one
      rcases List.eq_nil_or_concat (n.targets e) with nothing | ⟨others, last, shape⟩
      · simp [nothing]
      · rw [shape, List.concat_eq_append]
        simp [List.count_singleton]
    · rw [if_neg single, if_neg single]
      rfl
  · simp only [beq_iff_eq]

/-- A removed edge counts no longer. -/
theorem edgesTo_removeTarget {n : Node} {e : EdgeKind} (has : e ∈ n.edgeKinds)
    (removed target : NodeId) :
    (n.removeTarget e removed).edgesTo e target =
      n.edgesTo e target - if removed = target then 1 else 0 := by
  have erased : ((n.targets e).eraseP fun t => t.id = removed).map Target.id =
      ((n.targets e).map Target.id).erase removed := by
    rw [List.erase_eq_eraseP, List.eraseP_map]
    congr 2
    funext t
    rw [Function.comp_apply, Bool.eq_iff_iff, decide_eq_true_eq, beq_iff_eq]
    exact eq_comm
  unfold edgesTo removeTarget
  rw [targets_mapTargets_same has, erased, List.count_erase]
  simp only [beq_iff_eq]

end Node

namespace NodeTable

/-- The number of edges after a change of one node. -/
theorem edgesBetween_update (t : NodeTable) (id : NodeId) (f : Node → Node) (e : EdgeKind)
    (source target : NodeId) :
    (t.update id f).edgesBetween e source target =
      match t.find? source with
      | some n => (if source = id then f n else n).edgesTo e target
      | none => 0 := by
  unfold edgesBetween
  rw [find?_update]
  by_cases same : source = id
  · subst same
    cases t.find? source <;> simp
  · simp only [if_neg same]

/-- Changing a node without its edges keeps the number of edges between ids. -/
theorem edgesBetween_update_eq {t : NodeTable} {id : NodeId} {f : Node → Node}
    (keeps : ∀ n e, t.find? id = some n → (f n).targets e = n.targets e) (e : EdgeKind)
    (source target : NodeId) :
    (t.update id f).edgesBetween e source target = t.edgesBetween e source target := by
  rw [edgesBetween_update]
  unfold edgesBetween
  split
  · next n found =>
    split
    · next same =>
      unfold Node.edgesTo
      rw [keeps n e (same ▸ found)]
    · rfl
  · rfl

/-- A fresh node keeps the number of edges between ids. -/
theorem edgesBetween_insert {t : NodeTable} {id : NodeId} (hole : t.find? id = none)
    (kind : NodeKind) (e : EdgeKind) (source target : NodeId) :
    (t.insert id (.fresh id kind)).edgesBetween e source target = t.edgesBetween e source target := by
  unfold edgesBetween
  rw [find?_insert]
  by_cases same : source = id
  · subst same
    simp [hole, Node.edgesTo]
  · rw [if_neg same]

/-- A node is found in the list of a table as it is found in the table. -/
theorem find?_toList {t : NodeTable} (indexed : t.Indexed) (id : NodeId) :
    (t.toList.find? fun n => n.id = id) = t.find? id := by
  cases found : t.find? id with
  | none =>
    rw [List.find?_eq_none]
    intro n mem same
    rw [← of_decide_eq_true same, (indexed.mem_toList_iff n).1 mem] at found
    cases found
  | some n =>
    have here : n.id = id := indexed.id_eq found
    have mem : n ∈ t.toList := (indexed.mem_toList_iff n).2 (here.symm ▸ found)
    obtain ⟨m, first⟩ : ∃ m, (t.toList.find? fun n => n.id = id) = some m := by
      rw [← Option.isSome_iff_exists, List.find?_isSome]
      exact ⟨n, mem, decide_eq_true here⟩
    have own : m.id = id := by simpa using List.find?_some first
    have same := (indexed.mem_toList_iff m).1 (List.mem_of_find?_eq_some first)
    rw [own, found] at same
    rw [first, same]

/-- The number of edges of a node that start, point and are of a kind as asked for. -/
theorem countP_edges_of_source {n : Node} (distinct : n.edgeKinds.Nodup) (e : EdgeKind)
    (source target : NodeId) :
    (n.edges.countP fun edge => edge.kind = e ∧ edge.source = source ∧ edge.target = target) =
      if n.id = source then n.edgesTo e target else 0 := by
  have own : ∀ edge ∈ n.edges, edge.source = n.id := fun _ mem => Node.source_of_mem_edges mem
  by_cases same : n.id = source
  · have counted := Node.countP_edges distinct e target
    rw [if_pos same]
    unfold Node.edgesTo
    rw [List.count_eq_countP, List.countP_map]
    have here : ((fun id => id == target) ∘ Target.id) = fun t => decide (t.id = target) := by
      funext t
      rw [Function.comp_apply, Bool.eq_iff_iff, decide_eq_true_eq, beq_iff_eq]
    rw [here, ← counted]
    apply List.countP_congr
    intro edge mem
    simp [own edge mem, same]
  · rw [if_neg same, List.countP_eq_zero]
    intro edge mem
    simp [own edge mem, same]

/-- The edges of all nodes, counted by kind and ends. -/
theorem countP_edges_toList {t : NodeTable} (indexed : t.Indexed)
    (distinct : ∀ id n, t.find? id = some n → n.edgeKinds.Nodup) (e : EdgeKind)
    (source target : NodeId) :
    ((t.toList.flatMap Node.edges).countP fun edge =>
      edge.kind = e ∧ edge.source = source ∧ edge.target = target) =
      t.edgesBetween e source target := by
  have only : ∀ nodes : List Node, (∀ n ∈ nodes, n.edgeKinds.Nodup) → (nodes.map Node.id).Nodup →
      ((nodes.flatMap Node.edges).countP fun edge =>
        edge.kind = e ∧ edge.source = source ∧ edge.target = target) =
        match nodes.find? fun n => n.id = source with
        | some n => n.edgesTo e target
        | none => 0 := by
    intro nodes
    induction nodes with
    | nil => exact fun _ _ => rfl
    | cons n rest ih =>
      intro all apart
      rw [List.map_cons, List.nodup_cons] at apart
      rw [List.flatMap_cons, List.countP_append,
        countP_edges_of_source (all n List.mem_cons_self),
        ih (fun m mem => all m (List.mem_cons_of_mem n mem)) apart.2]
      by_cases same : n.id = source
      · have missing : (rest.find? fun m => m.id = source) = none := by
          rw [List.find?_eq_none]
          intro m mem equal
          apply apart.1
          rw [same, ← of_decide_eq_true equal]
          exact List.mem_map_of_mem mem
        rw [if_pos same, missing, List.find?_cons_of_pos (by simpa using same)]
        rfl
      · rw [if_neg same, List.find?_cons_of_neg (by simpa using same), Nat.zero_add]
  have listed : ∀ n ∈ t.toList, n.edgeKinds.Nodup := fun n mem =>
    distinct n.id n ((indexed.mem_toList_iff n).1 mem)
  rw [only t.toList listed indexed.nodup_ids, find?_toList indexed]
  rfl

/-- A table has an id if there is a node at it. -/
theorem contains_iff (t : NodeTable) (id : NodeId) :
    t.contains id = true ↔ ∃ n, t.find? id = some n :=
  Option.isSome_iff_exists

/-- Changing a node keeps the ids of a table. -/
@[simp] theorem contains_update (t : NodeTable) (id other : NodeId) (f : Node → Node) :
    (t.update id f).contains other = t.contains other := by
  unfold contains
  rw [find?_update]
  by_cases same : other = id
  · subst same
    rw [if_pos rfl, Option.isSome_map]
  · rw [if_neg same]

end NodeTable

/-! ## Reading an index -/

namespace IncomingIndex

/-- Setting an entry of the index changes no other one. -/
theorem entry?_setEntry (x : IncomingIndex) (id other : NodeId) (edges : List Incoming) :
    IncomingIndex.entry? (x.setEntry id edges) other =
      if other = id then some edges else x.entry? other := by
  by_cases same : other = id
  · subst same
    rw [if_pos rfl]
    exact IdTable.get_set_same x.table other (some edges)
  · rw [if_neg same]
    exact IdTable.get_set_other x.table same (some edges)

/-- Setting an entry changes the edges into its id and no others. -/
theorem incoming_setEntry (x : IncomingIndex) (id other : NodeId) (edges : List Incoming) :
    (x.setEntry id edges).incoming other = if other = id then edges else x.incoming other := by
  unfold incoming
  rw [entry?_setEntry]
  split <;> rfl

/-- Setting an entry makes its id known. -/
theorem contains_setEntry (x : IncomingIndex) (id other : NodeId) (edges : List Incoming) :
    (x.setEntry id edges).contains other = (decide (other = id) || x.contains other) := by
  unfold contains
  rw [entry?_setEntry]
  by_cases same : other = id <;> simp [same]

/-- A source is listed as often as its edge is recorded. -/
theorem count_sources (x : IncomingIndex) (target : NodeId) (e : EdgeKind) (source : NodeId) :
    (x.sources target e).count source = (x.incoming target).count ⟨e, source⟩ := by
  unfold sources
  rw [List.count_eq_countP, List.countP_map, List.countP_filter, List.count_eq_countP]
  apply List.countP_congr
  intro edge _
  cases edge
  simp [and_comm]

/-- No edges lead into an id that is not known. -/
theorem incoming_eq_nil {x : IncomingIndex} {id : NodeId} (unknown : x.contains id = false) :
    x.incoming id = [] := by
  unfold contains at unknown
  unfold incoming
  rw [Option.isSome_eq_false_iff, Option.isNone_iff_eq_none] at unknown
  rw [unknown]
  rfl

/-- A new node in the index has no edges into it, and the others keep theirs. -/
@[simp] theorem incoming_insertNode (x : IncomingIndex) (id other : NodeId) :
    (x.insertNode id).incoming other = x.incoming other := by
  unfold insertNode
  split
  · rfl
  · next unknown =>
    rw [incoming_setEntry]
    split
    · next same => rw [same, incoming_eq_nil (Bool.eq_false_iff.2 unknown)]
    · rfl

/-- A new node becomes known to the index. -/
theorem contains_insertNode (x : IncomingIndex) (id other : NodeId) :
    (x.insertNode id).contains other = (decide (other = id) || x.contains other) := by
  unfold insertNode
  split
  · next known =>
    by_cases same : other = id
    · rw [same, known, Bool.or_true]
    · rw [decide_eq_false same, Bool.false_or]
  · exact contains_setEntry x id other []

/-- A new edge keeps known ids known. -/
theorem contains_insertEdge {x : IncomingIndex} {id : NodeId} (known : x.contains id = true)
    (e : EdgeKind) (source target : NodeId) : (x.insertEdge e source target).contains id = true := by
  unfold insertEdge
  split
  · rw [contains_setEntry, known, Bool.or_true]
  · exact known

/-- Removing an edge keeps known ids known. -/
theorem contains_removeEdge {x : IncomingIndex} {id : NodeId} (known : x.contains id = true)
    (e : EdgeKind) (source target : NodeId) : (x.removeEdge e source target).contains id = true := by
  unfold removeEdge
  split
  · rw [contains_setEntry, known, Bool.or_true]
  · exact known

/-- A new node keeps the kinds that are recorded. -/
@[simp] theorem selector_insertNode (x : IncomingIndex) (id : NodeId) :
    (x.insertNode id).selector = x.selector := by
  unfold insertNode
  split <;> rfl

/-- A new edge keeps the kinds that are recorded. -/
@[simp] theorem selector_insertEdge (x : IncomingIndex) (e : EdgeKind) (source target : NodeId) :
    (x.insertEdge e source target).selector = x.selector := by
  unfold insertEdge
  split <;> rfl

/-- Removing an edge keeps the kinds that are recorded. -/
@[simp] theorem selector_removeEdge (x : IncomingIndex) (e : EdgeKind) (source target : NodeId) :
    (x.removeEdge e source target).selector = x.selector := by
  unfold removeEdge
  split <;> rfl

/-- An added edge is recorded once more if its kind is recorded at all. -/
theorem count_insertEdge (x : IncomingIndex) (e kind : EdgeKind) (tail head source target : NodeId) :
    ((x.insertEdge e tail head).incoming target).count ⟨kind, source⟩ =
      (x.incoming target).count ⟨kind, source⟩ +
        if x.selects e = true ∧ head = target ∧ e = kind ∧ tail = source then 1 else 0 := by
  unfold insertEdge
  by_cases selected : x.selects e = true
  · rw [if_pos selected, incoming_setEntry]
    by_cases here : target = head
    · subst here
      rw [if_pos rfl, List.count_append, List.count_singleton]
      simp [selected]
    · rw [if_neg here, if_neg fun all => here all.2.1.symm]
      rfl
  · rw [if_neg selected, if_neg fun all => selected all.1]
    rfl

/-- A removed edge is recorded once less if it was recorded at all. -/
theorem count_removeEdge (x : IncomingIndex) (e kind : EdgeKind) (tail head source target : NodeId) :
    ((x.removeEdge e tail head).incoming target).count ⟨kind, source⟩ =
      (x.incoming target).count ⟨kind, source⟩ -
        if head = target ∧ e = kind ∧ tail = source then 1 else 0 := by
  unfold removeEdge
  by_cases known : x.contains head = true
  · rw [if_pos known, incoming_setEntry]
    by_cases here : target = head
    · subst here
      rw [if_pos rfl, List.count_erase]
      simp
    · rw [if_neg here, if_neg fun all => here all.1.symm]
      rfl
  · rw [if_neg known]
    by_cases here : head = target
    · subst here
      rw [incoming_eq_nil (Bool.eq_false_iff.2 known), List.count_nil, Nat.zero_sub]
    · rw [if_neg fun all => here all.1]
      rfl

/-- The index lists every source as often as it has the edge, if it records the kind of the edge,
and knows every node. -/
structure Inverts (x : IncomingIndex) (t : NodeTable) : Prop where
  /-- Sources are listed as often as they have the edge. -/
  counts : ∀ target e source, (x.sources target e).count source =
    if x.selects e then t.edgesBetween e source target else 0
  /-- Every node is known. -/
  knows : ∀ id, t.contains id = true → x.contains id = true

/-- Two indexes with one selector that invert one table list the same sources. -/
theorem Inverts.perm {x y : IncomingIndex} {t : NodeTable} (hx : x.Inverts t) (hy : y.Inverts t)
    (same : x.selector = y.selector) (target : NodeId) (e : EdgeKind) :
    (x.sources target e).Perm (y.sources target e) := by
  rw [List.perm_iff_count]
  intro source
  rw [hx.counts, hy.counts]
  unfold selects
  rw [same]

/-! ## Building an index -/

/-- Making nodes known keeps the selector and the edges, and the nodes are known then. -/
theorem foldl_insertNode (nodes : List Node) (x : IncomingIndex) :
    let known := nodes.foldl (fun x n => x.insertNode n.id) x
    known.selector = x.selector ∧ (∀ id, known.incoming id = x.incoming id) ∧
      ∀ id, (x.contains id = true ∨ ∃ n ∈ nodes, n.id = id) → known.contains id = true := by
  induction nodes generalizing x with
  | nil => exact ⟨rfl, fun _ => rfl, fun id known => known.elim (fun k => k) (by simp)⟩
  | cons n rest ih =>
    obtain ⟨selector, incoming, knows⟩ := ih (x.insertNode n.id)
    refine ⟨selector.trans (selector_insertNode x n.id), ?_, ?_⟩
    · intro id
      rw [List.foldl_cons, incoming, incoming_insertNode]
    · intro id known
      apply knows
      rw [contains_insertNode, Bool.or_eq_true, decide_eq_true_eq]
      rcases known with before | ⟨m, mem, same⟩
      · exact Or.inl (Or.inr before)
      · rcases List.mem_cons.1 mem with rfl | later
        · exact Or.inl (Or.inl same.symm)
        · exact Or.inr ⟨m, later, same⟩

/-- Recording edges keeps the selector and the known ids, and the edges are recorded then. -/
theorem foldl_insertEdge (edges : List Edge) (x : IncomingIndex) :
    let recorded := edges.foldl (fun x e => x.insertEdge e.kind e.source e.target) x
    recorded.selector = x.selector ∧
      (∀ id, x.contains id = true → recorded.contains id = true) ∧
      ∀ target e source, (recorded.incoming target).count ⟨e, source⟩ =
        (x.incoming target).count ⟨e, source⟩ +
          if x.selects e then
            edges.countP fun edge => edge.kind = e ∧ edge.source = source ∧ edge.target = target
          else 0 := by
  induction edges generalizing x with
  | nil => exact ⟨rfl, fun _ known => known, fun _ _ _ => by simp⟩
  | cons first rest ih =>
    obtain ⟨selector, knows, counts⟩ := ih (x.insertEdge first.kind first.source first.target)
    refine ⟨selector.trans (selector_insertEdge x _ _ _), ?_, ?_⟩
    · exact fun id known => knows id (contains_insertEdge known _ _ _)
    · intro target e source
      have selects : (x.insertEdge first.kind first.source first.target).selects e = x.selects e := by
        unfold IncomingIndex.selects
        rw [selector_insertEdge]
      have recorded : (if x.selects first.kind = true ∧ first.target = target ∧ first.kind = e ∧
            first.source = source then 1 else 0) =
          if x.selects e = true then
            if first.kind = e ∧ first.source = source ∧ first.target = target then 1 else 0
          else 0 := by
        by_cases same : first.kind = e
        · subst same
          by_cases selected : x.selects first.kind = true <;> simp [selected, and_comm]
        · simp [same]
      rw [List.foldl_cons, counts, selects, count_insertEdge, List.countP_cons, recorded]
      by_cases selected : x.selects e = true
      · simp only [if_pos selected, decide_eq_true_eq]
        omega
      · simp only [if_neg selected]

/-- An index records the kinds that it was built for. -/
@[simp] theorem selector_build (t : NodeTable) (selector : EdgeSelector) :
    (build t selector).selector = selector := by
  unfold build
  exact (foldl_insertEdge _ _).1.trans (foldl_insertNode t.toList (empty selector)).1

/-- A built index inverts the nodes. -/
theorem inverts_build {t : NodeTable} (indexed : t.Indexed)
    (distinct : ∀ id n, t.find? id = some n → n.edgeKinds.Nodup) (selector : EdgeSelector) :
    (build t selector).Inverts t := by
  obtain ⟨known, listed, knows⟩ := foldl_insertNode t.toList (empty selector)
  obtain ⟨recorded, kept, counts⟩ := foldl_insertEdge (t.toList.flatMap Node.edges)
    (t.toList.foldl (fun x n => x.insertNode n.id) (empty selector))
  refine ⟨?_, ?_⟩
  · intro target e source
    have selects : (build t selector).selects e =
        (t.toList.foldl (fun x n => x.insertNode n.id) (empty selector)).selects e := by
      unfold IncomingIndex.selects
      rw [selector_build, known]
      rfl
    have nothing : (empty selector).incoming target = [] := rfl
    rw [count_sources, selects]
    unfold build
    rw [counts, listed, nothing, List.count_nil, Nat.zero_add,
      NodeTable.countP_edges_toList indexed distinct]
  · intro id there
    obtain ⟨n, found⟩ := (t.contains_iff id).1 there
    apply kept
    apply knows
    have here := indexed.id_eq found
    exact Or.inr ⟨n, (indexed.mem_toList_iff n).2 (here.symm ▸ found), here⟩

end IncomingIndex

end CodeGraph
