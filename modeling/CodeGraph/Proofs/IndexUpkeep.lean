import CodeGraph.Proofs.Incoming
import CodeGraph.Proofs.Loading

/-!
# Keeping an index of incoming edges up to date

A graph that has an index changes it with every node and edge. Each change of the nodes has its
counterpart in the index: a fresh node is made known, an added edge is recorded after the one that
it replaces is taken off, and a removed edge is taken off. Clearing and loading start without an
index. Main statements: `Edit.indexInverts`, every edit keeps the index the inverse of the edges,
and `index_inverts_after`, so does every history.
-/

set_option autoImplicit false

namespace CodeGraph

namespace IncomingIndex

/-- An index inverts every table with the same ids and the same numbers of edges. -/
theorem Inverts.of_same {x : IncomingIndex} {t u : NodeTable} (inverts : x.Inverts t)
    (edges : ∀ e source target, u.edgesBetween e source target = t.edgesBetween e source target)
    (ids : ∀ id, u.contains id = true → t.contains id = true) : x.Inverts u := by
  refine ⟨fun target e source => ?_, fun id there => inverts.knows id (ids id there)⟩
  rw [inverts.counts, edges]

/-- A change of a node that keeps its edges leaves an index the inverse. -/
theorem Inverts.update {x : IncomingIndex} {t : NodeTable} (inverts : x.Inverts t) {id : NodeId}
    {f : Node → Node} (keeps : ∀ n e, t.find? id = some n → (f n).targets e = n.targets e) :
    x.Inverts (t.update id f) := by
  apply inverts.of_same (NodeTable.edgesBetween_update_eq keeps)
  intro other there
  rw [NodeTable.contains_update] at there
  exact there

/-- A fresh node that is made known leaves an index the inverse. -/
theorem Inverts.insertNode {x : IncomingIndex} {t : NodeTable} (inverts : x.Inverts t) {id : NodeId}
    (hole : t.find? id = none) (kind : NodeKind) :
    (x.insertNode id).Inverts (t.insert id (.fresh id kind)) := by
  refine ⟨?_, ?_⟩
  · intro target e source
    have selects : (x.insertNode id).selects e = x.selects e := by
      unfold IncomingIndex.selects
      rw [selector_insertNode]
    rw [count_sources, incoming_insertNode, ← count_sources, inverts.counts, selects,
      NodeTable.edgesBetween_insert hole]
  · intro other there
    rw [contains_insertNode, Bool.or_eq_true, decide_eq_true_eq]
    obtain ⟨n, found⟩ := (NodeTable.contains_iff _ other).1 there
    rw [NodeTable.find?_insert] at found
    split at found
    · next same => exact Or.inl same
    · exact Or.inr (inverts.knows other ((t.contains_iff other).2 ⟨n, found⟩))

/-- Takes a replaced edge, if there is one, off an index. -/
def releaseEdge (x : IncomingIndex) (e : EdgeKind) (source : NodeId) (previous : Option NodeId) :
    IncomingIndex :=
  match previous with
  | some target => x.removeEdge e source target
  | none => x

/-- A released edge is recorded once less if it was recorded at all. -/
theorem count_releaseEdge (x : IncomingIndex) (e kind : EdgeKind) (tail source target : NodeId)
    (previous : Option NodeId) :
    ((x.releaseEdge e tail previous).incoming target).count ⟨kind, source⟩ =
      (x.incoming target).count ⟨kind, source⟩ -
        if previous = some target ∧ e = kind ∧ tail = source then 1 else 0 := by
  cases previous with
  | none => simp [releaseEdge]
  | some head =>
    unfold releaseEdge
    simp only [count_removeEdge, Option.some_inj]

/-- Releasing the edge to a previous target keeps the kinds that are recorded. -/
@[simp] theorem selector_releaseEdge (x : IncomingIndex) (e : EdgeKind) (source : NodeId)
    (previous : Option NodeId) : (x.releaseEdge e source previous).selector = x.selector := by
  cases previous with
  | none => rfl
  | some head => exact selector_removeEdge x e source head

/-- Releasing the edge to a previous target keeps known ids known. -/
theorem contains_releaseEdge {x : IncomingIndex} {id : NodeId} (known : x.contains id = true)
    (e : EdgeKind) (source : NodeId) (previous : Option NodeId) :
    (x.releaseEdge e source previous).contains id = true := by
  cases previous with
  | none => exact known
  | some head => exact contains_removeEdge known e source head

/-- An added edge that is recorded, and a replaced one that is taken off, leave an index the
inverse. -/
theorem Inverts.addTarget {x : IncomingIndex} {t : NodeTable} (inverts : x.Inverts t) {n : Node}
    {e : EdgeKind} {source : NodeId} (found : t.find? source = some n) (has : e ∈ n.edgeKinds)
    (far : Target) :
    ((x.releaseEdge e source ((n.replaced? e).map Target.id)).insertEdge e source far.id).Inverts
      (t.update source fun n => n.addTarget e far) := by
  have selects : ∀ kind, ((x.releaseEdge e source ((n.replaced? e).map Target.id)).insertEdge e
      source far.id).selects kind = x.selects kind := by
    intro kind
    unfold IncomingIndex.selects
    rw [selector_insertEdge, selector_releaseEdge]
  have selectsOwn : (x.releaseEdge e source ((n.replaced? e).map Target.id)).selects e =
      x.selects e := by
    unfold IncomingIndex.selects
    rw [selector_releaseEdge]
  refine ⟨?_, ?_⟩
  · intro target kind holder
    rw [count_sources, count_insertEdge, count_releaseEdge, ← count_sources, inverts.counts,
      selects, selectsOwn, NodeTable.edgesBetween_update]
    unfold NodeTable.edgesBetween
    by_cases here : holder = source
    · subst here
      simp only [found, if_true]
      by_cases same : kind = e
      · subst same
        simp only [Node.edgesTo_addTarget has, and_true]
        by_cases selected : x.selects kind = true <;> simp [selected]
      · have other : e ≠ kind := fun eq => same eq.symm
        simp [Node.addTarget, Node.edgesTo_mapTargets_other n same, other]
    · have other : source ≠ holder := fun eq => here eq.symm
      simp only [here, other, and_false, if_false, Nat.sub_zero, Nat.add_zero]
  · intro id there
    rw [NodeTable.contains_update] at there
    exact contains_insertEdge (contains_releaseEdge (inverts.knows id there) _ _ _) _ _ _

/-- A removed edge that is taken off leaves an index the inverse. -/
theorem Inverts.removeTarget {x : IncomingIndex} {t : NodeTable} (inverts : x.Inverts t) {n : Node}
    {e : EdgeKind} {source : NodeId} (found : t.find? source = some n) (has : e ∈ n.edgeKinds)
    (removed : NodeId) :
    (x.removeEdge e source removed).Inverts
      (t.update source fun n => n.removeTarget e removed) := by
  have selects : ∀ kind, (x.removeEdge e source removed).selects kind = x.selects kind := by
    intro kind
    unfold IncomingIndex.selects
    rw [selector_removeEdge]
  refine ⟨?_, ?_⟩
  · intro target kind holder
    rw [count_sources, count_removeEdge, ← count_sources, inverts.counts, selects,
      NodeTable.edgesBetween_update]
    unfold NodeTable.edgesBetween
    by_cases here : holder = source
    · subst here
      simp only [found, if_true]
      by_cases same : kind = e
      · subst same
        simp only [Node.edgesTo_removeTarget has, and_true]
        by_cases selected : x.selects kind = true <;> simp [selected]
      · have other : e ≠ kind := fun eq => same eq.symm
        simp [Node.removeTarget, Node.edgesTo_mapTargets_other n same, other]
    · have other : source ≠ holder := fun eq => here eq.symm
      simp only [here, other, and_false, if_false, Nat.sub_zero]
  · intro id there
    rw [NodeTable.contains_update] at there
    exact contains_removeEdge (inverts.knows id there) _ _ _

end IncomingIndex

namespace Graph

variable {rule : NodeKind → Attributes → Prop}

/-- The index of a graph, if it has one, is the inverse of its edges. -/
def IndexInverts (g : Graph) : Prop :=
  ∀ x, g.index = some x → x.Inverts g.nodes

/-- The index after an edge has been added, by the edge that was replaced. -/
theorem index_link_of_find? {g : Graph} {e : EdgeKind} {source : NodeId} {n : Node}
    (found : g.find? source = some n) (t : Target) :
    (g.link e source t).index = g.index.map fun x =>
      (x.releaseEdge e source ((n.replaced? e).map Target.id)).insertEdge e source t.id := by
  rw [index_link]
  unfold replacedTarget?
  rw [found]
  rfl

/-- Every edit keeps the index the inverse of the edges while ids last. -/
theorem Edit.indexInverts {g h : Graph} (edit : Edit rule g h) (room : g.size < idLimit)
    (sound : g.nodes.Sound) (inverts : g.IndexInverts) : h.IndexInverts := by
  cases edit with
  | create concrete =>
    intro x indexed
    obtain ⟨y, before, rfl⟩ := Option.map_eq_some_iff.1 indexed
    exact (inverts y before).insertNode (nextId_fresh room).2 _
  | createAt concrete valid hole =>
    intro x indexed
    obtain ⟨y, before, rfl⟩ := Option.map_eq_some_iff.1 indexed
    exact (inverts y before).insertNode hole _
  | touch cosmetic =>
    intro x indexed
    apply (inverts x indexed).update
    intro n e found
    rw [(cosmetic n found).rest]
    rfl
  | @widen id kind n found wider =>
    obtain ⟨-, -, -, more, -⟩ := widened?_spec wider
    intro x indexed
    apply (inverts x indexed).update
    intro m e here
    have only : m = n := Option.some.inj (here.symm.trans found)
    rw [only]
    exact Node.targets_promote ((sound.wellFormed id n found).kinds ▸ more) e
  | @link e source t accepts =>
    obtain ⟨n, found, has⟩ := accepts.source
    intro x indexed
    rw [index_link_of_find? found] at indexed
    obtain ⟨y, before, rfl⟩ := Option.map_eq_some_iff.1 indexed
    have added := (inverts y before).addTarget found has t
    rw [nodes_link]
    split
    · -- the adopted node keeps its own edges
      exact added.update fun _ _ _ => rfl
    · exact added
  | @sever e source target n found points =>
    -- an edge that is there lies in a slot
    have has : e ∈ n.edgeKinds := by
      obtain ⟨far, mem, -⟩ := List.any_eq_true.1 points
      obtain ⟨s, slot, kind, -⟩ := Node.exists_slot_of_mem_targets mem
      exact kind ▸ List.mem_map_of_mem slot
    intro x indexed
    rw [index_unlink] at indexed
    obtain ⟨y, before, rfl⟩ := Option.map_eq_some_iff.1 indexed
    have removed := (inverts y before).removeTarget found has target
    rw [nodes_unlink]
    split
    · apply removed.update
      intro n other _
      rw [Node.freed_eq]
      rfl
    · exact removed
  | intern s => exact inverts
  | loadTexts input => exact inverts
  | index selector =>
    intro x indexed
    rw [← Option.some.inj indexed]
    exact IncomingIndex.inverts_build sound.indexed
      (fun id n found => (sound.wellFormed id n found).distinct) selector
  | filter filter filterOn => exact inverts
  | language language => exact inverts
  | remember key id =>
    unfold Graph.remember
    split <;> exact inverts

/-- A graph that a file was loaded into has sound nodes and an index that inverts them, if it had
them before as far as ids last. -/
theorem indexInverts_load {g : Graph}
    (before : g.size < idLimit → g.nodes.Sound ∧ g.IndexInverts) (headers : List Header)
    (input : Bytes) (room : (g.load headers input).2.2.size < idLimit) :
    (g.load headers input).2.2.nodes.Sound ∧ (g.load headers input).2.2.IndexInverts := by
  rcases g.loads_load headers input with same | ⟨language, run⟩
  · rw [same] at room ⊢
    exact before room
  · have nothing := run.preserves (fun _ _ step => step.index_eq_none) rfl
    refine ⟨run.preserves (fun _ _ step => step.sound) NodeTable.sound_empty, ?_⟩
    intro x indexed
    rw [nothing] at indexed
    cases indexed

/-- The index that a graph answers with has the selector asked for and inverts the edges. -/
theorem withIndex_spec {g : Graph} (sound : g.nodes.Sound) (inverts : g.IndexInverts)
    (selector : EdgeSelector) :
    (g.withIndex selector).1.selector = selector ∧ (g.withIndex selector).1.Inverts g.nodes := by
  have built : (IncomingIndex.build g.nodes selector).Inverts g.nodes :=
    IncomingIndex.inverts_build sound.indexed
      (fun id n found => (sound.wellFormed id n found).distinct) selector
  unfold withIndex
  split
  · next x cached =>
    split
    · next same => exact ⟨same, inverts x cached⟩
    · exact ⟨IncomingIndex.selector_build g.nodes selector, built⟩
  · exact ⟨IncomingIndex.selector_build g.nodes selector, built⟩

/-- Whatever is done to a new graph, loads and failures included, an index that it keeps is the
inverse of its edges and lists the same sources as an index that is built anew, and an index that
is asked for has the selector asked for. Only ids must not run out: past the last one a new node
takes the place of an old one, whose edges the index would still list. -/
theorem index_inverts_after (language : Language) (history : List Operation)
    (room : ((new language).after history).size < idLimit) :
    let g := (new language).after history
    (∀ x, g.index = some x → x.Inverts g.nodes ∧
      ∀ target e, (x.sources target e).Perm
        ((IncomingIndex.build g.nodes x.selector).sources target e)) ∧
    ∀ selector, (IncomingIndex.build g.nodes selector).selector = selector ∧
      (IncomingIndex.build g.nodes selector).Inverts g.nodes ∧
      (g.withIndex selector).1.selector = selector ∧ (g.withIndex selector).1.Inverts g.nodes := by
  let anything : NodeKind → Attributes → Prop := fun _ _ => True
  let Inv : Graph → Prop := fun g => g.nodes.Sound ∧ g.IndexInverts
  have edits : ∀ g h, Edit anything g h → g.size < idLimit → Inv g → Inv h :=
    fun g h edit room inv => ⟨edit.sound room inv.1, edit.indexInverts room inv.1 inv.2⟩
  have clears : ∀ language filterOn, Inv (empty language filterOn) :=
    fun _ _ => ⟨NodeTable.sound_empty, fun x indexed => nomatch indexed⟩
  have along : (new language).Along (fun _ _ => True) history :=
    along_of_forall (fun _ _ _ => trivial) _
  intro g
  obtain ⟨sound, inverts⟩ : Inv g := by
    refine along.preserves_while_room (fun _ _ _ => trivial) edits clears ?_ ?_ room
    · intro g operation _
      exact operation.describes_of_forall (fun _ _ => trivial) g
    · intro g headers input _ inv room
      exact indexInverts_load inv headers input room
  have built : ∀ selector, (IncomingIndex.build g.nodes selector).Inverts g.nodes :=
    IncomingIndex.inverts_build sound.indexed
      fun id n found => (sound.wellFormed id n found).distinct
  refine ⟨fun x cached => ⟨inverts x cached, fun target e => ?_⟩, fun selector => ?_⟩
  · exact (inverts x cached).perm (built x.selector)
      (IncomingIndex.selector_build g.nodes x.selector).symm target e
  · exact ⟨IncomingIndex.selector_build g.nodes selector, built selector,
      withIndex_spec sound inverts selector⟩

/-- A history that builds an index, makes a node and two equal edges, takes one of them away again,
and asks for another selector. -/
def indexedHistory : List Operation :=
  [.createNode .plainClass, .buildIndex none, .createNode .plainClass,
    .addEdge .memberVariant (madeId 0) (madeId 1),
    .addEdge .memberVariant (madeId 0) (madeId 1),
    .removeEdge .memberVariant (madeId 0) (madeId 1),
    .setEdge .memberDeclares (madeId 0) (some (madeId 1)),
    .setEdge .memberDeclares (madeId 0) (some (madeId 0))]

/-- The history with an index leaves it the inverse, with one source for the edge that is left. -/
theorem index_inverts_after_changes :
    ∃ x, ((new .java).after indexedHistory).index = some x ∧
      x.sources (madeId 1) .memberVariant = [madeId 0] ∧
      x.sources (madeId 1) .memberDeclares = [] ∧
      x.Inverts ((new .java).after indexedHistory).nodes := by
  have room : ((new .java).after indexedHistory).size < idLimit := by decide +kernel
  have indexed : (((new .java).after indexedHistory).index.any fun x =>
      x.sources (madeId 1) .memberVariant = [madeId 0] ∧
        x.sources (madeId 1) .memberDeclares = []) = true := by
    decide +kernel
  obtain ⟨x, cached, listed⟩ := (Option.any_eq_true _ _).1 indexed
  obtain ⟨one, nothing⟩ := of_decide_eq_true listed
  exact ⟨x, cached, one, nothing, ((index_inverts_after .java indexedHistory room).1 x cached).1⟩

end Graph

end CodeGraph
