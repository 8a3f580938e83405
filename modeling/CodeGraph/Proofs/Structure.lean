import CodeGraph.Proofs.EdgeChanges

/-!
# The structure of a graph

The nodes of a graph are sound: each lies at the position of its id, the last position is taken,
every node is well formed, and a node has a parent only if that parent lists it among its
containment edges. Main statement: `Edit.sound`, every edit keeps the nodes sound while ids last.
That nodes lie at the positions of their ids (`Edit.indexed`), are well formed (`Edit.wellFormed`) and
have attributes that suit their kinds (`Edit.suited`) does not need ids to last.
-/

set_option autoImplicit false

namespace CodeGraph

namespace NodeTable

/-- An id is among the far ends of the edges of a kind that start at a node. -/
def Lists (t : NodeTable) (e : EdgeKind) (source target : NodeId) : Prop :=
  ∃ n, t.find? source = some n ∧ ∃ far ∈ n.targets e, far.id = target

/-- The nodes of a graph, each in its place and below a node that lists it. -/
structure Sound (t : NodeTable) : Prop where
  /-- Every node lies at the position of its id. -/
  indexed : t.Indexed
  /-- The last position holds a node. -/
  trim : t.Trim
  /-- Every node is well formed. -/
  wellFormed : ∀ id n, t.find? id = some n → n.WellFormed
  /-- A parent lists its node under the containment kind that the node names. -/
  backed : ∀ id n p, t.find? id = some n → n.parent = some p →
    p.edge.isContainment = true ∧ t.Lists p.edge p.id id

/-- All nodes are well formed. -/
def WellFormed (t : NodeTable) : Prop :=
  ∀ id n, t.find? id = some n → n.WellFormed

/-- Every node has attributes that suit its kind. -/
def Suited (t : NodeTable) : Prop :=
  ∀ id n, t.find? id = some n → Attributes.Suits n.kind n.attributes

/-- An empty table is sound. -/
theorem sound_empty : empty.Sound where
  indexed := indexed_empty
  trim := trim_empty
  wellFormed := fun id n found => by simp at found
  backed := fun id n p found => by simp at found

/-- What holds of all nodes holds of them after a change that keeps it. -/
theorem forall_update {P : Node → Prop} {t : NodeTable} {id : NodeId} {f : Node → Node}
    (all : ∀ id n, t.find? id = some n → P n) (keeps : ∀ n, t.find? id = some n → P (f n)) :
    ∀ other n, (t.update id f).find? other = some n → P n := by
  intro other n found
  obtain ⟨old, was, rfl⟩ := exists_of_find?_update found
  split
  · next same => exact keeps old (same ▸ was)
  · exact all other old was

/-- A node goes on listing an id if changes keep its edges of the kind. -/
theorem Lists.update {t : NodeTable} {e : EdgeKind} {source target id : NodeId} {f : Node → Node}
    (lists : t.Lists e source target)
    (keeps : ∀ n, t.find? id = some n → n.targets e ⊆ (f n).targets e) :
    (t.update id f).Lists e source target := by
  obtain ⟨n, found, far, mem, here⟩ := lists
  by_cases same : source = id
  · subst same
    refine ⟨f n, ?_, far, keeps n found mem, here⟩
    rw [find?_update_same, found]
    rfl
  · exact ⟨n, (find?_update_other t same f).trans found, far, mem, here⟩

/-- A change of a node that keeps its id and parent, keeps it well formed, and loses no containment
edge keeps a table sound. -/
theorem Sound.update {t : NodeTable} (sound : t.Sound) {id : NodeId} {f : Node → Node}
    (keepsId : ∀ n, t.find? id = some n → (f n).id = n.id)
    (keepsParent : ∀ n, t.find? id = some n → (f n).parent = n.parent)
    (keepsForm : ∀ n, t.find? id = some n → (f n).WellFormed)
    (keepsEdges : ∀ n e, t.find? id = some n → e.isContainment = true →
      n.targets e ⊆ (f n).targets e) : (t.update id f).Sound where
  indexed := sound.indexed.update id keepsId
  trim := sound.trim.update id f
  wellFormed := forall_update sound.wellFormed keepsForm
  backed := by
    intro other n p found parent
    obtain ⟨old, was, rfl⟩ := exists_of_find?_update found
    have had : old.parent = some p := by
      split at parent
      · next same => exact (keepsParent old (same ▸ was)).symm.trans parent
      · exact parent
    obtain ⟨contains, lists⟩ := sound.backed other old p was had
    exact ⟨contains, lists.update fun n here => keepsEdges n p.edge here contains⟩

/-- A fresh node at an unused id keeps a table sound. -/
theorem Sound.insert {t : NodeTable} (sound : t.Sound) {id : NodeId} {kind : NodeKind}
    (concrete : kind.isAbstract = false) (valid : id.isValid = true) (hole : t.find? id = none) :
    (t.insert id (.fresh id kind)).Sound where
  indexed := sound.indexed.insert (.fresh id kind)
  trim := sound.trim.insert id _
  wellFormed := by
    intro other n found
    rw [find?_insert] at found
    split at found
    · cases found
      exact Node.wellFormed_fresh valid concrete
    · exact sound.wellFormed other n found
  backed := by
    intro other n p found parent
    rw [find?_insert] at found
    split at found
    · cases found
      cases parent
    · obtain ⟨contains, m, source, far⟩ := sound.backed other n p found parent
      have different : p.id ≠ id := by
        rintro same
        rw [same, hole] at source
        cases source
      exact ⟨contains, m, (find?_insert_other t different _).trans source, far⟩

/-- Giving a node a parent that lists it keeps a table sound. -/
theorem Sound.adopt {t : NodeTable} (sound : t.Sound) {id : NodeId} {p : Parent}
    (contains : p.edge.isContainment = true) (lists : t.Lists p.edge p.id id) :
    (t.update id (Node.adopted p)).Sound where
  indexed := sound.indexed.update id fun _ _ => rfl
  trim := sound.trim.update id _
  wellFormed :=
    forall_update sound.wellFormed fun n found => (sound.wellFormed id n found).adopt _
  backed := by
    intro other n q found parent
    have still : ∀ e source target, t.Lists e source target →
        (t.update id (Node.adopted p)).Lists e source target :=
      fun e source target before => before.update fun _ _ => List.Subset.refl _
    obtain ⟨old, was, rfl⟩ := exists_of_find?_update found
    split at parent
    · next same =>
      cases parent
      subst same
      exact ⟨contains, still _ _ _ lists⟩
    · obtain ⟨kind, before⟩ := sound.backed other old q was parent
      exact ⟨kind, still _ _ _ before⟩

/-- The far ends that are left after a removal include all that point elsewhere. -/
theorem mem_targets_removeTarget {n : Node} {e other : EdgeKind} {target : NodeId} {far : Target}
    (mem : far ∈ n.targets other) (elsewhere : other = e → far.id ≠ target) :
    far ∈ (n.removeTarget e target).targets other := by
  unfold Node.removeTarget
  by_cases same : other = e
  · subst same
    obtain ⟨s, slot, kind, -⟩ := Node.exists_slot_of_mem_targets mem
    have has : other ∈ n.edgeKinds := kind ▸ List.mem_map_of_mem slot
    rw [Node.targets_mapTargets_same has]
    exact (List.mem_eraseP_of_neg (by simpa using elsewhere rfl)).2 mem
  · rw [Node.targets_mapTargets_other n same]
    exact mem

/-- After a removal a node still lists every id but the one removed. -/
theorem Lists.removeTarget {t : NodeTable} {kind e : EdgeKind} {holder source target id : NodeId}
    (lists : t.Lists kind holder id)
    (elsewhere : kind = e → holder = source → id ≠ target) :
    (t.update source fun n => n.removeTarget e target).Lists kind holder id := by
  obtain ⟨m, found, far, mem, here⟩ := lists
  by_cases same : holder = source
  · have left : kind = e → far.id ≠ target := by
      rw [here]
      exact fun sameKind => elsewhere sameKind same
    refine ⟨m.removeTarget e target, ?_, far, mem_targets_removeTarget mem left, here⟩
    rw [same, find?_update_same, ← same, found]
    rfl
  · exact ⟨m, (find?_update_other t same _).trans found, far, mem, here⟩

/-- Taking away an edge that gives no parent keeps a table sound. -/
theorem Sound.removeTarget {t : NodeTable} (sound : t.Sound) {e : EdgeKind}
    (cross : e.isContainment = false) (source target : NodeId) :
    (t.update source fun n => n.removeTarget e target).Sound := by
  refine sound.update ?_ ?_ ?_ ?_
  · intro n _
    rfl
  · intro n _
    rfl
  · intro n found
    exact (sound.wellFormed source n found).removeTarget e target
  · intro n other _ contains far mem
    apply mem_targets_removeTarget mem
    rintro rfl
    exact absurd (contains.symm.trans cross) (by decide)

/-- Taking away a containment edge, with the parent that it gave, keeps a table sound. -/
theorem Sound.release {t : NodeTable} (sound : t.Sound) (e : EdgeKind) (source target : NodeId) :
    ((t.update source fun n => n.removeTarget e target).update target (Node.freed source)).Sound where
  indexed := by
    have removed : (t.update source fun n => n.removeTarget e target).Indexed := by
      apply sound.indexed.update source
      intro n _
      rfl
    apply removed.update target
    intro n _
    rw [Node.freed_eq]
  trim := (sound.trim.update source _).update target _
  wellFormed := by
    have removed := forall_update sound.wellFormed fun n found =>
      (sound.wellFormed source n found).removeTarget e target
    apply forall_update removed
    intro n found
    rw [Node.freed_eq]
    exact (removed target n found).adopt _
  backed := by
    intro other n p found parent
    obtain ⟨middle, between, rfl⟩ := exists_of_find?_update found
    obtain ⟨old, was, same⟩ := exists_of_find?_update between
    have sameParent : old.parent = middle.parent := by
      rw [same]
      split <;> rfl
    -- who still has a parent had it before, and is not the node that lost it
    have had : middle.parent = some p ∧ (other = target → p.id ≠ source) := by
      split at parent
      · obtain ⟨had, apart⟩ := Node.parent_freed parent
        exact ⟨had, fun _ => apart⟩
      · next different => exact ⟨parent, fun hit => absurd hit different⟩
    obtain ⟨kind, lists⟩ := sound.backed other old p was (sameParent.trans had.1)
    refine ⟨kind, (lists.removeTarget fun _ holder hit => had.2 hit holder).update ?_⟩
    intro n _
    rw [Node.freed_eq]
    exact List.Subset.refl _

end NodeTable

namespace Graph

variable {rule : NodeKind → Attributes → Prop}

/-- One more edge of a containment kind loses no far end. -/
theorem targets_subset_addTarget (n : Node) {e other : EdgeKind} (t : Target)
    (contains : other.isContainment = true) :
    n.targets other ⊆ (n.addTarget e t).targets other := by
  intro far mem
  unfold Node.addTarget
  by_cases same : other = e
  · subst same
    obtain ⟨s, slot, kind, -⟩ := Node.exists_slot_of_mem_targets mem
    have has : other ∈ n.edgeKinds := kind ▸ List.mem_map_of_mem slot
    rw [Node.targets_mapTargets_same has, EdgeKind.isSingle_of_isContainment contains]
    exact List.mem_append_left _ mem
  · rw [Node.targets_mapTargets_other n same]
    exact mem

/-- The kinds that nodes are widened to are concrete and named, and have all slots and the same
layers of attributes as the old kind. -/
theorem widened?_spec {kind wider : NodeKind} (widened : widened? kind = some wider) :
    wider.isAbstract = false ∧ wider.isKindOf .named = true ∧ wider.isKindOf kind = true ∧
      kind.edgeKinds ⊆ wider.edgeKinds ∧ Attributes.ofKind wider = Attributes.ofKind kind := by
  unfold widened? at widened
  split at widened
  · cases widened
    decide
  · cases widened
    decide
  · cases widened

/-- Other names and attributes keep a node well formed. -/
theorem Cosmetic.wellFormed {n m : Node} (cosmetic : Cosmetic rule n m) (wf : n.WellFormed) :
    m.WellFormed := by
  have unnamed : n.isNamed = false → m.name = .empty :=
    fun un => (cosmetic.name un).trans (wf.unnamed un)
  rw [cosmetic.rest]
  exact ⟨wf.valid, wf.concrete, wf.kinds, wf.slots, unnamed⟩

/-- Every edit keeps nodes at the positions of their ids, even when ids have run out. -/
theorem Edit.indexed {g h : Graph} (edit : Edit rule g h) (indexed : g.nodes.Indexed) :
    h.nodes.Indexed := by
  cases edit with
  | @create kind concrete => exact indexed.insert (.fresh g.nextId kind)
  | @createAt kind id concrete valid hole => exact indexed.insert (.fresh id kind)
  | touch cosmetic =>
    apply indexed.update
    intro n found
    rw [(cosmetic n found).rest]
  | @widen id kind n found wider =>
    apply indexed.update id
    intro m _
    rfl
  | @link e source t accepts =>
    have added : (g.nodes.update source fun n => n.addTarget e t).Indexed := by
      apply indexed.update source
      intro n _
      rfl
    rw [nodes_link]
    split
    · exact added.update t.id fun _ _ => rfl
    · exact added
  | @sever e source target n found points =>
    have removed : (g.nodes.update source fun n => n.removeTarget e target).Indexed := by
      apply indexed.update source
      intro n _
      rfl
    rw [nodes_unlink]
    split
    · apply removed.update target
      intro n _
      rw [Node.freed_eq]
    · exact removed
  | intern s => exact indexed
  | loadTexts input => exact indexed
  | index selector => exact indexed
  | filter filter filterOn => exact indexed
  | language language => exact indexed
  | remember key id =>
    unfold Graph.remember
    split <;> exact indexed

/-- Every edit keeps what insertions and changes of nodes keep. -/
theorem Edit.nodes_preserves {P : NodeTable → Prop} (insert : ∀ t id n, P t → P (t.insert id n))
    (update : ∀ t id f, P t → P (t.update id f)) {g h : Graph} (edit : Edit rule g h)
    (start : P g.nodes) : P h.nodes := by
  cases edit with
  | create concrete => exact insert _ _ _ start
  | createAt concrete valid hole => exact insert _ _ _ start
  | touch cosmetic => exact update _ _ _ start
  | widen found wider => exact update _ _ _ start
  | link accepts =>
    rw [nodes_link]
    split
    · exact update _ _ _ (update _ _ _ start)
    · exact update _ _ _ start
  | sever found points =>
    rw [nodes_unlink]
    split
    · exact update _ _ _ (update _ _ _ start)
    · exact update _ _ _ start
  | intern s => exact start
  | loadTexts input => exact start
  | index selector => exact start
  | filter filter filterOn => exact start
  | language language => exact start
  | remember key id =>
    unfold Graph.remember
    split <;> exact start

/-- The next new id can name a node. -/
theorem isValid_nextId (g : Graph) : g.nextId.isValid = true := by
  unfold nextId
  split
  · split
    · assumption
    · rfl
  · rfl

/-- Every edit keeps nodes well formed, even when ids have run out. -/
theorem Edit.wellFormed {g h : Graph} (edit : Edit rule g h) (wf : g.nodes.WellFormed) :
    h.nodes.WellFormed := by
  have inserted : ∀ {kind : NodeKind} {id : NodeId}, kind.isAbstract = false → id.isValid = true →
      (g.insertNode kind id).nodes.WellFormed := by
    intro kind id concrete valid other n found
    rw [nodes_insertNode, NodeTable.find?_insert] at found
    split at found
    · cases found
      exact Node.wellFormed_fresh valid concrete
    · exact wf other n found
  cases edit with
  | create concrete => exact inserted concrete g.isValid_nextId
  | createAt concrete valid hole => exact inserted concrete valid
  | touch cosmetic =>
    exact NodeTable.forall_update wf fun n found => (cosmetic n found).wellFormed (wf _ n found)
  | widen found wider =>
    obtain ⟨concrete, named, -⟩ := widened?_spec wider
    exact NodeTable.forall_update wf fun n here => (wf _ n here).promote concrete named
  | @link e source t accepts =>
    have added : (g.nodes.update source fun n => n.addTarget e t).WellFormed :=
      NodeTable.forall_update wf fun n found => (wf source n found).addTarget accepts.value
    rw [nodes_link]
    split
    · exact NodeTable.forall_update added fun n found => (added t.id n found).adopt _
    · exact added
  | @sever e source target n found points =>
    have removed : (g.nodes.update source fun n => n.removeTarget e target).WellFormed :=
      NodeTable.forall_update wf fun n found => (wf source n found).removeTarget e target
    rw [nodes_unlink]
    split
    · refine NodeTable.forall_update removed fun n found => ?_
      rw [Node.freed_eq]
      exact (removed target n found).adopt _
    · exact removed
  | intern s => exact wf
  | loadTexts input => exact wf
  | index selector => exact wf
  | filter filter filterOn => exact wf
  | language language => exact wf
  | remember key id =>
    unfold Graph.remember
    split <;> exact wf

/-- Every edit keeps the nodes of a graph sound while ids last. -/
theorem Edit.sound {g h : Graph} (edit : Edit rule g h) (room : g.size < idLimit)
    (sound : g.nodes.Sound) : h.nodes.Sound := by
  cases edit with
  | create concrete =>
    -- without room the next id would be in use, and its node would be lost with all it contains
    obtain ⟨valid, hole⟩ := nextId_fresh room
    exact sound.insert concrete valid hole
  | createAt concrete valid hole => exact sound.insert concrete valid hole
  | touch cosmetic =>
    apply sound.update
    · intro n found
      rw [(cosmetic n found).rest]
    · intro n found
      rw [(cosmetic n found).rest]
    · intro n found
      exact (cosmetic n found).wellFormed (sound.wellFormed _ n found)
    · intro n e found _
      rw [(cosmetic n found).rest]
      exact List.Subset.refl _
  | @widen id kind n found wider =>
    obtain ⟨concrete, named, -, more, -⟩ := widened?_spec wider
    have slots := (sound.wellFormed id n found).kinds
    have only : ∀ m, g.nodes.find? id = some m → m = n :=
      fun m here => Option.some.inj (here.symm.trans found)
    refine sound.update ?_ ?_ ?_ ?_
    · intro m _
      rfl
    · intro m _
      rfl
    · intro m here
      exact (sound.wellFormed id m here).promote concrete named
    · intro m e here _
      rw [only m here, Node.targets_promote (slots ▸ more)]
      exact List.Subset.refl _
  | @link e source t accepts =>
    have added : (g.nodes.update source fun n => n.addTarget e t).Sound := by
      refine sound.update ?_ ?_ ?_ ?_
      · intro n _
        rfl
      · intro n _
        rfl
      · intro n found
        exact (sound.wellFormed source n found).addTarget accepts.value
      · intro n other _ contains
        exact targets_subset_addTarget n t contains
    rw [nodes_link]
    split
    · next contains =>
      -- the new parent lists the node, by the edge that was just added
      apply added.adopt contains
      obtain ⟨n, found, has⟩ := accepts.source
      refine ⟨n.addTarget e t, ?_, t, ?_, rfl⟩
      · rw [NodeTable.find?_update_same]
        exact congrArg (Option.map _) found
      · unfold Node.addTarget
        rw [Node.targets_mapTargets_same has]
        exact List.mem_append_right _ (List.mem_singleton.2 rfl)
    · exact added
  | @sever e source target n found points =>
    rw [nodes_unlink]
    split
    · exact sound.release e source target
    · next cross => exact sound.removeTarget (Bool.eq_false_iff.2 cross) source target
  | intern s => exact sound
  | loadTexts input => exact sound
  | index selector => exact sound
  | filter filter filterOn => exact sound
  | language language => exact sound
  | remember key id =>
    unfold Graph.remember
    split <;> exact sound

/-- Every edit keeps attributes that suit their kinds, if it gives nodes no others. -/
theorem Edit.suited {g h : Graph} (edit : Edit Attributes.Suits g h) (suited : g.nodes.Suited) :
    h.nodes.Suited := by
  have inserted : ∀ kind id, (g.insertNode kind id).nodes.Suited := by
    intro kind id other n found
    change (g.nodes.insert id (.fresh id kind)).find? other = some n at found
    rw [NodeTable.find?_insert] at found
    split at found
    · cases found
      exact Attributes.SameLayers.refl _
    · exact suited other n found
  cases edit with
  | @create kind concrete => exact inserted kind _
  | @createAt kind id concrete valid hole => exact inserted kind id
  | @touch id f cosmetic =>
    refine NodeTable.forall_update suited fun n found => ?_
    have kind : (f n).kind = n.kind := by rw [(cosmetic n found).rest]
    rw [kind]
    rcases (cosmetic n found).attributes with same | suits
    · rw [same]
      exact suited _ n found
    · exact suits
  | @widen id kind n found wider =>
    refine NodeTable.forall_update suited fun m here => ?_
    have same : m = n := Option.some.inj (here.symm.trans found)
    have layers := (widened?_spec wider).2.2.2.2
    have suits := suited id m here
    rw [same] at suits ⊢
    change (Attributes.ofKind kind).SameLayers n.attributes
    rw [layers]
    exact suits
  | @link e source t accepts =>
    have added : (g.nodes.update source fun n => n.addTarget e t).Suited :=
      NodeTable.forall_update suited fun n found => suited source n found
    rw [nodes_link]
    split
    · exact NodeTable.forall_update added fun n found => added t.id n found
    · exact added
  | @sever e source target n found points =>
    have removed : (g.nodes.update source fun n => n.removeTarget e target).Suited :=
      NodeTable.forall_update suited fun n found => suited source n found
    rw [nodes_unlink]
    split
    · refine NodeTable.forall_update removed fun n found => ?_
      rw [Node.freed_eq]
      exact removed target n found
    · exact removed
  | intern s => exact suited
  | loadTexts input => exact suited
  | index selector => exact suited
  | filter filter filterOn => exact suited
  | language language => exact suited
  | remember key id =>
    unfold Graph.remember
    split <;> exact suited

end Graph

end CodeGraph
