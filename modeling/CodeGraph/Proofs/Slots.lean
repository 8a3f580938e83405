import CodeGraph.Node.Basic
import Mathlib.Data.List.Nodup

/-!
# Slots of a node

The edges of a node are kept in slots, one for each edge kind of the node's kind. A node is well
formed if its slots are exactly those, if every edge carries a value of the kind that its slot
asks for, and if a slot for one edge holds no more than one. Main statements: `mem_edges_iff` reads
the edges of a node off its slots, `targets_mapTargets_same` and `targets_promote` say what the
changes of a node do to the far ends of its edges, and each change keeps a node well formed.
-/

set_option autoImplicit false

namespace CodeGraph

/-- No edge kind is available twice on nodes of one kind. -/
theorem NodeKind.nodup_edgeKinds (k : NodeKind) : k.edgeKinds.Nodup := by
  cases k <;> decide

/-- The edges of a slot carry values of the right kind, and there is at most one if the kind allows
only one. -/
structure Slot.WellFormed (s : Slot) : Prop where
  /-- Every edge carries a value of the kind of the slot. -/
  carried : ∀ t ∈ s.targets, EdgeValue.kindOf t.value = s.kind.carries
  /-- A slot for one edge holds at most one. -/
  single : s.kind.isSingle = true → s.targets.length ≤ 1

/-- A slot without edges is well formed. -/
theorem Slot.wellFormed_empty (e : EdgeKind) : Slot.WellFormed { kind := e } :=
  ⟨fun _ absent => absurd absent List.not_mem_nil, fun _ => Nat.zero_le 1⟩

namespace Node

/-- A node as it may stand in a graph, whatever its edges point to. -/
structure WellFormed (n : Node) : Prop where
  /-- The id can name a node. -/
  valid : n.id.isValid = true
  /-- The kind is not abstract. -/
  concrete : n.kind.isAbstract = false
  /-- The slots are those of the kind, in order. -/
  kinds : n.edgeKinds = n.kind.edgeKinds
  /-- Every slot is well formed. -/
  slots : ∀ s ∈ n.slots, s.WellFormed
  /-- A node that is not named has the empty name. -/
  unnamed : n.isNamed = false → n.name = .empty

/-! ## Reading slots -/

/-- A far end lies in a slot of its kind. -/
theorem exists_slot_of_mem_targets {n : Node} {e : EdgeKind} {t : Target}
    (mem : t ∈ n.targets e) : ∃ s ∈ n.slots, s.kind = e ∧ s.targets = n.targets e := by
  unfold targets slot? at mem ⊢
  cases found : n.slots.find? fun s => s.kind = e with
  | none =>
    rw [found] at mem
    exact absurd mem List.not_mem_nil
  | some s =>
    refine ⟨s, List.mem_of_find?_eq_some found, ?_, rfl⟩
    simpa using List.find?_some found

/-- Where no kind has two slots, the far ends of a kind are those of its slot. -/
theorem targets_of_mem {n : Node} (distinct : n.edgeKinds.Nodup) {s : Slot} (mem : s ∈ n.slots) :
    n.targets s.kind = s.targets := by
  unfold targets slot?
  unfold edgeKinds at distinct
  have found : n.slots.find? (fun other => other.kind = s.kind) = some s := by
    generalize n.slots = slots at distinct mem
    induction slots with
    | nil => exact absurd mem List.not_mem_nil
    | cons first rest ih =>
      rw [List.map_cons, List.nodup_cons] at distinct
      rcases List.mem_cons.1 mem with rfl | later
      · simp
      · have apart : first.kind ≠ s.kind := fun same =>
          distinct.1 (same ▸ List.mem_map_of_mem later)
        rw [List.find?_cons_of_neg (by simpa using apart)]
        exact ih distinct.2 later
  rw [found]

/-- A node has edges of a kind if it has a slot for them. -/
theorem hasEdgeKind_iff (n : Node) (e : EdgeKind) : n.hasEdgeKind e = true ↔ e ∈ n.edgeKinds := by
  unfold hasEdgeKind slot? edgeKinds
  rw [List.find?_isSome, List.mem_map]
  simp

/-- A node without a slot for a kind has no edges of it. -/
theorem targets_eq_nil {n : Node} {e : EdgeKind} (missing : e ∉ n.edgeKinds) :
    n.targets e = [] := by
  apply List.eq_nil_iff_forall_not_mem.2
  intro t mem
  obtain ⟨s, slot, rfl, -⟩ := exists_slot_of_mem_targets mem
  exact missing (List.mem_map_of_mem slot)

/-- The edges of a node start at the node. -/
theorem source_of_mem_edges {n : Node} {e : Edge} (mem : e ∈ n.edges) : e.source = n.id := by
  obtain ⟨s, -, mem⟩ := List.mem_flatMap.1 mem
  obtain ⟨t, -, rfl⟩ := List.mem_map.1 mem
  rfl

/-- The edges of a node are the far ends in its slots, seen from the node. -/
theorem mem_edges_iff {n : Node} (distinct : n.edgeKinds.Nodup) (e : Edge) :
    e ∈ n.edges ↔ e.source = n.id ∧ ⟨e.target, e.value⟩ ∈ n.targets e.kind := by
  unfold edges
  rw [List.mem_flatMap]
  constructor
  · rintro ⟨s, slot, mem⟩
    obtain ⟨t, inside, rfl⟩ := List.mem_map.1 mem
    refine ⟨rfl, ?_⟩
    rw [targets_of_mem distinct slot]
    exact inside
  · rintro ⟨here, inside⟩
    obtain ⟨s, slot, kind, same⟩ := exists_slot_of_mem_targets inside
    refine ⟨s, slot, List.mem_map.2 ⟨⟨e.target, e.value⟩, same ▸ inside, ?_⟩⟩
    rw [kind, ← here]

/-- The number of edges of a kind that point to an id is the number of such far ends. -/
theorem countP_edges {n : Node} (distinct : n.edgeKinds.Nodup) (e : EdgeKind) (target : NodeId) :
    (n.edges.countP fun edge => edge.kind = e ∧ edge.target = target) =
      (n.targets e).countP fun t => t.id = target := by
  have inSlot : ∀ s : Slot,
      ((s.targets.map fun t => Edge.mk s.kind n.id t.id t.value).countP fun edge =>
        edge.kind = e ∧ edge.target = target) =
      if s.kind = e then s.targets.countP fun t => t.id = target else 0 := by
    intro s
    rw [List.countP_map]
    by_cases same : s.kind = e <;> simp [same, Function.comp_def]
  unfold edges
  rw [List.countP_flatMap]
  simp only [Function.comp_def, inSlot]
  unfold targets slot?
  unfold edgeKinds at distinct
  generalize n.slots = slots at distinct
  -- past the slot of the kind no other slot counts, since no kind has two
  induction slots with
  | nil => rfl
  | cons s rest ih =>
    rw [List.map_cons, List.nodup_cons] at distinct
    rw [List.map_cons, List.sum_cons, ih distinct.2]
    by_cases same : s.kind = e
    · have missing : rest.find? (fun other => other.kind = e) = none := by
        rw [List.find?_eq_none]
        intro other later sameKind
        apply distinct.1
        rw [same, ← of_decide_eq_true sameKind]
        exact List.mem_map_of_mem later
      rw [List.find?_cons_of_pos (by simpa using same), missing, if_pos same]
      rfl
    · rw [List.find?_cons_of_neg (by simpa using same), if_neg same, Nat.zero_add]

/-- A well-formed node has one slot for a kind at most. -/
theorem WellFormed.distinct {n : Node} (wf : n.WellFormed) : n.edgeKinds.Nodup := by
  rw [wf.kinds]
  exact n.kind.nodup_edgeKinds

/-- The edges of a well-formed node carry values of the right kind. -/
theorem WellFormed.kindOf_value {n : Node} (wf : n.WellFormed) {e : EdgeKind} {t : Target}
    (mem : t ∈ n.targets e) : EdgeValue.kindOf t.value = e.carries := by
  obtain ⟨s, slot, rfl, same⟩ := exists_slot_of_mem_targets mem
  exact (wf.slots s slot).carried t (same ▸ mem)

/-- A well-formed node has one edge at most of a kind that allows one. -/
theorem WellFormed.length_targets_le {n : Node} (wf : n.WellFormed) {e : EdgeKind}
    (single : e.isSingle = true) : (n.targets e).length ≤ 1 := by
  cases shape : n.targets e with
  | nil => exact Nat.zero_le 1
  | cons t ts =>
    obtain ⟨s, slot, rfl, same⟩ := exists_slot_of_mem_targets (shape ▸ List.mem_cons_self)
    rw [← shape, ← same]
    exact (wf.slots s slot).single single

/-! ## Changing slots -/

/-- Changing the edges of a slot keeps the kinds of the slots. -/
theorem map_kind_updateSlot (e : EdgeKind) (f : List Target → List Target) (slots : List Slot) :
    (updateSlot e f slots).map Slot.kind = slots.map Slot.kind := by
  induction slots with
  | nil => rfl
  | cons s rest ih =>
    unfold updateSlot
    split
    · rfl
    · rw [List.map_cons, ih, List.map_cons]

/-- Changing the edges of a kind keeps the slots of a node. -/
@[simp] theorem edgeKinds_mapTargets (n : Node) (e : EdgeKind) (f : List Target → List Target) :
    (n.mapTargets e f).edgeKinds = n.edgeKinds :=
  map_kind_updateSlot e f n.slots

/-- After the edges of a kind are changed, every slot is an old one, or one of that kind with its
edges changed. -/
theorem mem_updateSlot {e : EdgeKind} {f : List Target → List Target} {slots : List Slot} {s : Slot}
    (mem : s ∈ updateSlot e f slots) :
    s ∈ slots ∨ ∃ old ∈ slots, old.kind = e ∧ s = { old with targets := f old.targets } := by
  induction slots with
  | nil => exact absurd mem List.not_mem_nil
  | cons first rest ih =>
    unfold updateSlot at mem
    split at mem
    · next same =>
      rcases List.mem_cons.1 mem with rfl | later
      · exact Or.inr ⟨first, List.mem_cons_self, same, rfl⟩
      · exact Or.inl (List.mem_cons_of_mem _ later)
    · rcases List.mem_cons.1 mem with rfl | later
      · exact Or.inl List.mem_cons_self
      · rcases ih later with old | ⟨old, mem', same, rfl⟩
        · exact Or.inl (List.mem_cons_of_mem _ old)
        · exact Or.inr ⟨old, List.mem_cons_of_mem _ mem', same, rfl⟩

/-- The slot for a kind is found with its edges changed if they are of that kind. -/
theorem find?_updateSlot (e other : EdgeKind) (f : List Target → List Target) (slots : List Slot) :
    (updateSlot e f slots).find? (fun s => s.kind = other) =
      (slots.find? fun s => s.kind = other).map fun s =>
        if other = e then { s with targets := f s.targets } else s := by
  induction slots with
  | nil => rfl
  | cons s rest ih =>
    unfold updateSlot
    by_cases same : s.kind = e
    · by_cases asked : s.kind = other
      · simp [same, ← asked]
      · have different : other ≠ e := fun eq => asked (same.trans eq.symm)
        simp [same, different, different.symm]
    · by_cases asked : s.kind = other
      · have different : other ≠ e := fun eq => same (asked.trans eq)
        simp [asked, different]
      · simp only [if_neg same]
        rw [List.find?_cons_of_neg (by simpa using asked), ih,
          List.find?_cons_of_neg (by simpa using asked)]

/-- The edges of a kind are changed as asked for, if the node has a slot for them. -/
theorem targets_mapTargets_same {n : Node} {e : EdgeKind} (has : e ∈ n.edgeKinds)
    (f : List Target → List Target) : (n.mapTargets e f).targets e = f (n.targets e) := by
  rw [← hasEdgeKind_iff, hasEdgeKind] at has
  unfold targets slot? at *
  obtain ⟨s, found⟩ := Option.isSome_iff_exists.1 has
  simp only [mapTargets, find?_updateSlot, found, Option.map_some, if_true]

/-- Changing the edges of one kind keeps those of another. -/
theorem targets_mapTargets_other (n : Node) {e other : EdgeKind} (different : other ≠ e)
    (f : List Target → List Target) : (n.mapTargets e f).targets other = n.targets other := by
  unfold targets slot? mapTargets
  simp only [find?_updateSlot, if_neg different, Option.map_id']

/-- A far end after a change of the edges of one kind is an old or a new one. -/
theorem mem_targets_of_mapTargets {n : Node} {e other : EdgeKind} {f : List Target → List Target}
    {t : Target} (mem : t ∈ (n.mapTargets e f).targets other) :
    t ∈ n.targets other ∨ other = e ∧ t ∈ f (n.targets e) := by
  by_cases same : other = e
  · subst same
    obtain ⟨s, slot, kind, -⟩ := exists_slot_of_mem_targets mem
    have has : s.kind ∈ (n.mapTargets other f).edgeKinds := List.mem_map_of_mem slot
    rw [edgeKinds_mapTargets, kind] at has
    rw [targets_mapTargets_same has] at mem
    exact Or.inr ⟨rfl, mem⟩
  · rw [targets_mapTargets_other n same] at mem
    exact Or.inl mem

/-- An edge that there is after one was added is an old one or the new one. -/
theorem mem_targets_of_addTarget {n : Node} {e other : EdgeKind} {t far : Target}
    (mem : far ∈ (n.addTarget e t).targets other) :
    far ∈ n.targets other ∨ other = e ∧ far = t := by
  rcases mem_targets_of_mapTargets mem with old | ⟨rfl, new⟩
  · exact Or.inl old
  · rcases List.mem_append.1 new with old | added
    · left
      split at old
      · exact (List.dropLast_sublist _).subset old
      · exact old
    · exact Or.inr ⟨rfl, List.mem_singleton.1 added⟩

/-- An edge that there is after one was removed was there before. -/
theorem mem_targets_of_removeTarget {n : Node} {e other : EdgeKind} {target : NodeId} {far : Target}
    (mem : far ∈ (n.removeTarget e target).targets other) : far ∈ n.targets other := by
  rcases mem_targets_of_mapTargets mem with old | ⟨rfl, left⟩
  · exact old
  · exact List.mem_of_mem_eraseP left

/-- A fresh node has no edges. -/
@[simp] theorem targets_fresh (id : NodeId) (kind : NodeKind) (e : EdgeKind) :
    (fresh id kind).targets e = [] := by
  apply List.eq_nil_iff_forall_not_mem.2
  intro t mem
  obtain ⟨s, slot, -, same⟩ := exists_slot_of_mem_targets mem
  obtain ⟨kind', -, rfl⟩ := List.mem_map.1 slot
  rw [← same] at mem
  exact absurd mem List.not_mem_nil

/-- A node that is promoted has the slots of its new kind. -/
@[simp] theorem edgeKinds_promote (n : Node) (kind : NodeKind) :
    (n.promote kind).edgeKinds = kind.edgeKinds := by
  unfold edgeKinds promote slotsOf
  rw [List.map_map, List.map_map]
  exact List.map_id _

/-- A promoted node keeps its far ends, as far as its new kind has slots for them. -/
theorem targets_promote {n : Node} {kind : NodeKind} (wider : n.edgeKinds ⊆ kind.edgeKinds)
    (e : EdgeKind) : (n.promote kind).targets e = n.targets e := by
  by_cases has : e ∈ kind.edgeKinds
  · have distinct : (n.promote kind).edgeKinds.Nodup := by
      rw [edgeKinds_promote]
      exact kind.nodup_edgeKinds
    have slot : { kind := e, targets := n.targets e } ∈ (n.promote kind).slots := by
      unfold promote slotsOf
      rw [List.map_map]
      exact List.mem_map.2 ⟨e, has, rfl⟩
    exact targets_of_mem distinct slot
  · rw [targets_eq_nil (fun had => has (wider had)), targets_eq_nil]
    rw [edgeKinds_promote]
    exact has

/-! ## Changes keep a node well formed -/

/-- A fresh node has the slots of its kind. -/
theorem edgeKinds_fresh (id : NodeId) (kind : NodeKind) :
    (fresh id kind).edgeKinds = kind.edgeKinds := by
  unfold edgeKinds fresh slotsOf
  rw [List.map_map]
  exact List.map_id _

/-- A fresh node of a concrete kind at a valid id is well formed. -/
theorem wellFormed_fresh {id : NodeId} {kind : NodeKind} (valid : id.isValid = true)
    (concrete : kind.isAbstract = false) : (fresh id kind).WellFormed where
  valid := valid
  concrete := concrete
  kinds := edgeKinds_fresh id kind
  slots := by
    intro s mem
    obtain ⟨e, -, rfl⟩ := List.mem_map.1 mem
    exact Slot.wellFormed_empty e
  unnamed := fun _ => rfl

/-- Other attributes keep a node well formed. -/
theorem WellFormed.describe {n : Node} (wf : n.WellFormed) (attributes : Attributes) :
    { n with attributes }.WellFormed :=
  ⟨wf.valid, wf.concrete, wf.kinds, wf.slots, wf.unnamed⟩

/-- Another parent keeps a node well formed. -/
theorem WellFormed.adopt {n : Node} (wf : n.WellFormed) (parent : Option Parent) :
    { n with parent }.WellFormed :=
  ⟨wf.valid, wf.concrete, wf.kinds, wf.slots, wf.unnamed⟩

/-- Renaming a node keeps its id. -/
theorem id_setName (n : Node) (name : TextKey) : (n.setName name).id = n.id := by
  unfold setName
  split <;> rfl

/-- Renaming a node keeps its kind. -/
theorem kind_setName (n : Node) (name : TextKey) : (n.setName name).kind = n.kind := by
  unfold setName
  split <;> rfl

/-- Renaming a node keeps it well formed. -/
theorem WellFormed.setName {n : Node} (wf : n.WellFormed) (name : TextKey) :
    (n.setName name).WellFormed := by
  unfold Node.setName
  split
  · next named =>
    refine ⟨wf.valid, wf.concrete, wf.kinds, wf.slots, fun unnamed => ?_⟩
    exact absurd (named.symm.trans unnamed) (by decide)
  · exact wf

/-- A change of the edges of one kind keeps a node well formed if it keeps their slot so. -/
theorem WellFormed.mapTargets {n : Node} (wf : n.WellFormed) {e : EdgeKind}
    {f : List Target → List Target}
    (keeps : ∀ ts, Slot.WellFormed ⟨e, ts⟩ → Slot.WellFormed ⟨e, f ts⟩) :
    (n.mapTargets e f).WellFormed where
  valid := wf.valid
  concrete := wf.concrete
  kinds := (edgeKinds_mapTargets n e f).trans wf.kinds
  slots := by
    intro s mem
    rcases mem_updateSlot mem with old | ⟨old, slot, rfl, rfl⟩
    · exact wf.slots s old
    · exact keeps old.targets (wf.slots old slot)
  unnamed := wf.unnamed

/-- One more edge with a value of the right kind keeps a node well formed. -/
theorem WellFormed.addTarget {n : Node} (wf : n.WellFormed) {e : EdgeKind} {t : Target}
    (carried : EdgeValue.kindOf t.value = e.carries) : (n.addTarget e t).WellFormed := by
  apply wf.mapTargets
  intro ts old
  refine ⟨fun other mem => ?_, fun single => ?_⟩
  · rcases List.mem_append.1 mem with before | new
    · split at before
      · exact old.carried other ((List.dropLast_sublist ts).subset before)
      · exact old.carried other before
    · rw [List.mem_singleton.1 new]
      exact carried
  · have short := old.single single
    simp only at single short ⊢
    rw [if_pos single, List.length_append, List.length_dropLast, List.length_singleton]
    omega

/-- One edge less keeps a node well formed. -/
theorem WellFormed.removeTarget {n : Node} (wf : n.WellFormed) (e : EdgeKind) (target : NodeId) :
    (n.removeTarget e target).WellFormed := by
  apply wf.mapTargets
  intro ts old
  refine ⟨fun t mem => old.carried t (List.mem_of_mem_eraseP mem), fun single => ?_⟩
  exact Nat.le_trans List.eraseP_sublist.length_le (old.single single)

/-- A node that is promoted to a named concrete kind stays well formed. -/
theorem WellFormed.promote {n : Node} (wf : n.WellFormed) {kind : NodeKind}
    (concrete : kind.isAbstract = false) (named : kind.isKindOf .named = true) :
    (n.promote kind).WellFormed where
  valid := wf.valid
  concrete := concrete
  kinds := edgeKinds_promote n kind
  slots := by
    intro s mem
    obtain ⟨empty, slot, rfl⟩ := List.mem_map.1 mem
    refine ⟨fun t far => wf.kindOf_value far, fun single => wf.length_targets_le single⟩
  unnamed := fun unnamed => absurd (named.symm.trans unnamed) (by decide)

end Node

end CodeGraph
