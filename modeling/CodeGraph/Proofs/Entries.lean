import CodeGraph.Proofs.EdgeChanges

/-!
# Opening files and folders

An entry that is asked for is found in its container, or is made there: a new node below the
container, with the kind and the name that were asked for. A container that cannot have entries
refuses it, and then the new node stays on its own. Main statements: `opens_openEntry`, these cases,
and `createFileFrom_eq_ok`, a file is opened by opening the folders above it one after the other.
-/

set_option autoImplicit false

namespace CodeGraph

namespace Graph

variable {g h : Graph} {container id : NodeId} {holder : Node} {name : String} {kind : NodeKind}

/-- Containers list their entries by containment edges. -/
theorem isContainment_entryEdge (holder : Node) : (entryEdge holder).isContainment = true := by
  unfold entryEdge
  split <;> rfl

/-- A container may list several entries. -/
theorem isSingle_entryEdge (holder : Node) : (entryEdge holder).isSingle = false :=
  EdgeKind.isSingle_of_isContainment (isContainment_entryEdge holder)

/-- The edges of containers lead to files and folders. -/
theorem target_entryEdge (holder : Node) : (entryEdge holder).target = .fsEntry := by
  unfold entryEdge
  split <;> rfl

/-- A new entry that its container lists. -/
def newEntry (container : NodeId) (holder : Node) (id : NodeId) (kind : NodeKind) (key : TextKey) :
    Node :=
  ((Node.fresh id kind).setName key).adopted ⟨container, entryEdge holder⟩

/-- A new entry has no edges. -/
theorem targets_newEntry (container : NodeId) (holder : Node) (id : NodeId) (kind : NodeKind)
    (key : TextKey) (e : EdgeKind) : (newEntry container holder id kind key).targets e = [] := by
  unfold newEntry Node.setName
  split <;> exact Node.targets_fresh id kind e

/-- The graph with a named node that no container lists. -/
def strayEntry (g : Graph) (name : String) (kind : NodeKind) : Graph :=
  ((g.intern name).2.newNodeWith kind fun n => n.setName (g.intern name).1).2

/-- A container gets an entry of a kind and a name that it had no entry of. -/
structure Enters (g : Graph) (container : NodeId) (holder : Node) (name : String) (kind : NodeKind)
    (id : NodeId) (h : Graph) : Prop where
  holds : g.find? container = some holder
  missing : g.findEntry holder name kind = none
  next : id = g.nextId
  hole : g.find? id = none
  edge : entryEdge holder ∈ holder.edgeKinds
  entry : kind.isKindOf .fsEntry = true
  texts : h.texts = (g.texts.intern name).2
  find : ∀ other, h.find? other =
    if other = id then some (newEntry container holder id kind (g.texts.intern name).1)
    else if other = container then some (holder.addTarget (entryEdge holder) { id })
    else g.find? other

/-- What becomes of asking for an entry. -/
inductive Opens (g : Graph) (container : NodeId) (name : String) (kind : NodeKind) :
    Except Error NodeId × Graph → Prop
  /-- There is no such container. -/
  | absent (cause : Error) : Opens g container name kind (.error cause, g)
  /-- The container lists the entry. -/
  | known (holder : Node) (id : NodeId) (holds : g.find? container = some holder)
      (entry : g.findEntry holder name kind = some id) : Opens g container name kind (.ok id, g)
  /-- The entry is made. -/
  | made (holder : Node) (id : NodeId) (h : Graph) (enters : g.Enters container holder name kind id h) :
      Opens g container name kind (.ok id, h)
  /-- The container refuses entries. -/
  | refused (cause : Error) : Opens g container name kind (.error cause, g.strayEntry name kind)

/-- A named node that no container lists is found at the next new id, and the others stay. -/
theorem find?_strayEntry (g : Graph) (name : String) (kind : NodeKind) (other : NodeId) :
    (g.strayEntry name kind).find? other =
      if other = g.nextId then some ((Node.fresh g.nextId kind).setName (g.texts.intern name).1)
      else g.find? other :=
  find?_newNodeWith (g.intern name).2 kind _ other

/-- A node that is added to a container is an entry from then on. -/
theorem enters_of_withEdge (holds : g.find? container = some holder)
    (missing : g.findEntry holder name kind = none) (room : g.size < idLimit)
    (added : (g.strayEntry name kind).withEdge (entryEdge holder) container g.nextId = .ok h) :
    g.Enters container holder name kind g.nextId h := by
  have hole := (nextId_fresh room).2
  have different : container ≠ g.nextId := by
    rintro rfl
    rw [hole] at holds
    cases holds
  have find := g.find?_strayEntry name kind
  have before : (g.strayEntry name kind).find? container = some holder := by
    rw [find, if_neg different, holds]
  have alone : (g.strayEntry name kind).find? g.nextId =
      some ((Node.fresh g.nextId kind).setName (g.texts.intern name).1) := by
    rw [find, if_pos rfl]
  obtain ⟨⟨⟨n, source, edge⟩, ⟨m, target, is⟩, -⟩, rfl⟩ := withEdge_eq_ok added
  cases before.symm.trans source
  cases alone.symm.trans target
  rw [target_entryEdge, Node.is, Node.kind_setName] at is
  refine ⟨holds, missing, rfl, hole, edge, is, texts_link _ _ _ _, fun other => ?_⟩
  -- the container gets its edge first, then the entry its parent
  have nodes := nodes_link (g.strayEntry name kind) (entryEdge holder) container
    { id := g.nextId }
  rw [if_pos (isContainment_entryEdge holder)] at nodes
  unfold find? at before alone ⊢
  rw [nodes, NodeTable.find?_update, NodeTable.find?_update, NodeTable.find?_update]
  by_cases here : other = g.nextId
  · rw [if_pos here, if_pos here, if_neg different.symm, alone]
    rfl
  · rw [if_neg here, if_neg here]
    by_cases there : other = container
    · rw [if_pos there, if_pos there, before]
      rfl
    · rw [if_neg there, if_neg there]
      exact (find other).trans (if_neg here)

/-- What becomes of asking for an entry, while ids last. -/
theorem opens_openEntry (room : g.size < idLimit) (container : NodeId) (name : String)
    (kind : NodeKind) : g.Opens container name kind (g.openEntry container name kind) := by
  rw [openEntry_eq]
  unfold withEntry
  split
  · exact .absent _
  · next holder holds =>
    split
    · next id entry => exact .known holder id holds entry
    · next missing =>
      simp only
      split
      · exact .refused _
      · next h added => exact .made holder _ h (enters_of_withEdge holds missing room added)

/-- An entry is given because the container lists it, or because it was made there. -/
theorem openEntry_eq_ok (room : g.size < idLimit)
    (opened : g.openEntry container name kind = (.ok id, h)) :
    (∃ holder, g.find? container = some holder ∧ g.findEntry holder name kind = some id ∧ h = g) ∨
      ∃ holder, g.Enters container holder name kind id h := by
  have opens := opens_openEntry room container name kind
  rw [opened] at opens
  cases opens with
  | known holder _ holds entry => exact Or.inl ⟨holder, holds, entry, rfl⟩
  | made holder _ _ enters => exact Or.inr ⟨holder, enters⟩

/-- Opening an entry never makes a graph smaller. -/
theorem size_le_of_openEntry {result : Except Error NodeId} (concrete : kind.isAbstract = false)
    (opened : g.openEntry container name kind = (result, h)) : g.size ≤ h.size := by
  have run : EditRun (fun _ _ => True) g (g.openEntry container name kind).2 :=
    edits_openEntry g container name concrete
  rw [opened] at run
  exact run.size_le

/-! ## Folders and files -/

/-- Folders are opened from the outermost one inwards. -/
theorem openFolders_cons_eq_ok {names : List String}
    (opened : g.openFolders container (name :: names) = (.ok id, h)) :
    name.isEmpty = false ∧ ∃ folder between,
      g.openEntry container name .folder = (.ok folder, between) ∧
      between.openFolders folder names = (.ok id, h) := by
  unfold openFolders at opened
  split at opened
  · cases opened
  · next something =>
    split at opened
    · cases opened
    · next folder between first => exact ⟨Bool.eq_false_iff.2 something, folder, between, first, opened⟩

/-- Opening folders never makes a graph smaller. -/
theorem size_le_of_openFolders {names : List String} {result : Except Error NodeId}
    (opened : g.openFolders container names = (result, h)) : g.size ≤ h.size := by
  have le := openFolders_preserves (P := fun h => g.size ≤ h.size)
    (fun h container name before => Nat.le_trans before (size_le_of_openEntry rfl rfl))
    names g container (Nat.le_refl _)
  rw [opened] at le
  exact le

/-- A file is opened in the innermost of the folders above it. -/
theorem createFileFrom_eq_ok {path : String} {start : NodeId}
    (created : g.createFileFrom path start = (.ok id, h)) :
    ∃ n folder between, g.find? start = some n ∧ (n.kind = .folder ∨ n.kind = .fileSystem) ∧
      g.openFolders start (pathNames path).dropLast = (.ok folder, between) ∧
      ((pathNames path).getLast?.getD "").isEmpty = false ∧
      between.openEntry folder ((pathNames path).getLast?.getD "") .file = (.ok id, h) := by
  unfold createFileFrom at created
  split at created
  · cases created
  · next n found =>
    split at created
    · next allowed =>
      simp only at created
      split at created
      · cases created
      · next folder between opened =>
        split at created
        · cases created
        · next something =>
          exact ⟨n, folder, between, found, by simpa using allowed, opened,
            Bool.eq_false_iff.2 something, created⟩
    · cases created

end Graph

end CodeGraph
