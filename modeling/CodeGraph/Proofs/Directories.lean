import CodeGraph.Proofs.Entries
import CodeGraph.Proofs.Filing
import CodeGraph.Proofs.Stability
import CodeGraph.Proofs.TextHistories

/-!
# Directories

A file or folder is an entry of the container that lists it. A graph is tidy if every entry can be
found by its kind and name, no container has two entries of one kind and name, and no entry is listed
twice (`Tidy`). In a tidy graph an entry that is asked for is the one that is listed
(`findEntry_eq_some_iff`). Opening files and folders keeps a graph tidy, and so do all other operations
that leave the entries and their names alone (`Operation.SparesEntries`). Main statement:
`Along.upkeep`, a history of such operations keeps a graph tidy and every entry where it is, while ids
and keys last.
-/

set_option autoImplicit false

namespace CodeGraph

open TextTable (lastKey)

/-- The edges by which containers list their entries. -/
def entryEdges : List EdgeKind :=
  [.fileSystemHasFSEntry, .folderContains]

namespace Node

variable {n m : Node}

/-- The entries that a node lists. -/
def entries (n : Node) : List NodeId :=
  entryEdges.flatMap fun e => (n.targets e).map Target.id

/-- Nodes with the same edges to entries have the same entries. -/
theorem entries_congr (same : ∀ e ∈ entryEdges, m.targets e = n.targets e) : m.entries = n.entries :=
  List.flatMap_congr fun e mem => congrArg (List.map Target.id) (same e mem)

/-- Changing edges of another kind keeps the entries. -/
theorem entries_mapTargets {e : EdgeKind} (other : e ∉ entryEdges) (n : Node)
    (f : List Target → List Target) : (n.mapTargets e f).entries = n.entries := by
  refine entries_congr fun e' mem => targets_mapTargets_other n ?_ f
  rintro rfl
  exact other mem

/-- A fresh node has no entries. -/
theorem entries_fresh (id : NodeId) (kind : NodeKind) : (fresh id kind).entries = [] := by
  simp [entries, entryEdges]

/-- Renaming a node keeps its entries. -/
theorem entries_setName (n : Node) (key : TextKey) : (n.setName key).entries = n.entries := by
  unfold setName
  split <;> rfl

/-- Only the file system lists entries as its own. -/
theorem kind_of_listsEntries {kind : NodeKind} (lists : .fileSystemHasFSEntry ∈ kind.edgeKinds) :
    kind = .fileSystem := by
  revert lists
  cases kind <;> decide

/-- A node lists its entries by the edges that are looked at when one of them is asked for. -/
theorem entries_eq (kinds : n.edgeKinds = n.kind.edgeKinds) :
    n.entries = (n.targets (Graph.entryEdge n)).map Target.id := by
  unfold Graph.entryEdge
  split
  · next is =>
    have nothing : n.targets .folderContains = [] := by
      apply targets_eq_nil
      rw [kinds, is]
      decide
    simp [entries, entryEdges, nothing]
  · next other =>
    have nothing : n.targets .fileSystemHasFSEntry = [] := by
      apply targets_eq_nil
      rw [kinds]
      exact fun lists => other (kind_of_listsEntries lists)
    simp [entries, entryEdges, nothing]

/-- A container that gets one more entry lists it last. -/
theorem entries_addTarget (kinds : n.edgeKinds = n.kind.edgeKinds)
    (has : Graph.entryEdge n ∈ n.edgeKinds) (id : NodeId) :
    (n.addTarget (Graph.entryEdge n) { id }).entries = n.entries ++ [id] := by
  have added : (n.addTarget (Graph.entryEdge n) { id }).targets (Graph.entryEdge n) =
      n.targets (Graph.entryEdge n) ++ [({ id } : Target)] := by
    unfold addTarget
    rw [targets_mapTargets_same has, Graph.isSingle_entryEdge]
    rfl
  have still : (n.addTarget (Graph.entryEdge n) { id }).edgeKinds = n.kind.edgeKinds :=
    (edgeKinds_mapTargets n _ _).trans kinds
  rw [entries_eq kinds, entries_eq still]
  change (Node.targets _ (Graph.entryEdge n)).map Target.id = _
  rw [added, List.map_append]
  rfl

end Node

namespace Graph

variable {g h k : Graph} {container other id : NodeId} {holder : Node} {name : String}
  {kind : NodeKind}

/-! ## Entries and their names -/

/-- A container lists an entry. -/
def Lists (g : Graph) (container id : NodeId) : Prop :=
  ∃ holder, g.find? container = some holder ∧ id ∈ holder.entries

/-- A node has a kind, and a name by which it can be found. -/
def Named (g : Graph) (id : NodeId) (kind : NodeKind) (name : String) : Prop :=
  ∃ n, g.find? id = some n ∧ n.kind = kind ∧ g.texts.keyOf? name = some n.name

/-- A container lists an entry of a kind and a name. -/
structure IsEntry (g : Graph) (container id : NodeId) (kind : NodeKind) (name : String) : Prop where
  lists : g.Lists container id
  named : g.Named id kind name

/-- The tables of nodes and texts are in order. -/
structure Orderly (g : Graph) : Prop where
  indexed : g.nodes.Indexed
  wellFormed : g.nodes.WellFormed
  numbered : g.texts.Numbered
  consistent : g.texts.Consistent

/-- Entries are files and folders that can be found by name. A container has one of a kind and a name
at most, and lists it once, and no other container lists it. -/
structure Tidy (g : Graph) : Prop extends Orderly g where
  root : ∃ n, g.find? g.fileSystem = some n ∧ n.kind = .fileSystem
  listed : ∀ {container id}, g.Lists container id →
    ∃ kind name, (kind = .file ∨ kind = .folder) ∧ g.Named id kind name
  apart : ∀ {container id id' kind name}, g.IsEntry container id kind name →
    g.IsEntry container id' kind name → id = id'
  distinct : ∀ {container holder}, g.find? container = some holder → holder.entries.Nodup
  once : ∀ {container container' id}, g.Lists container id → g.Lists container' id →
    container = container'

/-- An edit keeps the tables of nodes and texts in order. -/
theorem Edit.orderly {rule : NodeKind → Attributes → Prop} (edit : Edit rule g h)
    (orderly : g.Orderly) : h.Orderly where
  indexed := edit.indexed orderly.indexed
  wellFormed := edit.wellFormed orderly.wellFormed
  numbered := edit.numbered orderly.numbered
  consistent := edit.texts_preserves (P := TextTable.Consistent) (fun _ s before => before.intern s)
    (fun _ input before => before.load input) orderly.consistent

/-- A step of loading keeps the tables of nodes and texts in order. -/
theorem LoadStep.orderly (step : LoadStep g h) (orderly : g.Orderly) : h.Orderly := by
  refine ⟨step.indexed orderly.indexed, step.wellFormed orderly.wellFormed,
    step.numbered orderly.numbered, ?_⟩
  cases step with
  | texts input => exact orderly.consistent.load input
  | intern s => exact orderly.consistent.intern s
  | _ => exact orderly.consistent

/-- The tables of nodes and texts are in order after every history. -/
theorem orderly_after (language : Language) (history : List Operation) :
    ((new language).after history).Orderly := by
  have edits : ∀ g h, Edit (fun _ _ => True) g h → g.Orderly → h.Orderly :=
    fun _ _ edit => edit.orderly
  have clears : ∀ language filterOn, (empty language filterOn).Orderly :=
    fun language filterOn => ⟨NodeTable.indexed_empty, wellFormed_empty language filterOn,
      TextTable.numbered_empty, TextTable.consistent_empty⟩
  exact preserves_after edits (fun _ _ step => step.orderly) clears language history

/-- Editing does not move the file system. -/
theorem Edit.fileSystem {rule : NodeKind → Attributes → Prop} (edit : Edit rule g h) :
    h.fileSystem = g.fileSystem := by
  cases edit with
  | @link e source t accepts =>
    exact link_preserves (P := fun h => h.fileSystem = g.fileSystem)
      (fun _ _ _ same => same) (fun _ _ same => same) e source t rfl
  | @sever e source target n found points =>
    exact unlink_preserves (P := fun h => h.fileSystem = g.fileSystem)
      (fun _ _ _ same => same) (fun _ _ same => same) e source target rfl
  | remember key id =>
    unfold Graph.remember
    split <;> rfl
  | _ => rfl

/-- Edits keep the file system what it is. -/
theorem EditRun.fileSystem {rule : NodeKind → Attributes → Prop} (run : EditRun rule g h) :
    h.fileSystem = g.fileSystem := by
  induction run with
  | refl => rfl
  | tail _ edit ih => exact edit.fileSystem.trans ih

/-- If the last key is unused after some edits, it was unused before. -/
theorem EditRun.unused {rule : NodeKind → Attributes → Prop} (run : EditRun rule g h)
    (unused : h.texts.texts.find? lastKey = none) : g.texts.texts.find? lastKey = none := by
  induction run with
  | refl => exact unused
  | tail _ edit ih => exact ih (edit.unused unused)

/-- A node has one kind and one name. -/
theorem Orderly.named_inj (orderly : g.Orderly) (unused : g.texts.texts.find? lastKey = none)
    {kind' : NodeKind} {name' : String} (named : g.Named id kind name)
    (named' : g.Named id kind' name') : kind' = kind ∧ name' = name := by
  obtain ⟨n, found, rfl, known⟩ := named
  obtain ⟨n', found', rfl, known'⟩ := named'
  cases found.symm.trans found'
  have text := orderly.consistent.get_of_keyOf? orderly.numbered unused known
  have text' := orderly.consistent.get_of_keyOf? orderly.numbered unused known'
  exact ⟨rfl, Except.ok.inj (text'.symm.trans text)⟩

/-- What is found by name is an entry. -/
theorem Orderly.isEntry_of_findEntry (orderly : g.Orderly) (holds : g.find? container = some holder)
    (found : g.findEntry holder name kind = some id) : g.IsEntry container id kind name := by
  unfold findEntry at found
  split at found
  · cases found
  · next key known =>
    obtain ⟨n, first, rfl⟩ := Option.map_eq_some_iff.1 found
    obtain ⟨t, listed, there⟩ := List.mem_filterMap.1 (List.mem_of_find?_eq_some first)
    have right : n.kind = kind ∧ n.name = key := by simpa using List.find?_some first
    have number : n.id = t.id := orderly.indexed.id_eq there
    rw [number]
    refine ⟨⟨holder, holds, ?_⟩, n, there, right.1, right.2 ▸ known⟩
    rw [Node.entries_eq (orderly.wellFormed container holder holds).kinds]
    exact List.mem_map_of_mem listed

/-- An entry that is asked for is the one that is listed. -/
theorem Tidy.findEntry_eq_some_iff (tidy : g.Tidy) (holds : g.find? container = some holder) :
    g.findEntry holder name kind = some id ↔ g.IsEntry container id kind name := by
  refine ⟨tidy.isEntry_of_findEntry holds, fun entry => ?_⟩
  -- some entry is found, and there is only this one
  obtain ⟨holder', holds', listed⟩ := entry.lists
  obtain ⟨n, there, is, known⟩ := entry.named
  cases holds.symm.trans holds'
  rw [Node.entries_eq (tidy.wellFormed container holder holds).kinds] at listed
  obtain ⟨t, target, rfl⟩ := List.mem_map.1 listed
  have looked : n ∈ (holder.targets (entryEdge holder)).filterMap fun t => g.find? t.id :=
    List.mem_filterMap.2 ⟨t, target, there⟩
  cases found : g.findEntry holder name kind with
  | some id' => rw [tidy.apart entry (tidy.isEntry_of_findEntry holds found)]
  | none =>
    unfold findEntry at found
    rw [known] at found
    have nothing := List.find?_eq_none.1 (Option.map_eq_none_iff.1 found) n looked
    simp [is] at nothing

/-- Opening an entry that is there gives it and changes nothing. -/
theorem Tidy.openEntry_of_isEntry (tidy : g.Tidy) (entry : g.IsEntry container id kind name) :
    g.openEntry container name kind = (.ok id, g) := by
  obtain ⟨holder, holds, -⟩ := entry.lists
  rw [openEntry_eq]
  unfold withEntry
  simp only [holds, (tidy.findEntry_eq_some_iff holds).2 entry]

/-! ## What becomes of entries -/

/-- While ids and keys last, a tidy graph has become another tidy one, which has the same entries and
maybe more. -/
structure Upkeep (g h : Graph) : Prop where
  fileSystem : h.fileSystem = g.fileSystem
  size : g.size ≤ h.size
  unused : h.texts.texts.find? lastKey = none → g.texts.texts.find? lastKey = none
  tidy : h.size < idLimit → h.texts.texts.find? lastKey = none → g.Tidy → h.Tidy
  entry : h.size < idLimit → h.texts.texts.find? lastKey = none → g.Tidy →
    ∀ {container id kind name}, g.IsEntry container id kind name → h.IsEntry container id kind name

namespace Upkeep

/-- A graph that nothing was done to has been kept up. -/
theorem refl (g : Graph) : Upkeep g g :=
  ⟨rfl, Nat.le_refl _, id, fun _ _ tidy => tidy, fun _ _ _ _ _ _ _ entry => entry⟩

/-- Upkeep goes on from one graph to the next. -/
theorem trans (first : Upkeep g h) (second : Upkeep h k) : Upkeep g k where
  fileSystem := second.fileSystem.trans first.fileSystem
  size := Nat.le_trans first.size second.size
  unused free := first.unused (second.unused free)
  tidy room free tidy := second.tidy room free
    (first.tidy (Nat.lt_of_le_of_lt second.size room) (second.unused free) tidy)
  entry room free tidy _ _ _ _ entry := by
    have early := Nat.lt_of_le_of_lt second.size room
    have spare := second.unused free
    exact second.entry room free (first.tidy early spare tidy) (first.entry early spare tidy entry)

end Upkeep

/-- What is listed has come to be more. Those entries are new: they are listed once, and the container
had none of their kind and name. -/
structure Gains (g h : Graph) (more : NodeId → NodeId → Prop) : Prop where
  root : ∃ n, h.find? h.fileSystem = some n ∧ n.kind = .fileSystem
  distinct : ∀ {container holder}, h.find? container = some holder → holder.entries.Nodup
  lists : ∀ {container id}, h.Lists container id ↔ g.Lists container id ∨ more container id
  named : ∀ {container id kind name}, g.Lists container id → (kind = .file ∨ kind = .folder) →
    g.Named id kind name → h.Named id kind name
  new : ∀ {container id}, more container id → ∃ kind name, (kind = .file ∨ kind = .folder) ∧
    h.Named id kind name ∧ ∀ other, ¬ g.IsEntry container other kind name
  fresh : ∀ {container id}, more container id → ∀ other, ¬ g.Lists other id
  only : ∀ {container id container' id'}, more container id → more container' id' →
    container = container' ∧ id = id'

namespace Gains

variable {more : NodeId → NodeId → Prop} (gains : Gains g h more) (tidy : g.Tidy)

include gains tidy

/-- Entries stay what they were. -/
theorem isEntry (unused : g.texts.texts.find? lastKey = none)
    (entry : g.IsEntry container id kind name) : h.IsEntry container id kind name := by
  obtain ⟨kind', name', is, named⟩ := tidy.listed entry.lists
  obtain ⟨rfl, rfl⟩ := tidy.named_inj unused entry.named named
  exact ⟨gains.lists.2 (Or.inl entry.lists), gains.named entry.lists is named⟩

section Orderly

variable (orderly : h.Orderly) (unused : g.texts.texts.find? lastKey = none)
  (unused' : h.texts.texts.find? lastKey = none)

include orderly unused unused'

/-- An entry that was there had the kind and the name that it has now. -/
theorem isEntry_before (entry : h.IsEntry container id kind name) (before : g.Lists container id) :
    g.IsEntry container id kind name := by
  obtain ⟨kind', name', -, named⟩ := tidy.listed before
  have now := (gains.isEntry tidy unused ⟨before, named⟩).named
  obtain ⟨rfl, rfl⟩ := orderly.named_inj unused' entry.named now
  exact ⟨before, named⟩

/-- A new entry does not have the kind and the name of one that was there. -/
theorem apart {id' : NodeId} (entry : h.IsEntry container id kind name)
    (before : g.Lists container id) (entry' : h.IsEntry container id' kind name) :
    ¬ more container id' := by
  intro now
  obtain ⟨kind', name', -, named, missing⟩ := gains.new now
  obtain ⟨rfl, rfl⟩ := orderly.named_inj unused' entry'.named named
  exact missing id (gains.isEntry_before tidy orderly unused unused' entry before)

/-- A graph stays tidy if all entries that it gains are new. -/
theorem stays_tidy : h.Tidy := by
  refine ⟨orderly, gains.root, ?_, ?_, gains.distinct, ?_⟩
  · intro container id here
    rcases gains.lists.1 here with before | now
    · obtain ⟨kind, name, is, named⟩ := tidy.listed before
      exact ⟨kind, name, is, gains.named before is named⟩
    · obtain ⟨kind, name, is, named, -⟩ := gains.new now
      exact ⟨kind, name, is, named⟩
  · intro container id id' kind name entry entry'
    rcases gains.lists.1 entry.lists with before | now
    · rcases gains.lists.1 entry'.lists with before' | now'
      · exact tidy.apart (gains.isEntry_before tidy orderly unused unused' entry before)
          (gains.isEntry_before tidy orderly unused unused' entry' before')
      · exact absurd now' (gains.apart tidy orderly unused unused' entry before entry')
    · rcases gains.lists.1 entry'.lists with before' | now'
      · exact absurd now (gains.apart tidy orderly unused unused' entry' before' entry)
      · exact (gains.only now now').2
  · intro container container' id here here'
    rcases gains.lists.1 here with before | now
    · rcases gains.lists.1 here' with before' | now'
      · exact tidy.once before before'
      · exact absurd before (gains.fresh now' container)
    · rcases gains.lists.1 here' with before' | now'
      · exact absurd before' (gains.fresh now container')
      · exact (gains.only now now').1

end Orderly

end Gains

/-- A run of edits keeps a graph tidy if all entries that it gains are new. -/
theorem upkeep_of_gains {rule : NodeKind → Attributes → Prop} (run : EditRun rule g h)
    (gains : h.size < idLimit → h.texts.texts.find? lastKey = none → g.Tidy → ∃ more, Gains g h more) :
    Upkeep g h where
  fileSystem := run.fileSystem
  size := run.size_le
  unused := run.unused
  tidy room free tidy := by
    obtain ⟨more, gains⟩ := gains room free tidy
    have orderly : h.Orderly := run.preserves (fun _ _ edit => edit.orderly) tidy.toOrderly
    exact gains.stays_tidy tidy orderly (run.unused free) free
  entry room free tidy _ _ _ _ entry := by
    obtain ⟨more, gains⟩ := gains room free tidy
    exact gains.isEntry tidy (run.unused free) entry

/-! ## Leaving entries alone -/

/-- All ids that some node lists as an entry. -/
def entryIds (g : Graph) : List NodeId :=
  g.nodeList.flatMap Node.entries

/-- What a container lists is an entry. -/
theorem Lists.mem_entryIds (lists : g.Lists container id) : id ∈ g.entryIds := by
  obtain ⟨holder, holds, listed⟩ := lists
  exact List.mem_flatMap.2 ⟨holder, mem_nodeList_of_find? holds, listed⟩

/-- The kinds of entries and of what holds them. -/
def placeKinds : List NodeKind :=
  [.file, .folder, .fileSystem]

/-- Nodes keep their entries, those with the given ids keep their names, and files, folders and file
systems stay what they are. -/
def entryLaw (listed : List NodeId) : NodeLaw where
  allows id n m := m.entries = n.entries ∧
    (n.kind ∈ placeKinds → m.kind = n.kind) ∧ (id ∈ listed → m.name = n.name)
  new n := n.entries = []
  refl _ _ := ⟨rfl, fun _ => rfl, fun _ => rfl⟩
  trans first second := ⟨second.1.trans first.1,
    fun is => (second.2.1 (first.2.1 is ▸ is)).trans (first.2.1 is),
    fun mem => (second.2.2 mem).trans (first.2.2 mem)⟩
  parent _ _ _ := ⟨rfl, fun _ => rfl, fun _ => rfl⟩
  still nothing allowed := allowed.1.trans nothing
  fresh id kind _ _ := Node.entries_fresh id kind
  value _ n e mem f := by
    have other : e ∉ entryEdges := by
      revert mem
      cases e <;> decide
    exact ⟨Node.entries_mapTargets other n f, fun _ => rfl, fun _ => rfl⟩

/-- The texts of entries' names keep their keys. -/
def KeepsNames (g h : Graph) : Prop :=
  ∀ id ∈ g.entryIds, ∀ n ∈ g.find? id, ∀ name, g.texts.keyOf? name = some n.name →
    h.texts.keyOf? name = some n.name

section Follows

variable (follows : Follows (entryLaw g.entryIds) g h) (room : h.size < idLimit)

include follows room

/-- What a node lists, it listed before. -/
theorem entries_of_follows {m : Node} (there : h.find? container = some m) :
    m.entries = [] ∨ ∃ n, g.find? container = some n ∧ m.entries = n.entries := by
  cases found : g.find? container with
  | none => exact Or.inl (follows.made room container m found there)
  | some n =>
    obtain ⟨m', there', same, -⟩ := follows.kept room container n found
    cases there.symm.trans there'
    exact Or.inr ⟨n, rfl, same⟩

/-- Changes that keep entries keep what containers list. -/
theorem lists_iff_of_follows : h.Lists container id ↔ g.Lists container id := by
  constructor
  · rintro ⟨m, there, listed⟩
    rcases entries_of_follows follows room there with nothing | ⟨n, found, same⟩
    · rw [nothing] at listed
      cases listed
    · exact ⟨n, found, same ▸ listed⟩
  · rintro ⟨n, found, listed⟩
    obtain ⟨m, there, same, -⟩ := follows.kept room container n found
    exact ⟨m, there, same.symm ▸ listed⟩

/-- A file or folder that is listed keeps its kind and its name. -/
theorem named_of_follows (names : g.KeepsNames h) (lists : g.Lists container id)
    (is : kind = .file ∨ kind = .folder) (named : g.Named id kind name) : h.Named id kind name := by
  obtain ⟨n, found, rfl, known⟩ := named
  have mem := lists.mem_entryIds
  obtain ⟨m, there, -, sameKind, sameName⟩ := follows.kept room id n found
  have kinds : n.kind ∈ placeKinds := by
    rcases is with is | is <;> simp [is, placeKinds]
  exact ⟨m, there, sameKind kinds, sameName mem ▸ names id mem n found name known⟩

/-- A graph whose entries are left alone gains none. -/
theorem gains_of_follows (names : g.KeepsNames h) (tidy : g.Tidy)
    (fileSystem : h.fileSystem = g.fileSystem) : Gains g h fun _ _ => False where
  root := by
    obtain ⟨n, found, is⟩ := tidy.root
    obtain ⟨m, there, -, same, -⟩ := follows.kept room g.fileSystem n found
    rw [fileSystem]
    exact ⟨m, there, (same (by simp [is, placeKinds])).trans is⟩
  distinct := by
    intro container holder there
    rcases entries_of_follows follows room there with nothing | ⟨n, found, same⟩
    · rw [nothing]
      exact List.nodup_nil
    · rw [same]
      exact tidy.distinct found
  lists := (lists_iff_of_follows follows room).trans (or_iff_left not_false).symm
  named := named_of_follows follows room names
  new := False.elim
  fresh := False.elim
  only := False.elim

end Follows

/-- Interning texts keeps the names of entries. -/
theorem keepsNames_of_interns (interns : g.texts.Interns h.texts) (numbered : g.texts.Numbered)
    (unused : h.texts.texts.find? lastKey = none) : g.KeepsNames h :=
  fun _ _ _ _ name known => ((interns.spec numbered).2 unused).2.1 name _ known

/-! ## Opening files and folders -/

/-- A new entry has no entries of its own. -/
theorem entries_newEntry (container : NodeId) (holder : Node) (id : NodeId) (kind : NodeKind)
    (key : TextKey) : (newEntry container holder id kind key).entries = [] := by
  simp [Node.entries, entryEdges, targets_newEntry]

namespace Enters

variable (enters : g.Enters container holder name kind id h)

include enters

/-- Everything that was there keeps its kind and its name. -/
theorem kept {n : Node} (found : g.find? other = some n) :
    ∃ m, h.find? other = some m ∧ m.kind = n.kind ∧ m.name = n.name := by
  have different : other ≠ id := by
    rintro rfl
    rw [enters.hole] at found
    cases found
  rw [enters.find, if_neg different]
  split
  · next here =>
    subst here
    cases enters.holds.symm.trans found
    exact ⟨_, rfl, rfl, rfl⟩
  · exact ⟨n, found, rfl, rfl⟩

/-- A new entry is found by the name that was asked for. -/
theorem named (is : kind = .file ∨ kind = .folder) : h.Named id kind name := by
  refine ⟨_, (enters.find id).trans (if_pos rfl), ?_, ?_⟩
  · exact Node.kind_setName _ _
  · have isNamed : (Node.fresh id kind).isNamed = true := by
      rcases is with rfl | rfl <;> rfl
    have key : (newEntry container holder id kind (g.texts.intern name).1).name =
        (g.texts.intern name).1 := by
      unfold newEntry Node.adopted Node.setName
      rw [if_pos isNamed]
    rw [key, enters.texts]
    exact TextTable.keyOf?_intern_self g.texts name

variable (tidy : g.Tidy)

include tidy

/-- The container of a new entry lists it after the others. -/
theorem entries_holder : (holder.addTarget (entryEdge holder) { id }).entries = holder.entries ++ [id] :=
  Node.entries_addTarget (tidy.wellFormed container holder enters.holds).kinds enters.edge id

/-- The new entry is listed by its container, and everything else as before. -/
theorem lists_iff {listed : NodeId} :
    h.Lists other listed ↔ g.Lists other listed ∨ other = container ∧ listed = id := by
  have entries := enters.entries_holder tidy
  have apart : container ≠ id := by
    rintro rfl
    cases enters.holds.symm.trans enters.hole
  constructor
  · rintro ⟨m, there, mem⟩
    rw [enters.find] at there
    split at there
    · cases there
      rw [entries_newEntry] at mem
      cases mem
    · split at there
      · next here =>
        cases there
        rw [entries] at mem
        rcases List.mem_append.1 mem with old | new
        · exact Or.inl ⟨holder, here ▸ enters.holds, old⟩
        · exact Or.inr ⟨here, List.mem_singleton.1 new⟩
      · exact Or.inl ⟨m, there, mem⟩
  · have container_lists : ∀ i ∈ holder.entries ++ [id], h.Lists container i := by
      intro i mem
      refine ⟨_, (enters.find container).trans ?_, entries.symm ▸ mem⟩
      rw [if_neg apart, if_pos rfl]
    rintro (⟨n, found, mem⟩ | ⟨rfl, rfl⟩)
    · by_cases here : other = container
      · subst here
        cases enters.holds.symm.trans found
        exact container_lists listed (List.mem_append_left _ mem)
      · have different : other ≠ id := by
          rintro rfl
          cases found.symm.trans enters.hole
        exact ⟨n, by rw [enters.find, if_neg different, if_neg here, found], mem⟩
    · exact container_lists listed (List.mem_append_right _ (List.mem_singleton_self _))

/-- A new entry is an entry of the kind and the name that were asked for. -/
theorem isEntry (is : kind = .file ∨ kind = .folder) : h.IsEntry container id kind name :=
  ⟨(enters.lists_iff tidy).2 (Or.inr ⟨rfl, rfl⟩), enters.named is⟩

/-- Nothing lists a node that was not there. -/
theorem not_lists : ¬ g.Lists other id := by
  intro lists
  obtain ⟨_, _, -, n, found, -⟩ := tidy.listed lists
  cases enters.hole.symm.trans found

/-- After a new entry no container lists an entry twice. -/
theorem distinct {m : Node} (there : h.find? other = some m) : m.entries.Nodup := by
  rw [enters.find] at there
  split at there
  · cases there
    rw [entries_newEntry]
    exact List.nodup_nil
  · split at there
    · cases there
      have new : id ∉ holder.entries :=
        fun mem => enters.not_lists tidy ⟨holder, enters.holds, mem⟩
      rw [enters.entries_holder tidy]
      rw [← List.concat_eq_append]
      exact (tidy.distinct enters.holds).concat new
    · exact tidy.distinct there

/-- A new entry of a container is all that is gained. -/
theorem gains (is : kind = .file ∨ kind = .folder) (unused : g.texts.texts.find? lastKey = none)
    (fileSystem : h.fileSystem = g.fileSystem) :
    Gains g h fun other listed => other = container ∧ listed = id where
  root := by
    obtain ⟨n, found, isRoot⟩ := tidy.root
    obtain ⟨m, there, same, -⟩ := enters.kept found
    exact ⟨m, fileSystem.symm ▸ there, same.trans isRoot⟩
  distinct := enters.distinct tidy
  lists := enters.lists_iff tidy
  named := by
    rintro _ listed kind' name' - - ⟨n, found, same, known⟩
    obtain ⟨m, there, sameKind, sameName⟩ := enters.kept found
    refine ⟨m, there, sameKind.trans same, ?_⟩
    rw [enters.texts, sameName]
    exact TextTable.keyOf?_intern tidy.numbered unused known name
  new := by
    rintro _ _ ⟨rfl, rfl⟩
    refine ⟨kind, name, is, enters.named is, fun other entry => ?_⟩
    have found := (tidy.findEntry_eq_some_iff enters.holds).2 entry
    cases enters.missing.symm.trans found
  fresh := by
    rintro _ _ ⟨rfl, rfl⟩ other
    exact enters.not_lists tidy
  only := by
    rintro _ _ _ _ ⟨rfl, rfl⟩ ⟨rfl, rfl⟩
    exact ⟨rfl, rfl⟩

end Enters

/-- An entry that was made but got no container adds nothing to what is listed. -/
theorem gains_strayEntry (tidy : g.Tidy) (name : String) (kind : NodeKind)
    (room : (g.strayEntry name kind).size < idLimit)
    (unused : (g.strayEntry name kind).texts.texts.find? lastKey = none) :
    Gains g (g.strayEntry name kind) fun _ _ => False := by
  have interned : Follows (entryLaw g.entryIds) g (g.intern name).2 := .of_nodes rfl
  have created : Follows (entryLaw g.entryIds) (g.intern name).2 (g.strayEntry name kind) :=
    follows_newNodeWith _ fun id => cosmetic_setName (.fresh id kind) _
  have names : g.KeepsNames (g.strayEntry name kind) :=
    keepsNames_of_interns (TextTable.interns_intern g.texts name) tidy.numbered unused
  exact gains_of_follows (interned.trans created) room names tidy rfl

/-- Nothing is gained where nothing is done. -/
theorem gains_refl (tidy : g.Tidy) (room : g.size < idLimit) : Gains g g fun _ _ => False :=
  gains_of_follows (.refl g) room (fun _ _ _ _ _ known => known) tidy rfl

/-- Opening a file or folder keeps a graph tidy. -/
theorem upkeep_openEntry (g : Graph) (container : NodeId) (name : String)
    (is : kind = .file ∨ kind = .folder) : Upkeep g (g.openEntry container name kind).2 := by
  have concrete : kind.isAbstract = false := by
    rcases is with rfl | rfl <;> rfl
  have run : EditRun (fun _ _ => True) g (g.openEntry container name kind).2 :=
    edits_openEntry g container name concrete
  refine upkeep_of_gains run fun room unused tidy => ?_
  have unused' := run.unused unused
  have fileSystem := run.fileSystem
  have early : g.size < idLimit := Nat.lt_of_le_of_lt run.size_le room
  have opens := opens_openEntry early container name kind
  generalize g.openEntry container name kind = result at room unused fileSystem opens
  cases opens with
  | absent cause => exact ⟨_, gains_refl tidy room⟩
  | known holder id holds entry => exact ⟨_, gains_refl tidy room⟩
  | made holder id h enters => exact ⟨_, enters.gains tidy is unused' fileSystem⟩
  | refused cause => exact ⟨_, gains_strayEntry tidy name kind room unused⟩

/-- The file or folder that is opened is an entry from then on. -/
theorem Tidy.isEntry_of_openEntry (tidy : g.Tidy) (is : kind = .file ∨ kind = .folder)
    (room : g.size < idLimit) (opened : g.openEntry container name kind = (.ok id, h)) :
    h.IsEntry container id kind name := by
  rcases openEntry_eq_ok room opened with ⟨holder, holds, found, rfl⟩ | ⟨holder, enters⟩
  · exact tidy.isEntry_of_findEntry holds found
  · exact enters.isEntry tidy is

/-- Opening an entry keeps a graph up, whether it is found, made or refused. -/
theorem upkeep_of_openEntry {result : Except Error NodeId} (is : kind = .file ∨ kind = .folder)
    (opened : g.openEntry container name kind = (result, h)) : Upkeep g h := by
  have upkeep := upkeep_openEntry g container name is
  rwa [opened] at upkeep

/-- Opening folders one below the other keeps a graph up, however far it goes. -/
theorem upkeep_of_openFolders {names : List String} {result : Except Error NodeId}
    (opened : g.openFolders container names = (result, h)) : Upkeep g h := by
  have upkeep := openFolders_preserves (P := Upkeep g)
    (fun h container name before => before.trans (upkeep_openEntry h container name (Or.inr rfl)))
    names g container (.refl g)
  rwa [opened] at upkeep

/-- Asking for a file keeps a graph up, whether or not the file is given. -/
theorem upkeep_createFileFrom (g : Graph) (path : String) (start : NodeId) :
    Upkeep g (g.createFileFrom path start).2 :=
  createFileFrom_preserves (P := Upkeep g)
    (fun h container name before => before.trans (upkeep_openEntry h container name (Or.inr rfl)))
    (fun h container name before => before.trans (upkeep_openEntry h container name (Or.inl rfl)))
    g path start (.refl g)

end Graph

/-! ## Operations -/

namespace Operation

open CodeGraph.Graph

/-- Whether an operation asks for a file. -/
def asksForFile : Operation → Bool
  | .createFile _ | .createFileFrom _ _ => true
  | _ => false

/-- Whether an operation neither starts over, nor renames entries, nor asks for edges to entries. -/
def SparesEntries (g : Graph) : Operation → Prop
  | .clear | .load _ _ => False
  | .loadTexts input => g.KeepsNames { g with texts := (g.texts.load input).1 }
  | .setName id _ | .setNameKey id _ => id ∉ g.entryIds
  | .addEdge e _ _ | .addValueEdge e _ _ _ | .setEdge e _ _ | .removeEdge e _ _ => e ∉ entryEdges
  | _ => True

/-- Whether an operation changes nothing, or spares entries. -/
def LeavesEntries (g : Graph) (operation : Operation) : Prop :=
  (operation.perform g).2 = g ∨ operation.SparesEntries g

/-- An operation that spares entries is an edit. -/
theorem SparesEntries.isEdit {g : Graph} {operation : Operation} (spares : operation.SparesEntries g) :
    operation.IsEdit := by
  cases operation with
  | clear => exact spares.elim
  | load headers input => exact spares.elim
  | _ => trivial

/-- An operation that spares entries, and asks for no file, keeps the entries, their names and what
holds them. -/
theorem SparesEntries.respects {g : Graph} {operation : Operation} (spares : operation.SparesEntries g)
    (other : operation.asksForFile = false) (wf : g.nodes.WellFormed) :
    operation.Respects (entryLaw g.entryIds) g := by
  cases operation with
  | clear => exact spares.elim
  | load headers input => exact spares.elim
  | createFile path => cases other
  | createFileFrom path start => cases other
  | replaceNode id kind =>
    intro n found wider
    obtain ⟨kinds, sublist⟩ := widened?_eq_some wider
    have targets := Node.targets_promote ((wf id n found).kinds ▸ sublist.subset)
    refine ⟨Node.entries_congr fun e _ => targets e, fun place => ?_, fun _ => rfl⟩
    -- neither a class nor a method holds entries or is one
    rcases kinds with ⟨is, -⟩ | ⟨is, -⟩ <;> rw [is] at place <;> simp [placeKinds] at place
  | setName id name | setNameKey id name =>
    intro n found key
    exact ⟨n.entries_setName key, fun _ => n.kind_setName key, fun mem => absurd mem spares⟩
  | setAttributes id attributes => exact fun n found => ⟨rfl, fun _ => rfl, fun _ => rfl⟩
  | addEdge | addValueEdge | setEdge | removeEdge =>
    exact fun n found f => ⟨Node.entries_mapTargets spares n f, fun _ => rfl, fun _ => rfl⟩
  | _ => trivial

end Operation

namespace Graph

variable {g : Graph} {operation : Operation} {history : List Operation}

/-- The texts of a graph only become more unless a table is loaded. -/
theorem interns_perform (isEdit : operation.IsEdit) (other : ∀ input, operation ≠ .loadTexts input)
    (room : g.size < idLimit) : g.texts.Interns (operation.perform g).2.texts := by
  cases operation with
  | clear => exact isEdit.elim
  | load headers input => exact isEdit.elim
  | loadTexts input => exact absurd rfl (other input)
  | createNodeWithId kind id =>
    rw [Operation.perform_eq]
    refine nodeOrKeep_preserves (P := fun h => g.texts.Interns h.texts) .refl fun made h created => ?_
    cases result : g.withNodeAt kind id with
    | error cause => simp [result, Except.map] at created
    | ok next =>
      rw [result] at created
      cases created
      obtain ⟨-, -, -, rfl⟩ := withNodeAt_eq_ok result
      exact .refl
  | setAttributes id attributes =>
    change g.texts.Interns (g.touch id _).2.texts
    unfold touch
    split <;> exact .refl
  | _ => exact Extends.texts (extends_perform trivial room)

/-- An operation that leaves entries alone keeps a graph tidy, and so does asking for files. -/
theorem upkeep_perform (leaves : operation.LeavesEntries g) : Upkeep g (operation.perform g).2 := by
  rcases leaves with same | spares
  · rw [same]
    exact .refl g
  cases file : operation.asksForFile with
  | true =>
    cases operation with
    | createFile path => exact upkeep_createFileFrom g path g.fileSystem
    | createFileFrom path start => exact upkeep_createFileFrom g path start
    | _ => cases file
  | false =>
    have run : EditRun (fun _ _ => True) g (operation.perform g).2 :=
      edits_perform (fun _ _ _ => trivial) g operation spares.isEdit
        (operation.describes_of_forall (fun _ _ => trivial) g)
    refine upkeep_of_gains run fun room unused tidy => ⟨fun _ _ => False, ?_⟩
    have follows := follows_perform (spares.respects file tidy.wellFormed)
    refine gains_of_follows follows room ?_ tidy run.fileSystem
    by_cases loads : ∃ input, operation = .loadTexts input
    · obtain ⟨input, rfl⟩ := loads
      exact spares
    · have interns := interns_perform spares.isEdit (fun input same => loads ⟨input, same⟩)
        (Nat.lt_of_le_of_lt run.size_le room)
      exact keepsNames_of_interns interns tidy.numbered unused

/-- A history that leaves entries alone but for asking for files keeps a graph tidy. -/
theorem Along.upkeep (along : g.Along Operation.LeavesEntries history) :
    Upkeep g (g.after history) := by
  induction history generalizing g with
  | nil => exact .refl g
  | cons operation rest ih =>
    rw [after_cons]
    exact (upkeep_perform along.1).trans (ih along.2)

/-- A new graph has no entries. -/
theorem tidy_new (language : Language) : (new language).Tidy := by
  -- the nodes do not depend on the language
  have nothing : ∀ n ∈ (new language).nodeList, n.entries = [] := by
    change ∀ n ∈ (new .java).nodeList, n.entries = []
    decide +kernel
  have root : ((new language).find? (new language).fileSystem).map Node.kind = some .fileSystem := by
    change ((new .java).find? fileSystemId).map Node.kind = some .fileSystem
    decide +kernel
  have bare : ∀ {container id}, ¬ (new language).Lists container id := by
    rintro container id ⟨holder, holds, listed⟩
    rw [nothing holder (mem_nodeList_of_find? holds)] at listed
    cases listed
  refine ⟨orderly_after language [], Option.map_eq_some_iff.1 root, ?_, ?_, ?_, ?_⟩
  · exact fun lists => absurd lists bare
  · exact fun entry => absurd entry.lists bare
  · intro container holder holds
    rw [nothing holder (mem_nodeList_of_find? holds)]
    exact List.nodup_nil
  · exact fun lists => absurd lists bare

end Graph

end CodeGraph
