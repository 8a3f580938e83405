import CodeGraph.Proofs.Ancestry
import CodeGraph.Proofs.FailedFiles

/-!
# Full paths

The full path of a file is told by climbing from parent to parent up to the file system. On the way
down, when the file is asked for, each folder is found in the one before, which is its parent as long
as parents are what lists their entries, or it is made there; and what is made is empty, so everything
below is made too (`Underway.openEntry`). Hence climbing gives the names of the path in reverse
(`underway_of_createFile`). Names are put together with a separator after all but the last, and but for
the backslash that a path may start with (`joinNames_pathNames`). Main statement: `full_path_after`, the
full path of a file that was asked for is the path that it was asked for by. The keys have to last for
the names that are new; `full_path_lacks_folder` has a path for which they do not.
-/

set_option autoImplicit false

namespace CodeGraph

open TextTable (lastKey)

namespace Graph

variable {g h : Graph} {container id other : NodeId} {holder n : Node} {name : String}
  {names above : List String} {kind : NodeKind}

/-! ## The way up -/

/-- Entries of these names stand one above the other, innermost first, each below its parent, and the
last one below a node that is no entry. -/
inductive Ascends (g : Graph) : NodeId → List String → Prop
  | top {id : NodeId} {n : Node} (found : g.find? id = some n) (other : n.is .fsEntry = false) :
      Ascends g id []
  | entry {id above : NodeId} {n : Node} {name : String} {names : List String}
      (found : g.find? id = some n) (is : n.is .fsEntry = true)
      (known : g.texts.keyOf? name = some n.name) (parent : n.parentId? = some above)
      (rest : Ascends g above names) : Ascends g id (name :: names)

/-- The parent of an entry; other nodes count as having none. -/
def entryParent (g : Graph) (id : NodeId) : Option Parent :=
  (g.find? id).bind fun n => if n.is .fsEntry then n.parent else none

namespace Ascends

/-- The way up is a chain of ancestors, and all of them are there. -/
theorem ancestors (ascends : g.Ascends id names) : ∃ higher,
    AncestorsBy g.entryParent id higher ∧ higher.length = names.length ∧
      ∀ a ∈ id :: higher, g.nodes.nesting.has a = true := by
  induction ascends with
  | top found other =>
    refine ⟨[], .top ?_, rfl, ?_⟩
    · simp [entryParent, found, other]
    · rintro a (_ | ⟨_, ⟨⟩⟩)
      exact Option.isSome_iff_exists.2 ⟨_, found⟩
  | entry found is known parent rest ih =>
    obtain ⟨higher, ancestors, length, there⟩ := ih
    obtain ⟨p, up, rfl⟩ := Option.map_eq_some_iff.1 parent
    refine ⟨p.id :: higher, .up ?_ ancestors, congrArg Nat.succ length, ?_⟩
    · simp [entryParent, found, is, up]
    · exact List.forall_mem_cons.2 ⟨Option.isSome_iff_exists.2 ⟨_, found⟩, there⟩

/-- No node stands above itself, so the way up is no longer than the table of nodes. -/
theorem length_lt (ascends : g.Ascends id names) : names.length < g.size := by
  obtain ⟨higher, ancestors, length, there⟩ := ascends.ancestors
  rw [← length]
  exact NodeTable.length_ancestors_lt ancestors there

section Texts

variable (orderly : g.Orderly) (unused : g.texts.texts.find? lastKey = none)

include orderly unused

/-- Climbing collects the names, if it has a step for each of them and one to stop. -/
theorem entryNames (ascends : g.Ascends id names) (found : g.find? id = some n) {steps : Nat}
    (enough : names.length < steps) : g.entryNames steps (some n) = .ok names := by
  induction ascends generalizing n steps with
  | top found' other =>
    cases found.symm.trans found'
    obtain ⟨steps, rfl⟩ := Nat.exists_eq_succ_of_ne_zero (Nat.ne_of_gt enough)
    simp [Graph.entryNames, other]
  | @entry id above n' name names found' is known parent rest ih =>
    cases found.symm.trans found'
    obtain ⟨steps, rfl⟩ := Nat.exists_eq_succ_of_ne_zero (Nat.ne_of_gt (Nat.zero_lt_of_lt enough))
    have text := orderly.consistent.get_of_keyOf? orderly.numbered unused known
    have higher : ∃ m, g.find? above = some m := by
      cases rest with
      | top found _ => exact ⟨_, found⟩
      | entry found _ _ _ _ => exact ⟨_, found⟩
    obtain ⟨m, there⟩ := higher
    have others := ih there (Nat.lt_of_succ_lt_succ enough)
    simp only [Graph.entryNames, is, if_true, text, parent, Option.bind_some, there, others]

/-- The full path of an entry is put together from the names on the way up. -/
theorem fullPath (ascends : g.Ascends id (name :: names)) (separator : String) :
    g.fullPath id separator = .ok (joinNames separator (name :: names).reverse) := by
  have enough := Nat.lt_succ_of_lt ascends.length_lt
  cases ascends with
  | entry found is known parent rest =>
    have climbed := (Ascends.entry found is known parent rest).entryNames orderly unused found enough
    simp only [Graph.fullPath, found, is, if_true, climbed]
    rfl

end Texts

end Ascends

/-! ## The way down -/

/-- Files and folders are entries. -/
theorem is_fsEntry_of_kind (is : n.kind = .file ∨ n.kind = .folder) : n.is .fsEntry = true := by
  unfold Node.is
  rcases is with is | is <;> rw [is] <;> rfl

namespace Enters

variable (enters : g.Enters container holder name kind id h) (numbered : g.texts.Numbered)
  (unused : g.texts.texts.find? lastKey = none)

include enters numbered unused

/-- An entry that is made leaves all ways up as they are. -/
theorem ascends_kept (ascends : g.Ascends other above) : h.Ascends other above := by
  have kept : ∀ {id n}, g.find? id = some n → ∃ m, h.find? id = some m ∧
      m.is .fsEntry = n.is .fsEntry ∧ m.name = n.name ∧ m.parentId? = n.parentId? := by
    intro id n found
    obtain ⟨m, there, same⟩ := enters.kept_node found
    exact ⟨m, there, (congrArg (Node.is · .fsEntry) same :), (congrArg Node.name same :),
      (congrArg Node.parentId? same :)⟩
  induction ascends with
  | top found no =>
    obtain ⟨m, there, is, -⟩ := kept found
    exact .top there (is.trans no)
  | entry found entry known parent rest ih =>
    obtain ⟨m, there, is, key, up⟩ := kept found
    refine .entry there (is.trans entry) ?_ (up.trans parent) ih
    rw [enters.texts, key]
    exact TextTable.keyOf?_intern numbered unused known name

/-- An entry that is made stands below its container. -/
theorem ascends_new (is : kind = .file ∨ kind = .folder) (ascends : g.Ascends container above) :
    h.Ascends id (name :: above) := by
  obtain ⟨m, there, rfl, known⟩ := enters.named is
  refine .entry there (is_fsEntry_of_kind is) known ?_ (enters.ascends_kept numbered unused ascends)
  have new : m = newEntry container holder id m.kind (g.texts.intern name).1 :=
    Option.some.inj (there.symm.trans ((enters.find id).trans (if_pos rfl)))
  rw [new]
  rfl

end Enters

/-- Entries have what lists them as their parent. -/
def Parented (g : Graph) : Prop :=
  ∀ container id n, g.Lists container id → g.find? id = some n → n.parentId? = some container

/-- Opening an entry keeps the tables of nodes and texts in order. -/
theorem Orderly.openEntry (orderly : g.Orderly) (is : kind = .file ∨ kind = .folder)
    {result : Except Error NodeId} (opened : g.openEntry container name kind = (result, h)) :
    h.Orderly := by
  have concrete : kind.isAbstract = false := by
    rcases is with rfl | rfl <;> rfl
  have run : EditRun (fun _ _ => True) g (g.openEntry container name kind).2 :=
    edits_openEntry g container name concrete
  rw [opened] at run
  exact run.preserves (fun _ _ edit => edit.orderly) orderly

/-- What is known on the way down through the folders of a path: the way up from the folder that it has
come to, and that entries have what lists them as their parent, or else that this folder has none. -/
structure Underway (g : Graph) (container : NodeId) (above : List String) : Prop where
  orderly : g.Orderly
  ascends : g.Ascends container above
  parents : g.Parented ∨ g.IsBare container

namespace Underway

/-- Opening an entry leads one name further down. -/
theorem openEntry (underway : g.Underway container above) (is : kind = .file ∨ kind = .folder)
    (room : h.size < idLimit) (unused : h.texts.texts.find? lastKey = none)
    (opened : g.openEntry container name kind = (.ok id, h)) : h.Underway id (name :: above) := by
  have upkeep := upkeep_of_openEntry is opened
  have unusedBefore := upkeep.unused unused
  rcases openEntry_eq_ok (Nat.lt_of_le_of_lt upkeep.size room) opened with
    ⟨holder, holds, entry, rfl⟩ | ⟨holder, enters⟩
  · -- a folder that was made just before has no entry to be found
    have parents : h.Parented :=
      underway.parents.resolve_right fun bare => not_findEntry_of_isBare bare holds entry
    obtain ⟨lists, m, there, rfl, known⟩ := underway.orderly.isEntry_of_findEntry holds entry
    exact ⟨underway.orderly, .entry there (is_fsEntry_of_kind is) known
      (parents container id m lists there) underway.ascends, Or.inl parents⟩
  · exact ⟨underway.orderly.openEntry is opened,
      enters.ascends_new underway.orderly.numbered unusedBefore is underway.ascends,
      Or.inr enters.isBare⟩

/-- Opening folders leads as many names further down. -/
theorem openFolders (underway : g.Underway container above) (room : h.size < idLimit)
    (unused : h.texts.texts.find? lastKey = none)
    (opened : g.openFolders container names = (.ok id, h)) :
    h.Underway id (names.reverse ++ above) := by
  induction names generalizing g container above with
  | nil =>
    cases opened
    exact underway
  | cons name names ih =>
    obtain ⟨-, folder, between, first, rest⟩ := openFolders_cons_eq_ok opened
    have later := upkeep_of_openFolders rest
    have next := underway.openEntry (Or.inr rfl) (Nat.lt_of_le_of_lt later.size room)
      (later.unused unused) first
    rw [List.reverse_cons, List.append_assoc]
    exact ih next rest

end Underway

/-- From a file that is given, the names of its path lead up to the file system. -/
theorem underway_of_createFile (orderly : g.Orderly) (parents : g.Parented)
    (root : ∃ n, g.find? g.fileSystem = some n ∧ n.kind = .fileSystem) {path : String}
    (room : h.size < idLimit) (unused : h.texts.texts.find? lastKey = none)
    (created : g.createFile path = (.ok id, h)) : h.Underway id (pathNames path).reverse := by
  obtain ⟨n, found, is⟩ := root
  have no : n.is .fsEntry = false := by
    unfold Node.is
    rw [is]
    rfl
  obtain ⟨-, folder, between, -, -, opened, -, last⟩ := createFileFrom_eq_ok created
  have later := upkeep_of_openEntry (Or.inl rfl) last
  have start : g.Underway g.fileSystem [] := ⟨orderly, .top found no, Or.inl parents⟩
  have folders := start.openFolders (Nat.lt_of_le_of_lt later.size room) (later.unused unused) opened
  have file := folders.openEntry (Or.inl rfl) room unused last
  have whole := List.dropLast_append_getLast (pathNames_ne_nil path)
  rw [List.getLast?_eq_some_getLast (pathNames_ne_nil path), Option.getD_some, List.append_nil] at file
  rw [← whole, List.reverse_append]
  exact file

/-! ## Names that are put together -/

/-- The segments of a path, between its backslashes. -/
def segments (path : String) : List String :=
  (path.toList.splitOn '\\').map String.ofList

/-- The segments of a path joined by a separator. A leading backslash is kept as it is, and no separator
follows it. -/
def joinSegments (separator path : String) : String :=
  if path.toList.head? = some '\\' then "\\" ++ separator.intercalate (segments path).tail
  else separator.intercalate (segments path)

/-- The segments of a path are the pieces between its backslashes. -/
theorem segments_eq (path : String) :
    segments path = (cutAt '\\' path.toList).map String.ofList := by
  rw [segments, cutAt_eq_splitOn]

/-- A path with a leading backslash has an empty segment before it, and another one after it. -/
theorem segments_of_rooted {path : String} (rooted : path.toList.head? = some '\\') :
    ∃ second rest, segments path = "" :: second :: rest := by
  obtain ⟨characters, split⟩ := List.head?_eq_some_iff.1 rooted
  have some : cutAt '\\' characters ≠ [] := by
    rw [cutAt_eq_splitOn]
    exact List.splitOnP_ne_nil _ _
  obtain ⟨piece, pieces, cut⟩ := List.exists_cons_of_ne_nil some
  refine ⟨.ofList piece, pieces.map .ofList, ?_⟩
  rw [segments_eq, split, cutAt, if_pos rfl, cut]
  rfl

/-- A path that starts with a backslash goes through the top folder. -/
theorem pathNames_of_rooted {path : String} (rooted : path.toList.head? = some '\\') :
    pathNames path = topFolder :: (segments path).tail := by
  obtain ⟨second, rest, pieces⟩ := segments_of_rooted rooted
  rw [pieces]
  rw [segments_eq] at pieces
  unfold pathNames
  rw [pieces]
  rfl

/-- A character that is no separator belongs to the first piece. -/
theorem cutAt_cons_of_ne {a separator : Char} (different : a ≠ separator) (rest : List Char) :
    ∃ piece pieces, cutAt separator (a :: rest) = (a :: piece) :: pieces := by
  rw [cutAt, if_neg different]
  split
  · exact ⟨[], [], rfl⟩
  · exact ⟨_, _, rfl⟩

/-- The first of several segments is empty only if a backslash follows it at once. -/
theorem pathNames_of_relative {path : String} (relative : path.toList.head? ≠ some '\\') :
    pathNames path = segments path := by
  rw [segments_eq]
  unfold pathNames
  split
  · next first second rest pieces =>
    rw [pieces, if_neg]
    intro nothing
    rw [String.isEmpty_iff.1 nothing] at pieces
    cases characters : path.toList with
    | nil =>
      rw [characters] at pieces
      cases pieces
    | cons a others =>
      rw [characters] at relative pieces
      have different : a ≠ '\\' := fun same => relative (congrArg some same)
      obtain ⟨piece, more, cut⟩ := cutAt_cons_of_ne different others
      rw [cut] at pieces
      have empty := congrArg String.toList (List.cons.inj pieces).1
      rw [String.toList_ofList] at empty
      cases empty
  · rfl

/-- Where no name but the last is a slash, there is a separator between any two. -/
theorem joinNames_eq_intercalate (separator : String)
    (plain : ∀ name ∈ names.dropLast, name ≠ "/" ∧ name ≠ "\\") :
    joinNames separator names = separator.intercalate names := by
  induction names with
  | nil => rfl
  | cons name names ih =>
    cases names with
    | nil => exact String.intercalate_singleton.symm
    | cons next rest =>
      obtain ⟨⟨noSlash, noBackslash⟩, others⟩ := List.forall_mem_cons.1 plain
      rw [joinNames, ih others]
      simp only [noSlash, noBackslash, decide_false, Bool.or_self, Bool.false_eq_true, if_false]
      exact String.intercalate_cons_cons.symm

/-- The names of a path are put together to its segments with separators between them. -/
theorem joinNames_pathNames {path : String} (plain : "/" ∉ (segments path).dropLast)
    (separator : String) : joinNames separator (pathNames path) = joinSegments separator path := by
  have apart : ∀ name ∈ (segments path).dropLast, name ≠ "/" ∧ name ≠ "\\" := by
    intro name mem
    have segment := List.dropLast_subset _ mem
    rw [segments_eq] at segment
    obtain ⟨piece, cut, rfl⟩ := List.mem_map.1 segment
    exact ⟨fun slash => plain (slash ▸ mem), ofList_ne_topFolder cut⟩
  unfold joinSegments
  split
  · next rooted =>
    rw [pathNames_of_rooted rooted]
    obtain ⟨second, rest, pieces⟩ := segments_of_rooted rooted
    rw [pieces] at apart ⊢
    obtain ⟨-, others⟩ := List.forall_mem_cons.1 apart
    rw [List.tail_cons, joinNames, joinNames_eq_intercalate separator others]
    rfl
  · next relative =>
    rw [pathNames_of_relative relative]
    exact joinNames_eq_intercalate separator apart

/-- Between backslashes the segments are the path again. -/
theorem joinSegments_backslash (path : String) : joinSegments "\\" path = path := by
  have whole : "\\".intercalate (segments path) = path := by
    apply String.toList_inj.1
    rw [String.toList_intercalate, segments, List.map_map]
    have back : String.toList ∘ String.ofList = id := funext fun _ => String.toList_ofList
    rw [back, List.map_id]
    exact List.intercalate_splitOn '\\'
  unfold joinSegments
  split
  · next rooted =>
    obtain ⟨second, rest, pieces⟩ := segments_of_rooted rooted
    rw [pieces, String.intercalate_cons_cons, String.empty_append] at whole
    rw [pieces]
    exact whole
  · exact whole

/-! ## Histories -/

/-- After any history that leaves a file system where there should be one, and entries below what lists
them, and while ids and keys last: the full path of a file that is asked for is the path that it is asked
for by, if no segment of it but the last is a slash. With another separator it is made of the segments of
the path, with separators between them. -/
theorem full_path_after (language : Language) (history : List Operation) (path : String)
    (file : NodeId) :
    let g := (new language).after history
    let h := (g.createFile path).2
    (∃ n, g.find? g.fileSystem = some n ∧ n.kind = .fileSystem) → g.Parented →
    "/" ∉ (segments path).dropLast → (g.createFile path).1 = .ok file →
    h.size < idLimit → h.texts.SparesLastKey →
    h.fullPath file "\\" = .ok path ∧
      ∀ separator, h.fullPath file separator = .ok (joinSegments separator path) := by
  intro g h root parents plain given room keys
  have underway : h.Underway file (pathNames path).reverse :=
    underway_of_createFile (orderly_after language history) parents root room keys.unused
      (Prod.ext given rfl)
  have paths : ∀ separator, h.fullPath file separator = .ok (joinSegments separator path) := by
    intro separator
    have ascends := underway.ascends
    have some : (pathNames path).reverse ≠ [] := by simpa using pathNames_ne_nil path
    obtain ⟨last, before, names⟩ := List.exists_cons_of_ne_nil some
    rw [names] at ascends
    rw [ascends.fullPath underway.orderly keys.unused, ← names, List.reverse_reverse,
      joinNames_pathNames plain]
  exact ⟨(paths "\\").trans (congrArg _ (joinSegments_backslash path)), paths⟩

/-- The list of the nodes tells whether entries lie below what lists them. -/
theorem parented_of_nodeList {g : Graph} (indexed : g.nodes.Indexed)
    (listed : ∀ holder ∈ g.nodeList, ∀ id ∈ holder.entries,
      (g.find? id).map Node.parentId? = some (some holder.id)) : g.Parented := by
  rintro container id n ⟨holder, holds, mem⟩ found
  have parent := listed holder (mem_nodeList_of_find? holds) id mem
  rw [found, indexed.id_eq holds] at parent
  exact Option.some.inj parent

/-- A history in which a file was created and taken out of its folder again. -/
def detachingHistory : List Operation :=
  [.createFile "\\src\\A.java", .removeEdge .folderContains (madeId 1) (madeId 2)]

/-- After that history, a file below two folders that are there and one that is new. Its own name is a
slash. -/
theorem full_path_after_detaching :
    let g := (new .java).after detachingHistory
    let made := g.createFile "\\src\\pkg\\/"
    g.Parented ∧ "/" ∉ (segments "\\src\\pkg\\/").dropLast ∧ made.1 = .ok (madeId 4) ∧
      made.2.size < idLimit ∧ made.2.texts.SparesLastKey ∧
      made.2.fullPath (madeId 4) "\\" = .ok "\\src\\pkg\\/" ∧
      made.2.fullPath (madeId 4) "::" = .ok "\\src::pkg::/" := by
  dsimp only
  have facts : (((new .java).after detachingHistory).createFile "\\src\\pkg\\/").1 =
        .ok (madeId 4) ∧
      (((new .java).after detachingHistory).createFile "\\src\\pkg\\/").2.size < idLimit ∧
      (((new .java).after detachingHistory).createFile
        "\\src\\pkg\\/").2.texts.SparesLastKey ∧
      (((new .java).after detachingHistory).find?
        ((new .java).after detachingHistory).fileSystem).map Node.kind = some .fileSystem ∧
      ∀ holder ∈ ((new .java).after detachingHistory).nodeList, ∀ id ∈ holder.entries,
        (((new .java).after detachingHistory).find? id).map Node.parentId? =
          some (some holder.id) := by
    decide +kernel
  obtain ⟨given, room, keys, root, listed⟩ := facts
  have parents := parented_of_nodeList (indexed_after .java detachingHistory) listed
  have plain : "/" ∉ (segments "\\src\\pkg\\/").dropLast := by decide +kernel
  obtain ⟨same, paths⟩ := full_path_after .java detachingHistory "\\src\\pkg\\/" (madeId 4)
    (Option.map_eq_some_iff.1 root) parents plain given room keys
  have joined : joinSegments "::" "\\src\\pkg\\/" = "\\src::pkg::/" := by rfl
  exact ⟨parents, plain, given, room, keys, same, (paths "::").trans (congrArg _ joined)⟩

/-- A history that reads a text under the last key but one. -/
def lastKeyButOneHistory : List Operation :=
  [.loadTexts (TextTable.magic ++ TextTable.entryBytes (⟨0xFFFFFFFE⟩, "a") ++ wordBytes 4 0)]

/-- After that history there are keys left, but not enough for the names of a new file and its folders:
the second folder gets the key zero, which is that of the empty text, and its name is missing in the
full path. -/
theorem full_path_lacks_folder :
    let g := (new .java).after lastKeyButOneHistory
    let made := g.createFile "x\\y\\z"
    g.size < idLimit ∧ g.texts.SparesLastKey ∧
      (∃ n, g.find? g.fileSystem = some n ∧ n.kind = .fileSystem) ∧ g.Parented ∧
      "/" ∉ (segments "x\\y\\z").dropLast ∧ made.1 = .ok (madeId 2) ∧
      made.2.size < idLimit ∧ made.2.fullPath (madeId 2) "\\" = .ok "x\\\\z" := by
  dsimp only
  have indexed := indexed_after .java lastKeyButOneHistory
  obtain ⟨g, is⟩ : ∃ g, g = (new .java).after lastKeyButOneHistory := ⟨_, rfl⟩
  rw [← is] at indexed ⊢
  have facts : g.size < idLimit ∧ g.texts.SparesLastKey ∧
      (g.find? g.fileSystem).map Node.kind = some .fileSystem ∧
      (∀ holder ∈ g.nodeList, ∀ id ∈ holder.entries,
        (g.find? id).map Node.parentId? = some (some holder.id)) ∧
      "/" ∉ (segments "x\\y\\z").dropLast ∧ (g.createFile "x\\y\\z").1 = .ok (madeId 2) ∧
      (g.createFile "x\\y\\z").2.size < idLimit ∧
      (g.createFile "x\\y\\z").2.fullPath (madeId 2) "\\" = .ok "x\\\\z" := by
    rw [is]
    decide +kernel
  obtain ⟨ids, keys, root, listed, results⟩ := facts
  exact ⟨ids, keys, Option.map_eq_some_iff.1 root, parented_of_nodeList indexed listed, results⟩

end Graph

end CodeGraph
