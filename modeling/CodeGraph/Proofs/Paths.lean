import CodeGraph.Proofs.Directories
import CodeGraph.Proofs.ValueUniqueness
import Mathlib.Data.List.Induction

/-!
# Paths

The names of a path tell the path (`pathNames_injective`). A path leads from the file system through
folders to a file, each of them an entry of the one before. In a tidy graph one path leads to one file,
and asking for it again gives that file and changes nothing (`createFile_of_fileAt`); and since an
entry is listed by one container only, one path leads to a file (`fileAt_inj`). Main statement:
`files_unique_after`.
-/

set_option autoImplicit false

namespace CodeGraph

open TextTable (lastKey)

/-! ## Paths and their names -/

section Pieces

variable {α : Type} [DecidableEq α] {separator : α}

/-- Cutting at a separator is splitting on it. -/
theorem cutAt_eq_splitOn (separator : α) (whole : List α) :
    cutAt separator whole = whole.splitOn separator := by
  induction whole with
  | nil => rfl
  | cons a rest ih =>
    have step : (a :: rest).splitOn separator = if a = separator then [] :: rest.splitOn separator
        else (rest.splitOn separator).modifyHead (List.cons a) := by
      simp only [List.splitOn, List.splitOnP_cons_eq_if_modifyHead, beq_iff_eq]
    rw [cutAt, ih, step]
    split
    · rfl
    · cases pieces : rest.splitOn separator with
      | nil => exact absurd pieces (List.splitOnP_ne_nil _ _)
      | cons piece others => rfl

/-- The pieces tell the whole. -/
theorem cutAt_injective (separator : α) : Function.Injective (cutAt separator) := by
  intro whole whole' same
  rw [cutAt_eq_splitOn, cutAt_eq_splitOn] at same
  calc whole = [separator].intercalate (whole.splitOn separator) :=
        (List.intercalate_splitOn separator).symm
    _ = [separator].intercalate (whole'.splitOn separator) := by rw [same]
    _ = whole' := List.intercalate_splitOn separator

/-- No piece has the separator in it. -/
theorem not_mem_of_mem_cutAt {whole piece : List α} (mem : piece ∈ cutAt separator whole) :
    separator ∉ piece := by
  induction whole generalizing piece with
  | nil =>
    rw [List.mem_singleton.1 mem]
    exact List.not_mem_nil
  | cons a rest ih =>
    unfold cutAt at mem
    split at mem
    · rcases List.mem_cons.1 mem with rfl | later
      · exact List.not_mem_nil
      · exact ih later
    · next different =>
      split at mem
      · rw [List.mem_singleton.1 mem, List.mem_singleton]
        exact Ne.symm different
      · next first pieces cut =>
        rcases List.mem_cons.1 mem with rfl | later
        · rw [List.mem_cons, not_or]
          exact ⟨Ne.symm different, ih (cut ▸ List.mem_cons_self)⟩
        · exact ih (cut ▸ List.mem_cons_of_mem _ later)

end Pieces

namespace Graph

/-- The piece of a path that a name stands for. -/
def pieceOf (name : String) : String :=
  if name = topFolder then "" else name

/-- A piece between backslashes has none. -/
theorem ofList_ne_topFolder {whole piece : List Char} (cut : piece ∈ cutAt '\\' whole) :
    String.ofList piece ≠ topFolder := by
  intro same
  have backslash := congrArg String.toList same
  rw [String.toList_ofList] at backslash
  apply not_mem_of_mem_cutAt cut
  rw [backslash]
  decide

/-- The names of a path stand for its pieces. -/
theorem map_pieceOf_pathNames (path : String) :
    (pathNames path).map pieceOf = (cutAt '\\' path.toList).map String.ofList := by
  have plain : ∀ piece ∈ (cutAt '\\' path.toList).map String.ofList, pieceOf piece = piece := by
    intro piece mem
    obtain ⟨characters, cut, rfl⟩ := List.mem_map.1 mem
    exact if_neg (ofList_ne_topFolder cut)
  have unchanged : ∀ names : List String, (∀ name ∈ names, pieceOf name = name) →
      names.map pieceOf = names :=
    fun names all => (List.map_congr_left all).trans (List.map_id' names)
  unfold pathNames
  split
  · next first second rest pieces =>
    rw [pieces] at plain ⊢
    split
    · next nothing =>
      obtain ⟨-, others⟩ := List.forall_mem_cons.1 plain
      rw [List.map_cons, unchanged _ others, String.isEmpty_iff.1 nothing]
      rfl
    · exact unchanged _ plain
  · exact unchanged _ plain

/-- The names of a path tell the path. -/
theorem pathNames_injective : Function.Injective pathNames := by
  intro path path' same
  have pieces := congrArg (List.map pieceOf) same
  rw [map_pieceOf_pathNames, map_pieceOf_pathNames] at pieces
  have characters := cutAt_injective '\\'
    (List.map_injective_iff.2 (fun _ _ => String.ofList_injective) pieces)
  exact String.toList_inj.1 characters

/-! ## Where paths lead -/

variable {g h : Graph} {start id : NodeId} {names : List String}

/-- Named folders, each an entry of the one before, lead from a node to another one. -/
def Leads (g : Graph) : NodeId → List String → NodeId → Prop
  | start, [], id => id = start
  | start, name :: names, id => name.isEmpty = false ∧
    ∃ folder, g.IsEntry start folder .folder name ∧ g.Leads folder names id

/-- A file stands at a path: named folders lead to the one that lists it. -/
def FileAt (g : Graph) (start : NodeId) (names : List String) (id : NodeId) : Prop :=
  (names.getLast?.getD "").isEmpty = false ∧
    ∃ folder, g.Leads start names.dropLast folder ∧ g.IsEntry folder id .file (names.getLast?.getD "")

/-- Where entries are kept, folders lead where they led. -/
theorem Leads.mono (keeps : ∀ {container id kind name}, g.IsEntry container id kind name →
    h.IsEntry container id kind name) (leads : g.Leads start names id) : h.Leads start names id := by
  induction names generalizing start with
  | nil => exact leads
  | cons name names ih =>
    obtain ⟨something, folder, entry, rest⟩ := leads
    exact ⟨something, folder, keeps entry, ih rest⟩

/-- Where entries are kept, files stand where they stood. -/
theorem FileAt.mono (keeps : ∀ {container id kind name}, g.IsEntry container id kind name →
    h.IsEntry container id kind name) (file : g.FileAt start names id) : h.FileAt start names id := by
  obtain ⟨something, folder, leads, entry⟩ := file
  exact ⟨something, folder, leads.mono keeps, keeps entry⟩

/-- Folders lead along names and then along more of them through one between. -/
theorem leads_append {more : List String} :
    g.Leads start (names ++ more) id ↔ ∃ folder, g.Leads start names folder ∧ g.Leads folder more id := by
  induction names generalizing start with
  | nil => simp [Leads]
  | cons name names ih =>
    simp only [List.cons_append, Leads, ih]
    tauto

/-- Opening folders leads to the one that is given. -/
theorem Tidy.leads_of_openFolders (tidy : g.Tidy) (room : h.size < idLimit)
    (unused : h.texts.texts.find? lastKey = none)
    (opened : g.openFolders start names = (.ok id, h)) : h.Leads start names id := by
  induction names generalizing g start with
  | nil =>
    cases opened
    rfl
  | cons name names ih =>
    obtain ⟨something, folder, between, first, rest⟩ := openFolders_cons_eq_ok opened
    have early : Upkeep g between := upkeep_of_openEntry (Or.inr rfl) first
    have later : Upkeep between h := upkeep_of_openFolders rest
    have roomBetween := Nat.lt_of_le_of_lt later.size room
    have unusedBetween := later.unused unused
    have tidyBetween := early.tidy roomBetween unusedBetween tidy
    have entry := tidy.isEntry_of_openEntry (Or.inr rfl)
      (Nat.lt_of_le_of_lt early.size roomBetween) first
    exact ⟨something, folder, later.entry room unused tidyBetween entry, ih tidyBetween rest⟩

/-- Opening folders that are there changes nothing. -/
theorem Tidy.openFolders_of_leads (tidy : g.Tidy) (leads : g.Leads start names id) :
    g.openFolders start names = (.ok id, g) := by
  induction names generalizing start with
  | nil =>
    cases leads
    rfl
  | cons name names ih =>
    obtain ⟨something, folder, entry, rest⟩ := leads
    unfold openFolders
    rw [if_neg (Bool.eq_false_iff.1 something)]
    simp only [tidy.openEntry_of_isEntry entry]
    exact ih rest

/-- The file that is given stands at the path. -/
theorem Tidy.fileAt_of_createFileFrom (tidy : g.Tidy) (room : h.size < idLimit)
    (unused : h.texts.texts.find? lastKey = none) {path : String}
    (created : g.createFileFrom path start = (.ok id, h)) : h.FileAt start (pathNames path) id := by
  obtain ⟨-, folder, between, -, -, opened, something, last⟩ := createFileFrom_eq_ok created
  have early : Upkeep g between := upkeep_of_openFolders opened
  have later : Upkeep between h := upkeep_of_openEntry (Or.inl rfl) last
  have roomBetween := Nat.lt_of_le_of_lt later.size room
  have unusedBetween := later.unused unused
  have tidyBetween := early.tidy roomBetween unusedBetween tidy
  have leads := tidy.leads_of_openFolders roomBetween unusedBetween opened
  exact ⟨something, folder, leads.mono (later.entry room unused tidyBetween),
    tidyBetween.isEntry_of_openEntry (Or.inl rfl) roomBetween last⟩

/-- Asking for a file that stands at a path gives it and changes nothing. -/
theorem Tidy.createFile_of_fileAt (tidy : g.Tidy) {path : String}
    (file : g.FileAt g.fileSystem (pathNames path) id) : g.createFile path = (.ok id, g) := by
  obtain ⟨n, found, is⟩ := tidy.root
  obtain ⟨something, folder, leads, entry⟩ := file
  unfold createFile createFileFrom
  simp only [found, is, decide_true, Bool.or_true, if_true, tidy.openFolders_of_leads leads]
  rw [if_neg (Bool.eq_false_iff.1 something)]
  exact tidy.openEntry_of_isEntry entry

/-! ## Paths that lead to one file -/

/-- The file system is no entry. -/
theorem Tidy.not_isEntry_fileSystem (tidy : g.Tidy) {container : NodeId} {kind : NodeKind}
    {name : String} : ¬ g.IsEntry container g.fileSystem kind name := by
  intro entry
  obtain ⟨n, found, is⟩ := tidy.root
  obtain ⟨kind', name', which, m, there, rfl, -⟩ := tidy.listed entry.lists
  cases found.symm.trans there
  rw [is] at which
  simp at which

section Inverse

variable (tidy : g.Tidy) (unused : g.texts.texts.find? lastKey = none)

include tidy unused

/-- An entry has one container and one name. -/
theorem Tidy.isEntry_inj {container container' : NodeId} {kind kind' : NodeKind} {name name' : String}
    (entry : g.IsEntry container id kind name) (entry' : g.IsEntry container' id kind' name') :
    container' = container ∧ name' = name :=
  ⟨tidy.once entry'.lists entry.lists, (tidy.named_inj unused entry.named entry'.named).2⟩

/-- Folders have one path from the file system. -/
theorem Tidy.leads_inj {names' : List String} (leads : g.Leads g.fileSystem names id)
    (leads' : g.Leads g.fileSystem names' id) : names = names' := by
  -- from the innermost folder outwards, as that is where containers are known from
  induction names using List.reverseRecOn generalizing id names' with
  | nil =>
    cases leads
    rcases List.eq_nil_or_concat' names' with rfl | ⟨outer, name, rfl⟩
    · rfl
    · obtain ⟨_, -, -, folder, entry, rfl⟩ := leads_append.1 leads'
      exact absurd entry tidy.not_isEntry_fileSystem
  | append_singleton names name ih =>
    obtain ⟨outer, above, -, _, entry, rfl⟩ := leads_append.1 leads
    rcases List.eq_nil_or_concat' names' with rfl | ⟨names', name', rfl⟩
    · cases leads'
      exact absurd entry tidy.not_isEntry_fileSystem
    · obtain ⟨outer', above', -, _, entry', rfl⟩ := leads_append.1 leads'
      obtain ⟨rfl, rfl⟩ := tidy.isEntry_inj unused entry entry'
      rw [ih above above']

/-- A file has one path from the file system. -/
theorem Tidy.fileAt_inj {path path' : String} (file : g.FileAt g.fileSystem (pathNames path) id)
    (file' : g.FileAt g.fileSystem (pathNames path') id) : path = path' := by
  obtain ⟨something, folder, leads, entry⟩ := file
  obtain ⟨something', folder', leads', entry'⟩ := file'
  obtain ⟨rfl, last⟩ := tidy.isEntry_inj unused entry entry'
  have above := tidy.leads_inj unused leads leads'
  -- a list of names is what stands before the last one, and that one
  have split : ∀ names : List String, (names.getLast?.getD "").isEmpty = false →
      names = names.dropLast ++ [names.getLast?.getD ""] := by
    intro names something
    rcases List.eq_nil_or_concat' names with rfl | ⟨init, name, rfl⟩
    · cases something
    · simp
  apply pathNames_injective
  rw [split _ something, split _ something', above, last]

/-- Entries are told apart by kind and name. -/
theorem Tidy.nodup_labels {container : NodeId} {holder : Node}
    (holds : g.find? container = some holder) :
    (holder.entries.map fun id => ((g.find? id).map Node.kind, (g.getName id).toOption)).Nodup := by
  have label : ∀ {id kind name}, g.Named id kind name →
      ((g.find? id).map Node.kind, (g.getName id).toOption) = (some kind, some name) := by
    rintro id kind name ⟨n, found, rfl, known⟩
    have text := tidy.consistent.get_of_keyOf? tidy.numbered unused known
    simp only [getName, found, text]
    rfl
  refine (tidy.distinct holds).map_on fun a listed b listed' same => ?_
  have lists : g.Lists container a := ⟨holder, holds, listed⟩
  have lists' : g.Lists container b := ⟨holder, holds, listed'⟩
  obtain ⟨kind, name, -, named⟩ := tidy.listed lists
  obtain ⟨kind', name', -, named'⟩ := tidy.listed lists'
  rw [label named, label named'] at same
  cases same
  exact tidy.apart ⟨lists, named⟩ ⟨lists', named'⟩

end Inverse

/-! ## Files of a history -/

section Histories

variable {language : Language} {history : List Operation}
  (along : (new language).Along Operation.LeavesEntries history)
  (room : ((new language).after history).size < idLimit)
  (unused : ((new language).after history).texts.texts.find? lastKey = none)

include along room unused

/-- A history that leaves entries as they are ends in a tidy graph, while ids and keys last. -/
theorem tidy_after : ((new language).after history).Tidy :=
  along.upkeep.tidy room unused (tidy_new language)

/-- A file that was given once stands at its path in the end. -/
theorem Gives.fileAt {path : String} (gives : (new language).Gives history (.createFile path) id) :
    ((new language).after history).FileAt ((new language).after history).fileSystem (pathNames path)
      id := by
  obtain ⟨before, after, rfl, given⟩ := gives
  obtain ⟨first, leaves, rest⟩ := along_append.1 along
  rw [after_append, after_cons] at room unused ⊢
  have early := upkeep_perform leaves
  have later := rest.upkeep
  have roomThen := Nat.lt_of_le_of_lt later.size room
  have unusedThen := later.unused unused
  have tidy : ((new language).after before).Tidy :=
    tidy_after first (Nat.lt_of_le_of_lt early.size roomThen) (early.unused unusedThen)
  have file := tidy.fileAt_of_createFileFrom roomThen unusedThen (nodeHalf_eq_ok given)
  rw [later.fileSystem, early.fileSystem]
  exact file.mono (later.entry room unused (early.tidy roomThen unusedThen tidy))

end Histories

/-- In a graph that was built without loading, clearing, renaming entries or other edges to entries than
those that asking for files makes, and while ids and keys last: no container lists two entries of one
kind and name; two calls that ask for files below the file system have given one file if and only if
they asked for one path; and asking for a file again gives it and changes nothing. -/
theorem files_unique_after {language : Language} {history : List Operation}
    (along : (new language).Along Operation.LeavesEntries history)
    (room : ((new language).after history).size < idLimit)
    (keys : ((new language).after history).texts.SparesLastKey) :
    let f := (new language).after history
    (∀ container holder, f.find? container = some holder →
      (holder.entries.map fun id => ((f.find? id).map Node.kind, (f.getName id).toOption)).Nodup) ∧
    (∀ p q a b, (new language).Gives history (.createFile p) a →
      (new language).Gives history (.createFile q) b → (a = b ↔ p = q)) ∧
    ∀ p a, (new language).Gives history (.createFile p) a →
      (Operation.createFile p).perform f = (.ok (.node a), f) := by
  intro f
  have unused := keys.unused
  have tidy : f.Tidy := tidy_after along room unused
  have again : ∀ p a, (new language).Gives history (.createFile p) a → f.createFile p = (.ok a, f) :=
    fun p a gives => tidy.createFile_of_fileAt (gives.fileAt along room unused)
  refine ⟨fun container holder holds => tidy.nodup_labels unused holds, ?_, fun p a gives => ?_⟩
  · intro p q a b gives gives'
    constructor
    · rintro rfl
      exact tidy.fileAt_inj unused (gives.fileAt along room unused) (gives'.fileAt along room unused)
    · rintro rfl
      have same := (again p a gives).symm.trans (again p b gives')
      cases same
      rfl
  · change Outcome.nodeHalf (f.createFile p) = _
    rw [again p a gives]
    rfl

/-- An edge that is refused changes nothing. -/
theorem snd_perform_addEdge_of_fails {e : EdgeKind} {source target : NodeId}
    (fails : (g.withEdge e source target).isOk = false) :
    ((Operation.addEdge e source target).perform g).2 = g := by
  rw [Operation.perform_eq]
  change (Outcome.orKeep g (g.withEdge e source target)).2 = g
  cases result : g.withEdge e source target with
  | error cause => rfl
  | ok h =>
    rw [result] at fails
    cases fails

/-- Files at two paths with the same names but for the first, one of them asked for again at the end; a
path with an empty name; a folder that is renamed and gets a file but is listed nowhere; and an edge to
it that is refused. -/
def fileHistory : List Operation :=
  [.createFile "src\\A.java", .createFile "\\src\\A.java", .createFile "src\\\\A.java",
    .createNode .folder, .setName (madeId 5) "src", .createFileFrom "A.java" (madeId 5),
    .addEdge .folderContains (madeId 1) (madeId 5), .createFile "src", .comment "src",
    .createFile "src\\A.java"]

/-- After that history, asking again for the files gives the same nodes, and different paths
different ones. -/
theorem files_unique_after_nested :
    let f := (new .java).after fileHistory
    (new .java).Along Operation.LeavesEntries fileHistory ∧ f.size = 112 ∧ f.texts.SparesLastKey ∧
      (new .java).Gives fileHistory (.createFile "src\\A.java") (madeId 1) ∧
      (new .java).Gives fileHistory (.createFile "\\src\\A.java") (madeId 4) ∧
      madeId 1 ≠ madeId 4 ∧
      (Operation.createFile "src\\A.java").perform f = (.ok (.node (madeId 1)), f) := by
  intro f
  have facts : f.size = 112 ∧ f.texts.SparesLastKey ∧
      ((Operation.createFile "src\\A.java").perform (new .java)).1 = .ok (.node (madeId 1)) ∧
      ((Operation.createFile "\\src\\A.java").perform
        ((new .java).after (fileHistory.take 1))).1 = .ok (.node (madeId 4)) := by
    decide +kernel
  obtain ⟨size, keys, given, given'⟩ := facts
  have renamed : madeId 5 ∉ ((new .java).after (fileHistory.take 4)).entryIds := by decide +kernel
  have refused : (((new .java).after (fileHistory.take 6)).withEdge .folderContains (madeId 1)
      (madeId 5)).isOk = false := by
    decide +kernel
  have along : (new .java).Along Operation.LeavesEntries fileHistory :=
    ⟨Or.inr trivial, Or.inr trivial, Or.inr trivial, Or.inr trivial, Or.inr renamed, Or.inr trivial,
      Or.inl (snd_perform_addEdge_of_fails refused), Or.inr trivial, Or.inr trivial, Or.inr trivial, trivial⟩
  have room : f.size < idLimit := by
    rw [size]
    decide
  have gives : (new .java).Gives fileHistory (.createFile "src\\A.java") (madeId 1) :=
    ⟨[], _, rfl, given⟩
  have gives' : (new .java).Gives fileHistory (.createFile "\\src\\A.java") (madeId 4) :=
    ⟨fileHistory.take 1, _, rfl, given'⟩
  obtain ⟨-, apart, again⟩ := files_unique_after along room keys
  exact ⟨along, size, keys, gives, gives',
    fun same => absurd ((apart _ _ _ _ gives gives').1 same) (by decide), again _ _ gives⟩

end Graph

end CodeGraph
