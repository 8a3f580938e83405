import CodeGraph.Proofs.Paths

/-!
# Files that are refused

Asking for a file opens the folders of its path one after the other before the whole path has been
looked at. So a path with an empty name in it is refused only when the folders before that name have
been opened, and those of them that were missing stay. A start that cannot hold entries is refused
before anything is done, and nothing else is ever refused. Main statement:
`Graph.refused_files_after`, what a refusal leaves behind and when it leaves nothing.
-/

set_option autoImplicit false

namespace CodeGraph

namespace Graph

variable {g h k : Graph} {start place container id other : NodeId} {holder : Node} {name : String}
  {names : List String} {kind : NodeKind}

/-! ## Folders that are there and folders that are made -/

/-- Folders of these names are found from a node on, each in the one before. -/
def Descends (g : Graph) : NodeId → List String → NodeId → Prop
  | start, [], place => place = start
  | start, name :: names, place => ∃ holder folder, g.find? start = some holder ∧
    g.findEntry holder name .folder = some folder ∧ g.Descends folder names place

/-- New folders of these names are made from a node on, each in the one before. -/
inductive MakesFolders : Graph → NodeId → List String → Graph → Prop
  | nil {g : Graph} {container : NodeId} : MakesFolders g container [] g
  | cons {g h k : Graph} {container folder : NodeId} {holder : Node} {name : String}
      {names : List String} (enters : g.Enters container holder name .folder folder h)
      (rest : MakesFolders h folder names k) : MakesFolders g container (name :: names) k

/-- Going down along names and then along more of them leads through a folder between. -/
theorem descends_append {more : List String} : g.Descends start (names ++ more) place ↔
    ∃ between, g.Descends start names between ∧ g.Descends between more place := by
  induction names generalizing start with
  | nil => simp [Descends]
  | cons name names ih =>
    simp only [List.cons_append, Descends, ih]
    tauto

/-- Names lead to one place at most. -/
theorem Descends.unique {place' : NodeId} (there : g.Descends start names place)
    (there' : g.Descends start names place') : place' = place := by
  induction names generalizing start with
  | nil => exact Eq.trans there' (Eq.symm there)
  | cons name names ih =>
    obtain ⟨holder, folder, holds, found, rest⟩ := there
    obtain ⟨holder', folder', holds', found', rest'⟩ := there'
    cases holds.symm.trans holds'
    cases found.symm.trans found'
    exact ih rest rest'

/-- What was there before an entry was made is still there, and differs in its edges at most. -/
theorem Enters.kept_node (enters : g.Enters container holder name kind id h) {n : Node}
    (found : g.find? other = some n) :
    ∃ m, h.find? other = some m ∧ { m with slots := n.slots } = n := by
  have different : other ≠ id := by
    rintro rfl
    rw [enters.hole] at found
    cases found
  rw [enters.find, if_neg different]
  split
  · next here =>
    subst here
    cases enters.holds.symm.trans found
    exact ⟨_, rfl, rfl⟩
  · exact ⟨n, found, rfl⟩

namespace MakesFolders

variable (makes : g.MakesFolders container names h)

include makes

/-- What was there before folders were made is still there, and differs in its edges at most. -/
theorem kept {n : Node} (found : g.find? other = some n) :
    ∃ m, h.find? other = some m ∧ { m with slots := n.slots } = n := by
  induction makes generalizing n with
  | nil => exact ⟨n, found, rfl⟩
  | cons enters _ ih =>
    obtain ⟨m, there, same⟩ := enters.kept_node found
    obtain ⟨m', there', same'⟩ := ih there
    refine ⟨m', there', ?_⟩
    calc { m' with slots := n.slots }
        = { ({ m' with slots := m.slots } : Node) with slots := n.slots } := rfl
      _ = { m with slots := n.slots } := by rw [same']
      _ = n := same

/-- What was not there before is a folder. -/
theorem kind_of_new {m : Node} (found : h.find? other = some m) (hole : g.find? other = none) :
    m.kind = .folder := by
  induction makes with
  | nil =>
    rw [hole] at found
    cases found
  | @cons g between h container folder holder name names enters rest ih =>
    cases there : between.find? other with
    | none => exact ih found there
    | some n =>
      obtain ⟨m', found', same⟩ := rest.kept there
      cases found.symm.trans found'
      have kind : ({ m with slots := n.slots } : Node).kind = n.kind := congrArg Node.kind same
      rw [enters.find] at there
      split at there
      · cases there
        exact kind.trans (Node.kind_setName _ _)
      · split at there
        · next here =>
          subst here
          cases enters.holds.symm.trans hole
        · cases there.symm.trans hole

/-- Making folders changes a graph. -/
theorem eq_iff : h = g ↔ names = [] := by
  cases makes with
  | nil => exact ⟨fun _ => rfl, fun _ => rfl⟩
  | cons enters rest =>
    refine ⟨fun same => ?_, fun nothing => absurd nothing (List.cons_ne_nil _ _)⟩
    obtain ⟨m, there, -⟩ := rest.kept ((enters.find _).trans (if_pos rfl))
    rw [same, enters.hole] at there
    cases there

/-- The first folder that is made was not there. -/
theorem not_descends (some : names ≠ []) : ¬ g.Descends container names place := by
  intro there
  cases makes with
  | nil => exact some rfl
  | cons enters _ =>
    obtain ⟨holder, folder, holds, found, -⟩ := there
    cases enters.holds.symm.trans holds
    cases enters.missing.symm.trans found

end MakesFolders

/-- In a folder without entries all folders are made. -/
theorem makesFolders_of_isBare (room : h.size < idLimit) (bare : g.IsBare container)
    (opened : g.openFolders container names = (.ok place, h)) :
    g.MakesFolders container names h := by
  induction names generalizing g container with
  | nil =>
    cases opened
    exact .nil
  | cons name names ih =>
    obtain ⟨-, folder, between, first, others⟩ := openFolders_cons_eq_ok opened
    have le := size_le_of_openEntry rfl first
    have le' := size_le_of_openFolders others
    rcases openEntry_eq_ok (by omega) first with ⟨holder, holds, entry, -⟩ | ⟨holder, enters⟩
    · exact absurd entry (not_findEntry_of_isBare bare holds)
    · exact .cons enters (ih enters.isBare others)

/-- Of the folders that are opened the first ones are there, and the others are made. -/
theorem exists_makesFolders (room : h.size < idLimit)
    (opened : g.openFolders container names = (.ok place, h)) :
    ∃ known missing between, names = known ++ missing ∧ g.Descends container known between ∧
      g.MakesFolders between missing h := by
  induction names generalizing g container with
  | nil =>
    cases opened
    exact ⟨[], [], place, rfl, rfl, .nil⟩
  | cons name names ih =>
    obtain ⟨-, folder, between, first, others⟩ := openFolders_cons_eq_ok opened
    have le := size_le_of_openEntry rfl first
    have le' := size_le_of_openFolders others
    rcases openEntry_eq_ok (by omega) first with ⟨holder, holds, entry, rfl⟩ | ⟨holder, enters⟩
    · obtain ⟨known, missing, last, rfl, there, makes⟩ := ih others
      exact ⟨name :: known, missing, last, rfl, ⟨holder, folder, holds, entry, there⟩, makes⟩
    · exact ⟨[], name :: names, container, rfl, rfl,
        .cons enters (makesFolders_of_isBare room enters.isBare others)⟩

/-! ## What is refused -/

/-- There is a folder or a file system at an id. -/
def TakesEntries (g : Graph) (id : NodeId) : Prop :=
  ∃ n, g.find? id = some n ∧ (n.kind = .folder ∨ n.kind = .fileSystem)

/-- Where there is no node, nothing takes entries. -/
theorem not_takesEntries_of_absent (missing : g.find? id = none) : ¬ g.TakesEntries id := by
  rintro ⟨n, found, -⟩
  cases missing.symm.trans found

/-- What is neither a folder nor a file system takes no entries. -/
theorem not_takesEntries_of_kind {n : Node} (found : g.find? id = some n)
    (noFolder : n.kind ≠ .folder) (noFileSystem : n.kind ≠ .fileSystem) : ¬ g.TakesEntries id := by
  rintro ⟨m, found', fits⟩
  cases found.symm.trans found'
  exact fits.elim noFolder noFileSystem

/-- Every node lies at its id and is well formed. -/
structure WellPlaced (g : Graph) : Prop where
  indexed : g.nodes.Indexed
  wellFormed : g.nodes.WellFormed

/-- Opening an entry keeps every node at its id and well formed. -/
theorem wellPlaced_openEntry (placed : g.WellPlaced) (container : NodeId) (name : String)
    (is : kind = .file ∨ kind = .folder) : (g.openEntry container name kind).2.WellPlaced := by
  have concrete : kind.isAbstract = false := by
    rcases is with rfl | rfl <;> rfl
  have run : EditRun (fun _ _ => True) g (g.openEntry container name kind).2 :=
    edits_openEntry g container name concrete
  exact ⟨run.preserves (fun _ _ edit => edit.indexed) placed.indexed,
    run.preserves (fun _ _ edit => edit.wellFormed) placed.wellFormed⟩

/-- A folder or a file system has a slot for entries. -/
theorem entryEdge_mem (placed : g.WellPlaced) (holds : g.find? container = some holder)
    (fits : holder.kind = .folder ∨ holder.kind = .fileSystem) :
    entryEdge holder ∈ holder.edgeKinds := by
  rw [(placed.wellFormed container holder holds).kinds]
  unfold entryEdge
  rcases fits with is | is <;> rw [is] <;> decide

/-- A folder or a file system refuses no entry. -/
theorem openEntry_succeeds (placed : g.WellPlaced) (room : g.size < idLimit)
    (takes : g.TakesEntries container) (name : String) (is : kind = .file ∨ kind = .folder) :
    ∃ id h, g.openEntry container name kind = (.ok id, h) := by
  obtain ⟨holder, holds, fits⟩ := takes
  have hole := (nextId_fresh room).2
  have different : container ≠ g.nextId := by
    rintro rfl
    cases holds.symm.trans hole
  have accepts : (g.strayEntry name kind).Accepts (entryEdge holder) container
      { id := g.nextId } := by
    refine ⟨⟨holder, ?_, entryEdge_mem placed holds fits⟩,
      ⟨_, (g.find?_strayEntry name kind _).trans (if_pos rfl), ?_⟩, ?_⟩
    · rw [find?_strayEntry, if_neg different, holds]
    · rw [target_entryEdge, Node.is, Node.kind_setName]
      rcases is with rfl | rfl <;> rfl
    · unfold entryEdge
      split <;> rfl
  have checked := checkEdge_of_accepts accepts .addEdge
  rw [openEntry_eq]
  unfold withEntry
  simp only [holds]
  cases g.findEntry holder name kind with
  | some id => exact ⟨id, g, rfl⟩
  | none =>
    have number : ((g.intern name).2.newNodeWith kind fun n => n.setName (g.intern name).1).1 =
        g.nextId := rfl
    unfold withEdge
    unfold strayEntry at checked
    simp only [number, checked]
    exact ⟨_, _, rfl⟩

/-- An entry that is opened has the kind that was asked for. -/
theorem kind_of_openEntry (placed : g.WellPlaced) (room : g.size < idLimit)
    (opened : g.openEntry container name kind = (.ok id, h)) :
    ∃ n, h.find? id = some n ∧ n.kind = kind := by
  rcases openEntry_eq_ok room opened with ⟨holder, -, found, rfl⟩ | ⟨holder, enters⟩
  · unfold findEntry at found
    split at found
    · cases found
    · next key _ =>
      obtain ⟨n, first, rfl⟩ := Option.map_eq_some_iff.1 found
      obtain ⟨t, -, there⟩ := List.mem_filterMap.1 (List.mem_of_find?_eq_some first)
      have right : n.kind = kind ∧ n.name = key := by simpa using List.find?_some first
      have number : n.id = t.id := placed.indexed.id_eq there
      exact ⟨n, number.symm ▸ there, right.1⟩
  · exact ⟨_, (enters.find id).trans (if_pos rfl), Node.kind_setName _ _⟩

/-- Folders are refused only if one of them has no name, and then those before it have been opened.
-/
theorem openFolders_cases {result : Except Error NodeId} (placed : g.WellPlaced)
    (takes : g.TakesEntries container) (room : h.size < idLimit)
    (opened : g.openFolders container names = (result, h)) :
    (∃ place, result = .ok place ∧ h.TakesEntries place ∧ h.WellPlaced) ∨
      ∃ front later place, names = front ++ "" :: later ∧
        g.openFolders container front = (.ok place, h) ∧
        result = .error (.emptyFolderName .createFile) := by
  induction names generalizing g container with
  | nil =>
    cases opened
    exact Or.inl ⟨container, rfl, takes, placed⟩
  | cons name names ih =>
    have le := size_le_of_openFolders opened
    rw [openFolders] at opened
    split at opened
    · next nothing =>
      cases opened
      rw [String.isEmpty_iff.1 nothing]
      exact Or.inr ⟨[], names, container, rfl, rfl, rfl⟩
    · next something =>
      obtain ⟨folder, between, first⟩ :=
        openEntry_succeeds placed (by omega) takes name (Or.inr rfl)
      have placedBetween := wellPlaced_openEntry placed container name (Or.inr rfl)
      obtain ⟨n, found, is⟩ := kind_of_openEntry placed (by omega) first
      rw [first] at opened placedBetween
      rcases ih placedBetween ⟨n, found, Or.inl is⟩ opened with
        done | ⟨front, later, place, rfl, opened, refused⟩
      · exact Or.inl done
      · refine Or.inr ⟨name :: front, later, place, rfl, ?_, refused⟩
        rw [openFolders, if_neg something, first]
        exact opened

/-- Folders are opened only by names that are not empty. -/
theorem ne_empty_of_openFolders (opened : g.openFolders container names = (.ok place, h)) :
    ∀ name ∈ names, name ≠ "" := by
  induction names generalizing g container with
  | nil => exact fun _ absent => absurd absent List.not_mem_nil
  | cons name names ih =>
    obtain ⟨something, _, _, -, others⟩ := openFolders_cons_eq_ok opened
    refine List.forall_mem_cons.2 ⟨?_, ih others⟩
    rintro rfl
    cases something

/-- A path has at least one name. -/
theorem pathNames_ne_nil (path : String) : pathNames path ≠ [] := by
  intro nothing
  have pieces := map_pieceOf_pathNames path
  rw [nothing, cutAt_eq_splitOn] at pieces
  exact List.splitOnP_ne_nil _ _ (List.map_eq_nil_iff.1 pieces.symm)

/-- Why a file is refused, and what becomes of the graph. -/
inductive RefusesFile (g : Graph) (path : String) (start : NodeId) : Error → Graph → Prop
  /-- There is nothing to start from. -/
  | absent (missing : g.find? start = none) :
      RefusesFile g path start (.noSuchNode .createFile start.raw) g
  /-- The start holds no entries. -/
  | unfit (n : Node) (found : g.find? start = some n) (noFolder : n.kind ≠ .folder)
      (noFileSystem : n.kind ≠ .fileSystem) :
      RefusesFile g path start (.wrongKind .createFile n.kind) g
  /-- There is an empty name in the path. Of the folders before it the first ones were there, and
  the others have been made. -/
  | nameless (known missing later : List String) (place : NodeId) (h : Graph)
      (takes : g.TakesEntries start) (names : pathNames path = known ++ missing ++ "" :: later)
      (filled : ∀ name ∈ known ++ missing, name ≠ "") (there : g.Descends start known place)
      (made : g.MakesFolders place missing h) :
      RefusesFile g path start
        (if later = [] then .refused .createFile .emptyFileName else .emptyFolderName .createFile) h

/-- A path with an empty name is refused when the folders before that name have been opened. -/
theorem refusesFile_of_front {path : String} {front later : List String} (room : h.size < idLimit)
    (takes : g.TakesEntries start) (names : pathNames path = front ++ "" :: later)
    (opened : g.openFolders start front = (.ok place, h)) :
    g.RefusesFile path start
      (if later = [] then .refused .createFile .emptyFileName else .emptyFolderName .createFile)
      h := by
  obtain ⟨known, missing, between, rfl, there, made⟩ := exists_makesFolders room opened
  exact .nameless known missing later between h takes names (ne_empty_of_openFolders opened) there
    made

/-- A file is refused for one of these reasons. -/
theorem refusesFile_of_error {path : String} {cause : Error} (placed : g.WellPlaced)
    (room : h.size < idLimit) (failed : g.createFileFrom path start = (.error cause, h)) :
    g.RefusesFile path start cause h := by
  unfold createFileFrom at failed
  split at failed
  · next missing =>
    cases failed
    exact .absent missing
  · next n found =>
    split at failed
    · next allowed =>
      have takes : g.TakesEntries start := ⟨n, found, by simpa using allowed⟩
      have whole := List.dropLast_append_getLast (pathNames_ne_nil path)
      have last := List.getLast?_eq_some_getLast (pathNames_ne_nil path)
      simp only [last, Option.getD_some] at failed
      generalize (pathNames path).getLast (pathNames_ne_nil path) = final at whole failed
      split at failed
      · next _ _ refused =>
        cases failed
        rcases openFolders_cases placed takes room refused with
          ⟨_, done, -⟩ | ⟨front, later, place, split, opened, stopped⟩
        · cases done
        · cases stopped
          have names : pathNames path = front ++ "" :: (later ++ [final]) := by
            rw [← whole, split, List.append_assoc, List.cons_append]
          have refuses := refusesFile_of_front room takes names opened
          have longer : later ++ [final] ≠ [] :=
            List.append_ne_nil_of_right_ne_nil _ (List.cons_ne_nil _ _)
          rwa [if_neg longer] at refuses
      · next folder between opened =>
        split at failed
        · next nothing =>
          cases failed
          rw [String.isEmpty_iff.1 nothing] at whole
          exact refusesFile_of_front room takes whole.symm opened
        · -- a file with a name is given
          have early : between.size < idLimit :=
            Nat.lt_of_le_of_lt (size_le_of_openEntry rfl failed) room
          rcases openFolders_cases placed takes early opened with
            ⟨_, done, fits, placed⟩ | ⟨_, _, _, -, -, stopped⟩
          · cases done
            obtain ⟨_, _, made⟩ := openEntry_succeeds placed early fits final (Or.inl rfl)
            cases failed.symm.trans made
          · cases stopped
    · next unfit =>
      cases failed
      have other : ¬ n.kind = .folder ∧ ¬ n.kind = .fileSystem := by simpa using unfit
      exact .unfit n found other.1 other.2

namespace RefusesFile

variable {path : String} {cause : Error} (refuses : g.RefusesFile path start cause h)

include refuses

/-- A refusal changes nothing if all folders before the empty name are there. -/
theorem eq_iff : h = g ↔ (g.TakesEntries start → ∃ place,
    g.Descends start ((pathNames path).takeWhile fun name => decide (name ≠ "")) place) := by
  cases refuses with
  | absent missing =>
    exact ⟨fun _ takes => absurd takes (not_takesEntries_of_absent missing), fun _ => rfl⟩
  | unfit n found noFolder noFileSystem =>
    exact ⟨fun _ takes => absurd takes (not_takesEntries_of_kind found noFolder noFileSystem),
      fun _ => rfl⟩
  | nameless known missing later place h takes names filled there made =>
    have front : (pathNames path).takeWhile (fun name => decide (name ≠ "")) =
        known ++ missing := by
      rw [names, List.takeWhile_append_of_pos fun name mem => decide_eq_true (filled name mem)]
      exact List.append_nil _
    rw [made.eq_iff, front]
    constructor
    · rintro rfl _
      exact ⟨place, (List.append_nil known).symm ▸ there⟩
    · intro found
      obtain ⟨last, whole⟩ := found takes
      obtain ⟨between, first, rest⟩ := descends_append.1 whole
      cases there.unique first
      by_contra some
      exact made.not_descends some rest

/-- From a start that holds entries, only an empty name is refused. -/
theorem empty_mem (takes : g.TakesEntries start) : "" ∈ pathNames path := by
  cases refuses with
  | absent missing => exact absurd takes (not_takesEntries_of_absent missing)
  | unfit n found noFolder noFileSystem =>
    exact absurd takes (not_takesEntries_of_kind found noFolder noFileSystem)
  | nameless known missing later place h takes names filled there made =>
    rw [names]
    exact List.mem_append_right _ List.mem_cons_self

/-- Every node that was there keeps all but its edges. -/
theorem kept {n : Node} (found : g.find? other = some n) :
    ∃ m, h.find? other = some m ∧ { m with slots := n.slots } = n := by
  cases refuses with
  | absent | unfit => exact ⟨n, found, rfl⟩
  | nameless _ _ _ _ _ _ _ _ _ made => exact made.kept found

/-- Every node that was not there is a folder. -/
theorem kind_of_new {m : Node} (found : h.find? other = some m) (hole : g.find? other = none) :
    m.kind = .folder := by
  cases refuses with
  | absent | unfit => cases hole.symm.trans found
  | nameless _ _ _ _ _ _ _ _ _ made => exact made.kind_of_new found hole

end RefusesFile

/-- A file that is given has a path without empty names, from a start that holds entries. -/
theorem filled_of_createFileFrom {path : String}
    (created : g.createFileFrom path start = (.ok id, h)) :
    g.TakesEntries start ∧ "" ∉ pathNames path := by
  obtain ⟨n, folder, between, found, fits, opened, something, -⟩ := createFileFrom_eq_ok created
  refine ⟨⟨n, found, fits⟩, fun mem => ?_⟩
  rw [← List.dropLast_append_getLast (pathNames_ne_nil path)] at mem
  rcases List.mem_append.1 mem with folder | last
  · exact ne_empty_of_openFolders opened _ folder rfl
  · rw [List.getLast?_eq_some_getLast (pathNames_ne_nil path), Option.getD_some,
      ← List.mem_singleton.1 last] at something
    cases something

/-- After every history and while ids last, a file is refused exactly if it is asked for from a
start that holds no entries or with an empty name in its path. If the start is refused, the graph
stays as it is. Otherwise the folders before the first empty name are opened, and those that were
missing stay: all nodes that there were keep everything but their edges, and all others are folders.
So the graph stays as it is exactly if all those folders were there. -/
theorem refused_files_after (language : Language) (history : List Operation) (path : String)
    (start : NodeId)
    (room : (((new language).after history).createFileFrom path start).2.size < idLimit) :
    let g := (new language).after history
    let outcome := g.createFileFrom path start
    ((∃ cause, outcome.1 = .error cause) ↔ (g.TakesEntries start → "" ∈ pathNames path)) ∧
    ∀ cause, outcome.1 = .error cause →
      g.RefusesFile path start cause outcome.2 ∧
      (outcome.2 = g ↔ (g.TakesEntries start → ∃ place,
        g.Descends start ((pathNames path).takeWhile fun name => decide (name ≠ "")) place)) ∧
      (∀ id n, g.find? id = some n →
        ∃ m, outcome.2.find? id = some m ∧ { m with slots := n.slots } = n) ∧
      ∀ id m, outcome.2.find? id = some m → g.find? id = none → m.kind = .folder := by
  intro g outcome
  have placed : g.WellPlaced :=
    ⟨indexed_after language history, wellFormed_nodes_after language history⟩
  have refuses : ∀ cause, outcome.1 = .error cause → g.RefusesFile path start cause outcome.2 :=
    fun cause failed => refusesFile_of_error placed room (Prod.ext failed rfl)
  constructor
  · constructor
    · rintro ⟨cause, failed⟩ takes
      exact (refuses cause failed).empty_mem takes
    · intro bad
      cases result : outcome.1 with
      | error cause => exact ⟨cause, rfl⟩
      | ok id =>
        obtain ⟨takes, filled⟩ := filled_of_createFileFrom (Prod.ext result rfl)
        exact absurd (bad takes) filled
  · intro cause failed
    have why := refuses cause failed
    exact ⟨why, why.eq_iff, fun _ _ => why.kept, fun _ _ => why.kind_of_new⟩

/-- Below a folder that is there, a path with an empty name in it leaves a new folder behind. -/
theorem refused_files_after_nested :
    let g := (new .java).after [.createFile "a\\b"]
    let outcome := g.createFileFrom "a\\c\\\\d" fileSystemId
    outcome.1 = .error (.emptyFolderName .createFile) ∧
      g.RefusesFile "a\\c\\\\d" fileSystemId (.emptyFolderName .createFile) outcome.2 ∧
      outcome.2 ≠ g ∧ ∃ n, outcome.2.find? (madeId 2) = some n ∧ n.kind = .folder := by
  intro g outcome
  have facts : outcome.2.size < idLimit ∧ outcome.1 = .error (.emptyFolderName .createFile) ∧
      outcome.2.size ≠ g.size ∧ (g.find? (madeId 2)).isNone = true ∧
      (outcome.2.find? (madeId 2)).isSome = true := by
    decide +kernel
  obtain ⟨room, failed, longer, hole, there⟩ := facts
  obtain ⟨n, found⟩ := Option.isSome_iff_exists.1 there
  obtain ⟨refuses, -, -, folders⟩ := (refused_files_after .java [.createFile "a\\b"]
    "a\\c\\\\d" fileSystemId room).2 _ failed
  exact ⟨failed, refuses, fun same => longer (congrArg size same), n, found,
    folders (madeId 2) n found (Option.isNone_iff_eq_none.1 hole)⟩

/-- A refused file can leave a folder and its name behind. -/
theorem folder_left_behind :
    let outcome := (new .java).createFileFrom "a\\\\b.cs" fileSystemId
    outcome.1 = .error (.emptyFolderName .createFile) ∧ outcome.2 ≠ new .java ∧
      (outcome.2.find? (madeId 0)).map Node.kind = some .folder ∧
      outcome.2.texts.keyOf? "a" ≠ (new .java).texts.keyOf? "a" := by
  intro outcome
  have facts : outcome.1 = .error (.emptyFolderName .createFile) ∧
      outcome.2.size ≠ (new .java).size ∧
      (outcome.2.find? (madeId 0)).map Node.kind = some .folder ∧
      outcome.2.texts.keyOf? "a" ≠ (new .java).texts.keyOf? "a" := by
    decide +kernel
  obtain ⟨failed, longer, folder, text⟩ := facts
  exact ⟨failed, fun same => longer (congrArg size same), folder, text⟩

end Graph

end CodeGraph
