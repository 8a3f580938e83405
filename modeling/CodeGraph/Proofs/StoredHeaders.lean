import CodeGraph.Header.Basic
import CodeGraph.Proofs.FileHeader
import CodeGraph.Proofs.OverrideLists

/-!
# What is stored of properties and overrides

Properties can be written if and only if no text among them is too long, and overrides always. All
that can be done to them keeps the order of their entries, and no method is listed without anything
that it overrides. So their bytes restore them exactly. Main statements: `Properties.exists_encode`,
`Properties.short_of_encode` and `Overrides.load_encode`.
-/

set_option autoImplicit false

namespace CodeGraph

/-! ## Counted lists -/

namespace InPlace

variable {α β : Type} {load : α → Bytes → Loaded α}

/-- What every reading into a record keeps, several readings keep, up to the first failure. -/
theorem loadTimes_preserves (Inv : α → Prop) (step : ∀ a input, Inv a → Inv (load a input).1)
    (times : Nat) {a : α} (inv : Inv a) (input : Bytes) : Inv (loadTimes load times a input).1 := by
  induction times generalizing a input with
  | zero => exact inv
  | succ times ih =>
    have next := step a input inv
    unfold loadTimes
    split
    · next b rest read =>
      rw [read] at next
      exact ih next rest
    · next b cause read =>
      rw [read] at next
      exact next

/-- What every reading into a record keeps, a counted number of readings keeps. -/
theorem loadCounted_preserves (Inv : α → Prop) (step : ∀ a input, Inv a → Inv (load a input).1)
    {a : α} (inv : Inv a) (input : Bytes) : Inv (loadCounted load a input).1 := by
  unfold loadCounted
  split
  · next count rest _ => exact loadTimes_preserves Inv step count inv rest
  · exact inv

/-- What storing a value keeps, reading it keeps. -/
theorem loadOne_preserves (Inv : α → Prop) {store : β → α → α}
    (step : ∀ b a, Inv a → Inv (store b a)) (read : Reader β) {a : α} (inv : Inv a) (input : Bytes) :
    Inv (loadOne read store a input).1 := by
  unfold loadOne
  split
  · next b rest _ => exact step b a inv
  · exact inv

/-- The bytes of items that are read one by one store them one by one, behind their number. -/
theorem loadCounted_flatMap {bytes : β → Bytes} {store : α → β → α} {items : List β}
    (few : items.length < 2 ^ 32)
    (reads : ∀ a, ∀ b ∈ items, ∀ rest, load a (bytes b ++ rest) = (store a b, .ok rest)) (a : α)
    (rest : Bytes) :
    loadCounted load a (wordBytes 4 items.length ++ items.flatMap bytes ++ rest) =
      (items.foldl store a, .ok rest) := by
  have count : items.length % wordRange 4 = items.length := Nat.mod_eq_of_lt few
  unfold loadCounted
  rw [List.append_assoc, Reader.word_wordBytes, count]
  clear few count
  simp only
  induction items generalizing a with
  | nil => rfl
  | cons item items ih =>
    obtain ⟨here, others⟩ := List.forall_mem_cons.1 fun b mem a => reads a b mem
    rw [List.length_cons, List.flatMap_cons, List.append_assoc, loadTimes, here a]
    exact ih (fun a b mem => others b mem a) (store a item)

end InPlace

/-! ## Properties -/

namespace Codec

/-- A text that is not too long to be written as a short text. -/
def IsShort (s : String) : Prop :=
  (Utf8.encode s).length ≤ shortTextLimit

instance (s : String) : Decidable (IsShort s) :=
  inferInstanceAs (Decidable ((Utf8.encode s).length ≤ shortTextLimit))

/-- A short text can be written, and takes two bytes more than it has. -/
theorem exists_encodeShortText {s : String} (short : IsShort s) :
    ∃ bytes, encodeShortText s = .ok bytes ∧ bytes.length ≤ 65537 := by
  refine ⟨_, if_pos short, ?_⟩
  have limit : (Utf8.encode s).length ≤ 65535 := short
  rw [List.length_append, length_wordBytes]
  omega

/-- Only short texts are written. -/
theorem isShort_of_encodeShortText {s : String} {bytes : Bytes}
    (written : encodeShortText s = .ok bytes) : IsShort s := by
  unfold encodeShortText at written
  simp only at written
  split at written
  · assumption
  · cases written

end Codec

namespace Properties

/-- Properties that come about by setting, adding and reading them, failed readings included. Truth
values and numbers are added as texts. -/
inductive Reachable : Properties → Prop
  | empty : Reachable empty
  | set {p : Properties} (reachable : Reachable p) (key value : String) :
    Reachable (p.set key value)
  | add {p : Properties} (reachable : Reachable p) (key value : String) :
    Reachable (p.add key value).2
  | load {p : Properties} (reachable : Reachable p) (input : Bytes) : Reachable (p.load input).1

/-- Setting a property keeps the properties in order. -/
theorem sorted_set {p : Properties} (sorted : p.values.Sorted) (key value : String) :
    (p.set key value).values.Sorted :=
  sorted.insert key value

/-- Properties stand in order, whatever was done to them. -/
theorem Reachable.sorted {p : Properties} (reachable : p.Reachable) : p.values.Sorted := by
  induction reachable with
  | empty => exact SortedMap.sorted_empty
  | set _ key value ih => exact sorted_set ih key value
  | add _ key value ih =>
    unfold Properties.add
    split
    · exact ih
    · exact sorted_set ih key value
  | load _ input ih =>
    let Inv : Properties → Prop := fun p => p.values.Sorted
    have entries : ∀ (entry : String × String) p, Inv p → Inv (p.set entry.1 entry.2) :=
      fun entry p sorted => sorted_set sorted entry.1 entry.2
    exact InPlace.loadCounted_preserves Inv
      (fun p input sorted => InPlace.loadOne_preserves Inv entries readEntry sorted input) ih input

/-- The value under a key that is filled in whenever a file is written. -/
def filledIn? (language : Language) (key : String) : Option String :=
  if key = typeKey then some fileType
  else if key = apiVersionKey then some apiVersion
  else if key = binaryVersionKey then some binaryVersion
  else if key = languageKey then some (toString (Enumerated.code language))
  else none

/-- Nothing but what is filled in changes. -/
theorem get?_describe (p : Properties) (language : Language) (key : String) :
    (p.describe language).get? key = (filledIn? language key).or (p.get? key) := by
  have apart : languageKey ≠ typeKey ∧ languageKey ≠ apiVersionKey ∧
      languageKey ≠ binaryVersionKey ∧ binaryVersionKey ≠ typeKey ∧
      binaryVersionKey ≠ apiVersionKey ∧ apiVersionKey ≠ typeKey := by decide
  obtain ⟨lt, la, lb, bt, ba, at'⟩ := apart
  unfold describe filledIn?
  simp only [get?_set]
  by_cases isLanguage : key = languageKey
  · simp only [isLanguage, lt, la, lb, if_true, if_false, Option.some_or]
  by_cases isBinary : key = binaryVersionKey
  · simp only [isBinary, lb.symm, bt, ba, if_true, if_false, Option.some_or]
  by_cases isApi : key = apiVersionKey
  · simp only [isApi, la.symm, ba.symm, at', if_true, if_false, Option.some_or]
  · simp only [isLanguage, isBinary, isApi, if_false]
    split <;> rfl

/-- No key and no value is too long to be written. -/
def Short (p : Properties) : Prop :=
  ∀ entry ∈ p.toList, Codec.IsShort entry.1 ∧ Codec.IsShort entry.2

instance (p : Properties) : Decidable p.Short :=
  inferInstanceAs (Decidable (∀ entry ∈ p.toList, Codec.IsShort entry.1 ∧ Codec.IsShort entry.2))

/-- Properties stay short if a short one is set. -/
theorem Short.set {p : Properties} (short : p.Short) {key value : String}
    (shortKey : Codec.IsShort key) (shortValue : Codec.IsShort value) : (p.set key value).Short := by
  intro entry mem
  rcases SortedMap.mem_insert mem with rfl | old
  · exact ⟨shortKey, shortValue⟩
  · exact short entry old

/-- What is filled in is short. -/
theorem Short.describe {p : Properties} (short : p.Short) (language : Language) :
    (p.describe language).Short := by
  have number : Codec.IsShort (toString (Enumerated.code language)) := by
    cases language <;> decide +kernel
  exact (((short.set (by decide) (by decide)).set (by decide) (by decide)).set (by decide)
    (by decide)).set (by decide) number

/-- Short properties can be written, into a block. -/
theorem exists_encode {p : Properties} (short : p.Short) :
    ∃ bytes, p.encode = .ok bytes ∧ bytes.length ≤ 4 + 131074 * p.size := by
  have listed : ∀ entries : List (String × String),
      (∀ entry ∈ entries, Codec.IsShort entry.1 ∧ Codec.IsShort entry.2) →
      ∃ bytes, encodeEntries entries = .ok bytes ∧ bytes.length ≤ 131074 * entries.length := by
    intro entries
    induction entries with
    | nil => exact fun _ => ⟨[], rfl, Nat.zero_le _⟩
    | cons entry entries ih =>
      intro short
      obtain ⟨here, others⟩ := List.forall_mem_cons.1 short
      obtain ⟨keyBytes, keyWritten, keyLength⟩ := Codec.exists_encodeShortText here.1
      obtain ⟨valueBytes, valueWritten, valueLength⟩ := Codec.exists_encodeShortText here.2
      obtain ⟨bytes, written, length⟩ := ih others
      refine ⟨keyBytes ++ valueBytes ++ bytes, ?_, ?_⟩
      · simp only [encodeEntries, keyWritten, valueWritten, written]
        rfl
      · simp only [List.length_append, List.length_cons]
        omega
  obtain ⟨bytes, written, length⟩ := listed p.toList short
  refine ⟨wordBytes 4 p.size ++ bytes, ?_, ?_⟩
  · unfold encode
    rw [written]
    rfl
  · rw [List.length_append, length_wordBytes]
    exact Nat.add_le_add_left length 4

/-- Only short properties can be written. -/
theorem short_of_encode {p : Properties} {bytes : Bytes} (written : p.encode = .ok bytes) :
    p.Short := by
  have listed : ∀ (entries : List (String × String)) (bytes : Bytes),
      encodeEntries entries = .ok bytes →
      ∀ entry ∈ entries, Codec.IsShort entry.1 ∧ Codec.IsShort entry.2 := by
    intro entries
    induction entries with
    | nil => exact fun _ _ entry mem => absurd mem List.not_mem_nil
    | cons entry entries ih =>
      intro bytes written
      obtain ⟨keyBytes, valueBytes, others, keyWritten, valueWritten, othersWritten, -⟩ :=
        encodeEntries_cons written
      exact List.forall_mem_cons.2 ⟨⟨Codec.isShort_of_encodeShortText keyWritten,
        Codec.isShort_of_encodeShortText valueWritten⟩, ih others othersWritten⟩
  unfold encode at written
  cases body : encodeEntries p.toList with
  | error cause => simp [body, Except.map] at written
  | ok entries => exact listed p.toList entries body

end Properties

/-! ## Overrides -/

namespace Overrides

/-- Overrides that come about by adding and reading them, failures included. -/
inductive Reachable : Overrides → Prop
  | empty : Reachable empty
  | tryAdd {o : Overrides} (reachable : Reachable o) (g : Graph) (method overridden : NodeId) :
    Reachable (o.tryAdd g method overridden).2
  | load {o : Overrides} (reachable : Reachable o) (input : Bytes) : Reachable (o.load input).1

/-- Overrides stay well formed whether or not a pair of methods is recorded. -/
theorem WellFormed.tryAdd {o : Overrides} (wf : o.WellFormed) (g : Graph)
    (method overridden : NodeId) : (o.tryAdd g method overridden).2.WellFormed := by
  unfold Overrides.tryAdd
  split
  · exact wf
  · split
    · exact wf
    · exact wf.insert method overridden

/-- Reading what a method overrides keeps overrides well formed, however far it gets. -/
theorem WellFormed.loadMethod {o : Overrides} (wf : o.WellFormed) (input : Bytes) :
    (o.loadMethod input).1.WellFormed := by
  unfold Overrides.loadMethod
  split
  · exact wf
  · next method rest _ =>
    refine InPlace.loadCounted_preserves WellFormed (fun o input wf => ?_) wf rest
    exact InPlace.loadOne_preserves WellFormed (fun overridden o wf => wf.insert method overridden) _ wf
      input

/-- Overrides are well formed, whatever was done to them. -/
theorem Reachable.wellFormed {o : Overrides} (reachable : o.Reachable) : o.WellFormed := by
  induction reachable with
  | empty => exact wellFormed_empty
  | tryAdd _ g method overridden ih => exact ih.tryAdd g method overridden
  | load _ input _ =>
    exact InPlace.loadCounted_preserves WellFormed (fun o input wf => wf.loadMethod input)
      wellFormed_empty input

/-- All numbers that are written with the overrides can be written down. -/
structure Fits (o : Overrides) : Prop where
  few : o.size < 2 ^ 32
  short : ∀ entry ∈ o.methods.entries, o.count entry.1 < 2 ^ 32
  framed : o.encode.length + 8 < UInt64.size

/-- An id that is written is read again. -/
theorem readId_encode (missing : Refusal) (id : NodeId) (rest : Bytes) :
    readId missing (Codec.nodeId.encode (some id) ++ rest) = .ok (id, rest) := by
  unfold readId
  rw [Reader.bind_apply, Codec.lawful_nodeId]
  rfl

/-- The bytes of one method record what it overrides, in order. -/
theorem loadMethod_encodeMethod {o : Overrides} {method : NodeId} (short : o.count method < 2 ^ 32)
    (made : Overrides) (rest : Bytes) :
    made.loadMethod (o.encodeMethod method ++ rest) =
      ((o.get method).foldl (·.insert method) made, .ok rest) := by
  rw [count_eq] at short
  unfold loadMethod encodeMethod
  rw [List.append_assoc, List.append_assoc, readId_encode, ← List.append_assoc, count_eq]
  refine InPlace.loadCounted_flatMap short (fun made id _ rest => ?_) made rest
  unfold InPlace.loadOne
  rw [readId_encode]

/-! ### Recording everything again -/

/-- Recording several overrides of a method lists them last for it. -/
theorem get_foldl_insert (made : Overrides) (method : NodeId) (ids : List NodeId) (other : NodeId) :
    (ids.foldl (·.insert method) made).get other =
      made.get other ++ if method = other then ids else [] := by
  induction ids generalizing made with
  | nil => simp
  | cons id ids ih =>
    rw [List.foldl_cons, ih, get_insert]
    split <;> simp

/-- Recording what several methods override adds the lists of each of them. -/
theorem get_foldl_methods (o made : Overrides) (methods : List NodeId) (other : NodeId) :
    (methods.foldl (fun made method => (o.get method).foldl (·.insert method) made) made).get other =
      made.get other ++ methods.flatMap fun method => if method = other then o.get method else [] := by
  induction methods generalizing made with
  | nil => exact (List.append_nil _).symm
  | cons method methods ih =>
    rw [List.foldl_cons, ih, get_foldl_insert, List.flatMap_cons, List.append_assoc]

/-- No method is kept twice. -/
theorem WellFormed.nodup_methods {o : Overrides} (wf : o.WellFormed) :
    (o.methods.entries.map Prod.fst).Nodup := by
  apply List.pairwise_map.2
  apply List.Pairwise.imp _ wf.sorted
  intro first second below
  exact ne_of_irrefl below

/-- The methods that are kept are those that override anything. -/
theorem WellFormed.mem_methods_iff {o : Overrides} (wf : o.WellFormed) (method : NodeId) :
    method ∈ o.methods.entries.map Prod.fst ↔ o.get method ≠ [] := by
  have kept := wf.find?_eq method
  constructor
  · intro mem nothing
    obtain ⟨entry, listed, rfl⟩ := List.mem_map.1 mem
    rw [wf.sorted.find?_of_mem listed, nothing] at kept
    cases kept
  · intro something
    obtain ⟨id, ids, list⟩ := List.exists_cons_of_ne_nil something
    rw [list] at kept
    cases ids with
    | nil => exact List.mem_map_of_mem (SortedMap.mem_of_find? kept)
    | cons second ids => exact List.mem_map_of_mem (SortedMap.mem_of_find? kept)

/-- Among distinct methods, one adds its own list and the others nothing. -/
theorem flatMap_get (o : Overrides) {methods : List NodeId} (distinct : methods.Nodup)
    (other : NodeId) :
    (methods.flatMap fun method => if method = other then o.get method else []) =
      if other ∈ methods then o.get other else [] := by
  induction methods with
  | nil => rfl
  | cons method methods ih =>
    obtain ⟨missing, distinct⟩ := List.nodup_cons.1 distinct
    rw [List.flatMap_cons, ih distinct]
    by_cases same : method = other
    · subst same
      simp [missing]
    · simp [same, Ne.symm same]

/-- Recording everything again, in the order of the methods, makes the same overrides. -/
theorem WellFormed.foldl_insert {o : Overrides} (wf : o.WellFormed) :
    (o.methods.entries.map Prod.fst).foldl
      (fun made method => (o.get method).foldl (·.insert method) made) empty = o := by
  have made : ((o.methods.entries.map Prod.fst).foldl
      (fun made method => (o.get method).foldl (·.insert method) made) empty).WellFormed :=
    List.foldlRecOn _ _ wellFormed_empty fun made wf method _ =>
      List.foldlRecOn _ _ wf fun made wf id _ => wf.insert method id
  refine made.ext wf fun other => ?_
  rw [get_foldl_methods, flatMap_get o wf.nodup_methods]
  have nothing : empty.get other = [] := rfl
  rw [nothing, List.nil_append, ite_eq_left_iff, wf.mem_methods_iff, not_not]
  exact Eq.symm

/-- The bytes of overrides restore them, whatever was there before. -/
theorem load_encode {o : Overrides} (wf : o.WellFormed) (few : o.size < 2 ^ 32)
    (short : ∀ entry ∈ o.methods.entries, o.count entry.1 < 2 ^ 32) (old : Overrides)
    (rest : Bytes) : old.load (o.encode ++ rest) = (o, .ok rest) := by
  have size : (o.methods.entries.map Prod.fst).length = o.size := List.length_map _
  have counted : ∀ method ∈ o.methods.entries.map Prod.fst, o.count method < 2 ^ 32 :=
    List.forall_mem_map.2 short
  have loaded := InPlace.loadCounted_flatMap (size ▸ few)
    (fun made method mem rest => loadMethod_encodeMethod (counted method mem) made rest) empty rest
  rw [wf.foldl_insert, size] at loaded
  exact loaded

end Overrides

end CodeGraph
