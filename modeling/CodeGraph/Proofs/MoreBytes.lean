import CodeGraph.GraphFile.Load
import CodeGraph.Proofs.Layouts

/-!
# Readers and bytes that follow

A reader that succeeds does not look at the bytes after those that it takes: with more of them it
gives the same value and leaves them. All readers of a graph file are of this sort, also those that
read in place and those that read lists whose length is not known in advance. Main statements:
`Node.steady_load`, `TextTable.steady_load`, `GraphFile.steady_loadHeaders` and
`GraphFile.steady_loadNodes`.
-/

set_option autoImplicit false

namespace CodeGraph

variable {α β : Type}

/-- Once a reader has succeeded, more bytes change nothing but what it leaves. -/
def Reader.Steady (r : Reader α) : Prop :=
  ∀ input a rest, r input = .ok (a, rest) → ∀ more, r (input ++ more) = .ok (a, rest ++ more)

/-- Once reading in place has succeeded, more bytes change nothing but what it leaves. -/
def Loaded.Steady (load : Bytes → Loaded α) : Prop :=
  ∀ input a rest, load input = (a, .ok rest) → ∀ more, load (input ++ more) = (a, .ok (rest ++ more))

namespace Reader

/-- A reader that gives a value outright is steady. -/
theorem steady_pure (a : α) : Steady (pure a) := by
  rintro input _ _ ⟨⟩ more
  rfl

/-- A reader that always fails is steady. -/
theorem steady_fail (e : Error) : Steady (fail e : Reader α) := by
  rintro input _ _ ⟨⟩

/-- One steady reader after another is steady. -/
theorem Steady.bind {r : Reader α} {f : α → Reader β} (first : r.Steady)
    (second : ∀ a, (f a).Steady) : (r >>= f).Steady := by
  intro input b rest taken more
  rw [bind_apply] at taken ⊢
  split at taken
  · next a left read =>
    rw [first input a left read more]
    exact second a left b rest taken more
  · cases taken

/-- Converting the value of a steady reader keeps it steady. -/
theorem Steady.map {r : Reader α} (steady : r.Steady) (f : α → β) : (f <$> r).Steady := by
  intro input b rest taken more
  rw [map_apply] at taken ⊢
  split at taken
  · next a left read =>
    cases taken
    rw [steady input a rest read more]
  · cases taken

/-- Taking a byte is steady. -/
theorem steady_byte : byte.Steady := by
  intro input b rest taken more
  cases input with
  | nil => cases taken
  | cons b rest =>
    cases taken
    rfl

/-- Taking a number of bytes is steady. -/
theorem steady_bytes (n : Nat) : (bytes n).Steady := by
  intro input taken rest read more
  unfold bytes at read ⊢
  simp only at read ⊢
  split at read
  · next full =>
    cases read
    have enough : n ≤ input.length := by
      rw [List.length_take] at full
      omega
    rw [List.take_append_of_le_length enough, List.drop_append_of_le_length enough, if_pos full]
  · cases read

/-- Taking a number of any width is steady. -/
theorem steady_word (width : Nat) : (word width).Steady := by
  induction width with
  | zero => exact steady_pure 0
  | succ width ih => exact steady_byte.bind fun _ => ih.bind fun _ => steady_pure _

/-- Taking a text is steady. -/
theorem steady_text (n : Nat) : (text n).Steady := by
  refine (steady_bytes n).bind fun spelled => ?_
  split
  · exact steady_pure _
  · exact steady_fail _

end Reader

namespace Codec

open Reader

/-- Reading a byte is steady. -/
@[simp] theorem steady_u8 : u8.decode.Steady :=
  steady_byte

/-- Reading a truth value is steady. -/
@[simp] theorem steady_bool : bool.decode.Steady :=
  steady_byte.bind fun _ => steady_pure _

/-- Reading a number of two bytes is steady. -/
@[simp] theorem steady_u16 : u16.decode.Steady :=
  (steady_word 2).map _

/-- Reading a number of four bytes is steady. -/
@[simp] theorem steady_u32 : u32.decode.Steady :=
  (steady_word 4).map _

/-- Reading an id is steady. -/
@[simp] theorem steady_nodeId : nodeId.decode.Steady :=
  steady_u32.map _

/-- Reading the key of a text is steady. -/
@[simp] theorem steady_textKey : textKey.decode.Steady :=
  steady_u32.map _

/-- Reading a value of a vocabulary is steady. -/
@[simp] theorem steady_enumerated (α : Type) [DecidableEq α] [Enumerated α] :
    (enumerated α).decode.Steady := by
  refine steady_byte.bind fun code => ?_
  split
  · exact steady_pure _
  · exact steady_fail _

/-- Reading two values is steady if reading each is. -/
theorem steady_pair {first : Codec α} {second : Codec β} (hfirst : first.decode.Steady)
    (hsecond : second.decode.Steady) : (pair first second).decode.Steady :=
  hfirst.bind fun _ => hsecond.bind fun _ => steady_pure _

/-- Reading a block is steady. -/
theorem steady_decodeBlock : decodeBlock.Steady := by
  refine (steady_word 8).bind fun size => ?_
  split
  · exact steady_fail _
  · exact steady_bytes _

end Codec

namespace Loaded

/-- Whatever a record is rebuilt from, rebuilding does not disturb reading. -/
theorem steady_rebuild {load : Bytes → Loaded α} (steady : Loaded.Steady load) (make : α → β) :
    Loaded.Steady fun input => (make (load input).1, (load input).2) := by
  intro input b rest loaded more
  obtain ⟨made, left⟩ := Prod.mk.inj loaded
  have read : load input = ((load input).1, .ok rest) := Prod.ext rfl left
  simp only [steady input _ rest read more, made]

/-- Reading that goes on after other reading is steady if both are. -/
theorem steady_andThen {first : Bytes → Loaded α} {second : α → Bytes → Loaded α}
    (hfirst : Loaded.Steady first) (hsecond : ∀ a, Loaded.Steady (second a)) :
    Loaded.Steady fun input => (first input).andThen second := by
  intro input b rest loaded more
  simp only [andThen] at loaded ⊢
  split at loaded
  · next a left read =>
    rw [hfirst input a left read more]
    exact hsecond a left b rest loaded more
  · cases loaded

end Loaded

namespace InPlace

/-- Reading one value in place is steady if its reader is. -/
theorem steady_loadOne {read : Reader β} (steady : read.Steady) (store : β → α → α) (a : α) :
    Loaded.Steady (loadOne read store a) := by
  intro input b rest loaded more
  unfold loadOne at loaded ⊢
  split at loaded
  · next value left taken =>
    cases loaded
    rw [steady input value rest taken more]
  · cases loaded

/-- A list ends at the same place, whatever follows and however many more rounds there are. -/
theorem steady_loadRounds {read : Reader (Option β)} (steady : read.Steady) (store : β → α → α)
    {rounds rounds' : Bytes} (enough : rounds.length ≤ rounds'.length) {a b : α}
    {input rest : Bytes} (loaded : loadRounds read store rounds a input = (b, .ok rest))
    (more : Bytes) : loadRounds read store rounds' a (input ++ more) = (b, .ok (rest ++ more)) := by
  induction rounds generalizing rounds' a input with
  | nil => cases loaded
  | cons round rounds ih =>
    cases rounds' with
    | nil => cases enough
    | cons round' rounds' =>
      unfold loadRounds at loaded ⊢
      split at loaded
      · cases loaded
      · next left taken =>
        cases loaded
        rw [steady input none rest taken more]
      · next value left taken =>
        rw [steady input (some value) left taken more]
        exact ih (Nat.le_of_succ_le_succ enough) loaded

/-- Reading a list in place is steady if reading one of its values is. -/
theorem steady_loadList {read : Reader (Option β)} (steady : read.Steady) (store : β → α → α)
    (a : α) : Loaded.Steady (loadList read store a) := by
  intro input b rest loaded more
  refine steady_loadRounds steady store ?_ loaded more
  simp only [List.length_cons, List.length_append]
  omega

/-- Reading in place several times over is steady if reading once is. -/
theorem steady_loadTimes {load : α → Bytes → Loaded α} (steady : ∀ a, Loaded.Steady (load a))
    (times : Nat) (a : α) : Loaded.Steady (loadTimes load times a) := by
  induction times generalizing a with
  | zero =>
    rintro input _ _ ⟨⟩ more
    rfl
  | succ times ih =>
    intro input c rest loaded more
    unfold loadTimes at loaded ⊢
    split at loaded
    · next b left first =>
      rw [steady a input b left first more]
      exact ih b left c rest loaded more
    · cases loaded

/-- Reading in place a counted number of times is steady if reading once is. -/
theorem steady_loadCounted {load : α → Bytes → Loaded α} (steady : ∀ a, Loaded.Steady (load a))
    (a : α) : Loaded.Steady (loadCounted load a) := by
  intro input b rest loaded more
  unfold loadCounted at loaded ⊢
  split at loaded
  · next count left read =>
    rw [Reader.steady_word 4 input count left read more]
    exact steady_loadTimes steady count a left b rest loaded more
  · cases loaded

end InPlace

namespace Layout

/-- A layout is steady if reading its fields in place is. -/
def Steady (l : Layout α) : Prop :=
  ∀ a, Loaded.Steady (l.load a)

/-- A layout without fields is steady. -/
@[simp] theorem steady_nothing : (nothing : Layout α).Steady := by
  rintro a input _ _ ⟨⟩ more
  rfl

/-- The layout of a field is steady if the reader of its codec is. -/
@[simp] theorem steady_field {c : Codec β} (steady : c.decode.Steady) (get : α → β)
    (put : β → α → α) : (field c get put).Steady :=
  InPlace.steady_loadOne steady put

/-- The layout of a single value is steady if the reader of its codec is. -/
@[simp] theorem steady_value {c : Codec α} (steady : c.decode.Steady) : (value c).Steady :=
  steady_field steady _ _

/-- A part of a record is steady if its own layout is. -/
@[simp] theorem steady_part {l : Layout β} (steady : l.Steady) (get : α → β) (put : β → α → α) :
    (l.part get put).Steady :=
  fun a => Loaded.steady_rebuild (steady (get a)) fun b => put b a

/-- One steady layout after another is steady. -/
theorem Steady.append {first second : Layout α} (hfirst : first.Steady) (hsecond : second.Steady) :
    (first.append second).Steady :=
  fun a => Loaded.steady_andThen (hfirst a) hsecond

/-- Several steady layouts in a row are steady. -/
theorem steady_all {layouts : List (Layout α)} (steady : ∀ l ∈ layouts, l.Steady) :
    (all layouts).Steady := by
  induction layouts with
  | nil => exact steady_nothing
  | cons l layouts ih =>
    obtain ⟨first, others⟩ := List.forall_mem_cons.1 steady
    exact first.append (ih others)

end Layout

/-! ## Attributes, edges and nodes -/

open InPlace Layout Loaded

/-- The layout of the layer of members is steady. -/
@[simp] theorem MemberAttributes.steady_layout : layout.Steady :=
  steady_all (by simp)

/-- The layout of the layer of scopes is steady. -/
@[simp] theorem ScopeAttributes.steady_layout : layout.Steady :=
  steady_all (by simp)

/-- The layout of the layer of classes is steady. -/
@[simp] theorem ClassAttributes.steady_layout : layout.Steady :=
  steady_all (by simp)

/-- The layout of the layer of methods is steady. -/
@[simp] theorem MethodAttributes.steady_layout : layout.Steady :=
  steady_all (by simp)

/-- The layout of the layer of components is steady. -/
@[simp] theorem ComponentAttributes.steady_layout : layout.Steady :=
  steady_all (by simp)

/-- The layout of the layer of files is steady. -/
@[simp] theorem FileAttributes.steady_layout : layout.Steady :=
  steady_all (by simp)

/-- The layout of three layers is steady if that of the third one is. -/
theorem Layout.steady_scoped {own : Layout α} (steady : own.Steady) : (Layout.scoped own).Steady :=
  steady_all (by simp [steady])

/-- Reading attributes in place is steady. -/
theorem Attributes.steady_load (a : Attributes) : Loaded.Steady a.load := by
  have follows : a.load = layout.load a := funext a.load_eq_layout
  rw [follows]
  match a with
  | .empty =>
    rintro input _ _ ⟨⟩ more
    rfl
  | .comment _ | .friendship _ => exact steady_rebuild (steady_value Codec.steady_textKey _) _
  | .genericParameter _ | .parameter _ | .simpleType _ | .pointer _ =>
    exact steady_rebuild (steady_value (Codec.steady_enumerated _) _) _
  | .component own => exact steady_rebuild (ComponentAttributes.steady_layout own) _
  | .file own => exact steady_rebuild (FileAttributes.steady_layout own) _
  | .attribute member => exact steady_rebuild (MemberAttributes.steady_layout member) _
  | .classes m s own =>
    exact steady_rebuild (steady_scoped ClassAttributes.steady_layout (m, s, own))
      fun v => Attributes.classes v.1 v.2.1 v.2.2
  | .method m s own =>
    exact steady_rebuild (steady_scoped MethodAttributes.steady_layout (m, s, own))
      fun v => Attributes.method v.1 v.2.1 v.2.2
  | .package m s kind =>
    have own := steady_value (Codec.steady_enumerated PackageKind)
    exact steady_rebuild (steady_scoped own (m, s, kind))
      fun v => Attributes.package v.1 v.2.1 v.2.2

/-- Reading a place in a file is steady. -/
theorem SourcePosition.steady_read : SourcePosition.read.Steady := by
  have number := Codec.steady_u32
  exact (Codec.steady_enumerated Realization).bind fun _ => number.bind fun _ =>
    number.bind fun _ => number.bind fun _ => number.bind fun _ => Reader.steady_pure _

/-- Reading a value of an edge is steady. -/
theorem ValueKind.steady_read (kind : ValueKind) : kind.read.Steady := by
  cases kind with
  | nothing => exact Reader.steady_pure none
  | text => exact Codec.steady_textKey.map _
  | position => exact SourcePosition.steady_read.map _
  | bound => exact (Codec.steady_enumerated TypeArgumentBound).map _
  | parameter => exact (Codec.steady_enumerated ParameterKind).map _

namespace Slot

/-- Reading the far end of an edge is steady. -/
theorem steady_readTarget (carries : ValueKind) : (readTarget carries).Steady := by
  refine Codec.steady_nodeId.bind fun id? => ?_
  cases id? with
  | none => exact Reader.steady_pure none
  | some id => exact carries.steady_read.bind fun _ => Reader.steady_pure _

/-- Reading a slot in place is steady. -/
theorem steady_load (s : Slot) : Loaded.Steady s.load := by
  intro input t rest loaded more
  unfold load at loaded ⊢
  split at loaded
  · next single =>
    rw [if_pos single]
    split at loaded
    · cases loaded
    · next left taken =>
      cases loaded
      rw [Codec.steady_nodeId input none rest taken more]
    · next id left taken =>
      cases loaded
      rw [Codec.steady_nodeId input (some id) rest taken more]
  · next several =>
    rw [if_neg several]
    exact steady_loadList (steady_readTarget s.kind.carries) push s input t rest loaded more

/-- Reading several slots in place is steady. -/
theorem steady_loadAll (slots : List Slot) : Loaded.Steady (loadAll slots) := by
  induction slots with
  | nil =>
    rintro input _ _ ⟨⟩ more
    rfl
  | cons s slots ih =>
    intro input all rest loaded more
    unfold loadAll at loaded ⊢
    split at loaded
    · next s' left first =>
      rw [s.steady_load input s' left first more]
      exact steady_rebuild ih (s' :: ·) left all rest loaded more
    · cases loaded

end Slot

/-- Reading a name in place is steady, also if there is none. -/
theorem Node.steady_loadName (n : Node) : Loaded.Steady n.loadName := by
  intro input name rest loaded more
  unfold loadName at loaded ⊢
  split at loaded
  · next named =>
    rw [if_pos named]
    exact steady_loadOne Codec.steady_textKey _ n.name input name rest loaded more
  · next unnamed =>
    rw [if_neg unnamed]
    cases loaded
    rfl

/-- Reading the payload of a node in place is steady. -/
theorem Node.steady_load (n : Node) : Loaded.Steady n.load := by
  intro input m rest loaded more
  unfold load at loaded ⊢
  split at loaded
  · cases loaded
  · next name afterName first =>
    rw [n.steady_loadName input name afterName first more]
    simp only at loaded ⊢
    split at loaded
    · cases loaded
    · next attributes afterAttributes second =>
      rw [n.attributes.steady_load afterName attributes afterAttributes second more]
      exact steady_rebuild (Slot.steady_loadAll n.slots)
        (fun slots => { n with name, attributes, slots }) afterAttributes m rest loaded more

/-! ## Texts, headers and records -/

namespace TextTable

/-- Reading an entry of a text table is steady. -/
theorem steady_readEntry : readEntry.Steady := by
  refine Codec.steady_textKey.bind fun key => ?_
  split
  · exact Reader.steady_pure none
  · exact (Reader.steady_word 4).bind fun length =>
      (Reader.steady_text length).bind fun _ => Reader.steady_pure _

/-- Reading a text table in place is steady. -/
theorem steady_load (t : TextTable) : Loaded.Steady t.load := by
  intro input table rest loaded more
  unfold load at loaded ⊢
  split at loaded
  · cases loaded
  · next start left taken =>
    rw [Reader.steady_bytes _ input start left taken more]
    simp only at loaded ⊢
    split at loaded
    · next same =>
      rw [if_pos same]
      exact steady_loadList steady_readEntry _ t left table rest loaded more
    · cases loaded

end TextTable

namespace GraphFile

/-- Reading a header record is steady. -/
theorem steady_readRecord : readRecord.Steady :=
  (Reader.steady_word 2).bind fun _ => Codec.steady_decodeBlock.bind fun _ => Reader.steady_pure _

/-- Taking a header record into account is steady. -/
theorem steady_loadRecord (scan : HeaderScan) : Loaded.Steady (loadRecord scan) := by
  intro input found rest loaded more
  unfold loadRecord at loaded ⊢
  split at loaded
  · cases loaded
  · next code body left taken =>
    rw [steady_readRecord input (code, body) left taken more]
    simp only at loaded ⊢
    split at loaded
    · cases loaded
      rfl
    · next kind known =>
      obtain ⟨made, kept⟩ := Prod.mk.inj loaded
      cases outcome : (scan.take kind body).2 with
      | error e =>
        rw [outcome] at kept
        cases kept
      | ok =>
        rw [outcome] at kept
        cases kept
        rw [made]
        rfl

/-- Reading the header records is steady. -/
theorem steady_loadHeaders (headers : List Header) : Loaded.Steady (loadHeaders headers) :=
  steady_loadCounted steady_loadRecord { headers }

/-- Reading the id and the kind of a node is steady. -/
theorem steady_readTag : readTag.Steady :=
  Codec.steady_pair Codec.steady_u32 Codec.steady_u16

/-- Reading a node is steady. -/
theorem steady_loadNode (scan : NodeScan) (raw : UInt32) (code : UInt16) :
    Loaded.Steady (loadNode scan raw code) := by
  intro input found rest loaded more
  unfold loadNode at loaded ⊢
  split at loaded
  · cases loaded
  · next id g opened =>
    split at loaded
    · cases loaded
    · next fresh _ =>
      exact steady_rebuild fresh.steady_load
        (fun n => ⟨g.updateNode id fun _ => n, scan.first.or (some id)⟩) input found rest loaded more

/-- Reading nodes ends at the same place, whatever follows and however many more rounds there are.
-/
theorem steady_loadNodeRounds {rounds rounds' : Nat} (enough : rounds ≤ rounds')
    {scan found : NodeScan} {input rest : Bytes}
    (loaded : loadNodeRounds rounds scan input = (found, .ok rest)) (more : Bytes) :
    loadNodeRounds rounds' scan (input ++ more) = (found, .ok (rest ++ more)) := by
  induction rounds generalizing rounds' scan input with
  | zero => cases loaded
  | succ rounds ih =>
    cases rounds' with
    | zero => cases enough
    | succ rounds' =>
      unfold loadNodeRounds at loaded ⊢
      split at loaded
      · cases loaded
      · next raw code left taken =>
        rw [steady_readTag input (raw, code) left taken more]
        simp only at loaded ⊢
        split at loaded
        · next mark =>
          cases loaded
          rw [if_pos mark]
        · next node =>
          rw [if_neg node]
          split at loaded
          · cases loaded
          · next scan' left' first =>
            rw [steady_loadNode scan raw code left scan' left' first more]
            exact ih (Nat.le_of_succ_le_succ enough) loaded

/-- Reading all nodes is steady. -/
theorem steady_loadNodes (g : Graph) : Loaded.Steady (loadNodes g) := by
  intro input found rest loaded more
  refine steady_loadNodeRounds ?_ loaded more
  rw [List.length_append]
  omega

end GraphFile

end CodeGraph
