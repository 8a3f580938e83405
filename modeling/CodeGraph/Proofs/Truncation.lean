import CodeGraph.Proofs.MoreBytes
import CodeGraph.Proofs.RoundTrip

/-!
# Files that break off

A saved graph is read to its last byte, and no reader looks beyond the bytes that it takes. So a
file that lacks some bytes at its end is never accepted: reading it would succeed on the whole file
too, and leave the bytes that were missing. This needs neither that the whole graph was written nor
that ids or keys are left; only the key zero, which ends the texts, may not belong to a text. Once the
last key is in use a new text may get the key zero, and the file of such a graph can lose its end
unnoticed. Main statement: `Graph.load_brokenOff`; `Graph.shorter_file_loads` has such a graph.
-/

set_option autoImplicit false

namespace CodeGraph

/-! ## Well-formed nodes in every graph -/

namespace Graph

/-- A history that gives nodes only attributes that suit their kinds leaves well-formed nodes with
such attributes, whether or not ids last. -/
theorem wellFormed_after {language : Language} {history : List Operation}
    (suits : (new language).Along (fun g operation => operation.Describes Attributes.Suits g)
      history) :
    ((new language).after history).nodes.WellFormed ∧
      ((new language).after history).nodes.Suited :=
  ⟨wellFormed_nodes_after language history, suited_nodes_after language history suits⟩

end Graph

/-! ## What reading a file takes -/

namespace GraphFile

open CodeGraph.Graph

/-- All parts of a file can be read, and some bytes are left. -/
def Reads (g : Graph) (headers : List Header) (input left : Bytes) : Prop :=
  ∃ afterMagic header afterHeaders language nodes afterNodes texts,
    Reader.bytes magic.length input = .ok (magic, afterMagic) ∧
    loadHeaders headers afterMagic = (header, .ok afterHeaders) ∧
    acceptedLanguage header.properties = .ok language ∧
    loadNodes { g.clear with language } afterHeaders = (nodes, .ok afterNodes) ∧
    nodes.graph.texts.load afterNodes = (texts, .ok left)

variable {g : Graph} {headers : List Header} {input : Bytes}

/-- More bytes are left over. -/
theorem Reads.append {left : Bytes} (reads : Reads g headers input left) (more : Bytes) :
    Reads g headers (input ++ more) (left ++ more) := by
  obtain ⟨afterMagic, header, afterHeaders, language, nodes, afterNodes, texts, start, told, accepted,
    listed, texted⟩ := reads
  exact ⟨afterMagic ++ more, header, afterHeaders ++ more, language, nodes, afterNodes ++ more, texts,
    Reader.steady_bytes _ _ _ _ start more, steady_loadHeaders _ _ _ _ told more, accepted,
    steady_loadNodes _ _ _ _ listed more, TextTable.steady_load _ _ _ _ texted more⟩

/-- What is left is determined by the file. -/
theorem Reads.unique {left left' : Bytes} (reads : Reads g headers input left)
    (reads' : Reads g headers input left') : left = left' := by
  obtain ⟨afterMagic, header, afterHeaders, language, nodes, afterNodes, texts, start, told, accepted,
    listed, texted⟩ := reads
  obtain ⟨_, _, _, _, _, _, _, start', told', accepted', listed', texted'⟩ := reads'
  cases start.symm.trans start'
  cases told.symm.trans told'
  cases accepted.symm.trans accepted'
  cases listed.symm.trans listed'
  cases texted.symm.trans texted'
  rfl

/-- A file that loads either does not start like a graph file, or can be read. -/
theorem reads_of_load (loaded : (g.load headers input).1 = .ok ()) :
    (∃ start rest, Reader.bytes magic.length input = .ok (start, rest) ∧ start ≠ magic) ∨
      ∃ left, Reads g headers input left := by
  unfold Graph.load at loaded
  split at loaded
  · cases loaded
  · next start afterMagic taken =>
    split at loaded
    · next same =>
      rw [same] at taken
      split at loaded
      · cases loaded
      · next header afterHeaders told =>
        split at loaded
        · cases loaded
        · next language accepted =>
          unfold loadContent at loaded
          simp only at loaded
          split at loaded
          · cases loaded
          · next nodes afterNodes listed =>
            split at loaded
            · cases loaded
            · next texts left texted =>
              exact Or.inr ⟨left, afterMagic, header, afterHeaders, language, nodes, afterNodes,
                texts, taken, told, accepted, listed, texted⟩
    · next other => exact Or.inl ⟨start, afterMagic, taken, other⟩

/-- If a file is read to its end, then without some bytes at its end it does not load. -/
theorem Reads.load_eq_error {more : Bytes} (reads : Reads g headers (input ++ more) [])
    (missing : more ≠ []) : ∃ cause, (g.load headers input).1 = .error cause := by
  cases loaded : (g.load headers input).1 with
  | error cause => exact ⟨cause, rfl⟩
  | ok =>
    exfalso
    rcases reads_of_load loaded with ⟨start, rest, taken, other⟩ | ⟨left, shorter⟩
    · obtain ⟨_, _, _, _, _, _, _, whole, -⟩ := reads
      cases whole.symm.trans (Reader.steady_bytes _ _ _ _ taken more)
      exact other rfl
    · have nothing := (shorter.append more).unique reads
      exact missing (List.append_eq_nil_iff.1 nothing).2

/-- A graph behind header records that tell its language is read, if the bytes behind its nodes are
read as texts. -/
theorem reads_content {f : Graph} (indexed : f.nodes.Indexed) (wf : f.nodes.WellFormed)
    (suited : f.nodes.Suited) {header bytes : Bytes} {scan : HeaderScan}
    (read : loadHeaders headers (header ++
        ((savedNodes f).flatMap Node.record ++ endOfNodes ++ bytes)) =
      (scan, .ok ((savedNodes f).flatMap Node.record ++ endOfNodes ++ bytes)))
    (accepted : acceptedLanguage scan.properties = .ok f.language) {texts : TextTable}
    {left : Bytes} (texted : TextTable.empty.load bytes = (texts, .ok left)) (g : Graph) :
    Reads g headers (magic ++ (header ++
      ((savedNodes f).flatMap Node.record ++ endOfNodes ++ bytes))) left := by
  have nothing : ∀ id, ({ g.clear with language := f.language } : Graph).find? id = none :=
    NodeTable.find?_empty
  have listed := loadNodes_saved nothing
    (fun n mem => wf n.id n (find?_of_mem_savedNodes indexed mem))
    (fun n mem => suited n.id n (find?_of_mem_savedNodes indexed mem))
    (nodup_savedNodes indexed) bytes
  refine ⟨_, scan, _, f.language, _, _, texts, Reader.bytes_append _ _, read, accepted, listed, ?_⟩
  rw [texts_foldl_restore]
  exact texted

/-- A saved graph is read to its end. -/
theorem reads_saved {f : Graph} (indexed : f.nodes.Indexed) (wf : f.nodes.WellFormed)
    (suited : f.nodes.Suited) (positive : ∀ entry ∈ f.texts.toList, 0 < entry.1.raw)
    (short : ∀ entry ∈ f.texts.toList, (Utf8.encode entry.2).length < 2 ^ 32) (g : Graph)
    (headers : List Header) : Reads g headers (f.save [] .unlimited).2.written [] := by
  obtain ⟨header, saved, told⟩ := f.exists_save
  obtain ⟨scan, read, accepted⟩ := told headers
    ((savedNodes f).flatMap Node.record ++ endOfNodes ++ f.texts.save)
  have texted := TextTable.load_save positive short []
  rw [List.append_nil] at texted
  rw [saved, Sink.written_holding]
  exact reads_content indexed wf suited read accepted texted g

/-- A graph that was saved with a text under the key zero is also read without the bytes behind that
key. -/
theorem reads_saved_of_zero {f : Graph} (indexed : f.nodes.Indexed) (wf : f.nodes.WellFormed)
    (suited : f.nodes.Suited) (sorted : f.texts.texts.Sorted)
    (zero : ∃ entry ∈ f.texts.toList, entry.1.raw = 0) :
    ∃ input more, more ≠ [] ∧ (f.save [] .unlimited).2.written = input ++ more ∧
      ∀ (g : Graph) (headers : List Header), Reads g headers input [] := by
  obtain ⟨header, saved, told⟩ := f.exists_save
  obtain ⟨more, some, bytes⟩ := TextTable.save_of_zero sorted zero
  refine ⟨magic ++ (header ++ ((savedNodes f).flatMap Node.record ++ endOfNodes ++
    (TextTable.magic ++ (wordBytes 4 0 ++ [])))), more, some, ?_, fun g headers => ?_⟩
  · rw [saved, Sink.written_holding, bytes]
    simp only [List.append_assoc, List.nil_append]
  · obtain ⟨scan, read, accepted⟩ := told headers
      ((savedNodes f).flatMap Node.record ++ endOfNodes ++
        (TextTable.magic ++ (wordBytes 4 0 ++ [])))
    exact reads_content indexed wf suited read accepted (TextTable.load_nothing []) g

/-- What can be read loads. -/
theorem Reads.load_eq_ok {left : Bytes} (reads : Reads g headers input left) :
    (g.load headers input).1 = .ok () := by
  obtain ⟨afterMagic, header, afterHeaders, language, nodes, afterNodes, texts, start, told, accepted,
    listed, texted⟩ := reads
  unfold Graph.load loadContent
  simp only [start, if_true, told, accepted, listed, texted]

end GraphFile

namespace Graph

/-- Whatever is done to a new graph, if no node gets attributes that do not suit its kind and all texts
are short enough, the graph is saved. If no text has the key zero, then the file loads into any graph,
and without some bytes at its end it loads into none. If a text has the key zero, which also ends the
texts, then the file loads without some bytes at its end, into any graph. -/
theorem load_brokenOff (language : Language) (history : List Operation)
    (suits : (new language).Along (fun g operation => operation.Describes Attributes.Suits g)
      history)
    (short : ∀ entry ∈ ((new language).after history).texts.toList,
      (Utf8.encode entry.2).length < 2 ^ 32) :
    let f := (new language).after history
    let saved := (f.save [] .unlimited).2
    saved.outcome = .ok () ∧
      ((∀ entry ∈ f.texts.toList, 0 < entry.1.raw) →
        ∀ (g : Graph) (headers : List Header), (g.load headers saved.written).1 = .ok () ∧
          ∀ input, input <+: saved.written → input ≠ saved.written →
            ∃ cause, (g.load headers input).1 = .error cause) ∧
      ((∃ entry ∈ f.texts.toList, entry.1.raw = 0) →
        ∃ input, input <+: saved.written ∧ input ≠ saved.written ∧
          ∀ (g : Graph) (headers : List Header), (g.load headers input).1 = .ok ()) := by
  intro f saved
  have indexed : f.nodes.Indexed := indexed_after language history
  obtain ⟨wf, suited⟩ := wellFormed_after suits
  refine ⟨?_, fun positive g headers => ?_, fun zero => ?_⟩
  · obtain ⟨header, held, -⟩ := f.exists_save
    simp only [saved, held]
    rfl
  · have reads : GraphFile.Reads g headers saved.written [] :=
      GraphFile.reads_saved indexed wf suited positive short g headers
    refine ⟨reads.load_eq_ok, ?_⟩
    rintro input ⟨more, whole⟩ shorter
    have missing : more ≠ [] := by
      rintro rfl
      exact shorter ((List.append_nil input).symm.trans whole)
    rw [← whole] at reads
    exact reads.load_eq_error missing
  · have sorted : f.texts.texts.Sorted := (numbered_after language history).sorted
    obtain ⟨input, more, some, whole, reads⟩ :=
      GraphFile.reads_saved_of_zero indexed wf suited sorted zero
    refine ⟨input, ⟨more, whole.symm⟩, fun same => some ?_, fun g headers =>
      (reads g headers).load_eq_ok⟩
    exact List.append_right_eq_self.1 (whole.symm.trans same.symm)

/-- The file of a graph in which two packages contain each other, so that neither is written, loads,
but not without its last byte. -/
theorem load_brokenOff_cycle :
    let f := (new .java).after cyclicHistory
    let saved := (f.save [] .unlimited).2
    f.find? (madeId 0) ≠ none ∧ saved.outcome = .ok () ∧
      ∀ (g : Graph) (headers : List Header), (g.load headers saved.written).1 = .ok () ∧
        ∃ cause, (g.load headers saved.written.dropLast).1 = .error cause := by
  have facts : ((new .java).after cyclicHistory).find? (madeId 0) ≠ none ∧
      ∀ entry ∈ ((new .java).after cyclicHistory).texts.toList,
        0 < entry.1.raw ∧ (Utf8.encode entry.2).length < 2 ^ 32 := by
    decide +kernel
  obtain ⟨there, texts⟩ := facts
  obtain ⟨outcome, loads, -⟩ := load_brokenOff .java cyclicHistory
    ⟨trivial, trivial, trivial, trivial, trivial⟩ (fun entry mem => (texts entry mem).2)
  refine ⟨there, outcome, fun g headers => ?_⟩
  obtain ⟨whole, parts⟩ := loads (fun entry mem => (texts entry mem).1) g headers
  refine ⟨whole, parts _ (List.dropLast_prefix _) fun same => ?_⟩
  obtain ⟨header, held, -⟩ := ((new .java).after cyclicHistory).exists_save
  have length := congrArg List.length same
  simp only [held, Sink.written_holding, List.length_dropLast, List.length_append] at length
  have four : GraphFile.magic.length = 4 := rfl
  omega

/-- A history that reads a text under the last key. The name of the component that is made then gets the
key zero. -/
def lastKeyHistory : List Operation :=
  [.loadTexts (TextTable.magic ++ TextTable.entryBytes (TextTable.lastKey, "a") ++ wordBytes 4 0),
    .component "b"]

/-- The file of such a graph also loads without its last byte. -/
theorem shorter_file_loads :
    let f := (new .java).after lastKeyHistory
    let written := (f.save [] .unlimited).2.written
    (∀ entry ∈ f.texts.toList, (Utf8.encode entry.2).length < 2 ^ 32) ∧
      f.texts.texts.find? .empty = some "b" ∧ written.dropLast <+: written ∧
      written.dropLast ≠ written ∧ ((new .java).load [] written.dropLast).1 = .ok () := by
  dsimp only
  have facts : (∀ entry ∈ ((new .java).after lastKeyHistory).texts.toList,
        (Utf8.encode entry.2).length < 2 ^ 32) ∧
      ((new .java).after lastKeyHistory).texts.texts.find? .empty = some "b" ∧
      (((new .java).after lastKeyHistory).save [] .unlimited).2.written.dropLast ≠
        (((new .java).after lastKeyHistory).save [] .unlimited).2.written ∧
      ((new .java).load []
        (((new .java).after lastKeyHistory).save [] .unlimited).2.written.dropLast).1 = .ok () := by
    decide +kernel
  obtain ⟨short, key, shorter, loads⟩ := facts
  exact ⟨short, key, List.dropLast_prefix _, shorter, loads⟩

end Graph

end CodeGraph
