import CodeGraph.Proofs.RoundTrip

/-!
# The root of a loaded graph

A file does not tell which node is the root: loading takes the node of the first record. The first
record is that of the node without a parent that has the smallest id. So the root comes back if and
only if it is that node. Main statement: `Graph.root_load_saved`; `Graph.root_load_low` has a graph
that loads with another root.
-/

set_option autoImplicit false

namespace CodeGraph

namespace GraphFile

open CodeGraph.Graph

/-- The first record is that of the first node without a parent. -/
theorem head?_savedNodes {g : Graph} (indexed : g.nodes.Indexed) :
    (savedNodes g).head? = g.nodeList.find? fun n => n.parent.isNone := by
  let c : Walk.Course (List Node) := ⟨g.turnFilterOff, { safe := true }, false, Watcher.lister⟩
  let start : Walk (List Node) := { watcher := [], visited := .withRoom g.size }
  have careful : c.Careful := ⟨rfl, rfl, indexed⟩
  have tidy : c.Tidy start := c.tidy_start g.size
  have listed : ∀ n ∈ c.starts, c.graph.find? n.id = some n :=
    fun n mem => (indexed.mem_toList_iff n).1 (List.mem_filter.1 mem).1
  have few : c.graph.nodeList.length ≤ g.size := g.nodes.length_toList_le
  have starts : c.starts = g.nodeList.filter fun n => n.parent.isNone :=
    List.filter_congr fun n _ => Bool.and_true _
  change (c.enterAll (g.size + 1 + 1) c.starts start).watcher.head? = _
  rw [← List.head?_filter, ← starts]
  cases firsts : c.starts with
  | nil => rfl
  | cons n rest =>
    rw [firsts] at listed
    obtain ⟨found, others⟩ := List.forall_mem_cons.1 listed
    have new : ¬ start.Seen n.id := List.not_mem_nil
    have next := Walk.Course.prefix_enter careful (g.size + 1) found tidy new (by omega)
    obtain ⟨entered, -⟩ := Walk.Course.enter_spec careful (g.size + 1 + 1) found tidy (by omega)
    obtain ⟨grows, -⟩ := Walk.Course.enterAll_spec careful (g.size + 1 + 1) rest others entered.tidy
      (by omega)
    obtain ⟨later, whole⟩ := next.trans grows.more
    have all : [n] ++ later = (c.enterAll (g.size + 1 + 1) (n :: rest) start).watcher := whole
    rw [← all]
    rfl

end GraphFile

namespace Graph

/-- The node has no parent, and no other node without a parent has a smaller id. -/
structure IsFirstTop (g : Graph) (id : NodeId) : Prop where
  top : ∃ n, g.find? id = some n ∧ n.parent = none
  first : ∀ other n, g.find? other = some n → n.parent = none → id.index ≤ other.index

/-- There is one first node without a parent at most. -/
theorem IsFirstTop.unique {g : Graph} {a b : NodeId} (ha : g.IsFirstTop a) (hb : g.IsFirstTop b) :
    a = b := by
  obtain ⟨n, found, none⟩ := ha.top
  obtain ⟨m, found', none'⟩ := hb.top
  exact NodeId.index_inj (Nat.le_antisymm (ha.first b m found' none') (hb.first a n found none))

/-- A chain of parents that ends leads to a node without a parent. -/
theorem exists_top_of_reachesRoot {g : Graph} {steps : Nat} {id : NodeId}
    (reaches : g.reachesRoot steps id = true) : ∃ top n, g.find? top = some n ∧ n.parent = none := by
  induction steps generalizing id with
  | zero => cases reaches
  | succ steps ih =>
    unfold reachesRoot at reaches
    split at reaches
    · cases reaches
    · next n found =>
      split at reaches
      · next top => exact ⟨id, n, found, top⟩
      · exact ih reaches

/-- The first record of a graph with a node without a parent is that of the first such node. -/
theorem exists_isFirstTop {g : Graph} (indexed : g.nodes.Indexed) {top : NodeId} {n : Node}
    (found : g.find? top = some n) (parentless : n.parent = none) :
    ∃ first, (GraphFile.savedNodes g).head?.map Node.id = some first ∧ g.IsFirstTop first := by
  have own : n.id = top := indexed.id_eq found
  have isTop : n.parent.isNone = true := by
    rw [parentless]
    rfl
  have mem : n ∈ g.nodeList := (indexed.mem_toList_iff n).2 (own.symm ▸ found)
  have some : (g.nodeList.find? fun n => n.parent.isNone).isSome = true :=
    List.find?_isSome.2 ⟨n, mem, isTop⟩
  obtain ⟨m, least⟩ := Option.isSome_iff_exists.1 some
  obtain ⟨top, before, after, split, earlier⟩ := List.find?_eq_some_iff_append.1 least
  have among : m ∈ g.nodeList := List.mem_of_find?_eq_some least
  refine ⟨m.id, ?_, ⟨m, (indexed.mem_toList_iff m).1 among, Option.isNone_iff_eq_none.1 top⟩, ?_⟩
  · rw [GraphFile.head?_savedNodes indexed, least]
    rfl
  · intro other k there none
    have own : k.id = other := indexed.id_eq there
    have listed : k ∈ g.nodeList := (indexed.mem_toList_iff k).2 (own.symm ▸ there)
    have sorted : g.nodeList.Pairwise fun a b => a.id.index < b.id.index := indexed.sorted_toList
    rw [← own]
    rw [split] at listed sorted
    rcases List.mem_append.1 listed with sooner | later
    · have hasParent := earlier k sooner
      rw [none] at hasParent
      cases hasParent
    · rcases List.mem_cons.1 later with rfl | last
      · exact Nat.le_refl _
      · exact Nat.le_of_lt ((List.pairwise_cons.1 (List.pairwise_append.1 sorted).2.1).1 k last)

/-- The root of a loaded graph is the first node without a parent. -/
theorem isFirstTop_root_load {f : Graph} (sound : f.nodes.Sound) (suited : f.nodes.Suited)
    (numbered : f.texts.Numbered) (storable : f.Storable) {id : NodeId} {n : Node}
    (found : f.find? id = some n) (g : Graph) (headers : List Header) :
    (g.load headers (f.save [] .unlimited).2.written).1 = .ok () ∧
      f.IsFirstTop (g.load headers (f.save [] .unlimited).2.written).2.2.root := by
  obtain ⟨steps, reaches⟩ := storable.rooted id n found
  obtain ⟨top, m, there, parentless⟩ := exists_top_of_reachesRoot reaches
  obtain ⟨first, head, isFirst⟩ := exists_isFirstTop sound.indexed there parentless
  obtain ⟨-, loads⟩ := exists_link_saved sound suited numbered storable
  obtain ⟨read, -, loaded, linked, -⟩ := loads g headers
  rw [linked, head]
  exact ⟨loaded, isFirst⟩

/-- Whatever is done to a new graph, if no node gets attributes that do not suit its kind, the graph
is storable and its root exists, then its file loads into any graph, and the root is the node without
a parent that has the smallest id. It is the root of the saved graph if and only if that graph has
such a root. -/
theorem root_load_saved (language : Language) (history : List Operation)
    (suits : (new language).Along (fun g operation => operation.Describes Attributes.Suits g)
      history)
    (storable : ((new language).after history).Storable)
    (there : ∃ n, ((new language).after history).find? ((new language).after history).root = some n) :
    let f := (new language).after history
    let written := (f.save [] .unlimited).2.written
    ∀ (g : Graph) (headers : List Header), (g.load headers written).1 = .ok () ∧
      f.IsFirstTop (g.load headers written).2.2.root ∧
      ((g.load headers written).2.2.root = f.root ↔ f.IsFirstTop f.root) := by
  intro f written g headers
  obtain ⟨sound, suited⟩ : f.nodes.Sound ∧ f.nodes.Suited := suited_after suits storable.ids
  obtain ⟨n, found⟩ := there
  obtain ⟨loaded, isFirst⟩ :=
    isFirstTop_root_load sound suited (numbered_after language history) storable found g headers
  refine ⟨loaded, isFirst, fun same => same ▸ isFirst, isFirst.unique⟩

/-- The list of the nodes tells which node without a parent is the first. -/
theorem isFirstTop_of_nodeList {g : Graph} (indexed : g.nodes.Indexed) {id : NodeId}
    (top : (g.find? id).map Node.parent = some none)
    (first : ∀ n ∈ g.nodeList, n.parent = none → id.index ≤ n.id.index) : g.IsFirstTop id := by
  refine ⟨Option.map_eq_some_iff.1 top, fun other n found none => ?_⟩
  have own : n.id = other := indexed.id_eq found
  subst own
  exact first n ((indexed.mem_toList_iff n).2 found) none

/-- A history that makes a package with the smallest id of all, below the root. -/
def nestedLowHistory : List Operation :=
  [.createNodeWithId .package firstId, .addEdge .scopeHasMember rootId firstId]

/-- A package with a small id that lies below the root does not take its place. -/
theorem root_load_saved_low :
    let f := (new .java).after nestedLowHistory
    let written := (f.save [] .unlimited).2.written
    f.Storable ∧ f.find? firstId ≠ none ∧ ∀ (g : Graph) (headers : List Header),
      (g.load headers written).1 = .ok () ∧ (g.load headers written).2.2.root = f.root := by
  have indexed := indexed_after .java nestedLowHistory
  have saves := root_load_saved .java nestedLowHistory ⟨trivial, trivial, trivial⟩
  obtain ⟨f, is⟩ : ∃ f, f = (new .java).after nestedLowHistory := ⟨_, rfl⟩
  rw [← is] at indexed saves ⊢
  have facts : f.size < idLimit ∧ f.texts.SparesLastKey ∧
      (∀ entry ∈ f.texts.toList, (Utf8.encode entry.2).length < 2 ^ 32) ∧
      (∀ n ∈ f.nodeList, f.reachesRoot 2 n.id = true) ∧ f.find? firstId ≠ none ∧
      (f.find? f.root).map Node.parent = some none ∧
      ∀ n ∈ f.nodeList, n.parent = none → f.root.index ≤ n.id.index := by
    rw [is]
    decide +kernel
  obtain ⟨ids, keys, short, ends, there, top, first⟩ := facts
  have storable : f.Storable := ⟨ids, keys, short, rooted_of_nodeList indexed ends⟩
  have isFirst := isFirstTop_of_nodeList indexed top first
  obtain ⟨n, found, -⟩ := isFirst.top
  refine ⟨storable, there, fun g headers => ?_⟩
  obtain ⟨loaded, -, same⟩ := saves storable ⟨n, found⟩ g headers
  exact ⟨loaded, same.2 isFirst⟩

/-- A history that makes a package with the smallest id of all, below no other node. -/
def lowHistory : List Operation :=
  [.createNodeWithId .package firstId]

/-- A package with a small id that lies below no other node becomes the root. -/
theorem root_load_low :
    let f := (new .java).after lowHistory
    let written := (f.save [] .unlimited).2.written
    f.Storable ∧ f.find? f.root ≠ none ∧ f.root = rootId ∧ ∀ (g : Graph) (headers : List Header),
      (g.load headers written).1 = .ok () ∧ (g.load headers written).2.2.root = firstId := by
  have indexed := indexed_after .java lowHistory
  have numbered := numbered_after .java lowHistory
  have suited : ((new .java).after lowHistory).size < idLimit → _ :=
    suited_after ⟨trivial, trivial⟩
  obtain ⟨f, is⟩ : ∃ f, f = (new .java).after lowHistory := ⟨_, rfl⟩
  rw [← is] at indexed numbered suited ⊢
  have facts : f.size < idLimit ∧ f.texts.SparesLastKey ∧
      (∀ entry ∈ f.texts.toList, (Utf8.encode entry.2).length < 2 ^ 32) ∧
      (∀ n ∈ f.nodeList, f.reachesRoot 1 n.id = true) ∧ f.find? f.root ≠ none ∧ f.root = rootId ∧
      (f.find? firstId).map Node.parent = some none ∧
      ∀ n ∈ f.nodeList, n.parent = none → firstId.index ≤ n.id.index := by
    rw [is]
    decide +kernel
  obtain ⟨ids, keys, short, ends, there, root, top, first⟩ := facts
  have storable : f.Storable := ⟨ids, keys, short, rooted_of_nodeList indexed ends⟩
  have isFirst := isFirstTop_of_nodeList indexed top first
  obtain ⟨n, found, -⟩ := isFirst.top
  refine ⟨storable, there, root, fun g headers => ?_⟩
  obtain ⟨loaded, least⟩ := isFirstTop_root_load (suited ids).1 (suited ids).2 numbered storable
    found g headers
  exact ⟨loaded, least.unique isFirst⟩

end Graph

end CodeGraph
