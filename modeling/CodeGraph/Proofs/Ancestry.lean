import CodeGraph.Proofs.Parents
import CodeGraph.Proofs.Saving
import Mathlib.Data.List.Perm.Subperm

/-!
# Chains of parents

A containment edge from a node to itself or to one of its ancestors closes a cycle: the chain of
parents that starts at its far end never comes back to a node without a parent. Nothing refuses such
an edge. But no other operation does harm: as long as no operation closes a cycle, every chain of
parents ends, after fewer steps than the table of nodes has places. Then the walks along parents that
give the path of an entry and show a node come to their end, and a saved graph has a record of every
node. Main statement: `Graph.chains_end_after`; `Graph.chain_never_ends` has a graph with a cycle.
-/

set_option autoImplicit false

namespace CodeGraph

open Relation

/-- The ancestors of an id, nearest first, up to one that has no parent. -/
inductive AncestorsBy (parent : NodeId → Option Parent) : NodeId → List NodeId → Prop
  | top {x : NodeId} (last : parent x = none) : AncestorsBy parent x []
  | up {x : NodeId} {p : Parent} {above : List NodeId} (next : parent x = some p)
      (rest : AncestorsBy parent p.id above) : AncestorsBy parent x (p.id :: above)

namespace AncestorsBy

variable {parent : NodeId → Option Parent} {x : NodeId} {above other : List NodeId}

/-- There is only one chain of ancestors. -/
theorem unique (first : AncestorsBy parent x above) (second : AncestorsBy parent x other) :
    above = other := by
  induction first generalizing other with
  | top last =>
    cases second with
    | top _ => rfl
    | up next _ => cases last.symm.trans next
  | up next _ ih =>
    cases second with
    | top last => cases last.symm.trans next
    | up next' rest =>
      cases next.symm.trans next'
      rw [ih rest]

/-- The chain of an ancestor is shorter. -/
theorem shorter (ancestors : AncestorsBy parent x above) {a : NodeId} (mem : a ∈ above) :
    ∃ higher, AncestorsBy parent a higher ∧ higher.length < above.length := by
  induction ancestors with
  | top _ => cases mem
  | @up x p above next rest ih =>
    rcases List.mem_cons.1 mem with rfl | higher
    · exact ⟨above, rest, Nat.lt_succ_self _⟩
    · obtain ⟨up, chain, less⟩ := ih higher
      exact ⟨up, chain, Nat.lt_succ_of_lt less⟩

/-- Nobody is an ancestor of itself. -/
theorem not_mem_self (ancestors : AncestorsBy parent x above) : x ∉ above := by
  intro mem
  obtain ⟨higher, chain, less⟩ := ancestors.shorter mem
  rw [ancestors.unique chain] at less
  exact Nat.lt_irrefl _ less

/-- No id occurs twice in a chain. -/
theorem nodup (ancestors : AncestorsBy parent x above) : (x :: above).Nodup := by
  induction ancestors with
  | top _ => exact List.nodup_singleton _
  | up next rest ih => exact List.nodup_cons.2 ⟨(AncestorsBy.up next rest).not_mem_self, ih⟩

end AncestorsBy

namespace Nesting

variable {v : Nesting}

/-- Every chain of parents ends. -/
def Grounded (v : Nesting) : Prop :=
  ∀ x, ∃ above, AncestorsBy v.parent x above

/-- Containment edges lead from nodes to nodes. -/
def Closed (v : Nesting) : Prop :=
  ∀ e s x, x ∈ v.held e s → v.has s = true ∧ v.has x = true

/-- A parent lists its node, so ancestors exist. -/
theorem has_of_ancestor (backed : v.Backed) (closed : v.Closed) {x : NodeId} {above : List NodeId}
    (ancestors : AncestorsBy v.parent x above) : ∀ a ∈ above, v.has a = true := by
  induction ancestors with
  | top _ => exact fun a mem => absurd mem List.not_mem_nil
  | up next rest ih =>
    refine List.forall_mem_cons.2 ⟨?_, ih⟩
    exact (closed _ _ _ (backed _ _ next)).1

/-! ## What each change keeps -/

/-- Where there are no nodes there are no edges. -/
theorem closed_nothing : nothing.Closed := by
  intro e s x mem
  cases mem

/-- One more node keeps containment edges between nodes. -/
theorem Closed.make (closed : v.Closed) (id : NodeId) : (v.make id).Closed := by
  intro e s x mem
  obtain ⟨source, target⟩ := closed e s x mem
  simp [Nesting.make, source, target]

/-- One more edge keeps containment edges between nodes, if both its ends exist. -/
theorem Closed.put (closed : v.Closed) (e : EdgeKind) {source target : NodeId}
    (hasSource : v.has source = true) (hasTarget : v.has target = true) :
    (v.put e source target).Closed := by
  intro k s x mem
  rcases mem_held_put.1 mem with before | ⟨-, rfl, rfl⟩
  · exact closed k s x before
  · exact ⟨hasSource, hasTarget⟩

/-- One edge less keeps containment edges between nodes. -/
theorem Closed.take (closed : v.Closed) (e : EdgeKind) (source target : NodeId) :
    (v.take e source target).Closed :=
  fun k s x mem => closed k s x (mem_held_of_take mem)

/-- Where there are no nodes all chains of parents end. -/
theorem grounded_nothing : nothing.Grounded :=
  fun _ => ⟨[], .top rfl⟩

/-- A chain that does not come past the far end of a new edge stays as it is. -/
theorem ancestors_put {e : EdgeKind} {source target x : NodeId} {above : List NodeId}
    (ancestors : AncestorsBy v.parent x above) (past : target ∉ x :: above) :
    AncestorsBy (v.put e source target).parent x above := by
  have other : ∀ {x above}, target ∉ x :: above → (v.put e source target).parent x = v.parent x :=
    fun past => v.parent_put_other e source fun here => past (here ▸ List.mem_cons_self)
  induction ancestors with
  | top last => exact .top ((other past).trans last)
  | up next rest ih =>
    exact .up ((other past).trans next) (ih fun mem => past (List.mem_cons_of_mem _ mem))

/-- A containment edge keeps all chains finite if its far end is neither its source nor an ancestor of
its source. -/
theorem Grounded.put (grounded : v.Grounded) (e : EdgeKind) {source target : NodeId}
    (notAbove : ∀ above, AncestorsBy v.parent source above → target ∉ source :: above) :
    (v.put e source target).Grounded := by
  obtain ⟨top, chain⟩ := grounded source
  have below : AncestorsBy (v.put e source target).parent target (source :: top) :=
    .up (v.parent_put_self e source target) (ancestors_put chain (notAbove top chain))
  intro x
  obtain ⟨above, ancestors⟩ := grounded x
  induction ancestors with
  | @top x last =>
    by_cases here : x = target
    · rw [here]
      exact ⟨_, below⟩
    · exact ⟨[], .top ((v.parent_put_other e source here).trans last)⟩
  | @up x p above next rest ih =>
    by_cases here : x = target
    · rw [here]
      exact ⟨_, below⟩
    · obtain ⟨higher, chain⟩ := ih
      exact ⟨_, .up ((v.parent_put_other e source here).trans next) chain⟩

/-- After a new edge the chain of an id still comes past the far end if it did before. -/
theorem mem_ancestors_put {e : EdgeKind} {source target x : NodeId} {above after : List NodeId}
    (ancestors : AncestorsBy v.parent x above) (past : target ∈ x :: above)
    (chain : AncestorsBy (v.put e source target).parent x after) : target ∈ x :: after := by
  induction ancestors generalizing after with
  | top last => exact List.mem_singleton.1 past ▸ List.mem_cons_self
  | @up x p above next rest ih =>
    by_cases here : target = x
    · exact here ▸ List.mem_cons_self
    · have same : (v.put e source target).parent x = some p :=
        (v.parent_put_other e source fun eq => here eq.symm).trans next
      cases chain with
      | top last => cases last.symm.trans same
      | up next' higher =>
        cases same.symm.trans next'
        refine List.mem_cons_of_mem _ (ih ?_ higher)
        exact (List.mem_cons.1 past).resolve_left here

/-- An edge to its own source, or to an ancestor of it, makes a chain without end. -/
theorem endless_put {e : EdgeKind} {source target : NodeId} {above : List NodeId}
    (ancestors : AncestorsBy v.parent source above) (cycle : target ∈ source :: above)
    (after : List NodeId) : ¬ AncestorsBy (v.put e source target).parent target after := by
  intro chain
  have next := v.parent_put_self e source target
  have self := chain.not_mem_self
  cases chain with
  | top last => cases last.symm.trans next
  | up next' higher =>
    cases next.symm.trans next'
    exact self (mem_ancestors_put ancestors cycle higher)

/-- One edge less keeps all chains of parents ending: they only get shorter. -/
theorem Grounded.take (grounded : v.Grounded) (e : EdgeKind) (source target : NodeId) :
    (v.take e source target).Grounded := by
  intro x
  obtain ⟨above, ancestors⟩ := grounded x
  induction ancestors with
  | @top x last =>
    refine ⟨[], .top ?_⟩
    change (if _ then none else v.parent x) = none
    rw [last, ite_self]
  | @up x p above next rest ih =>
    obtain ⟨higher, chain⟩ := ih
    by_cases gone : x = target ∧ (v.parent x).map Parent.id = some source
    · exact ⟨[], .top (if_pos gone)⟩
    · exact ⟨_, .up ((if_neg gone).trans next) chain⟩

/-- A forest: parents list their nodes, containment edges lead from nodes to nodes, and all chains of
parents end. -/
structure Forest (v : Nesting) : Prop where
  backed : v.Backed
  closed : v.Closed
  grounded : v.Grounded

/-- No nodes at all make a forest. -/
theorem forest_nothing : nothing.Forest :=
  ⟨backed_nothing, closed_nothing, grounded_nothing⟩

/-- One more edge keeps a forest, if both its ends exist and it leads neither to where it starts nor
to a node above. -/
theorem Forest.put (forest : v.Forest) (e : EdgeKind) {source target : NodeId}
    (hasSource : v.has source = true) (hasTarget : v.has target = true)
    (notAbove : ∀ above, AncestorsBy v.parent source above → target ∉ source :: above) :
    (v.put e source target).Forest :=
  ⟨forest.backed.put e source target, forest.closed.put e hasSource hasTarget,
    forest.grounded.put e notAbove⟩

/-- One edge less keeps a forest. -/
theorem Forest.take (forest : v.Forest) (e : EdgeKind) (source target : NodeId) :
    (v.take e source target).Forest :=
  ⟨forest.backed.take e source target, forest.closed.take e source target,
    forest.grounded.take e source target⟩

/-- One more node on its own keeps a forest. -/
theorem Forest.make (forest : v.Forest) (id : NodeId) : (v.make id).Forest :=
  ⟨forest.backed, forest.closed.make id, forest.grounded⟩

/-- A new node is above nobody. -/
theorem Forest.grow {w : Nesting} (grow : Grow v w) (forest : v.Forest) : w.Forest := by
  cases grow with
  | make unused => exact forest.make _
  | @enter e holder id unused exists_ =>
    refine (forest.make id).put e ?_ ?_ fun above ancestors mem => ?_
    · simp [Nesting.make, exists_]
    · simp [Nesting.make]
    · have has : v.has id = true := by
        rcases List.mem_cons.1 mem with rfl | higher
        · exact exists_
        · exact has_of_ancestor forest.backed forest.closed ancestors id higher
      exact absurd (has.symm.trans unused) (by decide)

end Nesting

/-! ## Chains of nodes -/

/-- There are fewer ancestors than places in the table of nodes. -/
theorem NodeTable.length_ancestors_lt {t : NodeTable} {parent : NodeId → Option Parent}
    {id : NodeId} {above : List NodeId} (ancestors : AncestorsBy parent id above)
    (there : ∀ a ∈ id :: above, t.nesting.has a = true) : above.length < t.size := by
  have inside : (id :: above).map NodeId.index ⊆ List.range t.size := by
    intro i mem
    obtain ⟨a, listed, rfl⟩ := List.mem_map.1 mem
    obtain ⟨n, found⟩ := Option.isSome_iff_exists.1 (there a listed)
    exact List.mem_range.2 (index_lt_size found)
  have once : ((id :: above).map NodeId.index).Nodup :=
    ancestors.nodup.map fun _ _ => NodeId.index_inj
  have few := (List.subperm_of_subset once inside).length_le
  rw [List.length_map, List.length_range] at few
  exact few

namespace Graph

variable {g : Graph}

/-- The ancestors of a node, nearest first, up to one that has no parent. -/
inductive Climbs (g : Graph) : Node → List Node → Prop
  | top {n : Node} (last : n.parent = none) : Climbs g n []
  | up {n m : Node} {p : Parent} {above : List Node} (next : n.parent = some p)
      (found : g.find? p.id = some m) (rest : Climbs g m above) : Climbs g n (m :: above)

/-- The nesting of a graph has the parents of its nodes. -/
theorem nesting_parent {id : NodeId} {n : Node} (found : g.find? id = some n) :
    g.nesting.parent id = n.parent :=
  congrArg (Option.bind · Node.parent) found

/-- If all ancestors of a node exist, they are a chain of nodes. -/
theorem climbs_of_ancestors {id : NodeId} {above : List NodeId}
    (ancestors : AncestorsBy g.nesting.parent id above)
    (there : ∀ a ∈ above, g.nesting.has a = true) {n : Node} (found : g.find? id = some n) :
    ∃ chain, g.Climbs n chain ∧ chain.length = above.length := by
  induction ancestors generalizing n with
  | top last => exact ⟨[], .top ((nesting_parent found).symm.trans last), rfl⟩
  | @up id p above next rest ih =>
    obtain ⟨parentThere, higherThere⟩ := List.forall_mem_cons.1 there
    obtain ⟨m, above⟩ := Option.isSome_iff_exists.1 parentThere
    obtain ⟨chain, climbs, length⟩ := ih higherThere above
    refine ⟨m :: chain, .up ((nesting_parent found).symm.trans next) above climbs, ?_⟩
    exact congrArg Nat.succ length

/-- A chain that ends is climbed in as many steps as it has nodes. -/
theorem Climbs.reachesRoot {n : Node} {above : List Node} (climbs : g.Climbs n above) {id : NodeId}
    (found : g.find? id = some n) {steps : Nat} (enough : above.length < steps) :
    g.reachesRoot steps id = true := by
  induction climbs generalizing id steps with
  | top last =>
    obtain ⟨steps, rfl⟩ := Nat.exists_eq_succ_of_ne_zero (Nat.ne_of_gt enough)
    simp only [Graph.reachesRoot, found, last]
  | up next there _ ih =>
    obtain ⟨steps, rfl⟩ := Nat.exists_eq_succ_of_ne_zero (Nat.ne_of_gt (Nat.zero_lt_of_lt enough))
    simp only [Graph.reachesRoot, found, next]
    exact ih there (Nat.lt_of_succ_lt_succ enough)

/-- The names along a chain do not depend on the number of steps, if there are enough. -/
theorem Climbs.entryNames {n : Node} {above : List Node} (climbs : g.Climbs n above) {steps : Nat}
    (enough : above.length < steps) :
    g.entryNames steps (some n) = g.entryNames (above.length + 1) (some n) := by
  induction climbs generalizing steps with
  | @top n last =>
    obtain ⟨steps, rfl⟩ := Nat.exists_eq_succ_of_ne_zero (Nat.ne_of_gt enough)
    have nobody : n.parentId?.bind g.find? = none := by rw [Node.parentId?, last]; rfl
    have end_ : ∀ steps, g.entryNames steps none = .ok [] := fun steps => by cases steps <;> rfl
    simp only [Graph.entryNames, nobody, end_]
  | @up n m p above next there _ ih =>
    obtain ⟨steps, rfl⟩ := Nat.exists_eq_succ_of_ne_zero (Nat.ne_of_gt (Nat.zero_lt_of_lt enough))
    have parent : n.parentId?.bind g.find? = some m := by rw [Node.parentId?, next]; exact there
    have same := ih (Nat.lt_of_succ_lt_succ enough)
    unfold Graph.entryNames
    simp only [parent, same, List.length_cons]

/-- Showing the ancestors along a chain succeeds, and does not depend on the number of steps, if there
are enough. -/
theorem Climbs.showAncestors {n : Node} {above : List Node} (climbs : g.Climbs n above)
    {steps : Nat} (enough : above.length ≤ steps) (f : Filter) :
    Filter.showAncestors g.nodes steps n.parentId? f =
        Filter.showAncestors g.nodes above.length n.parentId? f ∧
      (Filter.showAncestors g.nodes steps n.parentId? f).2 = .ok () := by
  induction climbs generalizing steps f with
  | @top n last =>
    have nobody : n.parentId? = none := by rw [Node.parentId?, last]; rfl
    rw [nobody]
    cases steps <;> exact ⟨rfl, rfl⟩
  | @up n m p above next there _ ih =>
    obtain ⟨steps, rfl⟩ := Nat.exists_eq_succ_of_ne_zero
      (Nat.ne_of_gt (Nat.lt_of_lt_of_le (Nat.succ_pos _) enough))
    have parent : n.parentId? = some p.id := by rw [Node.parentId?, next]; rfl
    have there : g.nodes.find? p.id = some m := there
    simp only [parent, List.length_cons, Filter.showAncestors, there]
    exact ih (Nat.le_of_succ_le_succ enough) _

/-- A node from which a node without a parent is reached has a chain of ancestors. -/
theorem ancestors_of_reachesRoot {steps : Nat} {id : NodeId}
    (reaches : g.reachesRoot steps id = true) :
    ∃ above, AncestorsBy g.nesting.parent id above := by
  induction steps generalizing id with
  | zero => cases reaches
  | succ steps ih =>
    unfold Graph.reachesRoot at reaches
    split at reaches
    · cases reaches
    · next n found =>
      split at reaches
      · next last => exact ⟨[], .top ((nesting_parent found).trans last)⟩
      · next p next =>
        obtain ⟨above, rest⟩ := ih reaches
        exact ⟨_, .up ((nesting_parent found).trans next) rest⟩

/-! ## Cycles -/

/-- An id is that of a node or of one of its ancestors. -/
def AtOrAbove (g : Graph) : NodeId → NodeId → Prop :=
  ReflTransGen fun x p => ∃ n, g.find? x = some n ∧ n.parentId? = some p

/-- Ids that include their parents include all ancestors. -/
theorem AtOrAbove.mem {id a : NodeId} (above : g.AtOrAbove id a) (ids : List NodeId)
    (closed : ∀ x ∈ ids, ∀ p, (g.find? x).bind Node.parentId? = some p → p ∈ ids)
    (mem : id ∈ ids) : a ∈ ids := by
  induction above with
  | refl => exact mem
  | tail _ next ih =>
    obtain ⟨n, found, parent⟩ := next
    exact closed _ ih _ (Option.bind_eq_some_iff.2 ⟨n, found, parent⟩)

/-- Along a chain that ends, the ancestors are those in the chain. -/
theorem atOrAbove_iff {id a : NodeId} {above : List NodeId}
    (ancestors : AncestorsBy g.nesting.parent id above) :
    g.AtOrAbove id a ↔ a ∈ id :: above := by
  constructor
  · intro reach
    induction ancestors with
    | top last =>
      rcases ReflTransGen.cases_head reach with rfl | ⟨p, next, -⟩
      · exact List.mem_cons_self
      · have parent := parent_nesting.2 next
        rw [last] at parent
        cases parent
    | @up id q above next _ ih =>
      rcases ReflTransGen.cases_head reach with rfl | ⟨p, step, rest⟩
      · exact List.mem_cons_self
      · have parent := parent_nesting.2 step
        rw [next] at parent
        cases parent
        exact List.mem_cons_of_mem _ (ih rest)
  · intro mem
    induction ancestors with
    | top last =>
      rw [List.mem_singleton.1 mem]
      exact ReflTransGen.refl
    | @up id q above next _ ih =>
      rcases List.mem_cons.1 mem with rfl | higher
      · exact ReflTransGen.refl
      · exact ReflTransGen.head (parent_nesting.1 (by rw [next]; rfl)) (ih higher)

end Graph

/-- Whether an operation adds a containment edge from a node to itself or to one of its ancestors. -/
def Operation.ClosesCycle (g : Graph) : Operation → Prop
  | .addEdge e source target =>
    e.isContainment = true ∧ g.Accepts e source { id := target } ∧ g.AtOrAbove source target
  | _ => False

namespace Graph

variable {g : Graph}

/-- In a forest an operation that closes a cycle leaves a chain of parents without end. -/
theorem not_rooted_perform (forest : g.nesting.Forest) {operation : Operation}
    (closes : operation.ClosesCycle g) : ¬ (operation.perform g).2.Rooted := by
  cases operation with
  | addEdge e source target =>
    obtain ⟨contains, accepts, cycle⟩ := closes
    have after := nesting_perform_addEdge contains accepts
    obtain ⟨above, ancestors⟩ := forest.grounded source
    obtain ⟨-, ⟨m, found, -⟩, -⟩ := accepts
    have there : (g.nesting.put e source target).has target = true :=
      Option.isSome_iff_exists.2 ⟨m, found⟩
    rw [← after] at there
    obtain ⟨n, found⟩ := Option.isSome_iff_exists.1 there
    intro rooted
    obtain ⟨steps, reaches⟩ := rooted target n found
    obtain ⟨chain, ends⟩ := ancestors_of_reachesRoot reaches
    rw [after] at ends
    exact Nesting.endless_put ancestors ((atOrAbove_iff ancestors).1 cycle) chain ends
  | _ => exact closes.elim

/-- Containment is a forest as long as ids last, no file is loaded and no operation closes a cycle. -/
theorem forest_after {language : Language} {history : List Operation}
    (noLoad : ∀ operation ∈ history, operation.isLoad = false)
    (last : (new language).Along (fun g operation => operation.IdsLast g) history)
    (acyclic : (new language).Along (fun g operation => ¬ operation.ClosesCycle g) history) :
    ((new language).after history).nesting.Forest := by
  have noLoads : (new language).Along (fun _ operation => operation.isLoad = false) history :=
    along_of_forall (fun operation mem _ => noLoad operation mem) _
  have along := (noLoads.and last).and acyclic
  refine along.nests (fun _ _ rule => rule.1.2) Nesting.forest_nothing
    (fun _ _ => Nesting.Forest.grow) ?_
    (fun _ e source target _ _ _ forest => forest.take e source target) ?_
  · intro g e source target rule contains accepts forest
    obtain ⟨⟨n, hasSource, -⟩, ⟨m, hasTarget, -⟩, -⟩ := id accepts
    refine forest.put e (Option.isSome_iff_exists.2 ⟨n, hasSource⟩)
      (Option.isSome_iff_exists.2 ⟨m, hasTarget⟩) fun above ancestors mem => ?_
    exact rule.2 ⟨contains, accepts, (atOrAbove_iff ancestors).2 mem⟩
  · intro g headers input rule
    cases rule.1.1

/-- As long as ids last, the nodes of a graph are sound. -/
theorem sound_after {language : Language} {history : List Operation}
    (last : (new language).Along (fun g operation => operation.IdsLast g) history) :
    ((new language).after history).nodes.Sound where
  indexed := indexed_after language history
  trim := trim_after language history
  wellFormed := wellFormed_nodes_after language history
  backed id _ p found parent :=
    NodeTable.mem_held_nesting.1 (backed_after last id p ((nesting_parent found).trans parent))

/-- If all chains of parents end, saving writes a record of every node, each once. -/
theorem exists_writeNodes (sound : g.nodes.Sound) (rooted : g.Rooted) :
    ∃ nodes : List Node, nodes.Perm g.nodeList ∧ ∀ before,
      GraphFile.writeNodes g (.holding before) =
        .holding (before ++ nodes.flatMap Node.record) := by
  refine ⟨GraphFile.savedNodes g, ?_, GraphFile.writeNodes_holding g⟩
  have once := (GraphFile.nodup_savedNodes sound.indexed).of_map
  have apart : g.nodeList.Nodup := sound.indexed.nodup_ids.of_map
  rw [List.perm_ext_iff_of_nodup once apart]
  exact fun n => (GraphFile.mem_savedNodes sound rooted n).trans (sound.indexed.mem_toList_iff n).symm

/-- As long as ids last, no file is loaded and no operation closes a cycle, every chain of parents
ends within the size of the graph. So more steps do not change the path of an entry or what showing a
node does, showing succeeds, and saving writes every node. An operation that closes a cycle leaves a
chain without end. -/
theorem chains_end_after (language : Language) (history : List Operation)
    (noLoad : ∀ operation ∈ history, operation.isLoad = false)
    (last : (new language).Along (fun g operation => operation.IdsLast g) history)
    (acyclic : (new language).Along (fun g operation => ¬ operation.ClosesCycle g) history) :
    let g := (new language).after history
    (∀ id n, g.find? id = some n →
      g.reachesRoot g.size id = true ∧
      (∀ more, g.entryNames (g.size + 1 + more) (some n) = g.entryNames (g.size + 1) (some n)) ∧
      (∀ f more, Filter.showAncestors g.nodes (g.size + 1 + more) n.parentId? f =
        Filter.showAncestors g.nodes (g.size + 1) n.parentId? f) ∧
      (g.reveal id).1 = .ok ()) ∧
    (∃ nodes : List Node, nodes.Perm g.nodeList ∧ ∀ before,
      GraphFile.writeNodes g (.holding before) =
        .holding (before ++ nodes.flatMap Node.record)) ∧
    ∀ operation : Operation, operation.ClosesCycle g → ¬ (operation.perform g).2.Rooted := by
  intro g
  have forest : g.nesting.Forest := forest_after noLoad last acyclic
  have sound : g.nodes.Sound := sound_after last
  -- every node has a chain of ancestors, which is shorter than the table
  have chains : ∀ id n, g.find? id = some n → ∃ above, g.Climbs n above ∧ above.length < g.size := by
    intro id n found
    obtain ⟨above, ancestors⟩ := forest.grounded id
    have there := Nesting.has_of_ancestor forest.backed forest.closed ancestors
    obtain ⟨chain, climbs, length⟩ := climbs_of_ancestors ancestors there found
    have here : g.nesting.has id = true := Option.isSome_iff_exists.2 ⟨n, found⟩
    have short := NodeTable.length_ancestors_lt ancestors (List.forall_mem_cons.2 ⟨here, there⟩)
    exact ⟨chain, climbs, length ▸ short⟩
  have rooted : g.Rooted := by
    intro id n found
    obtain ⟨above, climbs, short⟩ := chains id n found
    exact ⟨g.size, climbs.reachesRoot found short⟩
  refine ⟨fun id n found => ?_, exists_writeNodes sound rooted, fun _ => not_rooted_perform forest⟩
  obtain ⟨above, climbs, short⟩ := chains id n found
  refine ⟨climbs.reachesRoot found short, fun more => ?_, fun f more => ?_, ?_⟩
  · exact (climbs.entryNames (by omega)).trans (climbs.entryNames (by omega)).symm
  · have fewer : above.length ≤ g.size + 1 := by omega
    have more : above.length ≤ g.size + 1 + more := by omega
    exact (climbs.showAncestors more f).1.trans (climbs.showAncestors fewer f).1.symm
  · have there : g.nodes.find? id = some n := found
    unfold reveal
    rw [Filter.reveal_of_find? there]
    exact (climbs.showAncestors (Nat.le_succ_of_le (Nat.le_of_lt short)) _).2

/-- A history that makes a file in a folder, nests packages three deep and moves the innermost one up
to the root. -/
def nestingHistory : List Operation :=
  [.createFile "a\\b", .createNode .package, .createNode .package,
    .addEdge .scopeHasMember rootId (madeId 2), .addEdge .scopeHasMember (madeId 2) (madeId 3),
    .addEdge .scopeHasMember rootId (madeId 3)]

/-- The file and the package that was moved have chains of parents that end, and all nodes are
saved. -/
theorem chains_end_after_nesting :
    let g := (new .java).after nestingHistory
    (new .java).Along (fun g operation => ¬ operation.ClosesCycle g) nestingHistory ∧
      (∃ n, g.find? (madeId 1) = some n ∧ n.kind = .file ∧ n.parentId? = some (madeId 0) ∧
        ∀ more, g.entryNames (g.size + 1 + more) (some n) = g.entryNames (g.size + 1) (some n)) ∧
      (∃ n, g.find? (madeId 3) = some n ∧ n.parentId? = some rootId ∧
        g.reachesRoot g.size (madeId 3) = true) ∧
      ∃ nodes : List Node, nodes.Perm g.nodeList ∧ ∀ before,
        GraphFile.writeNodes g (.holding before) =
          .holding (before ++ nodes.flatMap Node.record) := by
  intro g
  have facts : (new .java).Along (fun g operation => operation.IdsLast g) nestingHistory ∧
      (g.find? (madeId 1)).map (fun n => (n.kind, n.parentId?)) = some (.file, some (madeId 0)) ∧
      (g.find? (madeId 3)).map Node.parentId? = some (some rootId) := by decide +kernel
  obtain ⟨last, file, package⟩ := facts
  have acyclic : (new .java).Along (fun g operation => ¬ operation.ClosesCycle g) nestingHistory := by
    refine ⟨not_false, not_false, not_false, ?_, ?_, ?_, trivial⟩
    · rintro ⟨-, -, above⟩
      exact absurd (above.mem [rootId] (by decide +kernel) List.mem_cons_self) (by decide)
    · rintro ⟨-, -, above⟩
      exact absurd (above.mem [madeId 2, rootId] (by decide +kernel) List.mem_cons_self) (by decide)
    · rintro ⟨-, -, above⟩
      exact absurd (above.mem [rootId] (by decide +kernel) List.mem_cons_self) (by decide)
  obtain ⟨nodes, saved, -⟩ := chains_end_after .java nestingHistory (by decide) last acyclic
  obtain ⟨n, found, is⟩ := Option.map_eq_some_iff.1 file
  obtain ⟨m, there, parent⟩ := Option.map_eq_some_iff.1 package
  have kind : n.kind = .file := congrArg Prod.fst is
  have folder : n.parentId? = some (madeId 0) := congrArg Prod.snd is
  exact ⟨acyclic, ⟨n, found, kind, folder, (nodes (madeId 1) n found).2.1⟩,
    ⟨m, there, parent, (nodes (madeId 3) m there).1⟩, saved⟩

/-- A history that puts a package below itself. -/
def selfContainingHistory : List Operation :=
  [.createNode .package, .addEdge .scopeHasMember (madeId 0) (madeId 0)]

/-- However many steps are taken, the chain of parents of the package does not end, and no record of
it is saved. -/
theorem chain_never_ends :
    let g := (new .java).after selfContainingHistory
    (∀ operation ∈ selfContainingHistory, operation.isLoad = false) ∧
      (∃ n, g.find? (madeId 0) = some n ∧ n ∉ GraphFile.savedNodes g) ∧
      ∀ steps, g.reachesRoot steps (madeId 0) = false := by
  intro g
  have facts : (g.find? (madeId 0)).map Node.parent =
        some (some ⟨madeId 0, .scopeHasMember⟩) ∧
      madeId 0 ∉ (GraphFile.savedNodes g).map Node.id := by decide +kernel
  obtain ⟨loop, lost⟩ := facts
  obtain ⟨n, found, parent⟩ := Option.map_eq_some_iff.1 loop
  have own : n.id = madeId 0 := (indexed_after .java selfContainingHistory).id_eq found
  refine ⟨by decide, ⟨n, found, fun mem => lost (List.mem_map.2 ⟨n, mem, own⟩)⟩, fun steps => ?_⟩
  -- each step leads back to the package
  induction steps with
  | zero => rfl
  | succ steps ih =>
    unfold reachesRoot
    simp only [found, parent]
    exact ih

end Graph

end CodeGraph
