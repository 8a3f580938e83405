import CodeGraph.Proofs.StoredHeaders
import Mathlib.Data.List.Perm.Subperm
import Mathlib.Data.Set.Card

/-!
# Overrides that are told one by one

Overrides come about by calls, each of which names a method and one that it overrides in the graph as
it is at that time. A call succeeds exactly if both are methods there, and then the overridden method
is listed last for the other one, whether it is listed before or not; a call that fails changes
nothing. So what is listed for a method are the calls for it that succeeded, in order. The bytes of
the overrides restore all lists, since there are fewer ids than a count of methods can tell. Main
statement: `Overrides.recorded_after`.
-/

set_option autoImplicit false

namespace CodeGraph

/-- There is a method at an id. -/
def Graph.HasMethod (g : Graph) (id : NodeId) : Prop :=
  ∃ n, g.find? id = some n ∧ n.is .method = true

namespace Overrides

variable {o : Overrides}

/-- A call that tells which method overrides which, in a graph. -/
structure Call where
  graph : Graph
  method : NodeId
  overridden : NodeId

/-- The answer to a call, and the overrides that it leaves. -/
def tell (o : Overrides) (call : Call) : Except Error Unit × Overrides :=
  o.tryAdd call.graph call.method call.overridden

/-- The overrides that several calls leave, failures included. -/
def after (o : Overrides) (calls : List Call) : Overrides :=
  calls.foldl (fun o call => (o.tell call).2) o

/-- Those of several calls that succeed when they are made one after the other. -/
def accepted (o : Overrides) : List Call → List Call
  | [] => []
  | call :: calls =>
    if (o.tell call).1.isOk then call :: (o.tell call).2.accepted calls
    else (o.tell call).2.accepted calls

/-! ## One call -/

/-- A node passes the check if it exists and is a method. -/
theorem checkMethod_eq_ok_iff (g : Graph) (id : NodeId) :
    checkMethod g id = .ok () ↔ g.HasMethod id := by
  unfold checkMethod Graph.HasMethod
  cases g.find? id with
  | none => simp
  | some n => simp

/-- A call succeeds if it names two methods, and then adds one entry. Otherwise it changes nothing. -/
theorem tell_cases (o : Overrides) (call : Call) :
    (call.graph.HasMethod call.method ∧ call.graph.HasMethod call.overridden) ∧
        o.tell call = (.ok (), o.insert call.method call.overridden) ∨
      ¬ (call.graph.HasMethod call.method ∧ call.graph.HasMethod call.overridden) ∧
        ∃ cause, o.tell call = (.error cause, o) := by
  rw [← checkMethod_eq_ok_iff, ← checkMethod_eq_ok_iff]
  unfold tell tryAdd
  cases first : checkMethod call.graph call.method with
  | error cause => exact Or.inr ⟨by simp, cause, rfl⟩
  | ok _ =>
    cases second : checkMethod call.graph call.overridden with
    | error cause => exact Or.inr ⟨by simp, cause, rfl⟩
    | ok _ => exact Or.inl ⟨⟨rfl, rfl⟩, rfl⟩

/-- A call succeeds just if both of its nodes are methods. -/
theorem tell_eq_ok_iff (o : Overrides) (call : Call) :
    (o.tell call).1 = .ok () ↔
      call.graph.HasMethod call.method ∧ call.graph.HasMethod call.overridden := by
  rcases o.tell_cases call with ⟨both, told⟩ | ⟨neither, cause, told⟩
  · simp [told, both]
  · simp [told, neither]

/-! ## Several calls -/

/-- What several calls add to a list are those for the method that succeed, in order. -/
theorem get_after (o : Overrides) (calls : List Call) (method : NodeId) :
    (o.after calls).get method = o.get method ++
      ((o.accepted calls).filter fun call => call.method = method).map Call.overridden := by
  induction calls generalizing o with
  | nil => exact (List.append_nil _).symm
  | cons call calls ih =>
    have next : o.after (call :: calls) = (o.tell call).2.after calls := rfl
    rw [next, ih, accepted]
    rcases o.tell_cases call with ⟨-, told⟩ | ⟨-, cause, told⟩
    · rw [told, get_insert, List.append_assoc]
      by_cases same : call.method = method <;> simp [same, Except.isOk, Except.toBool]
    · rw [told]
      rfl

/-- Calls leave the methods in order, each with something that it overrides. -/
theorem WellFormed.after (wf : o.WellFormed) (calls : List Call) : (o.after calls).WellFormed :=
  List.foldlRecOn calls _ wf fun _ wf call _ => wf.tryAdd call.graph call.method call.overridden

/-! ## How many methods are listed -/

/-- The size is the number of methods that override something. -/
theorem WellFormed.size_eq (wf : o.WellFormed) : o.size = {method | o.get method ≠ []}.ncard := by
  have listed : {method | o.get method ≠ []} = ↑(o.methods.entries.map Prod.fst).toFinset := by
    ext method
    rw [Set.mem_ofPred_eq, ← wf.mem_methods_iff, Finset.mem_coe, List.mem_toFinset]
  rw [listed, Set.ncard_coe_finset, List.toFinset_card_of_nodup wf.nodup_methods, List.length_map]
  rfl

/-- There are fewer methods than a word can count, as zero is no id. -/
theorem WellFormed.size_lt (wf : o.WellFormed) : o.size < 2 ^ 32 := by
  have numbers : ((o.methods.entries.map Prod.fst).map NodeId.index).Nodup :=
    wf.nodup_methods.map fun _ _ => NodeId.index_inj
  have inside : (o.methods.entries.map Prod.fst).map NodeId.index ⊆ List.range' 1 (2 ^ 32 - 1) := by
    intro number mem
    obtain ⟨id, -, rfl⟩ := List.mem_map.1 mem
    have positive := id.index_pos
    have small : id.index < 2 ^ 32 := id.raw.toNat_lt
    rw [List.mem_range'_1]
    omega
  have few := (List.subperm_of_subset numbers inside).length_le
  rw [List.length_map, List.length_map, List.length_range'] at few
  unfold size SortedMap.size
  omega

/-! ## What was told -/

/-- A call succeeds exactly if it names two methods of its graph. After any calls, failures included, the
list of a method has what the calls for it that succeeded told, in their order; its count is its length;
it is kept as nothing, a single method or a list according to whether it has no entry, one or more;
and the size is the number of methods that have a list. If every list can be counted in a word, the
bytes of the overrides, whatever follows them, are read in place of any others, give every method
its list again, and the same bytes when they are written again. -/
theorem recorded_after (calls : List Call) :
    let o := empty.after calls
    (∀ p call, (tell p call).1 = .ok () ↔
      call.graph.HasMethod call.method ∧ call.graph.HasMethod call.overridden) ∧
    (∀ method, o.get method =
      ((empty.accepted calls).filter fun call => call.method = method).map Call.overridden) ∧
    (∀ method, o.count method = (o.get method).length) ∧
    (∀ method, o.methods.find? method = Overridden.ofList? (o.get method)) ∧
    o.size = {method | o.get method ≠ []}.ncard ∧
    ((∀ method, o.count method < 2 ^ 32) → ∀ (old : Overrides) (rest : Bytes),
      ∃ back, old.load (o.encode ++ rest) = (back, .ok rest) ∧
        (∀ method, back.get method = o.get method) ∧ back.encode = o.encode) := by
  intro o
  have wf : o.WellFormed := wellFormed_empty.after calls
  refine ⟨tell_eq_ok_iff, get_after empty calls, o.count_eq, wf.find?_eq, wf.size_eq,
    fun counted old rest => ?_⟩
  exact ⟨o, load_encode wf wf.size_lt (fun entry _ => counted entry.1) old rest, fun _ => rfl, rfl⟩

/-- A graph with two methods, a generic method and a class. -/
def methodGraph : Graph :=
  (Graph.new .java).after
    [.createNode .method, .createNode .method, .createNode .methodGeneric, .createNode .plainClass]

/-- Calls of which the second and the fourth fail, as they name a class and a node that is not there. The
last one tells again what the first one told. -/
def methodCalls : List Call :=
  [⟨methodGraph, Graph.madeId 2, Graph.madeId 0⟩, ⟨methodGraph, Graph.madeId 2, Graph.madeId 3⟩,
    ⟨methodGraph, Graph.madeId 1, Graph.madeId 2⟩, ⟨methodGraph, Graph.madeId 9, Graph.madeId 0⟩,
    ⟨methodGraph, Graph.madeId 2, Graph.madeId 1⟩, ⟨methodGraph, Graph.madeId 2, Graph.madeId 0⟩]

/-- What those calls told is read in place of something else that was told before. -/
theorem recorded_after_calls :
    let o := empty.after methodCalls
    let old := empty.insert (Graph.madeId 0) (Graph.madeId 1)
    o.get (Graph.madeId 2) = [Graph.madeId 0, Graph.madeId 1, Graph.madeId 0] ∧
      o.get (Graph.madeId 9) = [] ∧ {method | o.get method ≠ []}.ncard = 2 ∧
      (∀ method, o.count method < 2 ^ 32) ∧
      ∃ back, old.load (o.encode ++ [1]) = (back, .ok [1]) ∧
        back.get (Graph.madeId 2) = [Graph.madeId 0, Graph.madeId 1, Graph.madeId 0] ∧
        back.get (Graph.madeId 0) = [] ∧ back.encode = o.encode := by
  intro o old
  have facts : o.get (Graph.madeId 2) = [Graph.madeId 0, Graph.madeId 1, Graph.madeId 0] ∧
      o.get (Graph.madeId 9) = [] ∧ o.get (Graph.madeId 0) = [] ∧ o.size = 2 ∧
      (empty.accepted methodCalls).length = 4 := by decide +kernel
  obtain ⟨listed, missing, untold, size, four⟩ := facts
  obtain ⟨-, told, -, -, methods, restored⟩ := recorded_after methodCalls
  have counted : ∀ method, o.count method < 2 ^ 32 := by
    intro method
    have fewer : o.count method ≤ 4 := by
      rw [count_eq, told method, List.length_map, ← four]
      exact List.length_filter_le _ _
    omega
  obtain ⟨back, loaded, same, again⟩ := restored counted old [1]
  exact ⟨listed, missing, methods.symm.trans size, counted, back, loaded, (same _).trans listed,
    (same _).trans untold, again⟩

end Overrides

end CodeGraph
