import CodeGraph.Proofs.FilterStates
import CodeGraph.Proofs.Verdicts

/-!
# Stored filters

Position zero belongs to no node. Whatever is done to a filter, that position is not filtered, and
so nothing is lost when a stored filter is read: its reader takes the state of that position for
granted. Main statements: `read_eq_ok_iff`, which bytes are read as a filter; `stored_save`, a filter is
read back for a graph of its own size, `stored_save_of_ne`, and for no other; and `size_of_stored`.
-/

set_option autoImplicit false

namespace CodeGraph

namespace Filter

variable {f : Filter}

/-- The position that belongs to no node is not filtered. -/
def Clean (f : Filter) : Prop :=
  f.states[0]? ≠ some .filtered

/-! ## What keeps a filter clean -/

/-- The empty filter is clean. -/
theorem clean_empty : empty.Clean := by
  simp [Clean, empty]

/-- Setting the state of an id keeps a filter clean, as no id has the position zero. -/
theorem Clean.set (clean : f.Clean) (id : NodeId) (state : FilterState) : (f.set id state).Clean := by
  have apart : 0 ≠ id.index := Nat.ne_of_lt id.index_pos
  unfold Clean Filter.set
  rw [IdTable.getElem?_set, if_neg apart]
  split
  · exact clean
  · split <;> simp [table]

/-- Setting the states of several ids keeps a filter clean. -/
theorem Clean.setAll (clean : f.Clean) (ids : List NodeId) (state : FilterState) :
    (f.setAll ids state).Clean :=
  List.foldlRecOn ids _ clean fun _ clean id _ => clean.set id state

/-- A filter gets the size that it is given. -/
@[simp] theorem size_resize (f : Filter) (n : Nat) : (f.resize n).size = n :=
  IdTable.size_resize f.table n

/-- Resizing keeps a filter clean. -/
theorem Clean.resize (clean : f.Clean) (n : Nat) : (f.resize n).Clean := by
  unfold Clean Filter.resize IdTable.resize IdTable.grow
  split
  · next shorter =>
    rw [Array.getElem?_extract]
    split
    · exact clean
    · simp
  · rw [Array.getElem?_append, Array.getElem?_replicate]
    split
    · exact clean
    · split <;> simp [table]

/-- A filter that was reset is clean. -/
theorem clean_reset (f : Filter) : f.reset.Clean := by
  unfold Clean reset IdTable.overwrite
  simp

/-! ## States -/

/-- The byte of a state restores it. -/
theorem readState_stateByte (state : FilterState) (rest : Bytes) :
    readState (stateByte state :: rest) = .ok (state, rest) := by
  cases state <;> rfl

/-- As many states as were written are read back. -/
theorem readStates_map (states : List FilterState) (rest : Bytes) :
    readStates states.length (states.map stateByte ++ rest) = .ok (states, rest) := by
  induction states with
  | nil => rfl
  | cons state states ih => simp [readStates, readState_stateByte, ih]

/-- A state is read only from its byte. -/
theorem readState_eq_ok {input rest : Bytes} {state : FilterState}
    (taken : readState input = .ok (state, rest)) : input = stateByte state :: rest := by
  cases input with
  | nil => cases taken
  | cons b input =>
    simp only [readState, Reader.bind_apply, Reader.byte_cons] at taken
    split at taken
    · next zero =>
      cases taken
      rw [zero]
      rfl
    · split at taken
      · next one =>
        cases taken
        rw [one]
        rfl
      · cases taken

/-- States that were read stand at the front of the bytes, one byte each. -/
theorem readStates_eq_ok {n : Nat} {input rest : Bytes} {states : List FilterState}
    (taken : readStates n input = .ok (states, rest)) :
    input = states.map stateByte ++ rest ∧ states.length = n := by
  induction n generalizing input states with
  | zero =>
    cases taken
    exact ⟨rfl, rfl⟩
  | succ n ih =>
    simp only [readStates, Reader.bind_apply] at taken
    split at taken
    · next state left first =>
      split at taken
      · next others left result =>
        cases taken
        obtain ⟨rfl, length⟩ := ih result
        exact ⟨readState_eq_ok first, congrArg Nat.succ length⟩
      · cases taken
    · cases taken

/-- A filter that is made of states has as many of them. -/
theorem size_ofStates (states : List FilterState) : (ofStates states).size = states.length := by
  cases states <;> rfl

/-- A filter that is made of states has none filtered at the position zero. -/
theorem clean_ofStates (states : List FilterState) : (ofStates states).Clean := by
  cases states with
  | nil => exact clean_empty
  | cons first states => simp [Clean, ofStates]

/-- Nothing is lost of a clean filter when the state of position zero is taken for granted. -/
theorem ofStates_states (clean : f.Clean) : ofStates f.states.toList = f := by
  obtain ⟨⟨states⟩⟩ := f
  cases states with
  | nil => rfl
  | cons first states =>
    cases first with
    | notFiltered => rfl
    | filtered => exact absurd rfl clean

/-! ## Filters -/

/-- A filter is read exactly from the magic, its size, if that is what was asked for, and as many
states. -/
theorem read_eq_ok_iff {n : Nat} {input rest : Bytes} :
    read n input = .ok (f, rest) ↔ ∃ states, f = ofStates states ∧ states.length = n ∧
      n < UInt32.size ∧ input = magic ++ (wordBytes 4 n ++ (states.map stateByte ++ rest)) := by
  constructor
  · intro taken
    simp only [read, Reader.bind_apply] at taken
    split at taken
    · next start left first =>
      obtain ⟨rfl, -⟩ := Reader.bytes_eq_ok first
      split at taken
      · cases taken
      · next known =>
        obtain rfl : start = magic := not_not.1 known
        simp only [Reader.bind_apply] at taken
        split at taken
        · next size left sized =>
          obtain ⟨rfl, small⟩ := Reader.word_eq_ok sized
          split at taken
          · cases taken
          · next same =>
            obtain rfl : size = n := not_not.1 same
            simp only [Reader.map_apply] at taken
            split at taken
            · next states left result =>
              cases taken
              obtain ⟨rfl, length⟩ := readStates_eq_ok result
              exact ⟨states, rfl, length, small, rfl⟩
            · cases taken
        · cases taken
    · cases taken
  · rintro ⟨states, rfl, rfl, small, rfl⟩
    have kept : states.length % wordRange 4 = states.length := Nat.mod_eq_of_lt small
    unfold read
    simp only [Reader.bind_apply, Reader.bytes_append, ne_eq, not_true_eq_false, if_false,
      Reader.word_wordBytes, kept, Reader.map_apply, readStates_map]

/-- A clean filter that is stored for its own size is read back. -/
theorem stored_save (clean : f.Clean) (small : f.size < UInt32.size) :
    stored f.size f.save = .ok f := by
  have whole : f.save =
      magic ++ (wordBytes 4 f.size ++ (f.states.toList.map stateByte ++ [])) := by
    rw [List.append_nil, ← List.append_assoc]
    rfl
  have taken : read f.size f.save = .ok (f, []) :=
    read_eq_ok_iff.2 ⟨f.states.toList, (ofStates_states clean).symm, rfl, small, whole⟩
  unfold stored
  rw [taken]
  rfl

/-- The size is read first, and refused if it is not that of the graph. -/
theorem stored_save_of_ne {n : Nat} (other : f.size % UInt32.size ≠ n) :
    stored n f.save = .error (.filterSizeMismatch (f.size % UInt32.size) n) := by
  have range : wordRange 4 = UInt32.size := rfl
  unfold stored read save
  simp only [Reader.bind_apply, List.append_assoc, Reader.bytes_append, ne_eq, not_true_eq_false,
    if_false, Reader.word_wordBytes, range]
  rw [if_pos other]
  rfl

/-- What is read is clean and covers what was asked for. -/
theorem size_of_read {n : Nat} {input rest : Bytes} (taken : read n input = .ok (f, rest)) :
    f.size = n ∧ f.Clean := by
  obtain ⟨states, rfl, length, -, -⟩ := read_eq_ok_iff.1 taken
  exact ⟨(size_ofStates states).trans length, clean_ofStates states⟩

/-- A filter that was stored for a size has that size and is clean. -/
theorem size_of_stored {n : Nat} {input : Bytes} (loaded : stored n input = .ok f) :
    f.size = n ∧ f.Clean := by
  unfold stored at loaded
  cases taken : read n input with
  | error cause =>
    rw [taken] at loaded
    cases loaded
  | ok result =>
    rw [taken] at loaded
    cases loaded
    exact size_of_read taken

end Filter

end CodeGraph
