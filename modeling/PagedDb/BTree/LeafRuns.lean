import PagedDb.BTree.LeafOps

/-!
# Insertions and deletions on a leaf page

The used slots of a leaf page may be any of its slots. An insertion adds its
tuple behind the last one whose key is not greater, a deletion takes its tuple
out and leaves all other slots alone, so every sequence of the two keeps the
page in order.
-/

namespace PagedDb

namespace BTreeLeafPage

variable {p q : BTreeLeafPage} {t u : Tuple} {i slot : ℕ}

/-- On a page without tuples there is nothing to compare with. -/
theorem lessOrEqPos_empty (hrows : p.rows = []) (key : Field) (before : Row → Bool) :
    p.lessOrEqPos key p.numSlots 0 0 = .ok (Slots.scanPos p.row? before p.numSlots 0 0) := by
  have hnone : ∀ i, p.row? i = none := by
    intro i
    by_contra hsome
    obtain ⟨row, hrow⟩ := Option.ne_none_iff_exists'.mp hsome
    have hi : i < p.numSlots := by
      by_contra hge
      rw [p.row?_of_le (by omega)] at hrow
      cases hrow
    have hmem : row ∈ p.rows := Slots.mem_segment.mpr ⟨i, Nat.zero_le i, hi, hrow⟩
    rw [hrows] at hmem
    cases hmem
  have hscan : ∀ n i pos, p.lessOrEqPos key n i pos =
      .ok (Slots.scanPos p.row? before n i pos) := by
    intro n
    induction n with
    | zero =>
      intro i pos
      rfl
    | succ n ih =>
      intro i pos
      have ht : p.tuple? i = none := by
        have := hnone i
        rwa [p.row?_eq_map, Option.map_eq_none_iff] at this
      rw [lessOrEqPos, Slots.scanPos, hnone i, ht]
      exact ih (i + 1) pos
  exact hscan p.numSlots 0 0

theorem tuple?_of_insert (hframe : SameFrame q p) (htd : t.td = p.td)
    (hrow : q.row? slot = some t.fields) :
    q.tuple? slot = some (t.setRecordId (some ⟨.btree p.pid, slot⟩)) := by
  rw [q.row?_eq_map] at hrow
  obtain ⟨u, hu, hfields⟩ := Option.map_eq_some_iff.mp hrow
  obtain ⟨hutd, hrid⟩ := q.of_tuple? hu
  rw [hu]
  congr 1
  apply Tuple.ext
  · rw [hutd, hframe.td, ← htd]
    rfl
  · exact hfields
  · rw [hrid, hframe.pid]
    rfl

theorem getNumTuples_eq (p : BTreeLeafPage) : p.getNumTuples = p.rows.length := by
  have := p.rows_length_add_empty
  rw [getNumTuples]
  omega

/-- Where an insertion puts its row. -/
theorem insertTuple_between (hsorted : KeyOrdered p.keyField p.rows) (htd : t.td = p.td)
    (hroom : 0 < p.getNumEmptySlots)
    (hkey : p.IntKeyed ∨ p.rows = [] ∧ (p.td.getFieldType p.keyField).isSome) :
    ∃ q slot pre post, p.insertTuple t = .ok (q, t.setRecordId (some ⟨.btree p.pid, slot⟩)) ∧
      SameFrame q p ∧ q.row? slot = some t.fields ∧ p.rows = pre ++ post ∧
      q.rows = pre ++ t.fields :: post ∧
      (∀ row ∈ pre, intKey p.keyField row ≤ intKey p.keyField t.fields) ∧
      ∀ row ∈ post, intKey p.keyField t.fields < intKey p.keyField row := by
  rcases hkey with hint | ⟨hrows, hfield⟩
  · obtain ⟨q, slot, hrun, hframe, hq, hslot⟩ := insertTuple_spec htd hint hroom
    rw [insertRow_eq] at hq
    refine ⟨q, slot, _, _, hrun, hframe, hslot, List.takeWhile_append_dropWhile.symm, hq, ?_, ?_⟩
    · intro row hrow
      exact of_decide_eq_true (List.all_eq_true.mp List.all_takeWhile row hrow)
    · intro row hrow
      -- the first row that is not taken has a greater key, and the others come behind it
      have hdrop := hsorted.sublist (List.dropWhile_sublist
        fun r => decide (intKey p.keyField r ≤ intKey p.keyField t.fields))
      cases hcase : p.rows.dropWhile
        fun r => decide (intKey p.keyField r ≤ intKey p.keyField t.fields) with
      | nil =>
        rw [hcase] at hrow
        cases hrow
      | cons r rest =>
        have hhead : intKey p.keyField t.fields < intKey p.keyField r := by
          have := List.head_dropWhile_not
            (fun r => decide (intKey p.keyField r ≤ intKey p.keyField t.fields))
            (show p.rows.dropWhile _ ≠ [] by simp [hcase])
          simpa [hcase] using this
        rw [hcase] at hrow hdrop
        rcases List.mem_cons.mp hrow with rfl | hrest
        · exact hhead
        · exact hhead.trans_le ((List.pairwise_cons.mp hdrop).1 row hrest)
  · obtain ⟨key, hget⟩ : ∃ key, t.getField p.keyField = .ok key := by
      obtain ⟨type, htype⟩ := Option.isSome_iff_exists.mp hfield
      have hmap : (t.fields.map Field.getType)[p.keyField]? = some type := by
        rw [t.typed, htd]
        exact htype
      obtain ⟨f, hf, -⟩ := (List.getElem?_map ..).symm.trans hmap |> Option.map_eq_some_iff.mp
      exact ⟨f, by rw [Tuple.getField, hf]⟩
    obtain ⟨q, slot, hrun, hframe, hq, hslot⟩ :=
      insertTuple_scan htd hroom hget (lessOrEqPos_empty hrows key fun _ => true)
    rw [hrows] at hq
    exact ⟨q, slot, [], [], hrun, hframe, hslot, hrows, hq, by simp, by simp⟩

/-- A deletion empties one slot. -/
theorem deleteTuple_stored (ht : p.tuple? i = some t) :
    ∃ q, p.deleteTuple t = .ok (q, t.setRecordId none) ∧ SameFrame q p ∧
      q.tuple? = Function.update p.tuple? i none ∧ ∃ pre post,
        p.storedTuples = pre ++ t :: post ∧ q.storedTuples = pre ++ post := by
  have hi : i < p.numSlots := by
    by_contra hge
    have hrow := p.row?_of_le (i := i) (by omega)
    rw [p.row?_eq_map, ht] at hrow
    cases hrow
  have hrow : p.row? i = some t.fields := by rw [p.row?_eq_map, ht, Option.map_some]
  obtain ⟨q, hrun, hframe, hview, -⟩ := deleteTuple_spec (p.of_tuple? ht).2 hrow hi
  have htuple : q.tuple? = Function.update p.tuple? i none := by
    funext j
    by_cases hij : j = i
    · subst hij
      have hj := congrFun hview j
      rw [Function.update_self, q.row?_eq_map, Option.map_eq_none_iff] at hj
      rw [hj, Function.update_self]
    · have hj := congrFun hview j
      rw [Function.update_of_ne hij] at hj
      rw [Function.update_of_ne hij]
      rw [q.row?_eq_map, p.row?_eq_map] at hj
      cases hp : p.tuple? j with
      | none => simpa [hp] using hj
      | some u =>
        rw [hp] at hj
        obtain ⟨v, hv, hfields⟩ := Option.map_eq_some_iff.mp hj
        obtain ⟨htd, hrid⟩ := p.of_tuple? hp
        obtain ⟨htd', hrid'⟩ := q.of_tuple? hv
        rw [hv]
        congr 1
        exact Tuple.ext (by rw [htd', htd, hframe.td]) hfields (by rw [hrid', hrid, hframe.pid])
  refine ⟨q, hrun, hframe, htuple, Slots.segment p.tuple? 0 i,
    Slots.segment p.tuple? (i + 1) p.numSlots, Slots.segment_at hi ht, ?_⟩
  rw [TuplePage.storedTuples, htuple, hframe.numSlots, Slots.segment_update_none hi]

/-- What a caller does with a leaf page. -/
inductive Call
  | insert (t : Tuple)
  | delete (t : Tuple)

def Call.run (p : BTreeLeafPage) : Call → Except Fault BTreeLeafPage
  | .insert t => do
    let (q, _) ← p.insertTuple t
    pure q
  | .delete t => do
    let (q, _) ← p.deleteTuple t
    pure q

def runCalls (p : BTreeLeafPage) : List Call → Except Fault BTreeLeafPage
  | [] => .ok p
  | call :: calls => do
    let q ← call.run p
    q.runCalls calls

theorem insertTuple_ordered (hint : p.IntKeyed) (hsorted : KeyOrdered p.keyField p.rows)
    (h : p.insertTuple t = .ok (q, u)) : SameFrame q p ∧ KeyOrdered q.keyField q.rows := by
  have htd : t.td = p.td := by
    by_contra hne
    rw [insertTuple, dif_neg hne] at h
    cases h
  have hroom : 0 < p.getNumEmptySlots := by
    by_contra hfull
    have hused : ∀ i < p.numSlots, p.isSlotUsed i = true := by
      intro i hi
      by_contra hfree
      exact hfull (TuplePage.getNumEmptySlots_pos.mpr ⟨i, hi, by simpa using hfree⟩)
    have hsearch : Slots.search (fun i => !p.isSlotUsed i) p.numSlots 0 = p.numSlots := by
      have hle := Slots.search_le (fun i => !p.isSlotUsed i) p.numSlots 0
      by_contra hne
      have hstop : (!p.isSlotUsed (Slots.search (fun i => !p.isSlotUsed i) p.numSlots 0)) = true :=
        @Slots.search_stop (fun i => !p.isSlotUsed i) p.numSlots 0 (by omega)
      rw [hused _ (by omega)] at hstop
      cases hstop
    rw [insertTuple, dif_pos htd] at h
    simp [hsearch, assertThat, bind, Except.bind] at h
  obtain ⟨q', slot, hrun, hframe, hrows, -⟩ := insertTuple_spec htd hint hroom
  rw [h] at hrun
  cases hrun
  rw [hframe.keyField, hrows]
  exact ⟨hframe, hsorted.insertRow t.fields⟩

theorem deleteTuple_ordered (hsorted : KeyOrdered p.keyField p.rows)
    (h : p.deleteTuple t = .ok (q, u)) : SameFrame q p ∧ KeyOrdered q.keyField q.rows := by
  unfold deleteTuple at h
  split at h
  · cases h
  · rename_i rid hrid
    split at h
    · cases h
      refine ⟨free_frame p rid.tupleno, hsorted.sublist ?_⟩
      change (Slots.segment (p.free rid.tupleno).row? 0 p.numSlots).Sublist p.rows
      rcases Nat.lt_or_ge rid.tupleno p.numSlots with hlt | hge
      · rw [TuplePage.free_row? _ hlt, Slots.segment_update_none hlt]
        cases hrow : p.row? rid.tupleno with
        | none =>
          rw [TuplePage.rows, ← Slots.segment_update_none hlt, ← hrow, Function.update_eq_self]
        | some row =>
          rw [TuplePage.rows, Slots.segment_at hlt hrow]
          exact (List.sublist_cons_self ..).append_left _
      · -- behind the slots only the padding of the bitmap changes
        rw [TuplePage.rows, Slots.segment_congr fun j _ hj => ?_]
        rw [TuplePage.row?, TuplePage.row?]
        have hbit : (p.free rid.tupleno).isSlotUsed j = p.isSlotUsed j :=
          Bitmap.get_set_ne (by omega)
        rw [hbit]
        rfl
    · cases h

theorem Call.run_ordered {call : Call} (hint : p.IntKeyed) (hsorted : KeyOrdered p.keyField p.rows)
    (h : call.run p = .ok q) : SameFrame q p ∧ KeyOrdered q.keyField q.rows := by
  cases call with
  | insert t =>
    obtain ⟨⟨q', u⟩, hrun, hq⟩ := Exec.of_except_bind h
    cases hq
    exact insertTuple_ordered hint hsorted hrun
  | delete t =>
    obtain ⟨⟨q', u⟩, hrun, hq⟩ := Exec.of_except_bind h
    cases hq
    exact deleteTuple_ordered hsorted hrun

theorem runCalls_ordered {calls : List Call} (hint : p.IntKeyed)
    (hsorted : KeyOrdered p.keyField p.rows) (h : p.runCalls calls = .ok q) :
    SameFrame q p ∧ KeyOrdered q.keyField q.rows := by
  induction calls generalizing p with
  | nil =>
    cases h
    exact ⟨⟨rfl, rfl, rfl, rfl, rfl, rfl, rfl⟩, hsorted⟩
  | cons call calls ih =>
    obtain ⟨p', hstep, hrest⟩ := Exec.of_except_bind h
    obtain ⟨hframe, hsorted'⟩ := call.run_ordered hint hsorted hstep
    have hint' : p'.IntKeyed := by
      rw [IntKeyed, hframe.td, hframe.keyField]
      exact hint
    obtain ⟨hframe', hdone⟩ := ih hint' hsorted' hrest
    exact ⟨hframe'.trans hframe, hdone⟩

/-- Insertion and deletion on a sorted page with any slots used. A page whose keys are strings
takes a tuple only while it has none, since strings can not be compared. -/
theorem keeps_order (hsorted : KeyOrdered p.keyField p.rows) :
    (∀ t, t.td = p.td → 0 < p.getNumEmptySlots →
      (p.IntKeyed ∨ p.rows = [] ∧ (p.td.getFieldType p.keyField).isSome) →
      ∃ q slot pre post, p.insertTuple t = .ok (q, t.setRecordId (some ⟨.btree p.pid, slot⟩)) ∧
        SameFrame q p ∧ p.rows = pre ++ post ∧ q.rows = pre ++ t.fields :: post ∧
        (∀ row ∈ pre, intKey p.keyField row ≤ intKey p.keyField t.fields) ∧
        (∀ row ∈ post, intKey p.keyField t.fields < intKey p.keyField row) ∧
        q.getNumTuples = p.getNumTuples + 1 ∧
        q.tuple? slot = some (t.setRecordId (some ⟨.btree p.pid, slot⟩)) ∧
        ∀ i u, q.tuple? i = some u → u.rid = some ⟨.btree p.pid, i⟩) ∧
    (∀ i t, p.tuple? i = some t → ∃ q, p.deleteTuple t = .ok (q, t.setRecordId none) ∧
      SameFrame q p ∧ q.tuple? = Function.update p.tuple? i none ∧ ∃ pre post,
        p.storedTuples = pre ++ t :: post ∧ q.storedTuples = pre ++ post) ∧
    (p.IntKeyed → ∀ calls q, p.runCalls calls = .ok q →
      SameFrame q p ∧ KeyOrdered q.keyField q.rows) := by
  refine ⟨?_, fun i t ht => deleteTuple_stored ht,
    fun hint calls q hrun => runCalls_ordered hint hsorted hrun⟩
  intro t htd hroom hkey
  obtain ⟨q, slot, pre, post, hrun, hframe, hslot, hp, hq, hpre, hpost⟩ :=
    insertTuple_between hsorted htd hroom hkey
  refine ⟨q, slot, pre, post, hrun, hframe, hp, hq, hpre, hpost, ?_,
    tuple?_of_insert hframe htd hslot, ?_⟩
  · rw [getNumTuples_eq, getNumTuples_eq, hp, hq, List.length_append, List.length_append,
      List.length_cons]
    omega
  · intro i u hu
    rw [(q.of_tuple? hu).2, hframe.pid]

section Example

def letter (c : UInt8) : Field := .string ⟨1, c :: List.replicate (stringLen - 1) 0⟩

/-- A page for two strings that has one. -/
def oneString : BTreeLeafPage :=
  let td : TupleDesc := ⟨[⟨.stringType, ""⟩]⟩
  let t : Tuple := ⟨td, [letter 97], some ⟨.btree ⟨7, 1, .leaf⟩, 0⟩, rfl⟩
  { pid := ⟨7, 1, .leaf⟩
    td
    header := [1]
    tuples := [t, .empty]
    numSlots := 2
    header_bits := two_in_byte
    tuples_length := rfl
    stored := by
      intro i u hu hbit
      match i with
      | 0 =>
        cases hu
        exact ⟨rfl, rfl⟩
      | 1 => exact absurd hbit (by decide)
      | i + 2 => cases hu
    keyField := 0
    parent := 0
    leftSibling := 0
    rightSibling := 0 }

/-- A second string can not be compared with the first one. -/
theorem string_not_inserted : ¬ ∀ (p : BTreeLeafPage) (t : Tuple),
    (∀ le : Row → Row → Prop, p.rows.Pairwise le) → t.td = p.td → 0 < p.getNumEmptySlots →
    ∃ q u, p.insertTuple t = .ok (q, u) := by
  intro hclaim
  obtain ⟨q, u, hrun⟩ := hclaim oneString ⟨oneString.td, [letter 98], none, rfl⟩
    (fun le => List.pairwise_singleton le [letter 97]) rfl (by decide)
  have herror : oneString.insertTuple ⟨oneString.td, [letter 98], none, rfl⟩ =
      .error (.runtimeError "Not implemented") := by decide +kernel
  rw [herror] at hrun
  cases hrun

/-- A page with the integers 1 and 3 around an empty slot. -/
def oneAndThree : BTreeLeafPage :=
  let tuple (k : Int32) (i : ℕ) : Tuple :=
    ⟨.ofInts 1, [.int k], some ⟨.btree ⟨7, 1, .leaf⟩, i⟩, typed_int k⟩
  { pid := ⟨7, 1, .leaf⟩
    td := .ofInts 1
    header := [5]
    tuples := [tuple 1 0, .empty, tuple 3 2]
    numSlots := 3
    header_bits := by decide
    tuples_length := rfl
    stored := by
      intro i u hu hbit
      match i with
      | 0 =>
        cases hu
        exact ⟨rfl, rfl⟩
      | 1 => exact absurd hbit (by decide)
      | 2 =>
        cases hu
        exact ⟨rfl, rfl⟩
      | i + 3 => cases hu
    keyField := 0
    parent := 0
    leftSibling := 0
    rightSibling := 0 }

/-- Another 1 goes into the empty slot. -/
theorem oneAndThree_insert : ∃ q slot pre post,
    oneAndThree.insertTuple ⟨.ofInts 1, [.int 1], none, rfl⟩ =
      .ok (q, ⟨.ofInts 1, [.int 1], some ⟨.btree ⟨7, 1, .leaf⟩, slot⟩, rfl⟩) ∧
      pre ++ post = [[.int 1], [.int 3]] ∧ q.rows = pre ++ [.int 1] :: post ∧
      q.getNumTuples = 3 := by
  have hsorted : KeyOrdered oneAndThree.keyField oneAndThree.rows := by
    rw [show oneAndThree.rows = [[.int 1], [.int 3]] by decide, KeyOrdered, List.pairwise_pair]
    decide
  obtain ⟨q, slot, pre, post, hrun, -, hp, hq, -, -, hnum, -⟩ :=
    (@keeps_order oneAndThree hsorted).1 ⟨.ofInts 1, [.int 1], none, rfl⟩ rfl (by decide) (.inl rfl)
  exact ⟨q, slot, pre, post, hrun, hp.symm, hq, hnum⟩

end Example

end BTreeLeafPage

end PagedDb
