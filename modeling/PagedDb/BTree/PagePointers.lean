import PagedDb.BTree.SplitInternal
import PagedDb.BTree.SplitLeaf

/-!
# Where the pages of a tree point

Every id that a page of the tree stores leads to a page of the file. What the
operations of an insertion do to a page keeps that, whatever keys they compare,
and none of them fails in the way an access to a missing page does.
-/

namespace PagedDb

open Exec LogicalTree

section Failures

theorem assertThat_ne_stuck (c : Prop) [Decidable c] : assertThat c ≠ .error stuck := by
  unfold assertThat
  split <;> simp [stuck]

theorem Field.compare_ne_stuck (op : Op) (f g : Field) : f.compare op g ≠ .error stuck := by
  cases f <;> cases g <;> simp [Field.compare, stuck]

theorem Tuple.getField_ne_stuck (t : Tuple) (i : ℕ) : t.getField i ≠ .error stuck := by
  unfold Tuple.getField
  split <;> simp [stuck]

theorem BTreePage.setParentId_ne_stuck (tableId : Int32) (id : BTreePageId) :
    BTreePage.setParentId tableId id ≠ .error stuck := by
  unfold BTreePage.setParentId
  split_ifs <;> simp [stuck]

namespace BTreeInternalPage

variable {p : BTreeInternalPage} {i : ℕ}

theorem getKey_ne_stuck : p.getKey i ≠ .error stuck := by
  unfold getKey
  split <;> simp [stuck]

theorem getChildId_ne_stuck : p.getChildId i ≠ .error stuck := by
  unfold getChildId
  split <;> simp [stuck]

theorem assertKey_ne_stuck {op : Op} {key : Option Field} : p.assertKey i op key ≠ .error stuck := by
  unfold assertKey
  split
  · exact bind_ne_error (Field.compare_ne_stuck _ _ _) fun _ _ => assertThat_ne_stuck _
  · simp [stuck]

theorem matchChild_ne_stuck {key : Field} {left right : Int32} {n i pos : ℕ} :
    p.matchChild key left right n i pos ≠ .error stuck := by
  induction n generalizing p i pos with
  | zero => simp [matchChild]
  | succ n ih =>
    unfold matchChild
    split
    · split
      · refine bind_ne_error ?_ fun _ _ => ih
        unfold assertKeyBehind
        split
        · simp
        · exact assertKey_ne_stuck
      · split
        · exact bind_ne_error assertKey_ne_stuck fun _ _ => pure_ne_error _ _
        · exact ih
    · exact ih

theorem insertEntry_ne_stuck {e : BTreeEntry} : p.insertEntry e ≠ .error stuck := by
  unfold insertEntry
  split
  · simp [stuck]
  · split
    · simp [stuck]
    · split
      · refine bind_ne_error (assertThat_ne_stuck _) fun _ _ => bind_ne_error ?_ fun p₁ _ => ?_
        · unfold checkCategory
          split_ifs <;> simp [stuck]
        · unfold insertChecked
          split
          · simp [stuck]
          · split
            · simp
            · refine bind_ne_error (assertThat_ne_stuck _) fun _ _ =>
                bind_ne_error matchChild_ne_stuck fun _ _ =>
                  bind_ne_error (assertThat_ne_stuck _) fun _ _ => ?_
              exact pure_ne_error _ _
      · simp [stuck]

theorem setParentId_ne_stuck (id : BTreePageId) : p.setParentId id ≠ .error stuck :=
  bind_ne_error (BTreePage.setParentId_ne_stuck _ _) fun _ _ => pure_ne_error _ _

theorem rbegin_ne_stuck : p.rbegin ≠ .error stuck := by
  simp only [rbegin, BTreeInternalPageReverseIterator.new]
  split
  · exact bind_ne_error getChildId_ne_stuck fun _ _ => pure_ne_error _ _
  · exact bind_ne_error (pure_ne_error _ _) fun _ _ => pure_ne_error _ _

end BTreeInternalPage

theorem BTreeInternalPageReverseIterator.get_ne_stuck {it : BTreeInternalPageReverseIterator}
    {p : BTreeInternalPage} : it.get p ≠ .error stuck :=
  bind_ne_error BTreeInternalPage.getKey_ne_stuck fun _ _ => pure_ne_error _ _

namespace BTreeInternalPageIterator

variable {it : BTreeInternalPageIterator} {p : BTreeInternalPage}

theorem begin_ne_stuck : p.begin ≠ .error stuck := by
  unfold BTreeInternalPage.begin BTreeInternalPageIterator.new
  split
  · simp
  · refine bind_ne_error ?_ fun _ _ => bind_ne_error BTreeInternalPage.getChildId_ne_stuck
      fun _ _ => pure_ne_error _ _
    exact BTreeInternalPage.getChildId_ne_stuck

theorem next_ne_stuck : it.next p ≠ .error stuck := by
  simp only [next]
  split
  · exact bind_ne_error BTreeInternalPage.getChildId_ne_stuck fun _ _ => pure_ne_error _ _
  · simp

theorem get_ne_stuck : it.get p ≠ .error stuck :=
  bind_ne_error BTreeInternalPage.getKey_ne_stuck fun _ _ => pure_ne_error _ _

end BTreeInternalPageIterator

theorem BTreeFile.chooseChild_ne_stuck {p : BTreeInternalPage} {f : Option Field} :
    BTreeFile.chooseChild p f ≠ .error stuck := by
  have hfind : ∀ n it, BTreeFile.findChild p f n it ≠ .error stuck := by
    intro n
    induction n with
    | zero => simp [BTreeFile.findChild, stuck]
    | succ n ih =>
      intro it
      have hgo : ∀ (entry : BTreeEntry) (here : Bool), (if here then pure entry.leftChild
          else do
            let it ← it.next p
            if it.ne p.ending then BTreeFile.findChild p f n it else pure entry.rightChild :
              Except Fault (Option BTreePageId)) ≠ .error stuck := by
        intro entry here
        split
        · exact pure_ne_error _ _
        · refine bind_ne_error BTreeInternalPageIterator.next_ne_stuck fun it' _ => ?_
          split
          · exact ih it'
          · exact pure_ne_error _ _
      refine bind_ne_error BTreeInternalPageIterator.get_ne_stuck fun entry _ => ?_
      cases f with
      | none => exact hgo entry true
      | some f =>
        refine bind_ne_error ?_ fun here _ => hgo entry here
        unfold BTreeFile.compareKey
        split
        · simp [stuck]
        · exact Field.compare_ne_stuck _ _ _
  refine bind_ne_error BTreeInternalPageIterator.begin_ne_stuck fun it _ => ?_
  split
  · exact hfind _ it
  · simp [stuck, throw, throwThe, MonadExceptOf.throw]

namespace BTreeLeafPage

variable {p : BTreeLeafPage}

theorem lessOrEqPos_ne_stuck {key : Field} {n i pos : ℕ} :
    p.lessOrEqPos key n i pos ≠ .error stuck := by
  induction n generalizing i pos with
  | zero => simp [lessOrEqPos]
  | succ n ih =>
    unfold lessOrEqPos
    split
    · exact ih
    · refine bind_ne_error (Tuple.getField_ne_stuck _ _) fun f _ =>
        bind_ne_error (Field.compare_ne_stuck _ _ _) fun b _ => ?_
      split
      · exact ih
      · exact pure_ne_error _ _

theorem insertTuple_ne_stuck {t : Tuple} : p.insertTuple t ≠ .error stuck := by
  unfold insertTuple
  split
  · exact bind_ne_error (assertThat_ne_stuck _) fun _ _ =>
      bind_ne_error (Tuple.getField_ne_stuck _ _) fun _ _ =>
        bind_ne_error lessOrEqPos_ne_stuck fun _ _ => pure_ne_error _ _
  · simp [stuck]

theorem deleteTuple_ne_stuck {t : Tuple} : p.deleteTuple t ≠ .error stuck := by
  unfold deleteTuple
  split
  · simp [stuck]
  · split <;> simp [stuck]

theorem setParentId_ne_stuck (id : BTreePageId) : p.setParentId id ≠ .error stuck :=
  bind_ne_error (BTreePage.setParentId_ne_stuck _ _) fun _ _ => pure_ne_error _ _

end BTreeLeafPage

theorem BTreeLeafPageIterator.get_ne_stuck {it : BTreeLeafPageIterator} {p : BTreeLeafPage} :
    it.get p ≠ .error stuck := by
  unfold get BTreeLeafPage.getTuple
  split_ifs
  · simp [stuck]
  · split <;> simp_all [stuck]
  · simp [stuck]

end Failures

section Leaves

namespace BTreeLeafPage

variable {p q : BTreeLeafPage} {t u : Tuple}

/-- The position that `insertTuple` finds is the first or behind a used slot. -/
theorem of_lessOrEqPos {key : Field} {n i pos r : ℕ} (h : p.lessOrEqPos key n i pos = .ok r) :
    r = pos ∨ r ≤ i + n ∧ ∃ j x, r = j + 1 ∧ p.tuple? j = some x := by
  induction n generalizing i pos with
  | zero =>
    cases h
    exact .inl rfl
  | succ n ih =>
    unfold lessOrEqPos at h
    split at h
    · rcases ih h with rfl | ⟨hle, hbehind⟩
      · exact .inl rfl
      · exact .inr ⟨by omega, hbehind⟩
    · rename_i x hx
      obtain ⟨f, -, h⟩ := of_except_bind h
      obtain ⟨b, -, h⟩ := of_except_bind h
      split at h
      · rcases ih h with rfl | ⟨hle, hbehind⟩
        · exact .inr ⟨by omega, i, x, rfl, hx⟩
        · exact .inr ⟨by omega, hbehind⟩
      · cases h
        exact .inl rfl

/-- An insertion that returns has put a tuple of the schema on a page with room. -/
theorem of_insertTuple (h : p.insertTuple t = .ok (q, u)) :
    t.td = p.td ∧ 0 < p.getNumEmptySlots ∧ q.SameFrame p ∧
      ∃ i < p.numSlots, q.isSlotUsed i = true := by
  unfold insertTuple at h
  split at h
  · rename_i htd
    obtain ⟨_, hempty, h⟩ := of_except_bind h
    obtain ⟨key, -, h⟩ := of_except_bind h
    obtain ⟨pos, hpos, h⟩ := of_except_bind h
    have hend := Slots.search_le (fun i => !p.isSlotUsed i) p.numSlots 0
    have hne := of_assertThat hempty
    have hlt : Slots.search (fun i => !p.isSlotUsed i) p.numSlots 0 < p.numSlots := by omega
    have hfree : p.isSlotUsed (Slots.search (fun i => !p.isSlotUsed i) p.numSlots 0) = false := by
      have hstop := Slots.search_stop (lt_of_lt_of_eq hlt (Nat.zero_add _).symm)
      simpa only [Bool.not_eq_true'] using hstop
    have hslot : Slots.roomSlot (Slots.search (fun i => !p.isSlotUsed i) p.numSlots 0) pos <
        p.numSlots := by
      rcases of_lessOrEqPos hpos with rfl | ⟨hle, j, x, rfl, hx⟩
      · exact Slots.roomSlot_lt hlt (Nat.zero_le _) (by omega)
      · refine Slots.roomSlot_lt hlt (by omega) fun heq => ?_
        have hused := p.tuple?_isSome (show j < p.numSlots by omega)
        have hj : Slots.search (fun i => !p.isSlotUsed i) p.numSlots 0 = j :=
          Nat.add_right_cancel heq
        rw [hj] at hfree
        rw [hx, hfree] at hused
        exact absurd hused (by simp)
    have hframe := makeRoom_frame p (Slots.search (fun i => !p.isSlotUsed i) p.numSlots 0) pos
    cases h
    refine ⟨htd, TuplePage.getNumEmptySlots_pos.mpr ⟨_, hlt, hfree⟩,
      ⟨hframe.pid, hframe.td, hframe.numSlots, hframe.keyField, hframe.parent,
        hframe.leftSibling, hframe.rightSibling⟩, _, hslot, ?_⟩
    exact (TuplePage.put_isSlotUsed _ t (htd.trans (p.makeRoom_td _ pos).symm)
      (lt_of_lt_of_eq hslot hframe.numSlots.symm)).trans (if_pos rfl)
  · cases h

theorem of_deleteTuple (h : p.deleteTuple t = .ok (q, u)) : q.SameFrame p := by
  unfold deleteTuple at h
  split at h
  · cases h
  · split at h
    · cases h
      exact ⟨rfl, rfl, rfl, rfl, rfl, rfl, rfl⟩
    · cases h

/-- Strings are not compared, so a page with a tuple takes no other one. -/
theorem insertTuple_string (htype : p.td.getFieldType p.keyField = some .stringType)
    (hused : ∃ i < p.numSlots, p.isSlotUsed i = true) : p.insertTuple t ≠ .ok (q, u) := by
  have hscan : ∀ key n i pos r, (∃ j, i ≤ j ∧ j < i + n ∧ j < p.numSlots ∧ p.isSlotUsed j = true) →
      p.lessOrEqPos key n i pos ≠ .ok r := by
    intro key n
    induction n with
    | zero =>
      rintro i pos r ⟨j, h₁, h₂, -⟩
      omega
    | succ n ih =>
      rintro i pos r ⟨j, h₁, h₂, hj, hbit⟩ h
      unfold lessOrEqPos at h
      split at h
      · rename_i hnone
        refine ih (i + 1) pos r ⟨j, ?_, by omega, hj, hbit⟩ h
        rcases Nat.eq_or_lt_of_le h₁ with rfl | hlt
        · have hsome := p.tuple?_isSome hj
          rw [hnone, hbit] at hsome
          cases hsome
        · exact hlt
      · rename_i x hx
        obtain ⟨f, hf, h⟩ := of_except_bind h
        obtain ⟨b, hb, -⟩ := of_except_bind h
        have hft : f.getType = .stringType := by
          have hxt : (x.fields.map Field.getType)[p.keyField]? = some .stringType := by
            rw [x.typed, (p.of_tuple? hx).1]
            exact htype
          unfold Tuple.getField at hf
          split at hf
          · rename_i g hg
            cases hf
            simpa [hg] using hxt
          · cases hf
        cases f with
        | int v => cases hft
        | string v => cases hb
  intro h
  unfold insertTuple at h
  split at h
  · obtain ⟨_, -, h⟩ := of_except_bind h
    obtain ⟨key, -, h⟩ := of_except_bind h
    obtain ⟨pos, hpos, -⟩ := of_except_bind h
    obtain ⟨i, hi, hbit⟩ := hused
    exact hscan key p.numSlots 0 0 pos ⟨i, Nat.zero_le i, by omega, hi, hbit⟩ hpos
  · cases h

end BTreeLeafPage

end Leaves

section Internals

namespace BTreeInternalPage

variable {p q : BTreeInternalPage} {e : BTreeEntry} {i : ℕ}

theorem getChildId_some {id : BTreePageId} (h : p.getChildId i = .ok (some id)) :
    ∃ key child, p.slot? i = some (key, child) ∧ id = ⟨p.pid.tableId, child, p.childCategory⟩ := by
  unfold getChildId at h
  split at h
  · rename_i hi
    split at h
    · cases h
      exact ⟨_, _, p.slot?_of_used hi ‹_›, rfl⟩
    · cases h
  · cases h

theorem matchChild_child {key : Field} {left right : Int32} {n i pos pos' : ℕ}
    (h : p.matchChild key left right n i pos = .ok (q, pos')) (j : ℕ) :
    q.childAt j = left ∨ q.childAt j = p.childAt j := by
  induction n generalizing p i pos with
  | zero =>
    cases h
    exact .inr rfl
  | succ n ih =>
    rw [matchChild] at h
    split at h
    · split at h
      · obtain ⟨_, -, h⟩ := of_except_bind h
        have hset : ∀ c, (if p.childAt i = right then p.setChild i left else p).childAt c = left ∨
            (if p.childAt i = right then p.setChild i left else p).childAt c = p.childAt c := by
          intro c
          split
          · by_cases hic : i = c
            · subst hic
              by_cases hlt : i < p.children.length
              · exact .inl (by simp [childAt, setChild, hlt])
              · exact .inr (by simp [childAt, setChild, hlt])
            · exact .inr (by simp [childAt, setChild, List.getElem?_set_ne hic])
          · exact .inr rfl
        rcases ih h with hj | hj
        · exact .inl hj
        · rw [hj]
          exact hset j
      · split at h
        · obtain ⟨_, -, h⟩ := of_except_bind h
          cases h
          exact .inr rfl
        · exact ih h
    · exact ih h

/-- The children of a page that has taken an entry are those it had and those of the entry. -/
structure Enters (p q : BTreeInternalPage) (left right : BTreePageId) : Prop where
  frame : q.SameFrame p
  category : q.childCategory = left.type
  sameType : right.type = left.type
  before : p.childCategory = .rootPtr ∨ p.childCategory = left.type
  slots : ∀ i key c, q.slot? i = some (key, c) →
    c = left.pgNo ∨ c = right.pgNo ∨ ∃ j key', p.slot? j = some (key', c)

theorem of_insertEntry (h : p.insertEntry e = .ok q) : ∃ left right, e.leftChild = some left ∧
    e.rightChild = some right ∧ Enters p q left right := by
  obtain ⟨key, left, right, p₁, -, hleft, hright, -, hcheck, hslots, hcases⟩ := insertEntry_cases h
  obtain ⟨rfl, htype, hbefore⟩ := checkCategory_ok hcheck
  refine ⟨left, right, hleft, hright, ?_⟩
  rcases hcases with ⟨-, rfl⟩ | hmore
  · refine ⟨⟨rfl, rfl, rfl, rfl, rfl⟩, rfl, htype, hbefore, ?_⟩
    intro i k c hc
    obtain ⟨hi, hused, -, hchild⟩ := (slot?_eq_some _).mp hc
    have hlen : p.children.length = p.numSlots := p.children_length
    have hlt : i < p.children.length := hlen ▸ hi
    rcases i with _ | _ | i
    · left
      rw [← hchild]
      have h₁ : 0 < p.children.length := hlt
      simp [childAt, insertFirst, markSlotUsed, setKey, setChild, h₁]
    · right; left
      rw [← hchild]
      have h₁ : 1 < p.children.length := hlt
      simp [childAt, insertFirst, markSlotUsed, setKey, setChild, h₁]
    · right; right
      have hused' : p.isSlotUsed (i + 2) = true := by
        rw [← hused]
        change _ = Bitmap.get (Bitmap.set (Bitmap.set p.header 0 true) 1 true) (i + 2)
        rw [Bitmap.get_set_ne (by omega), Bitmap.get_set_ne (by omega)]
        rfl
      have hsame : p.childAt (i + 2) = c := by
        rw [← hchild]
        simp [childAt, insertFirst, markSlotUsed, setKey, setChild]
      exact ⟨i + 2, _, (slot?_eq_some p).mpr ⟨hi, hused', rfl, hsame⟩⟩
  · obtain ⟨e, pos, p₂, hmatch, hsame, he₁, he, hempty, hpos₁, hpos, hne, rfl⟩ :=
      insertMore_cases hmore
    obtain ⟨hframe, hcat⟩ := p₂.makeRoom_frame e pos
    have hview := p₂.makeRoom_put_slot? (hsame.numSlots ▸ he) (hsame.numSlots ▸ hpos) hne (some key)
      right.pgNo
    refine ⟨⟨hframe.pid.trans hsame.pid, hframe.td.trans hsame.td,
      hframe.keyField.trans hsame.keyField, hframe.parent.trans hsame.parent,
      hframe.numSlots.trans hsame.numSlots⟩, hcat.trans hsame.category, htype, hbefore, ?_⟩
    intro i k c hc
    rw [hview] at hc
    have hhole : p₂.slot? e = none := by
      rw [slot?_eq_none, hsame.isSlotUsed]
      exact .inr hempty
    rcases Slots.insertAt_eq_some hhole hc with hnew | ⟨j, -, hj⟩
    · exact .inr (.inl (Prod.ext_iff.mp hnew).2)
    · obtain ⟨hj, hused, hkey, hchild⟩ := (slot?_eq_some p₂).mp hj
      rcases matchChild_child hmatch j with heq | heq
      · exact .inl (hchild.symm.trans heq)
      · refine .inr (.inr ⟨j, k, (slot?_eq_some p).mpr ⟨hsame.numSlots ▸ hj, ?_, ?_, ?_⟩⟩)
        · rw [← hused, hsame.isSlotUsed]
          rfl
        · rw [← hkey, hsame.keyAt]
          rfl
        · rw [← hchild, heq]
          rfl

end BTreeInternalPage

end Internals

end PagedDb
