import PagedDb.BTree.InternalOps

/-!
# The sequence of keys and children of an internal page

The used slots of an internal page, with any of them empty, read as a sequence
in which children and keys alternate. An insertion puts a key and a second child
next to the child that was split.
-/

namespace PagedDb

namespace BTreeInternalPage

variable {p q : BTreeInternalPage}

def alternate (slots : List (Option Field × Int32)) : List (Int32 ⊕ Option Field) :=
  slots.flatMap fun x => [.inr x.1, .inl x.2]

def slots (p : BTreeInternalPage) : List (Option Field × Int32) :=
  Slots.segment p.slot? 0 p.numSlots

def entries (p : BTreeInternalPage) : List (Option Field × Int32) :=
  Slots.segment p.slot? 1 p.numSlots

def sequence (p : BTreeInternalPage) : List (Int32 ⊕ Option Field) := (alternate p.slots).tail

theorem alternate_append (a b : List (Option Field × Int32)) :
    alternate (a ++ b) = alternate a ++ alternate b := List.flatMap_append

@[simp] theorem alternate_cons (x : Option Field × Int32) (xs : List (Option Field × Int32)) :
    alternate (x :: xs) = .inr x.1 :: .inl x.2 :: alternate xs := rfl

@[simp] theorem alternate_nil : alternate [] = [] := rfl

theorem alternate_split {slots : List (Option Field × Int32)} {A B : List (Int32 ⊕ Option Field)}
    {c : Int32} (h : alternate slots = A ++ .inl c :: B) :
    ∃ pre key post, slots = pre ++ (key, c) :: post ∧ A = alternate pre ++ [.inr key] ∧
      B = alternate post := by
  induction slots generalizing A with
  | nil => simp at h
  | cons x xs ih =>
    rw [alternate_cons] at h
    match A with
    | [] => cases h
    | [y] =>
      cases h
      exact ⟨[], x.1, xs, rfl, rfl, rfl⟩
    | y :: z :: A =>
      simp only [List.cons_append, List.cons.injEq] at h
      obtain ⟨rfl, rfl, h⟩ := h
      obtain ⟨pre, key, post, hxs, hA, hB⟩ := ih h
      exact ⟨x :: pre, key, post, by rw [hxs]; rfl, by rw [hA]; rfl, hB⟩

theorem slots_eq (hzero : p.isSlotUsed 0 = true) (hslots : 0 < p.numSlots) :
    p.slots = (p.keyAt 0, p.childAt 0) :: p.entries := by
  rw [slots, Slots.segment_cons _ hslots, p.slot?_of_used hslots hzero]
  rfl

theorem entries_length_add_empty (p : BTreeInternalPage) :
    p.entries.length + p.getNumEmptySlots = p.numSlots - 1 := by
  have h := List.length_eq_length_filter_add (l := List.range' 1 (p.numSlots - 1)) p.isSlotUsed
  have hused : p.entries.length =
      ((List.range' 1 (p.numSlots - 1)).filter p.isSlotUsed).length := by
    rw [entries, Slots.segment, List.length_filterMap_eq_countP, List.countP_eq_length_filter]
    congr 1
    apply List.filter_congr
    intro i hi
    have := List.mem_range'_1.mp hi
    exact p.slot?_isSome (by omega)
  rw [List.length_range', ← hused] at h
  rw [getNumEmptySlots]
  exact h.symm

section Insertion

variable {left right c k : Int32} {A B : List (Int32 ⊕ Option Field)}

/-- Behind the child it has found, the loop of `insertEntry` ends at the next used slot. -/
theorem matchChild_stop {key : Field} {n i pos : ℕ} (hpos : pos ≠ 0)
    (h : ∀ j, i ≤ j → j < i + n → p.isSlotUsed j = true →
      (∀ l, i ≤ l → l < j → p.isSlotUsed l = false) →
      (p.childAt j ≠ left ∧ p.childAt j ≠ right) ∧
        p.assertKey j .greaterThanOrEq (some key) = .ok ()) :
    p.matchChild key left right n i pos = .ok (p, pos) := by
  induction n generalizing i with
  | zero => rfl
  | succ n ih =>
    rw [matchChild]
    split
    · rename_i hu
      obtain ⟨⟨hl, hr⟩, hkey⟩ := h i (le_refl i) (by omega) hu fun l h₁ h₂ => by omega
      rw [if_neg (by simp [hl, hr]), Exec.except_bind hkey]
      rfl
    · rename_i hu
      apply ih
      intro j h₁ h₂ hj hfree
      apply h j (by omega) (by omega) hj
      intro l h₃ h₄
      rcases Nat.eq_or_lt_of_le h₃ with rfl | hlt
      · simpa using hu
      · exact hfree l hlt h₄

/-- The page once the loop has found the child of the entry in slot `j`. -/
def matched (p : BTreeInternalPage) (left right : Int32) (j : ℕ) : BTreeInternalPage :=
  if p.childAt j = right then p.setChild j left else p

theorem matched_same (p : BTreeInternalPage) (left right : Int32) (j : ℕ) :
    SameButChildren (p.matched left right j) p := by
  unfold matched
  split
  · exact p.setChild_same left j
  · exact .refl p

theorem matched_slot? {j : ℕ} (hj : j < p.numSlots) (hu : p.isSlotUsed j = true)
    (hchild : p.childAt j = left ∨ p.childAt j = right) :
    (p.matched left right j).slot? = Function.update p.slot? j (some (p.keyAt j, left)) := by
  unfold matched
  split
  · exact p.setChild_slot? hj hu left
  · rename_i hne
    rw [← hchild.resolve_right hne, ← p.slot?_of_used hj hu, Function.update_eq_self]

theorem matched_childAt {i j : ℕ} (h : i ≠ j) :
    (p.matched left right j).childAt i = p.childAt i := by
  unfold matched
  split
  · simp [childAt, setChild, List.getElem?_set_ne (Ne.symm h)]
  · rfl

theorem assertKey_congr (h : SameButChildren q p) (i : ℕ) (op : Op) (key : Option Field) :
    q.assertKey i op key = p.assertKey i op key := by
  simp only [assertKey, h.keyAt]

/-- The loop of `insertEntry` on a page that has one of the children, in slot `j`. -/
theorem matchChild_at {key : Field} {j n : ℕ} (hj : p.isSlotUsed j = true)
    (hchild : p.childAt j = left ∨ p.childAt j = right)
    (hkey : p.assertKeyBehind j .lessThanOrEq (some key) = .ok ())
    (hother : ∀ i < j + 1 + n, i ≠ j → p.isSlotUsed i = true →
      p.childAt i ≠ left ∧ p.childAt i ≠ right)
    (hnext : ∀ i, j < i → i < j + 1 + n → p.isSlotUsed i = true →
      (∀ l, j < l → l < i → p.isSlotUsed l = false) →
        p.assertKey i .greaterThanOrEq (some key) = .ok ()) :
    p.matchChild key left right (n + 1 + j) 0 0 = .ok (p.matched left right j, j + 1) := by
  rw [@matchChild_skip p left right key (n + 1) 0 j
      fun i _ hi hu => hother i (by omega) (by omega) hu,
    Nat.zero_add, matchChild, if_pos hj, if_pos hchild, Exec.except_bind hkey]
  have hsame := p.matched_same left right j
  change (p.matched left right j).matchChild key left right n (j + 1) (j + 1) = _
  apply matchChild_stop (Nat.succ_ne_zero j)
  intro i h₁ h₂ hu hfree
  rw [hsame.isSlotUsed] at hu
  rw [matched_childAt (show i ≠ j by omega), assertKey_congr hsame]
  refine ⟨hother i h₂ (by omega) hu, hnext i (by omega) h₂ hu fun l h₃ h₄ => ?_⟩
  rw [← hsame.isSlotUsed]
  exact hfree l h₃ h₄

/-- The key and the children of the entry fit between the neighbours of the child it was split
from, as far as the code compares them. -/
theorem matchChild_fits {pre post : List (Option Field × Int32)} {key : Option Field} {j : ℕ}
    (hj : j < p.numSlots) (hslot : p.slot? j = some (key, c))
    (hpre : Slots.segment p.slot? 0 j = pre)
    (hpost : Slots.segment p.slot? (j + 1) p.numSlots = post)
    (hnodup : (p.slots.map Prod.snd).Nodup)
    (hmatch : c = left ∧ right ∉ p.slots.map Prod.snd ∨ c = right ∧ left ∉ p.slots.map Prod.snd)
    (hbelow : j ≠ 0 → ∃ a : Int32, key = some (.int a) ∧ a.toInt ≤ k.toInt)
    (habove : ∀ x xs, post = x :: xs → ∃ b : Int32, x.1 = some (.int b) ∧ k.toInt ≤ b.toInt) :
    p.matchChild (.int k) left right p.numSlots 0 0 = .ok (p.matched left right j, j + 1) := by
  obtain ⟨-, hu, hkey, hchild⟩ := p.slot?_eq_some.mp hslot
  have hsplit : p.slots = pre ++ (key, c) :: post := by
    rw [← hpre, ← hpost]
    exact Slots.segment_at hj hslot
  have hmem : ∀ i < p.numSlots, i ≠ j → p.isSlotUsed i = true →
      p.childAt i ≠ c ∧ p.childAt i ∈ p.slots.map Prod.snd := by
    intro i hi hne hui
    have hi' := p.slot?_of_used hi hui
    rw [hsplit, List.map_append, List.map_cons] at hnodup ⊢
    have hdisjoint := List.nodup_append.mp hnodup
    rcases Nat.lt_or_gt_of_ne hne with hlt | hgt
    · have hin : p.childAt i ∈ pre.map Prod.snd :=
        List.mem_map.mpr ⟨_, hpre ▸ Slots.mem_segment.mpr ⟨i, Nat.zero_le i, hlt, hi'⟩, rfl⟩
      exact ⟨hdisjoint.2.2 _ hin c List.mem_cons_self, List.mem_append_left _ hin⟩
    · have hin : p.childAt i ∈ post.map Prod.snd :=
        List.mem_map.mpr ⟨_, hpost ▸ Slots.mem_segment.mpr ⟨i, hgt, hi, hi'⟩, rfl⟩
      refine ⟨?_, List.mem_append_right _ (List.mem_cons_of_mem c hin)⟩
      rintro rfl
      exact (List.nodup_cons.mp hdisjoint.2.1).1 hin
  rw [show p.numSlots = p.numSlots - (j + 1) + 1 + j by omega]
  apply matchChild_at hu
  · rcases hmatch with ⟨rfl, -⟩ | ⟨rfl, -⟩
    · exact .inl hchild
    · exact .inr hchild
  · unfold assertKeyBehind
    split
    · rfl
    · obtain ⟨a, ha, hle⟩ := hbelow ‹_›
      exact assertKey_int (hkey.trans ha) (by simpa [Field.compareInt] using hle)
  · intro i hi hne hui
    obtain ⟨hdiff, hin⟩ := hmem i (by omega) hne hui
    rcases hmatch with ⟨rfl, hright⟩ | ⟨rfl, hleft⟩
    · exact ⟨hdiff, fun h => hright (h ▸ hin)⟩
    · exact ⟨fun h => hleft (h ▸ hin), hdiff⟩
  · intro i hlt hi hui hfree
    have hfirst : post = (p.keyAt i, p.childAt i) :: Slots.segment p.slot? (i + 1) p.numSlots := by
      rw [← hpost, ← Slots.segment_append _ (show j + 1 ≤ i by omega) (show i ≤ p.numSlots by omega),
        Slots.segment_eq_nil, List.nil_append, Slots.segment_cons _ (show i < p.numSlots by omega),
        p.slot?_of_used (by omega) hui]
      · rfl
      · intro l h₁ h₂
        exact p.slot?_eq_none.mpr (.inr (hfree l h₁ h₂))
    obtain ⟨b, hb, hle⟩ := habove _ _ hfirst
    exact assertKey_int hb (by simpa [Field.compareInt] using hle)

/-- What the slots show once the entry is in. -/
theorem insertMore_slots {pre post : List (Option Field × Int32)} {key : Option Field} {j : ℕ}
    (hj : j < p.numSlots) (hslot : p.slot? j = some (key, c))
    (hpre : Slots.segment p.slot? 0 j = pre)
    (hpost : Slots.segment p.slot? (j + 1) p.numSlots = post)
    (hchild : c = left ∨ c = right) (hzero : p.isSlotUsed 0 = true)
    (hroom : 0 < p.getNumEmptySlots)
    (hmatch : p.matchChild (.int k) left right p.numSlots 0 0 =
      .ok (p.matched left right j, j + 1)) :
    ∃ q, p.insertMore (.int k) left right = .ok q ∧ SameFrame q p ∧
      q.childCategory = p.childCategory ∧ q.isSlotUsed 0 = true ∧
      q.slots = pre ++ (key, left) :: (some (.int k), right) :: post := by
  obtain ⟨-, hu, hkey, hc⟩ := p.slot?_eq_some.mp hslot
  obtain ⟨i, hi, hfree⟩ : ∃ i, (1 ≤ i ∧ i < p.numSlots) ∧ p.isSlotUsed i = false := by
    obtain ⟨i, hi⟩ := List.exists_mem_of_length_pos hroom
    obtain ⟨hrange, hfree⟩ := List.mem_filter.mp hi
    have := List.mem_range'_1.mp hrange
    exact ⟨i, ⟨this.1, by omega⟩, by simpa using hfree⟩
  have hlt : Slots.search (fun i => !p.isSlotUsed i) (p.numSlots - 1) 1 < 1 + (p.numSlots - 1) :=
    Slots.search_lt hi.1 (by omega) (by simp [hfree])
  have hone := Slots.le_search (fun i => !p.isSlotUsed i) (p.numSlots - 1) 1
  have hstop := Slots.search_stop hlt
  generalize he : Slots.search (fun i => !p.isSlotUsed i) (p.numSlots - 1) 1 = e
    at hlt hone hstop
  have hunused : p.isSlotUsed e = false := by simpa using hstop
  have hne : e ≠ j := by
    rintro rfl
    rw [hu] at hunused
    cases hunused
  have hsame := p.matched_same left right j
  have hview := p.matched_slot? hj hu (hc ▸ hchild)
  have hnum := hsame.numSlots
  have hroom := (p.matched left right j).makeRoom_put_slot? (show e < _ by omega)
    (show j + 1 ≤ _ by omega) (by omega) (some (.int k)) right
  rw [hview, hkey] at hroom
  have hhole : Function.update p.slot? j (some (key, left)) e = none := by
    rw [Function.update_of_ne hne]
    exact p.slot?_eq_none.mpr (.inr hunused)
  obtain ⟨hframe, hcat⟩ := (p.matched left right j).makeRoom_frame e (j + 1)
  have hslots : Slots.segment (Slots.insertAt (Function.update p.slot? j (some (key, left))) e
      (j + 1) (some (.int k), right)) 0 p.numSlots =
      pre ++ (key, left) :: (some (.int k), right) :: post := by
    have hbefore : Slots.segment (Function.update p.slot? j (some (key, left))) 0 j = pre := by
      rw [← hpre]
      exact Slots.segment_congr fun l _ hl => Function.update_of_ne (by omega) ..
    have hafter : Slots.segment (Function.update p.slot? j (some (key, left))) (j + 1) p.numSlots =
        post := by
      rw [← hpost]
      exact Slots.segment_congr fun l hl _ => Function.update_of_ne (by omega) ..
    rw [Slots.segment_insertAt hhole (by omega) (by omega), Slots.segment_snoc _ (Nat.zero_le j),
      hbefore, hafter, Function.update_self, Option.toList_some, List.append_assoc]
    rfl
  obtain ⟨q, hq, hput⟩ : ∃ q, p.insertMore (.int k) left right = .ok q ∧
      q = (Slots.makeRoom moveEntry (p.matched left right j) e (j + 1)).put
        (Slots.roomSlot e (j + 1)) (some (.int k)) right := by
    refine ⟨_, ?_, rfl⟩
    rw [insertMore]
    simp only [he]
    rw [Exec.except_bind (assertThat_ok (by omega)), Exec.except_bind hmatch]
    rfl
  rw [← hput] at hroom
  obtain ⟨hputFrame, hputCat⟩ := hput ▸ put_frame _ (Slots.roomSlot e (j + 1)) (some (.int k)) right
  have hmatched : SameFrame (p.matched left right j) p :=
    ⟨hsame.pid, hsame.td, hsame.keyField, hsame.parent, hnum⟩
  have hsameFrame : SameFrame q p := (hputFrame.trans hframe).trans hmatched
  have hcategory : q.childCategory = p.childCategory :=
    hputCat.trans (hcat.trans hsame.category)
  refine ⟨q, hq, hsameFrame, hcategory, ?_, ?_⟩
  · -- the slot 0 stays used: the empty slot is behind it
    have hold : ∃ x, Function.update p.slot? j (some (key, left)) 0 = some x := by
      rcases Nat.eq_zero_or_pos j with rfl | hpos
      · exact ⟨_, Function.update_self ..⟩
      · rw [Function.update_of_ne (by omega), p.slot?_of_used (by omega) hzero]
        exact ⟨_, rfl⟩
    obtain ⟨x, hx⟩ := hold
    have hat := congrFun hroom 0
    rw [Slots.insertAt_outside hhole (.inl ⟨by omega, Nat.succ_pos j⟩), hx] at hat
    exact ((slot?_eq_some _).mp hat).2.1
  · rw [slots, hsameFrame.numSlots, hroom, hslots]

/-- `insertEntry` on a page with any slots used: the child of the entry that is on the page is
replaced by both children with the key between them. -/
theorem insertEntry_between {rid : Option RecordId}
    (hint : p.td.getFieldType p.keyField = some .intType) (hzero : p.isSlotUsed 0 = true)
    (hentries : p.entries ≠ []) (hroom : 0 < p.getNumEmptySlots)
    (hkeys : ∀ x ∈ p.entries, ∃ v : Int32, x.1 = some (.int v))
    (hnodup : (p.slots.map Prod.snd).Nodup) (hsplit : p.sequence = A ++ .inl c :: B)
    (hmatch : c = left ∧ right ∉ p.slots.map Prod.snd ∨ c = right ∧ left ∉ p.slots.map Prod.snd)
    (hleft : ∀ a : Int32, A.getLast? = some (.inr (some (.int a))) → a.toInt ≤ k.toInt)
    (hright : ∀ b : Int32, B.head? = some (.inr (some (.int b))) → k.toInt ≤ b.toInt) :
    ∃ q, p.insertEntry ⟨some (.int k), some (p.childId left), some (p.childId right), rid⟩ =
        .ok q ∧
      q.sequence = A ++ .inl left :: .inr (some (.int k)) :: .inl right :: B ∧
      SameFrame q p ∧ q.childCategory = p.childCategory ∧ q.isSlotUsed 0 = true ∧
      q.getNumEntries = p.getNumEntries + 1 := by
  have hcount := p.entries_length_add_empty
  have hlen : 0 < p.entries.length := List.length_pos_iff.mpr hentries
  have hnum : 2 ≤ p.numSlots := by omega
  have hfirst := slots_eq hzero (show 0 < p.numSlots by omega)
  have hall : alternate p.slots = (.inr (p.keyAt 0) :: A) ++ .inl c :: B := by
    rw [List.cons_append, ← hsplit, sequence, hfirst]
    rfl
  obtain ⟨pre, key, post, hslots, hA, hB⟩ := alternate_split hall
  obtain ⟨j, hj, hslot, hpre, hpost⟩ := Slots.segment_split hslots
  have hrun := matchChild_fits (k := k) hj hslot hpre hpost hnodup hmatch ?_ ?_
  · obtain ⟨q, hq, hframe, hcat, hzero', hqslots⟩ := insertMore_slots hj hslot hpre hpost
      (hmatch.imp And.left And.left) hzero hroom hrun
    refine ⟨q, ?_, ?_, hframe, hcat, hzero', ?_⟩
    · have hchecked : p.insertEntry (splitEntry p.pid.tableId k left right p.childCategory) =
          p.insertChecked (.int k) left right := insertEntry_checked hint (.inr rfl)
      change p.insertEntry (splitEntry p.pid.tableId k left right p.childCategory) = _
      rw [hchecked, insertChecked, if_neg (by omega), if_neg (by rw [getMaxEntries]; omega), hq]
    · have hmid : alternate q.slots = (alternate pre ++ [.inr key]) ++
          .inl left :: .inr (some (.int k)) :: .inl right :: alternate post := by
        rw [hqslots, alternate_append]
        simp
      rw [sequence, hmid, ← hA, hB]
      rfl
    · have hqfirst := slots_eq hzero' (show 0 < q.numSlots by rw [hframe.numSlots]; omega)
      have hqcount := q.entries_length_add_empty
      have hlengths := congrArg List.length hqslots
      have hlengths' := congrArg List.length hslots
      change p.slots.length = _ at hlengths'
      rw [hqfirst] at hlengths
      rw [hfirst] at hlengths'
      simp only [List.length_cons, List.length_append] at hlengths hlengths'
      have hqnum := hframe.numSlots
      rw [getNumEntries, getNumEntries]
      omega
  · intro hne
    have hmem : (key, c) ∈ p.entries :=
      Slots.mem_segment.mpr ⟨j, by omega, hj, hslot⟩
    obtain ⟨a, ha⟩ := hkeys _ hmem
    refine ⟨a, ha, hleft a ?_⟩
    have hne' : A ≠ [] := by
      rintro rfl
      cases pre with
      | nil =>
        rw [hfirst] at hslots
        have hempty := Slots.segment_cons p.slot? (show 0 < j by omega)
        rw [hpre, p.slot?_of_used (by omega) hzero] at hempty
        cases hempty
      | cons x pre => simp at hA
    have hlast := congrArg List.getLast? hA
    rw [List.getLast?_concat, List.getLast?_cons_of_ne_nil hne'] at hlast
    rw [hlast]
    exact congrArg (fun key => some (Sum.inr key)) ha
  · intro x xs hx
    have hmem : x ∈ Slots.segment p.slot? (j + 1) p.numSlots := by
      rw [hpost, hx]
      exact List.mem_cons_self
    obtain ⟨i, hi, hin, hix⟩ := Slots.mem_segment.mp hmem
    obtain ⟨b, hb⟩ := hkeys x (Slots.mem_segment.mpr ⟨i, by omega, hin, hix⟩)
    refine ⟨b, hb, hright b ?_⟩
    rw [hB, hx, alternate_cons, List.head?_cons]
    exact congrArg (fun key => some (Sum.inr key)) hb

end Insertion

section Example

def stringKey : Field := .string ⟨1, 98 :: List.replicate (stringLen - 1) 0⟩

/-- A page for two string keys that has one. -/
def oneStringKey : BTreeInternalPage where
  pid := ⟨7, 1, .internal⟩
  td := ⟨[⟨.stringType, ""⟩]⟩
  keyField := 0
  parent := 0
  childCategory := .leaf
  header := [3]
  keys := [none, some stringKey, none]
  children := [2, 3, 0]
  numSlots := 3
  header_bits := by decide
  keys_length := rfl
  children_length := rfl

/-- String keys can not be compared, not even with themselves. -/
theorem string_not_between : ¬ ∀ (p : BTreeInternalPage) (k : Field) (left right c : Int32)
    (A B : List (Int32 ⊕ Option Field)), p.td.getFieldType p.keyField = some k.getType →
    p.isSlotUsed 0 = true → p.entries ≠ [] → 0 < p.getNumEmptySlots →
    (p.slots.map Prod.snd).Nodup → p.sequence = A ++ .inl c :: B →
    (c = left ∧ right ∉ p.slots.map Prod.snd ∨ c = right ∧ left ∉ p.slots.map Prod.snd) →
    (∀ le : Field → Field → Prop, (∀ f, le f f) →
      (p.entries.map Prod.fst).Pairwise (fun a b => ∀ x y, a = some x → b = some y → le x y) ∧
      (∀ a, A.getLast? = some (.inr (some a)) → le a k) ∧
      ∀ b, B.head? = some (.inr (some b)) → le k b) →
    ∃ q, p.insertEntry ⟨some k, some (p.childId left), some (p.childId right), none⟩ = .ok q := by
  intro hclaim
  have hbetween : ∀ le : Field → Field → Prop, (∀ f, le f f) →
      ([some stringKey].Pairwise fun a b => ∀ x y, a = some x → b = some y → le x y) ∧
      (∀ a, List.getLast? [] = some (Sum.inr (α := Int32) (some a)) → le a stringKey) ∧
      ∀ b, [Sum.inr (some stringKey), Sum.inl (3 : Int32)].head? = some (.inr (some b)) →
        le stringKey b := by
    intro le hrefl
    refine ⟨List.pairwise_singleton _ _, by simp, ?_⟩
    intro b hb
    simp only [List.head?_cons, Option.some.injEq, Sum.inr.injEq] at hb
    exact hb ▸ hrefl stringKey
  obtain ⟨q, hq⟩ := hclaim oneStringKey stringKey 2 4 2 [] [.inr (some stringKey), .inl 3] rfl
    (by decide) (by decide) (by decide) (by decide) (by decide) (.inl ⟨rfl, by decide⟩) hbetween
  have herror : oneStringKey.insertEntry ⟨some stringKey, some (oneStringKey.childId 2),
      some (oneStringKey.childId 4), none⟩ = .error (.runtimeError "Not implemented") := by
    decide +kernel
  rw [herror] at hq
  cases hq

/-- A page for three integer keys that has one, behind an empty slot. -/
def holedKeys : BTreeInternalPage where
  pid := ⟨7, 1, .internal⟩
  td := .ofInts 1
  keyField := 0
  parent := 0
  childCategory := .leaf
  header := [5]
  keys := [none, none, some (.int 5), none]
  children := [2, 0, 3, 0]
  numSlots := 4
  header_bits := by decide
  keys_length := rfl
  children_length := rfl

/-- The last child was split to the left: its place is taken by the new page. -/
theorem holedKeys_insert : ∃ q, holedKeys.insertEntry ⟨some (.int 7), some ⟨7, 4, .leaf⟩,
    some ⟨7, 3, .leaf⟩, none⟩ = .ok q ∧
    q.sequence = [.inl 2, .inr (some (.int 5)), .inl 4, .inr (some (.int 7)), .inl 3] := by
  obtain ⟨q, hq, hsequence, -⟩ := @insertEntry_between holedKeys 4 3 3 7
    [.inl 2, .inr (some (.int 5))] [] none rfl (by decide) (by decide) (by decide)
    (fun x hx => ⟨5, by
      rw [show holedKeys.entries = [(some (.int 5), 3)] by decide, List.mem_singleton] at hx
      rw [hx]⟩)
    (by decide) (by decide) (.inr ⟨rfl, by decide⟩)
    (fun a ha => by
      simp only [List.getLast?_cons_cons, List.getLast?_singleton, Option.some.injEq,
        Sum.inr.injEq, Field.int.injEq] at ha
      rw [← ha]
      decide)
    (fun b hb => by cases hb)
  exact ⟨q, hq, hsequence⟩

end Example

end BTreeInternalPage

end PagedDb
