import PagedDb.BTree.ResidentSim
import PagedDb.BTree.TreeRuns

/-!
# The numbers of free pages

Header pages tell which page numbers are free: `setEmptyPage` clears the bit of a
number and `getEmptyPageNo` sets the first clear one. The first header page is
made by the first call of `setEmptyPage`; it has a bit for every number below
`getNumSlots`, and for those the two functions hand out pages rightly.
-/

namespace PagedDb

open Exec

namespace BTreeHeaderPage

variable {p : BTreeHeaderPage} {pageSize i j : ℕ}

theorem isSlotUsed_init (p : BTreeHeaderPage) (hi : i < getNumSlots pageSize) :
    (p.init pageSize).isSlotUsed i = true := by
  have hbyte : i / 8 < getHeaderSize pageSize := by
    unfold getNumSlots at hi
    omega
  have hbit : i % 8 < 8 := Nat.mod_lt _ (by norm_num)
  simp only [isSlotUsed, init, Bitmap.get_eq_testBit, List.getD_replicate _ hbyte]
  interval_cases i % 8 <;> rfl

theorem isSlotUsed_mark (hlen : p.header.length = getHeaderSize pageSize)
    (hi : i < getNumSlots pageSize) (value : Bool) :
    (p.markSlotUsed i value).isSlotUsed j = if i = j then value else p.isSlotUsed j := by
  apply Bitmap.get_set
  rw [hlen]
  unfold getNumSlots at hi
  omega

theorem of_getEmptySlot (h : p.getEmptySlot pageSize = some i) :
    i < getNumSlots pageSize ∧ p.isSlotUsed i = false := by
  refine ⟨List.mem_range.mp (List.mem_of_find?_eq_some h), ?_⟩
  simpa using List.find?_some h

theorem getEmptySlot_eq_none (h : p.getEmptySlot pageSize = none) (hi : i < getNumSlots pageSize) :
    p.isSlotUsed i = true := by
  simpa using List.find?_eq_none.mp h i (List.mem_range.mpr hi)

end BTreeHeaderPage

namespace BTreeFile

open LogicalTree

variable {t : LogicalTree} {n : Int32} {p q : BTreeHeaderPage}

theorem headerAt_run (h : t.pages n = some (.header p)) : headerAt n t = .ok p t := by
  rw [headerAt, bind_ok (load_run h)]
  rfl

theorem modifyHeader_run (h : t.pages n = some (.header p))
    {f : BTreeHeaderPage → Except Fault BTreeHeaderPage} (hf : f p = .ok q) (hid : q.pid = p.pid) :
    modifyHeader n f t = .ok () (t.setPage n (.header q)) := by
  rw [modifyHeader, bind_ok (headerAt_run h), bind_ok (lift_run hf t)]
  exact store_run h hid.symm

theorem markSlotUsed_run (h : t.pages n = some (.header p)) {slot : ℕ}
    (hslot : slot < BTreeHeaderPage.getNumSlots t.pageSize) (value : Bool) :
    markSlotUsed n slot value t =
      .ok () (t.setPage n (.header (p.markSlotUsed slot value))) := by
  rw [markSlotUsed, bind_ok (get_run t)]
  refine modifyHeader_run (q := p.markSlotUsed slot value) h ?_ rfl
  exact if_pos ⟨by omega, by exact_mod_cast hslot⟩

end BTreeFile

namespace TreeSim

open BTreeFile

variable {σ H : Type} [TreeStore σ H] (S : TreeSim σ H) {s : σ} {t : LogicalTree} {h : H}

theorem walkHeaders (emptyPageNo : Int32) (fuel : ℕ) (hinv : S.Inv s t)
    (headerId prevId : Option BTreePageId) (count : ℕ) :
    Agrees S.toCoupling s t (fun a b _ _ => a = b)
      ((BTreeFile.walkHeaders emptyPageNo fuel headerId prevId count : EStateM Fault σ _) s)
      (BTreeFile.walkHeaders emptyPageNo fuel headerId prevId count t) := by
  induction fuel generalizing s t headerId prevId count with
  | zero => exact Agrees.throw _
  | succ fuel ih =>
    cases headerId with
    | none => exact Agrees.pure hinv rfl
    | some id =>
      apply Agrees.get
      rw [S.pageSize hinv]
      split
      · apply (S.readPage hinv id).bind
        intro h n s₁ t₁ hinv₁ _ hs
        apply (S.headerAt hinv₁ hs).bind_same
        intro p
        exact ih hinv₁ p.getNextPageId (some id) (count + 1)
      · exact Agrees.pure hinv rfl

theorem addHeaders (emptyPageNo : Int32) (fuel : ℕ) (hinv : S.Inv s t)
    (headerId prevId : Option BTreePageId) (count : ℕ) :
    Agrees S.toCoupling s t (fun a b _ _ => a = b)
      ((BTreeFile.addHeaders emptyPageNo fuel headerId prevId count : EStateM Fault σ _) s)
      (BTreeFile.addHeaders emptyPageNo fuel headerId prevId count t) := by
  induction fuel generalizing s t headerId prevId count with
  | zero => exact Agrees.throw _
  | succ fuel ih =>
    apply Agrees.get
    rw [S.pageSize hinv]
    split
    · cases prevId with
      | none => exact Agrees.throw _
      | some prev =>
        apply (S.writePage hinv prev).bind
        intro h n s₁ t₁ hinv₁ _ hprev
        apply (S.getEmptyPage hinv₁ .header).bind
        intro h' n' s₂ t₂ hinv₂ hev₂ hnew
        have hprev := S.held_evolves hev₂ hprev
        apply (S.headerAt hinv₂ (S.seen_of_held hinv₂ hnew)).bind_same
        intro p
        apply (S.modifyHeader hinv₂ hnew _).bind
        rintro _ _ s₃ t₃ hinv₃ hev₃ -
        have hnew := S.held_evolves hev₃ hnew
        have hprev := S.held_evolves hev₃ hprev
        apply (S.modifyHeader hinv₃ hnew _).bind
        rintro _ _ s₄ t₄ hinv₄ hev₄ -
        have hprev := S.held_evolves hev₄ hprev
        apply (S.modifyHeader hinv₄ hprev _).bind
        rintro _ _ s₅ t₅ hinv₅ - -
        exact ih hinv₅ (some p.pid) (some p.pid) (count + 1)
    · exact Agrees.pure hinv rfl

theorem firstHeader (hinv : S.Inv s t) :
    Agrees S.toCoupling s t (fun a b _ _ => a = b)
      ((BTreeFile.firstHeader : EStateM Fault σ BTreePageId) s) (BTreeFile.firstHeader t) := by
  apply (S.getRootPtrPage hinv).bind
  intro root root' s₁ t₁ hinv₁ _ hs
  apply (S.rootPtrAt hinv₁ hs).bind_same
  intro p
  cases p.getHeaderId with
  | some headerId => exact Agrees.pure hinv₁ rfl
  | none =>
    apply (S.rootPtrId hinv₁).bind_same
    intro id
    apply (S.writePage hinv₁ id).bind
    intro root root' s₂ t₂ hinv₂ _ hroot
    apply (S.getEmptyPage hinv₂ .header).bind
    intro h n s₃ t₃ hinv₃ hev₃ hnew
    have hroot := S.held_evolves hev₃ hroot
    apply (S.headerAt hinv₃ (S.seen_of_held hinv₃ hnew)).bind_same
    intro q
    apply Agrees.get
    rw [S.pageSize hinv₃]
    apply (S.modifyHeader hinv₃ hnew _).bind
    rintro _ _ s₄ t₄ hinv₄ hev₄ -
    have hroot := S.held_evolves hev₄ hroot
    apply (S.modifyRootPtr hinv₄ hroot _).bind
    rintro _ _ s₅ t₅ hinv₅ - -
    exact Agrees.pure hinv₅ rfl

theorem setEmptyPage (hinv : S.Inv s t) (emptyPageNo : Int32) :
    Agrees S.toCoupling s t (fun _ _ _ _ => True)
      ((BTreeFile.setEmptyPage emptyPageNo : EStateM Fault σ Unit) s)
      (BTreeFile.setEmptyPage emptyPageNo t) := by
  apply (S.firstHeader hinv).bind
  rintro id _ s₁ t₁ hinv₁ - rfl
  apply Agrees.get
  rw [S.getNumPages hinv₁]
  apply (S.walkHeaders emptyPageNo _ hinv₁ (some id) none 0).bind
  rintro ⟨headerId, prevId, count⟩ _ s₂ t₂ hinv₂ - rfl
  apply (S.addHeaders emptyPageNo _ hinv₂ headerId prevId count).bind
  rintro ⟨headerId, count⟩ _ s₃ t₃ hinv₃ - rfl
  cases headerId with
  | none => exact Agrees.throw _
  | some id =>
    apply (S.writePage hinv₃ id).bind
    intro h n s₄ t₄ hinv₄ _ hh
    apply Agrees.get
    rw [S.pageSize hinv₄]
    exact S.markSlotUsed hinv₄ hh _ false

end TreeSim

namespace PageAllocator

open BTreeFile LogicalTree

/-- A call of the allocator. -/
inductive Call
  | getEmptyPageNo
  | setEmptyPage (n : Int32)

def Call.run {σ H : Type} [TreeStore σ H] : Call → EStateM Fault σ (Option Int32)
  | .getEmptyPageNo => do return some (← BTreeFile.getEmptyPageNo)
  | .setEmptyPage n => do
    BTreeFile.setEmptyPage n
    return none

/-- Which numbers are handed out and which of them came back. -/
structure Books where
  allocated : Finset Int32
  freed : Finset Int32

def Books.start : Books := ⟨{1}, ∅⟩

def Books.after (b : Books) : Call → Option Int32 → Books
  | .getEmptyPageNo, some n => ⟨insert n b.allocated, b.freed.erase n⟩
  | .setEmptyPage n, none => ⟨b.allocated.erase n, insert n b.freed⟩
  | _, _ => b

def IsHeader (t : LogicalTree) (n : Int32) : Prop := ∃ p, t.pages n = some (.header p)

/-- What a number that is handed out has to satisfy: it is none that is in use, and while there
are free numbers it is one of them and the file keeps its size. -/
structure Proper (b : Books) (t t' : LogicalTree) (n : Int32) : Prop where
  ne_zero : n ≠ 0
  not_allocated : n ∉ b.allocated
  not_header : ¬ IsHeader t' n
  freed : b.freed.Nonempty → n ∈ b.freed ∧ t'.size = t.size

def HasRoom (t : LogicalTree) : Prop :=
  let size := max t.size (BTreeRootPtrPage.size + t.pageSize) + t.pageSize + t.clearGrowth
  size < 2 ^ 31 ∧ (size : ℕ∞) ≤ t.limit

/-- The calls that are made: a number goes back that is handed out and has a bit in the first
header page. -/
def Allowed (b : Books) (t : LogicalTree) : Call → Prop
  | .getEmptyPageNo => HasRoom t
  | .setEmptyPage n =>
    HasRoom t ∧ n ∈ b.allocated ∧ n.toInt < BTreeHeaderPage.getNumSlots t.pageSize

instance (t : LogicalTree) : Decidable (HasRoom t) := inferInstanceAs (Decidable (_ ∧ _))

instance (b : Books) (t : LogicalTree) (c : Call) : Decidable (Allowed b t c) :=
  match c with
  | .getEmptyPageNo => inferInstanceAs (Decidable (HasRoom t))
  | .setEmptyPage _ => inferInstanceAs (Decidable (_ ∧ _ ∧ _))

/-- How a file starts that nobody has used: it is empty, and new pages read as zeros. -/
structure NewFile (t : LogicalTree) : Prop where
  size : t.size = 0
  pages : ∀ n, t.pages n = none
  pageSize : BTreeHeaderPage.getHeaderSize t.pageSize ≠ 0
  slots : BTreeHeaderPage.getNumSlots t.pageSize < 2 ^ 31
  rootPtr : ∀ k, ∃ r, t.blank k (BTreeRootPtrPage.getId t.tableid) = .rootPtr r ∧
    r.pid = BTreeRootPtrPage.getId t.tableid ∧ r.header = 0
  header : ∀ k n, ∃ p, t.blank k ⟨t.tableid, n, .header⟩ = .header p ∧
    p.pid = ⟨t.tableid, n, .header⟩ ∧ p.nextPage = 0

/-- The header page `p` keeps the books. -/
structure Marks (b : Books) (t : LogicalTree) (h : Int32) (p : BTreeHeaderPage) : Prop where
  page : t.pages h = some (.header p)
  pid : p.pid = ⟨t.tableid, h, .header⟩
  has : t.Has ⟨t.tableid, h, .header⟩
  last : p.nextPage = 0
  length : p.header.length = BTreeHeaderPage.getHeaderSize t.pageSize
  slots : ∀ i < BTreeHeaderPage.getNumSlots t.pageSize,
    p.isSlotUsed i = false ↔ Int32.ofNat i ∈ b.freed

/-- The file agrees with the books; its header page has the number `h`, or there is none. -/
structure Tidy (b : Books) (t : LogicalTree) (h : Int32) : Prop where
  size : BTreeRootPtrPage.size + t.pageSize ≤ t.size
  pageSize : BTreeHeaderPage.getHeaderSize t.pageSize ≠ 0
  slots : BTreeHeaderPage.getNumSlots t.pageSize < 2 ^ 31
  header : ∀ k n, ∃ p, t.blank k ⟨t.tableid, n, .header⟩ = .header p ∧
    p.pid = ⟨t.tableid, n, .header⟩ ∧ p.nextPage = 0
  hasRoot : t.Has (BTreeRootPtrPage.getId t.tableid)
  root : ∃ r, t.pages 0 = some (.rootPtr r) ∧ r.pid = BTreeRootPtrPage.getId t.tableid ∧
    r.header = h
  other : ∀ n, n ≠ 0 → n ≠ h → t.pages n = none
  marks : h ≠ 0 → ∃ p, Marks b t h p
  unmarked : h = 0 → b.freed = ∅
  allocated : ∀ n ∈ b.allocated, 0 < n.toInt ∧ n.toInt ≤ t.getNumPages ∧ n ≠ h
  freed : ∀ n ∈ b.freed, 0 < n.toInt ∧ n.toInt < BTreeHeaderPage.getNumSlots t.pageSize ∧
    n.toInt ≤ t.getNumPages ∧ n ≠ h ∧ n ∉ b.allocated

section Steps

variable {b : Books} {t t' : LogicalTree} {h n : Int32}

theorem Tidy.isHeader_iff (ht : Tidy b t h) : IsHeader t n ↔ n = h ∧ h ≠ 0 := by
  constructor
  · rintro ⟨p, hp⟩
    obtain ⟨r, hr, -⟩ := ht.root
    have hn : n ≠ 0 := by
      rintro rfl
      rw [hr] at hp
      cases hp
    have heq : n = h := by
      by_contra hne
      rw [ht.other n hn hne] at hp
      cases hp
    exact ⟨heq, heq ▸ hn⟩
  · rintro ⟨rfl, hn⟩
    obtain ⟨p, hp⟩ := ht.marks hn
    exact ⟨p, hp.page⟩

theorem Tidy.pos (ht : Tidy b t h) : 0 < t.pageSize := by
  have := ht.pageSize
  unfold BTreeHeaderPage.getHeaderSize at this
  omega

theorem Tidy.getNumPages_lt (ht : Tidy b t h) (hroom : HasRoom t) : t.getNumPages + 1 < 2 ^ 31 := by
  have hlt := hroom.1
  have hsize := ht.size
  have hpos := ht.pos
  have hle : t.getNumPages ≤ t.size - BTreeRootPtrPage.size := Nat.div_le_self _ _
  unfold BTreeRootPtrPage.size at hsize hle
  omega

theorem Tidy.grows (ht : Tidy b t h) (hroom : HasRoom t)
    (hh : h.toInt ≤ t.getNumPages) : t.Grows := by
  have hnumber := ht.getNumPages_lt hroom
  have hsize := ht.size
  have hnew : t.newNumber.toInt = t.getNumPages + 1 := by
    rw [newNumber, Int32.toInt_ofNat_of_lt hnumber]
    rfl
  constructor
  case pageSize => exact ht.pos
  case size => omega
  case limit =>
    have hlimit := hroom.2
    rwa [max_eq_left hsize] at hlimit
  case number => exact hnumber
  case fresh =>
    apply ht.other
    · intro hzero
      rw [hzero] at hnew
      simp at hnew
      omega
    · intro heq
      rw [heq] at hnew
      omega

theorem Tidy.header_le (ht : Tidy b t h) : 0 ≤ h.toInt ∧ h.toInt ≤ t.getNumPages := by
  by_cases hh : h = 0
  · subst hh
    exact ⟨le_rfl, Int.natCast_nonneg _⟩
  · obtain ⟨p, hp⟩ := ht.marks hh
    obtain ⟨⟨-, -, -, hnum⟩, -⟩ := hp.has
    rw [if_neg (show BTreePageType.header ≠ .rootPtr by decide)] at hnum
    exact ⟨hnum.1.le, hnum.2⟩

theorem hasId_of_size {size : ℕ} {id : BTreePageId} (hid : t.Has id) (hle : t.size ≤ size)
    (hlimit : (size : ℕ∞) ≤ t.limit) : ({ t with size } : LogicalTree).Has id := by
  obtain ⟨⟨hsize, -, htable, hnum⟩, hpage⟩ := hid
  have hpages : t.getNumPages ≤ ({ t with size } : LogicalTree).getNumPages :=
    Nat.div_le_div_right (Nat.sub_le_sub_right hle _)
  refine ⟨⟨hsize.trans hle, hlimit, htable, ?_⟩, hpage⟩
  split_ifs at hnum ⊢
  · exact hnum
  · exact ⟨hnum.1, by omega⟩

/-- The file with a new page that is handed out. -/
theorem Tidy.append (ht : Tidy b t h) (hgrow : t.Grows) :
    Tidy ⟨insert t.newNumber b.allocated, b.freed⟩ { t with size := t.size + t.pageSize } h := by
  have hnew := hgrow.toInt_newNumber
  have hlimit : ((t.size + t.pageSize : ℕ) : ℕ∞) ≤ t.limit :=
    le_trans (by exact_mod_cast Nat.le_add_right _ _) hgrow.limit
  have hpages : (t.size + t.pageSize - BTreeRootPtrPage.size) / t.pageSize = t.getNumPages + 1 := by
    rw [Nat.sub_add_comm hgrow.size, Nat.add_div_right _ hgrow.pageSize]
    rfl
  have hh := ht.header_le
  constructor
  case size => exact ht.size.trans (Nat.le_add_right _ _)
  case pageSize => exact ht.pageSize
  case slots => exact ht.slots
  case header => exact ht.header
  case hasRoot => exact hasId_of_size ht.hasRoot (Nat.le_add_right _ _) hlimit
  case root => exact ht.root
  case other => exact ht.other
  case marks =>
    intro hne
    obtain ⟨p, hp⟩ := ht.marks hne
    exact ⟨p, { hp with has := hasId_of_size hp.has (Nat.le_add_right _ _) hlimit }⟩
  case unmarked => exact ht.unmarked
  case allocated =>
    intro n hn
    change _ ∧ n.toInt ≤ ((t.size + t.pageSize - BTreeRootPtrPage.size) / t.pageSize : ℕ) ∧ _
    rw [hpages]
    rcases Finset.mem_insert.mp hn with rfl | hn
    · refine ⟨by omega, by omega, fun heq => ?_⟩
      rw [heq] at hnew
      omega
    · obtain ⟨hpos, hle, hne⟩ := ht.allocated n hn
      exact ⟨hpos, by omega, hne⟩
  case freed =>
    intro n hn
    obtain ⟨hpos, hlt, hle, hne, hnot⟩ := ht.freed n hn
    refine ⟨hpos, hlt, ?_, hne, ?_⟩
    · change n.toInt ≤ ((t.size + t.pageSize - BTreeRootPtrPage.size) / t.pageSize : ℕ)
      rw [hpages]
      omega
    · intro hmem
      rcases Finset.mem_insert.mp hmem with rfl | hmem
      · omega
      · exact hnot hmem

theorem toInt_ofNat_slot {i : ℕ} (ht : Tidy b t h)
    (hi : i < BTreeHeaderPage.getNumSlots t.pageSize) : (Int32.ofNat i).toInt = i :=
  Int32.toInt_ofNat_of_lt (hi.trans ht.slots)

/-- The bit of a number changes, and with it the books. -/
theorem Tidy.mark {p : BTreeHeaderPage} {b' : Books} {i : ℕ} {value : Bool} (ht : Tidy b t h)
    (hne : h ≠ 0) (hp : Marks b t h p) (hi : i < BTreeHeaderPage.getNumSlots t.pageSize)
    (hmarks : ∀ j < BTreeHeaderPage.getNumSlots t.pageSize, Int32.ofNat j ∈ b'.freed ↔
      if i = j then value = false else Int32.ofNat j ∈ b.freed)
    (hallocated : ∀ n ∈ b'.allocated, 0 < n.toInt ∧ n.toInt ≤ t.getNumPages ∧ n ≠ h)
    (hfreed : ∀ n ∈ b'.freed, 0 < n.toInt ∧ n.toInt < BTreeHeaderPage.getNumSlots t.pageSize ∧
      n.toInt ≤ t.getNumPages ∧ n ≠ h ∧ n ∉ b'.allocated) :
    Tidy b' (t.setPage h (.header (p.markSlotUsed i value))) h := by
  have hold : t.pages h = some (.header p) := hp.page
  constructor
  case size => exact ht.size
  case pageSize => exact ht.pageSize
  case slots => exact ht.slots
  case header => exact ht.header
  case hasRoot => exact ht.hasRoot.setPage hold rfl rfl
  case root =>
    obtain ⟨r, hr, hroot⟩ := ht.root
    exact ⟨r, (setPage_ne hne.symm).trans hr, hroot⟩
  case other =>
    intro n hn hnh
    rw [setPage_ne hnh]
    exact ht.other n hn hnh
  case marks =>
    intro _
    refine ⟨p.markSlotUsed i value, setPage_self, hp.pid, hp.has.setPage hold rfl rfl, hp.last,
      ?_, ?_⟩
    · exact (Bitmap.set_length _ _ _).trans hp.length
    · intro j hj
      rw [BTreeHeaderPage.isSlotUsed_mark hp.length hi, hmarks j hj]
      split_ifs with heq
      · exact Iff.rfl
      · exact hp.slots j hj
  case unmarked => exact fun heq => absurd heq hne
  case allocated => exact hallocated
  case freed => exact hfreed

theorem findEmptyHeader_run {r : BTreeRootPtrPage} {p : BTreeHeaderPage} (hne : h ≠ 0)
    (hp : Marks b t h p) (hpid : r.pid = BTreeRootPtrPage.getId t.tableid) (hr : r.header = h) :
    findEmptyHeader r t =
      .ok (if (p.getEmptySlot t.pageSize).isSome then some (p.pid, 0) else none) t := by
  have hnext : p.getNextPageId = none := by
    rw [BTreeHeaderPage.getNextPageId, hp.last]
    rfl
  have hget := hp.has.getPage .readOnly
  rw [findEmptyHeader, BTreeRootPtrPage.getHeaderId, hr, if_neg hne, hpid]
  refine (bind_ok hget).trans ((bind_ok (get_run t)).trans ?_)
  rw [findHeaderPage, bind_ok (headerAt_run hp.page), bind_ok (get_run t)]
  change (if (p.getEmptySlot t.pageSize).isSome then _ else _ : EStateM Fault LogicalTree _) t = _
  split_ifs
  · rfl
  · rw [hnext]
    rfl

theorem not_header_append (ht : Tidy b t h) (hgrow : t.Grows) :
    ¬ IsHeader { t with size := t.size + t.pageSize } t.newNumber := by
  rw [(ht.append hgrow).isHeader_iff]
  rintro ⟨heq, -⟩
  have hnew := hgrow.toInt_newNumber
  have hh := ht.header_le
  rw [heq] at hnew
  omega

theorem Tidy.size_ne_zero (ht : Tidy b t h) : t.size ≠ 0 := by
  have := ht.size
  unfold BTreeRootPtrPage.size at this
  omega

theorem getEmptyPageNo_grows {r : BTreeRootPtrPage} (ht : Tidy b t h) (hroom : HasRoom t)
    (hr : t.pages 0 = some (.rootPtr r)) (hfind : findEmptyHeader r t = .ok none t)
    (hempty : b.freed = ∅) :
    ∃ n t', getEmptyPageNo t = .ok n t' ∧ Proper b t t' n ∧
      Tidy (b.after .getEmptyPageNo (some n)) t' h := by
  have hgrow := ht.grows hroom ht.header_le.2
  have hnew := hgrow.toInt_newNumber
  refine ⟨_, _, getEmptyPageNo_append ht.hasRoot hr hfind hgrow, ⟨?_, ?_, ?_, ?_⟩, ?_⟩
  · intro hzero
    rw [hzero] at hnew
    change (0 : Int) = _ at hnew
    omega
  · intro hmem
    have := ht.allocated _ hmem
    omega
  · exact not_header_append ht hgrow
  · simp [hempty]
  · have happend := ht.append hgrow
    rwa [← Finset.erase_eq_of_notMem (show t.newNumber ∉ b.freed by simp [hempty])] at happend

/-- A free number is handed out again. -/
theorem getEmptyPageNo_slot {r : BTreeRootPtrPage} {p : BTreeHeaderPage} {i : ℕ}
    (ht : Tidy b t h) (hne : h ≠ 0) (hp : Marks b t h p) (hr : t.pages 0 = some (.rootPtr r))
    (hfind : findEmptyHeader r t = .ok (some (p.pid, 0)) t)
    (hslot : p.getEmptySlot t.pageSize = some i) :
    ∃ n t', getEmptyPageNo t = .ok n t' ∧ Proper b t t' n ∧
      Tidy (b.after .getEmptyPageNo (some n)) t' h := by
  obtain ⟨hi, hunused⟩ := BTreeHeaderPage.of_getEmptySlot hslot
  have hmem := (hp.slots i hi).mp hunused
  obtain ⟨hpos, hlt, hle, hnh, hna⟩ := ht.freed _ hmem
  have hrun : getEmptyPageNo t =
      .ok (Int32.ofNat i) (t.setPage h (.header (p.markSlotUsed i true))) := by
    have hget : TreeStore.getPage p.pid .readWrite t = .ok h t := by
      rw [hp.pid]
      exact hp.has.getPage .readWrite
    rw [getEmptyPageNo, bind_ok (getRootPtrPage_run ht.hasRoot ht.size_ne_zero),
      bind_ok (rootPtrAt_run hr), bind_ok hfind]
    simp only
    rw [bind_ok hget, bind_ok (headerAt_run hp.page), bind_ok (get_run t),
      show TreeStore.pageSize t = t.pageSize from rfl, hslot]
    simp only
    rw [bind_ok (markSlotUsed_run hp.page hi true), Nat.zero_mul, Nat.zero_add]
    rfl
  have hmark : Tidy (b.after .getEmptyPageNo (some (Int32.ofNat i)))
      (t.setPage h (.header (p.markSlotUsed i true))) h := by
    apply ht.mark hne hp hi
    · intro j hj
      rw [Books.after, Finset.mem_erase]
      split_ifs with hij
      · simp [hij]
      · refine and_iff_right fun heq => hij ?_
        have hto := congrArg Int32.toInt heq
        rw [toInt_ofNat_slot ht hi, toInt_ofNat_slot ht hj] at hto
        omega
    · intro n hn
      rcases Finset.mem_insert.mp hn with rfl | hn
      · exact ⟨hpos, hle, hnh⟩
      · exact ht.allocated n hn
    · intro n hn
      obtain ⟨hni, hn⟩ := Finset.mem_erase.mp hn
      obtain ⟨hpos, hlt, hle, hnh, hna⟩ := ht.freed n hn
      exact ⟨hpos, hlt, hle, hnh, fun hmem => (Finset.mem_insert.mp hmem).elim hni hna⟩
  refine ⟨_, _, hrun, ⟨?_, hna, ?_, fun _ => ⟨hmem, rfl⟩⟩, hmark⟩
  · intro hzero
    rw [hzero] at hpos
    exact absurd hpos (lt_irrefl 0)
  · rw [hmark.isHeader_iff]
    exact fun heq => hnh heq.1

theorem freed_eq_empty {p : BTreeHeaderPage} (ht : Tidy b t h) (hp : Marks b t h p)
    (hslot : p.getEmptySlot t.pageSize = none) : b.freed = ∅ := by
  apply Finset.eq_empty_of_forall_notMem
  intro n hn
  obtain ⟨hpos, hlt, -⟩ := ht.freed n hn
  have hlt : n.toInt.toNat < BTreeHeaderPage.getNumSlots t.pageSize := by omega
  have hback : Int32.ofNat n.toInt.toNat = n := by
    apply Int32.toInt_inj.mp
    rw [toInt_ofNat_slot ht hlt]
    omega
  have hused := BTreeHeaderPage.getEmptySlot_eq_none hslot hlt
  rw [(hp.slots _ hlt).mpr (hback.symm ▸ hn)] at hused
  cases hused

theorem getEmptyPageNo_step (ht : Tidy b t h) (hroom : HasRoom t) :
    ∃ n t', getEmptyPageNo t = .ok n t' ∧ Proper b t t' n ∧
      Tidy (b.after .getEmptyPageNo (some n)) t' h := by
  obtain ⟨r, hr, hpid, hheader⟩ := ht.root
  by_cases hne : h = 0
  · exact getEmptyPageNo_grows ht hroom hr (findEmptyHeader_none (hheader.trans hne))
      (ht.unmarked hne)
  · obtain ⟨p, hp⟩ := ht.marks hne
    have hfind := findEmptyHeader_run hne hp hpid hheader
    cases hslot : p.getEmptySlot t.pageSize with
    | none =>
      rw [hslot] at hfind
      exact getEmptyPageNo_grows ht hroom hr hfind (freed_eq_empty ht hp hslot)
    | some i =>
      rw [hslot] at hfind
      exact getEmptyPageNo_slot ht hne hp hr hfind hslot

/-- `firstHeader` makes the header page, with every number in use. -/
theorem firstHeader_new (ht : Tidy b t 0) (hroom : HasRoom t) :
    ∃ h t', firstHeader t = .ok ⟨t'.tableid, h, .header⟩ t' ∧ Tidy b t' h ∧ h ≠ 0 ∧
      t'.pageSize = t.pageSize := by
  have hgrow := ht.grows hroom ht.header_le.2
  have hnew := hgrow.toInt_newNumber
  have hle := hgrow.numPages_le .header
  obtain ⟨r, hr, hpid, hnone⟩ := ht.root
  obtain ⟨p, hblank, hp, hlast⟩ := ht.header t.reads t.newNumber
  have hne : t.newNumber ≠ 0 := by
    intro hzero
    rw [hzero] at hnew
    change (0 : Int) = _ at hnew
    omega
  -- the page, its bits and the pointer to it
  let t₁ := t.extend .header
  have hp₁ : t₁.pages t.newNumber = some (.header p) := by rw [extend_new, hblank]
  let t₂ := t₁.setPage t.newNumber (.header (p.init t.pageSize))
  have hr₂ : t₂.pages 0 = some (.rootPtr r) := by
    rw [setPage_ne hne.symm, extend_of_ne hne.symm, hr]
  let r' : BTreeRootPtrPage := { r with header := t.newNumber }
  let t₃ := t₂.setPage 0 (.rootPtr r')
  have hinit : modifyHeader t.newNumber (fun p => .ok (p.init (TreeStore.pageSize t₁))) t₁ =
      .ok () t₂ := modifyHeader_run hp₁ rfl rfl
  have hset : modifyRootPtr (0 : Int32) (fun r => r.setHeaderId (some p.pid)) t₂ = .ok () t₃ := by
    refine modifyRootPtr_run hr₂ ?_ rfl
    rw [hp, BTreeRootPtrPage.setHeaderId, if_pos ⟨by rw [hpid]; rfl, rfl⟩]
  have hrun : firstHeader t = .ok ⟨t.tableid, t.newNumber, .header⟩ t₃ := by
    have hempty := getEmptyPage_run ht.hasRoot hr hnone hgrow
      (show BTreePageType.header ≠ .rootPtr by decide)
    rw [firstHeader, bind_ok (getRootPtrPage_run ht.hasRoot ht.size_ne_zero),
      bind_ok (rootPtrAt_run hr), BTreeRootPtrPage.getHeaderId, if_pos hnone]
    simp only
    rw [bind_ok rootPtrId_run, bind_ok (ht.hasRoot.getPage .readWrite), bind_ok hempty,
      bind_ok (headerAt_run hp₁), bind_ok (get_run t₁)]
    refine (bind_ok hinit).trans ((bind_ok hset).trans ?_)
    rw [hp]
    rfl
  have hkeep : ∀ id, t₁.Has id → t₃.Has id := by
    intro id hid
    have h₂ : t₂.Has id := hid.setPage hp₁ rfl rfl
    exact h₂.setPage hr₂ rfl rfl
  refine ⟨_, t₃, hrun, ?_, hne, rfl⟩
  constructor
  case size =>
    have hsize := ht.size
    change BTreeRootPtrPage.size + t.pageSize ≤ t.size + t.pageSize + t.clearGrowth
    omega
  case pageSize => exact ht.pageSize
  case slots => exact ht.slots
  case header => exact ht.header
  case hasRoot => exact hkeep _ (ht.hasRoot.extend hgrow)
  case root => exact ⟨r', setPage_self, hpid, rfl⟩
  case other =>
    intro n hn hnh
    rw [setPage_ne hn, setPage_ne hnh, extend_of_ne hnh]
    exact ht.other n hn hn
  case marks =>
    intro _
    refine ⟨p.init t.pageSize, ?_, hp, hkeep _ ⟨hgrow.inFile (by decide), _, hp₁, hp, rfl⟩, hlast,
      List.length_replicate, ?_⟩
    · rw [setPage_ne hne, setPage_self]
    · intro i hi
      have hused : (p.init t.pageSize).isSlotUsed i = true := p.isSlotUsed_init hi
      rw [hused, ht.unmarked rfl]
      simp
  case unmarked => exact fun heq => absurd heq hne
  case allocated =>
    intro n hn
    obtain ⟨hpos, hle', -⟩ := ht.allocated n hn
    refine ⟨hpos, hle'.trans (by exact_mod_cast hle), fun heq => ?_⟩
    rw [heq] at hle'
    omega
  case freed =>
    rw [ht.unmarked rfl]
    simp

theorem firstHeader_step (ht : Tidy b t h) (hroom : HasRoom t) :
    ∃ h' t', firstHeader t = .ok ⟨t'.tableid, h', .header⟩ t' ∧ Tidy b t' h' ∧ h' ≠ 0 ∧
      t'.pageSize = t.pageSize := by
  by_cases hne : h = 0
  · exact firstHeader_new (hne ▸ ht) hroom
  · obtain ⟨r, hr, hpid, hheader⟩ := ht.root
    refine ⟨h, t, ?_, ht, hne, rfl⟩
    rw [firstHeader, bind_ok (getRootPtrPage_run ht.hasRoot ht.size_ne_zero),
      bind_ok (rootPtrAt_run hr), BTreeRootPtrPage.getHeaderId, hheader, if_neg hne, hpid]
    rfl

/-- `setEmptyPage` takes a number back that has a bit in the header page. -/
theorem setEmptyPage_step (ht : Tidy b t h) (hroom : HasRoom t) (hmem : n ∈ b.allocated)
    (hlt : n.toInt < BTreeHeaderPage.getNumSlots t.pageSize) :
    ∃ h' t', setEmptyPage n t = .ok () t' ∧ Tidy (b.after (.setEmptyPage n) none) t' h' := by
  obtain ⟨h, t₁, hfirst, ht, hne, hsame⟩ := firstHeader_step ht hroom
  rw [← hsame] at hlt
  obtain ⟨p, hp⟩ := ht.marks hne
  obtain ⟨hpos, hle, hnh⟩ := ht.allocated n hmem
  have hslot : n.toInt.toNat < BTreeHeaderPage.getNumSlots t₁.pageSize := by omega
  have hback : Int32.ofNat n.toInt.toNat = n := by
    apply Int32.toInt_inj.mp
    rw [toInt_ofNat_slot ht hslot]
    omega
  have hbeyond : ¬ beyondHeader t₁.pageSize 0 n = true := by
    rw [beyondHeader, Nat.zero_add, Nat.one_mul, Int32.toInt_ofNat_of_lt ht.slots]
    simpa using hlt.le
  have hwalk : walkHeaders n (TreeStore.getNumPages t₁ + 1)
      (some ⟨t₁.tableid, h, .header⟩) none 0 t₁ =
        .ok (some ⟨t₁.tableid, h, .header⟩, none, 0) t₁ := by
    rw [walkHeaders]
    exact (bind_ok (get_run t₁)).trans (congrFun (if_neg hbeyond) t₁)
  have hadd : addHeaders n (n.toInt.toNat + 1) (some ⟨t₁.tableid, h, .header⟩) none 0 t₁ =
      .ok (some ⟨t₁.tableid, h, .header⟩, 0) t₁ := by
    rw [addHeaders]
    exact (bind_ok (get_run t₁)).trans (congrFun (if_neg hbeyond) t₁)
  have hzero : n - Int32.ofNat (0 * BTreeHeaderPage.getNumSlots (TreeStore.pageSize t₁)) = n := by
    rw [Nat.zero_mul]
    exact Int32.sub_zero n
  have hnat : n.toInt = (n.toInt.toNat : Int) := by omega
  refine ⟨h, t₁.setPage h (.header (p.markSlotUsed n.toInt.toNat false)), ?_, ?_⟩
  · rw [setEmptyPage, bind_ok hfirst, bind_ok (get_run t₁), bind_ok hwalk]
    simp only
    rw [bind_ok hadd]
    simp only
    rw [bind_ok (hp.has.getPage .readWrite), bind_ok (get_run t₁), hzero, hnat]
    exact markSlotUsed_run hp.page hslot false
  · apply ht.mark hne hp hslot
    · intro j hj
      rw [Books.after, Finset.mem_insert]
      split_ifs with hj'
      · rw [← hj', hback]
        simp
      · refine or_iff_right fun heq => hj' ?_
        rw [← heq, toInt_ofNat_slot ht hj]
        rfl
    · exact fun m hm => ht.allocated m (Finset.mem_of_mem_erase hm)
    · intro m hm
      rcases Finset.mem_insert.mp hm with rfl | hm
      · exact ⟨hpos, hlt, hle, hnh, Finset.notMem_erase m _⟩
      · obtain ⟨hpos, hlt, hle, hnh, hna⟩ := ht.freed m hm
        exact ⟨hpos, hlt, hle, hnh, fun hmem => hna (Finset.mem_of_mem_erase hmem)⟩

/-- The first call on a new file makes it: a root pointer page and a leaf. -/
theorem NewFile.enter (hnew : NewFile t) (hroom : HasRoom t) :
    getRootPtrPage t = .ok (0 : Int32) (created t) ∧ Tidy Books.start (created t) 0 ∧
      HasRoom (created t) := by
  have hpos : 0 < t.pageSize := by
    have := hnew.pageSize
    unfold BTreeHeaderPage.getHeaderSize at this
    omega
  obtain ⟨r, hblank, hpid, hheader⟩ := hnew.rootPtr t.reads
  have hlimit : ((BTreeRootPtrPage.size + t.pageSize : ℕ) : ℕ∞) ≤ t.limit := by
    have hle : BTreeRootPtrPage.size + t.pageSize ≤
        max t.size (BTreeRootPtrPage.size + t.pageSize) + t.pageSize + t.clearGrowth := by
      omega
    exact le_trans (Nat.cast_le.mpr hle) hroom.2
  refine ⟨getRootPtrPage_created hnew.size (hnew.pages 0) hlimit, ?_, ?_⟩
  · constructor
    case size => exact le_rfl
    case pageSize => exact hnew.pageSize
    case slots => exact hnew.slots
    case header => exact hnew.header
    case hasRoot => exact created_has hblank hpid hlimit
    case root => exact ⟨r, created_root hblank, hpid, hheader⟩
    case other => exact fun n hn _ => (created_of_ne hn).trans (hnew.pages n)
    case marks => exact fun hne => absurd rfl hne
    case unmarked => exact fun _ => rfl
    case allocated =>
      intro n hn
      obtain rfl := Finset.mem_singleton.mp hn
      rw [created_numPages hpos]
      decide
    case freed => simp [Books.start]
  · have hsize : max t.size (BTreeRootPtrPage.size + t.pageSize) =
        max (created t).size (BTreeRootPtrPage.size + t.pageSize) := by
      rw [hnew.size, Nat.zero_max]
      exact (max_self _).symm
    unfold HasRoom at hroom
    rwa [hsize] at hroom

def Ready (b : Books) (t : LogicalTree) : Prop := NewFile t ∧ b = .start ∨ ∃ h, Tidy b t h

theorem Tidy.step {c : Call} (ht : Tidy b t h) (hc : Allowed b t c) :
    ∃ out t', c.run t = .ok out t' ∧ (∀ n, out = some n → Proper b t t' n) ∧
      Ready (b.after c out) t' := by
  cases c with
  | getEmptyPageNo =>
    obtain ⟨n, t', hrun, hproper, ht'⟩ := getEmptyPageNo_step ht hc
    refine ⟨some n, t', bind_ok hrun, ?_, .inr ⟨h, ht'⟩⟩
    rintro _ ⟨⟩
    exact hproper
  | setEmptyPage n =>
    obtain ⟨hroom, hmem, hlt⟩ := hc
    obtain ⟨h', t', hrun, ht'⟩ := setEmptyPage_step ht hroom hmem hlt
    exact ⟨none, t', bind_ok hrun, fun _ hn => (nomatch hn), .inr ⟨h', ht'⟩⟩

theorem run_of_getRootPtrPage {t₁ : LogicalTree} (c : Call)
    (h₁ : getRootPtrPage t = .ok (0 : Int32) t₁) (h₂ : getRootPtrPage t₁ = .ok (0 : Int32) t₁) :
    c.run t = c.run t₁ := by
  cases c with
  | getEmptyPageNo =>
    have hsame : getEmptyPageNo t = getEmptyPageNo t₁ := by
      rw [getEmptyPageNo, bind_ok h₁, bind_ok h₂]
    simp only [Call.run, bind, EStateM.bind, hsame]
  | setEmptyPage n =>
    have hfirst : firstHeader t = firstHeader t₁ := by
      rw [firstHeader, bind_ok h₁, bind_ok h₂]
    simp only [Call.run, BTreeFile.setEmptyPage, bind, EStateM.bind, hfirst]

theorem Ready.step {c : Call} (hready : Ready b t) (hc : Allowed b t c) :
    ∃ out t', c.run t = .ok out t' ∧ (∀ n, out = some n → Proper b t t' n) ∧
      Ready (b.after c out) t' := by
  rcases hready with ⟨hnew, rfl⟩ | ⟨h, ht⟩
  · have hroom : HasRoom t := by
      cases c with
      | getEmptyPageNo => exact hc
      | setEmptyPage n => exact hc.1
    obtain ⟨hroot, ht, hroom₁⟩ := hnew.enter hroom
    have hc₁ : Allowed .start (created t) c := by
      cases c with
      | getEmptyPageNo => exact hroom₁
      | setEmptyPage n => exact ⟨hroom₁, hc.2⟩
    obtain ⟨out, t', hrun, hproper, hready⟩ := ht.step hc₁
    refine ⟨out, t', ?_, ?_, hready⟩
    · rw [run_of_getRootPtrPage c hroot (getRootPtrPage_run ht.hasRoot ht.size_ne_zero), hrun]
    · intro n hn
      obtain ⟨hne, hnot, hheader, -⟩ := hproper n hn
      exact ⟨hne, hnot, hheader, fun hfreed => by simp [Books.start] at hfreed⟩
  · exact ht.step hc

end Steps

section Runs

variable {σ H : Type} [TreeStore σ H] (S : TreeSim σ H)

/-- As long as the calls are the allowed ones, each of them returns, and the numbers handed out are
proper. The map of pages goes along for what the pages are. -/
def Sound : List Call → Books → σ → LogicalTree → Prop
  | [], _, _, _ => True
  | c :: cs, b, s, t => Allowed b t c → ∃ out s' t', c.run s = .ok out s' ∧ c.run t = .ok out t' ∧
      S.Inv s' t' ∧ (∀ n, out = some n → Proper b t t' n) ∧ Sound cs (b.after c out) s' t'

theorem run_agrees {s : σ} {t : LogicalTree} (hinv : S.Inv s t) (c : Call) :
    Agrees S.toCoupling s t (fun a b _ _ => a = b) (c.run s) (c.run t) := by
  cases c with
  | getEmptyPageNo =>
    apply (S.getEmptyPageNo hinv).bind
    rintro n _ s' t' hinv' - rfl
    exact Agrees.pure hinv' rfl
  | setEmptyPage n =>
    apply (S.setEmptyPage hinv n).bind
    rintro _ _ s' t' hinv' - -
    exact Agrees.pure hinv' rfl

theorem sound_of_ready (calls : List Call) {b : Books} {s : σ} {t : LogicalTree}
    (hinv : S.Inv s t) (hready : Ready b t) : Sound S calls b s t := by
  induction calls generalizing b s t with
  | nil => trivial
  | cons c cs ih =>
    intro hc
    obtain ⟨out, t', hrun, hproper, hready'⟩ := hready.step hc
    have hagrees := run_agrees S hinv c
    rw [hrun] at hagrees
    obtain ⟨_, s', hrun', hinv', -, rfl⟩ := hagrees.of_ok
    exact ⟨_, s', t', hrun', hrun, hinv', hproper, ih hinv' hready'⟩

/-- On a new file, numbers below the slots of a header page are handed out and taken back without
mistakes, for every store that follows the map of pages. -/
theorem calls_sound {s : σ} {t : LogicalTree} (hinv : S.Inv s t) (hnew : NewFile t)
    (calls : List Call) : Sound S calls .start s t :=
  sound_of_ready S calls hinv (.inl ⟨hnew, rfl⟩)

def Returns : List Call → Books → σ → LogicalTree → List (Option Int32) → Prop
  | [], _, _, _, outs => outs = []
  | c :: cs, b, s, t, outs => Allowed b t c ∧ ∃ out s' t' outs', outs = out :: outs' ∧
      c.run s = .ok out s' ∧ c.run t = .ok out t' ∧ (∀ n, out = some n → Proper b t t' n) ∧
      Returns cs (b.after c out) s' t' outs'

/-- What the calls return on the map of pages, if they are the allowed ones. -/
def allowedOuts : List Call → Books → LogicalTree → Option (List (Option Int32))
  | [], _, _ => some []
  | c :: cs, b, t =>
    if Allowed b t c then
      match c.run t with
      | .error _ _ => none
      | .ok out t' => (allowedOuts cs (b.after c out) t').map (out :: ·)
    else none

theorem Sound.returns {calls : List Call} {b : Books} {s : σ} {t : LogicalTree}
    {outs : List (Option Int32)} (h : Sound S calls b s t)
    (houts : allowedOuts calls b t = some outs) : Returns calls b s t outs := by
  induction calls generalizing b s t outs with
  | nil => exact (Option.some.inj houts).symm
  | cons c cs ih =>
    rw [allowedOuts] at houts
    split at houts
    · rename_i hc
      obtain ⟨out, s', t', hrun, hrun', -, hproper, hsound⟩ := h hc
      rw [hrun'] at houts
      obtain ⟨outs', houts', rfl⟩ := Option.map_eq_some_iff.mp houts
      exact ⟨hc, out, s', t', outs', rfl, hrun, hrun', hproper, ih hsound houts'⟩
    · cases houts

end Runs

section Files

theorem newFile_emptyTree {pageSize : ℕ} (hpos : 8 < pageSize)
    (hslots : BTreeHeaderPage.getNumSlots pageSize < 2 ^ 31) (file : BTreeFile) (numPages : ℕ)
    (order : ℕ → ℕ) : NewFile (PoolTree.emptyTree file pageSize numPages order) := by
  constructor
  case size => rfl
  case pages => exact fun _ => rfl
  case pageSize =>
    change pageSize - 8 ≠ 0
    omega
  case slots => exact hslots
  case rootPtr =>
    intro k
    have hblank : file.blankPage pageSize k (BTreeRootPtrPage.getId file.tableid) =
        .rootPtr (.ofData (BTreeRootPtrPage.getId file.tableid)
          (Memory.zeroed BTreeRootPtrPage.size (file.heap k))) := if_pos rfl
    refine ⟨_, hblank, rfl, Memory.loadWord_eq_zero fun i _ hi => Memory.zeroed_lt ?_⟩
    unfold BTreeRootPtrPage.size
    omega
  case header =>
    intro k n
    have hblank : file.blankPage pageSize k ⟨file.tableid, n, .header⟩ =
        .header (.ofData pageSize ⟨file.tableid, n, .header⟩
          (Memory.zeroed pageSize (file.heap k))) := by
      rw [BTreeFile.blankPage, if_neg (show BTreePageType.header ≠ .rootPtr by decide)]
      dsimp only
      rw [if_neg (show BTreePageType.header ≠ .internal by decide),
        if_neg (show BTreePageType.header ≠ .leaf by decide)]
    refine ⟨_, hblank, rfl, Memory.loadWord_eq_zero fun i _ hi => Memory.zeroed_lt ?_⟩
    omega

def intFile : BTreeFile := .opened 7 0 (.ofInts 1) (fun _ _ => 0) (fun _ _ => 0) fun _ => 0

def smallPages : PoolTree BTreeFile := .opened intFile 16 50 fun _ => 0

/-- The page 2 is handed out, comes back and is handed out again; the page 3 is the header page. -/
theorem smallPages_sound :
    Returns [.getEmptyPageNo, .setEmptyPage 2, .getEmptyPageNo, .getEmptyPageNo] .start smallPages
      (PoolTree.emptyTree intFile 16 50 fun _ => 0) [some 2, none, some 2, some 4] :=
  (calls_sound PoolTree.residentSim (PoolTree.opened_resident rfl (fun _ => rfl) 16 50 fun _ => 0)
    (newFile_emptyTree (by decide) (by decide) intFile 50 fun _ => 0) _).returns _
    (by decide +kernel)

def runCalls (calls : List Call) (s : PoolTree BTreeFile) : Except Fault (List (Option Int32)) :=
  match calls.mapM Call.run s with
  | .ok outs _ => .ok outs
  | .error e _ => .error e

def sevenPages : List Call := List.replicate 7 .getEmptyPageNo

/-- A header page of 9 bytes has eight slots. The page 8 is handed out, and when it comes back, the
slot 8 of the header page is marked. -/
theorem eighth_page_overruns :
    runCalls sevenPages (.opened intFile 9 50 fun _ => 0) =
      .ok [some 2, some 3, some 4, some 5, some 6, some 7, some 8] ∧
    runCalls (sevenPages ++ [.setEmptyPage 8]) (.opened intFile 9 50 fun _ => 0) =
      .error .outOfBounds := by
  decide +kernel

end Files

end PageAllocator

end PagedDb
