import PagedDb.BTree.DeleteFails
import PagedDb.BTree.FileWrites

/-!
# Pages that are used again

`getEmptyPage` wipes as many bytes of the page it hands out as the root pointer
page has. On a file whose `pwrite` honours its offset those are the first nine:
what a new leaf or internal page keeps behind them is what the old page left.
-/

namespace PagedDb

open Memory Exec

/-- A `BTreeFile` whose `pwrite` calls write to their offsets. -/
structure PositionalFile extends BTreeFile

namespace PositionalFile

open BTreeFile

def writePage (f : PositionalFile) (pageSize : ℕ) (page : BTreeFilePage) : PositionalFile :=
  let data := page.getPageData pageSize f.scratch
  if page.getId.type = .rootPtr then
    { f with fd := f.fd.pwrite data BTreeRootPtrPage.size 0 }
  else { f with fd := f.fd.pwrite data pageSize (pageOffset pageSize page.getId.pgNo) }

/-- The two `pwrite` calls of `getRootPtrPage` on an empty file. -/
def createFile (f : PositionalFile) (pageSize : ℕ) : PositionalFile :=
  let fd := f.fd.pwrite (zeroed BTreeRootPtrPage.size f.scratch) BTreeRootPtrPage.size 0
  { f with fd := fd.pwrite (zeroed pageSize f.scratch) pageSize BTreeRootPtrPage.size }

/-- The `pwrite` call of `getEmptyPage`. -/
def clearPage (f : PositionalFile) (pageSize : ℕ) (pgNo : Int32) : PositionalFile :=
  let page := zeroed BTreeRootPtrPage.size f.scratch
  { f with fd := f.fd.pwrite page BTreeRootPtrPage.size (pageOffset pageSize pgNo) }

instance : PageFile BTreeFilePage PositionalFile where
  getId page := .btree page.getId
  readPage f := PageFile.readPage f.toBTreeFile
  writePage f pageSize tableId page :=
    if tableId ≠ f.tableid then .error (.runtimeError "Table not found")
    else .ok (f.writePage pageSize page)

instance : BTreeDisk PositionalFile where
  tableid f := f.tableid
  keyField f := f.keyField
  isEmpty f := f.fd.size = 0
  getNumPages f := f.toBTreeFile.getNumPages
  createFile := createFile
  appendPage f pageSize := ⟨f.toBTreeFile.appendPage pageSize⟩
  clearPage := clearPage

/-- Where page `n` begins. -/
def place (pageSize : ℕ) (n : Int32) : ℕ := (pageOffset pageSize n).toNat

/-- Bit `i` of the bytes from an offset on. -/
def bit (f : PositionalFile) (off i : ℕ) : Bool := (f.fd.byte (off + i / 8)).toNat.testBit (i % 8)

/-- Behind its first nine bytes, page `n` holds nothing that a new page of the type would take for
the rest of a right sibling or for a used slot. -/
def CleanBehind (f : PositionalFile) (pageSize : ℕ) (n : Int32) (type : BTreePageType) : Prop :=
  if type = .leaf then
    (∀ i, 9 ≤ i → i < 12 → f.fd.byte (place pageSize n + i) = 0) ∧
      ∀ i < BTreeLeafPage.getMaxTuples pageSize f.td, f.bit (place pageSize n + 12) i = false
  else
    ∀ i, 8 ≤ i → i ≤ BTreeInternalPage.maxEntries pageSize f.td f.keyField →
      f.bit (place pageSize n + 8) i = false

end PositionalFile

def BTreeFilePage.IsEmpty : BTreeFilePage → Prop
  | .leaf p => p.parent = 0 ∧ p.leftSibling = 0 ∧ p.rightSibling = 0 ∧
      ∀ i < p.numSlots, p.isSlotUsed i = false
  | .internal p => p.parent = 0 ∧ ∀ i < p.numSlots, p.isSlotUsed i = false
  | _ => False

namespace BTreeLeafPage

/-- The decoder's page is empty exactly if the pointers and the bits of the slots are zero. -/
theorem ofData_isEmpty_iff {pageSize : ℕ} {td : TupleDesc} {id : BTreePageId} {key : ℕ}
    {data stack : Buffer} :
    (BTreeFilePage.leaf (ofData pageSize td id key data stack)).IsEmpty ↔
      (∀ i < 12, data i = 0) ∧ ∀ i < getMaxTuples pageSize td,
        (data (12 + i / 8)).toNat.testBit (i % 8) = false := by
  have hbits : ∀ i < getMaxTuples pageSize td, (ofData pageSize td id key data stack).isSlotUsed i =
      (data (12 + i / 8)).toNat.testBit (i % 8) := by
    intro i hi
    have hle := slots_le_header pageSize td
    exact Bitmap.get_read (by omega)
  have hwords : loadWord data 0 = 0 ∧ loadWord data 4 = 0 ∧ loadWord data 8 = 0 ↔
      ∀ i < 12, data i = 0 := by
    simp only [loadWord_eq_zero_iff]
    constructor
    · rintro ⟨h₀, h₁, h₂⟩ i hi
      rcases Nat.lt_or_ge i 4 with h | h
      · simpa using h₀ i h
      · rcases Nat.lt_or_ge i 8 with h' | h'
        · simpa [Nat.add_sub_cancel' h] using h₁ (i - 4) (by omega)
        · simpa [Nat.add_sub_cancel' h'] using h₂ (i - 8) (by omega)
    · intro h
      exact ⟨fun i hi => h _ (by omega), fun i hi => h _ (by omega), fun i hi => h _ (by omega)⟩
  rw [← hwords]
  constructor
  · rintro ⟨hparent, hleft, hright, hused⟩
    exact ⟨⟨hparent, hleft, hright⟩, fun i hi => (hbits i hi).symm.trans (hused i hi)⟩
  · rintro ⟨⟨hparent, hleft, hright⟩, hclear⟩
    exact ⟨hparent, hleft, hright, fun i hi => (hbits i hi).trans (hclear i hi)⟩

end BTreeLeafPage

namespace BTreeInternalPage

/-- The decoder's page is empty exactly if the parent and the bits of the slots are zero. -/
theorem ofData_isEmpty_iff {pageSize : ℕ} {td : TupleDesc} {id : BTreePageId} {key : ℕ}
    {data stack : Buffer} :
    (BTreeFilePage.internal (ofData pageSize td id key data stack)).IsEmpty ↔
      (∀ i < 4, data i = 0) ∧ ∀ i ≤ maxEntries pageSize td key,
        (data (8 + i / 8)).toNat.testBit (i % 8) = false := by
  have hbits : ∀ i ≤ maxEntries pageSize td key,
      (ofData pageSize td id key data stack).isSlotUsed i =
        (data (8 + i / 8)).toNat.testBit (i % 8) := by
    intro i hi
    have hle := slots_le_header (maxEntries pageSize td key + 1)
    exact Bitmap.get_read (by omega)
  have hword : loadWord data 0 = 0 ↔ ∀ i < 4, data i = 0 := by simp [loadWord_eq_zero_iff]
  rw [← hword]
  constructor
  · rintro ⟨hparent, hused⟩
    exact ⟨hparent, fun i hi => (hbits i hi).symm.trans (hused i (Nat.lt_succ_of_le hi))⟩
  · rintro ⟨hparent, hclear⟩
    exact ⟨hparent, fun i hi => (hbits i (Nat.le_of_lt_succ hi)).trans
      (hclear i (Nat.le_of_lt_succ hi))⟩

end BTreeInternalPage

namespace PositionalFile

open BTreeFile

/-- Writing the page `id` leaves the bytes of page `n` alone. -/
def Apart (pageSize : ℕ) (n : Int32) (id : BTreePageId) : Prop :=
  if id.type = .rootPtr then (BTreeRootPtrPage.size : Int) ≤ pageOffset pageSize n
  else pageOffset pageSize id.pgNo + pageSize ≤ pageOffset pageSize n ∨
    pageOffset pageSize n + pageSize ≤ pageOffset pageSize id.pgNo

instance (pageSize : ℕ) (n : Int32) (id : BTreePageId) : Decidable (Apart pageSize n id) :=
  inferInstanceAs (Decidable (if id.type = .rootPtr then _ else _))

/-- The place of page `n` is in the file and holds these bytes; the schema is that of `f₀`. -/
structure Shelved (f₀ : PositionalFile) (pageSize : ℕ) (n : Int32) (content : Buffer)
    (f : PositionalFile) : Prop where
  td : f.td = f₀.td
  keyField : f.keyField = f₀.keyField
  in_file : place pageSize n + pageSize ≤ f.fd.size
  bytes : ∀ i < pageSize, f.fd.byte (place pageSize n + i) = content i

/-- The bytes of page `n` after the `pwrite` call of `getEmptyPage`. -/
def wiped (f : PositionalFile) (pageSize : ℕ) (n : Int32) : Buffer := fun i =>
  if i < BTreeRootPtrPage.size then 0 else f.fd.byte (place pageSize n + i)

theorem of_writePage_ok {f f' : PositionalFile} {pageSize : ℕ} {tableId : Int32}
    {page : BTreeFilePage} (h : PageFile.writePage f pageSize tableId page = .ok f') :
    f' = f.writePage pageSize page := by
  change (if tableId ≠ f.tableid then _ else _) = _ at h
  split at h
  · cases h
  · exact (Except.ok.inj h).symm

variable {f₀ f : PositionalFile} {pageSize : ℕ} {n : Int32} {content : Buffer}

theorem wiped_behind {i : ℕ} (hi : BTreeRootPtrPage.size ≤ i) :
    f.wiped pageSize n i = f.fd.byte (place pageSize n + i) := by
  rw [wiped, if_neg (by omega)]

theorem place_eq (hn : 0 ≤ pageOffset pageSize n) :
    (place pageSize n : Int) = pageOffset pageSize n :=
  Int.toNat_of_nonneg hn

theorem Shelved.write (h : Shelved f₀ pageSize n content f) {data : Buffer} {len : ℕ} {off : Int}
    (hapart : off + len ≤ place pageSize n ∨ (place pageSize n : Int) + pageSize ≤ off) :
    Shelved f₀ pageSize n content ⟨{ f.toBTreeFile with fd := f.fd.pwrite data len off }⟩ := by
  obtain ⟨hsize, hsame⟩ := @File.pwrite_apart f.fd data len (place pageSize n) pageSize off hapart
  refine ⟨h.td, h.keyField, h.in_file.trans hsize, ?_⟩
  intro i hi
  exact (hsame i hi).trans (h.bytes i hi)

theorem Shelved.writePage (h : Shelved f₀ pageSize n content f) (hn : 0 ≤ pageOffset pageSize n)
    {page : BTreeFilePage} (hapart : Apart pageSize n page.getId) :
    Shelved f₀ pageSize n content (f.writePage pageSize page) := by
  have hplace := place_eq hn
  unfold Apart at hapart
  unfold PositionalFile.writePage
  split
  · rw [if_pos ‹_›] at hapart
    exact h.write (.inl (by omega))
  · rw [if_neg ‹_›] at hapart
    exact h.write (by omega)

theorem Shelved.appendPage (h : Shelved f₀ pageSize n content f) (size : ℕ) :
    Shelved f₀ pageSize n content ⟨f.toBTreeFile.appendPage size⟩ := by
  have hin := h.in_file
  refine ⟨h.td, h.keyField, ?_, ?_⟩
  · exact hin.trans (by simp [BTreeFile.appendPage])
  · intro i hi
    exact (File.append_byte_of_lt (by omega)).trans (h.bytes i hi)

/-- The `pwrite` call of `getEmptyPage` zeroes nine bytes of the page. -/
theorem Shelved.clearPage (h : Shelved f₀ pageSize n content f)
    (hn : 0 ≤ pageOffset pageSize n) :
    Shelved f₀ pageSize n (fun i => if i < BTreeRootPtrPage.size then 0 else content i)
      (f.clearPage pageSize n) := by
  have hin := h.in_file
  have hput : (f.clearPage pageSize n).fd =
      f.fd.put (zeroed BTreeRootPtrPage.size f.scratch) BTreeRootPtrPage.size (place pageSize n) :=
    if_neg (by omega)
  refine ⟨h.td, h.keyField, ?_, ?_⟩
  · rw [hput]
    exact hin.trans (le_max_left _ _)
  · intro i hi
    rw [hput]
    split
    · rw [File.put_byte_inside ‹_›, zeroed, if_pos ‹_›]
    · rw [File.put_byte_outside (by omega), h.bytes i hi]

theorem Shelved.pread (h : Shelved f₀ pageSize n content f) (hn : 0 ≤ pageOffset pageSize n)
    (buf : Buffer) {i : ℕ} (hi : i < pageSize) :
    f.fd.pread buf pageSize (pageOffset pageSize n) i = content i := by
  rw [← place_eq hn, File.pread_eq hi h.in_file]
  exact h.bytes i hi

theorem of_readPage_leaf {id : BTreePageId} (htype : id.type = .leaf) {ref : Ref}
    {page : BTreeFilePage} (hread : f.readPage pageSize id ref = .ok page) :
    page = .leaf (.ofData pageSize f.td id f.keyField
      (f.fd.pread (f.heap ref) pageSize (pageOffset pageSize id.pgNo)) (f.stack ref)) := by
  have hne : id.type ≠ .rootPtr := by rw [htype]; decide
  have hne' : id.type ≠ .internal := by rw [htype]; decide
  rw [readPage, if_neg hne] at hread
  obtain ⟨-, -, hrest⟩ := of_except_bind hread
  dsimp only at hrest
  rw [if_neg hne', if_pos htype] at hrest
  exact (Except.ok.inj hrest).symm

theorem of_readPage_internal {id : BTreePageId} (htype : id.type = .internal) {ref : Ref}
    {page : BTreeFilePage} (hread : f.readPage pageSize id ref = .ok page) :
    page = .internal (.ofData pageSize f.td id f.keyField
      (f.fd.pread (f.heap ref) pageSize (pageOffset pageSize id.pgNo)) (f.stack ref)) := by
  have hne : id.type ≠ .rootPtr := by rw [htype]; decide
  rw [readPage, if_neg hne] at hread
  obtain ⟨-, -, hrest⟩ := of_except_bind hread
  dsimp only at hrest
  rw [if_pos htype] at hrest
  exact (Except.ok.inj hrest).symm

/-- A new leaf read from its wiped place is empty exactly if the rest of the place is clean. -/
theorem leaf_isEmpty_iff {data stack : Buffer} {id : BTreePageId} {key : ℕ} (hsize : 12 ≤ pageSize)
    (hdata : ∀ i < pageSize, data i = f₀.wiped pageSize n i) :
    (BTreeFilePage.leaf (.ofData pageSize f₀.td id key data stack)).IsEmpty ↔
      f₀.CleanBehind pageSize n .leaf := by
  have hsmall : BTreeRootPtrPage.size = 9 := rfl
  rw [BTreeLeafPage.ofData_isEmpty_iff, CleanBehind, if_pos rfl]
  apply and_congr
  · constructor
    · intro h i hi hlt
      rw [← wiped_behind hi, ← hdata i (by omega)]
      exact h i hlt
    · intro h i hi
      rw [hdata i (by omega)]
      rcases Nat.lt_or_ge i 9 with hlt | hge
      · rw [wiped, if_pos (by omega)]
      · rw [wiped_behind (by omega)]
        exact h i hge hi
  · apply forall₂_congr
    intro i hi
    have hfits := BTreeLeafPage.layout pageSize f₀.td
    rw [hdata _ (by omega), wiped_behind (by omega), bit, Nat.add_assoc]

theorem internal_bits_inside {td : TupleDesc} {key i : ℕ} (hsize : 12 ≤ pageSize)
    (hi : i ≤ BTreeInternalPage.maxEntries pageSize td key) : 8 + i / 8 < pageSize := by
  rcases Nat.eq_zero_or_pos (BTreeInternalPage.maxEntries pageSize td key) with hzero | hpos
  · omega
  · have hfits := BTreeInternalPage.keys_inside hpos
    have hheader := BTreeInternalPage.slots_le_header
      (BTreeInternalPage.maxEntries pageSize td key + 1)
    omega

/-- A new internal page read from its wiped place: the first eight slots were wiped. -/
theorem internal_isEmpty_iff {data stack : Buffer} {id : BTreePageId} (hsize : 12 ≤ pageSize)
    (hdata : ∀ i < pageSize, data i = f₀.wiped pageSize n i) :
    (BTreeFilePage.internal (.ofData pageSize f₀.td id f₀.keyField data stack)).IsEmpty ↔
      f₀.CleanBehind pageSize n .internal := by
  have hsmall : BTreeRootPtrPage.size = 9 := rfl
  have hzero : ∀ i < 9, data i = 0 := by
    intro i hi
    rw [hdata i (by omega), wiped, if_pos (by omega)]
  have hne : BTreePageType.internal ≠ .leaf := by decide
  rw [BTreeInternalPage.ofData_isEmpty_iff, CleanBehind, if_neg hne]
  constructor
  · rintro ⟨-, hclear⟩ i hi hle
    have hin := internal_bits_inside hsize hle
    rw [bit, Nat.add_assoc, ← hclear i hle, hdata _ hin, wiped, if_neg (by omega)]
  · intro hclean
    refine ⟨fun i hi => hzero i (by omega), ?_⟩
    intro i hle
    rcases Nat.lt_or_ge i 8 with hlt | hge
    · rw [hzero _ (by omega)]
      exact Nat.zero_testBit _
    · have hin := internal_bits_inside hsize hle
      have hclear := hclean i hge hle
      rwa [bit, Nat.add_assoc, ← wiped_behind (by omega), ← hdata _ hin] at hclear

theorem Shelved.readPage_isEmpty_iff (h : Shelved f₀ pageSize n (f₀.wiped pageSize n) f)
    (hn : 0 ≤ pageOffset pageSize n) (hsize : 12 ≤ pageSize) {id : BTreePageId} (hno : id.pgNo = n)
    (htype : id.type = .leaf ∨ id.type = .internal) {ref : Ref} {page : BTreeFilePage}
    (hread : f.readPage pageSize id ref = .ok page) :
    page.IsEmpty ↔ f₀.CleanBehind pageSize n id.type := by
  have hdata : ∀ i < pageSize, f.fd.pread (f.heap ref) pageSize (pageOffset pageSize id.pgNo) i =
      f₀.wiped pageSize n i := by
    intro i hi
    rw [hno]
    exact h.pread hn _ hi
  rcases htype with htype | htype
  · rw [of_readPage_leaf htype hread, htype, h.td]
    exact leaf_isEmpty_iff hsize hdata
  · rw [of_readPage_internal htype hread, htype, h.td, h.keyField]
    exact internal_isEmpty_iff hsize hdata

end PositionalFile

namespace BTreeFile

variable {σ H : Type} [TreeStore σ H] {I : σ → Prop} {s s' : σ} {h : H}

/-- What `getEmptyPageNo` does keeps the property: it gets pages, changes header pages where they
are and lets the file grow. -/
structure KeptByAllocation (I : σ → Prop) : Prop where
  getPage : ∀ id perm, Keeps I (TreeStore.getPage id perm : EStateM Fault σ H)
  store : ∀ (h : H) (page : BTreeFilePage) (s : σ), Named h page.getId s → I s →
    I (stateOf (TreeStore.store h page s))
  getRootPtrPage : Keeps I (getRootPtrPage : EStateM Fault σ H)
  appendPage : Keeps I (TreeStore.appendPage : EStateM Fault σ Unit)

variable [LawfulTreeStore σ H]

theorem keeps_of_load (ref : H) : Keeps I (TreeStore.load ref : EStateM Fault σ BTreeFilePage) := by
  intro s hs
  rwa [LawfulTreeStore.load_state]

theorem keeps_rootPtrAt (ref : H) : Keeps I (rootPtrAt ref : EStateM Fault σ BTreeRootPtrPage) := by
  refine (keeps_of_load ref).bind fun page => ?_
  cases page with
  | rootPtr p => exact Keeps.pure p
  | header p => exact Keeps.throw _
  | internal p => exact Keeps.throw _
  | leaf p => exact Keeps.throw _

theorem headerAt_ok {p : BTreeHeaderPage} (hrun : headerAt h s = .ok p s') :
    s' = s ∧ Named h p.pid s := by
  obtain ⟨q, s₁, hload, hrest⟩ := of_bind_ok hrun
  obtain rfl := load_ok hload
  cases q with
  | header q =>
    cases hrest
    exact ⟨rfl, _, hload, rfl⟩
  | rootPtr q => cases hrest
  | internal q => cases hrest
  | leaf q => cases hrest

theorem keeps_headerAt (ref : H) : Keeps I (headerAt ref : EStateM Fault σ BTreeHeaderPage) := by
  refine (keeps_of_load ref).bind fun page => ?_
  cases page with
  | header p => exact Keeps.pure p
  | rootPtr p => exact Keeps.throw _
  | internal p => exact Keeps.throw _
  | leaf p => exact Keeps.throw _

namespace KeptByAllocation

theorem modifyHeader (hI : KeptByAllocation I) (ref : H)
    {f : BTreeHeaderPage → Except Fault BTreeHeaderPage}
    (hf : ∀ p q, f p = .ok q → q.pid = p.pid) :
    Keeps I (modifyHeader ref f : EStateM Fault σ Unit) := by
  intro s hs
  cases hrun : (headerAt ref : EStateM Fault σ BTreeHeaderPage) s with
  | error e s₁ =>
    have hkeep := keeps_headerAt ref s hs
    rw [hrun] at hkeep
    rw [BTreeFile.modifyHeader, bind_error hrun]
    exact hkeep
  | ok p s₁ =>
    obtain ⟨rfl, hnamed⟩ := headerAt_ok hrun
    rw [BTreeFile.modifyHeader, bind_ok hrun]
    cases hq : f p with
    | error e => exact hs
    | ok q =>
      rw [← hf p q hq] at hnamed
      exact hI.store ref (.header q) s₁ hnamed hs

theorem markSlotUsed (hI : KeptByAllocation I) (ref : H) (slot : Int) (value : Bool) :
    Keeps I (markSlotUsed ref slot value : EStateM Fault σ Unit) := by
  apply Keeps.get
  intro s
  apply hI.modifyHeader
  intro p q hq
  split at hq
  · cases hq
    rfl
  · cases hq

theorem findHeaderPage (hI : KeptByAllocation I) (fuel : ℕ) (ref : H) (count : ℕ) :
    Keeps I (findHeaderPage fuel ref count :
      EStateM Fault σ (Option (BTreePageId × ℕ))) := by
  induction fuel generalizing ref count with
  | zero => exact Keeps.throw _
  | succ fuel ih =>
    refine (keeps_headerAt ref).bind fun p => Keeps.get fun s => Keeps.ite (Keeps.pure _) ?_
    cases p.getNextPageId with
    | none => exact Keeps.pure none
    | some id => exact (hI.getPage id .readOnly).bind fun r => ih r (count + 1)

theorem findEmptyHeader (hI : KeptByAllocation I) (p : BTreeRootPtrPage) :
    Keeps I (findEmptyHeader p : EStateM Fault σ (Option (BTreePageId × ℕ))) := by
  unfold BTreeFile.findEmptyHeader
  cases p.getHeaderId with
  | none => exact Keeps.pure none
  | some id =>
    exact (hI.getPage id .readOnly).bind fun r => Keeps.get fun s => hI.findHeaderPage _ r 0

theorem getEmptyPageNo (hI : KeptByAllocation I) :
    Keeps I (getEmptyPageNo : EStateM Fault σ Int32) := by
  refine hI.getRootPtrPage.bind fun rootPtr => ?_
  refine (keeps_rootPtrAt rootPtr).bind fun p => (hI.findEmptyHeader p).bind fun found => ?_
  cases found with
  | none => exact hI.appendPage.bind fun _ => Keeps.get fun s => Keeps.pure _
  | some found =>
    obtain ⟨headerId, count⟩ := found
    refine (hI.getPage headerId .readWrite).bind fun r => (keeps_headerAt r).bind fun h =>
      Keeps.get fun s => ?_
    dsimp only
    cases h.getEmptySlot (TreeStore.pageSize s) with
    | none => exact Keeps.throw _
    | some slot => exact (hI.markSlotUsed r slot true).bind fun _ => Keeps.pure _

end KeptByAllocation

end BTreeFile

namespace PoolTree

open BTreeFile PositionalFile

/-- The place of page `n` holds these bytes, and the pool has no page to write over it. -/
structure Guards (f₀ : PositionalFile) (pageSize : ℕ) (n : Int32) (content : Buffer)
    (db : Database BTreeFilePage PositionalFile) : Prop where
  pageSize_eq : db.pageSize = pageSize
  shelved : Shelved f₀ pageSize n content db.files
  apart : ∀ pid ref obj, db.pages.lookup pid = some ref → db.objects[ref]? = some obj →
    obj.dirty.isSome → Apart pageSize n obj.page.getId

variable {f₀ : PositionalFile} {pageSize : ℕ} {n : Int32} {content : Buffer}
  {db : Database BTreeFilePage PositionalFile} {s s' : PoolTree PositionalFile}

/-- A page object may change, but not become a dirty page at the place of page `n`. -/
theorem Guards.setObject (h : Guards f₀ pageSize n content db) {ref : Ref}
    {obj : PageObject BTreeFilePage}
    (hobj : ∀ pid, db.pages.lookup pid = some ref → obj.dirty.isSome →
      Apart pageSize n obj.page.getId) :
    Guards f₀ pageSize n content (db.setObject ref obj) := by
  refine ⟨h.pageSize_eq, h.shelved, ?_⟩
  intro pid r o hl ho hdirty
  by_cases hr : ref = r
  · subst hr
    obtain ⟨hlt, -⟩ := List.getElem?_eq_some_iff.mp ho
    rw [Database.setObject, List.length_set] at hlt
    have hset : (db.setObject ref obj).objects[ref]? = some obj := List.getElem?_set_self hlt
    rw [hset] at ho
    cases ho
    exact hobj pid hl hdirty
  · exact h.apart pid r o hl ((Database.setObject_ne hr).symm.trans ho) hdirty

theorem Guards.erase (h : Guards f₀ pageSize n content db) (pid : PageId) :
    Guards f₀ pageSize n content { db with pages := db.pages.erase pid } := by
  refine ⟨h.pageSize_eq, h.shelved, ?_⟩
  intro q r o hl ho hdirty
  by_cases hq : q = pid
  · have hnone : (db.pages.erase pid).lookup pid = none := AList.lookup_erase pid db.pages
    rw [← hq] at hnone
    change (db.pages.erase pid).lookup q = some r at hl
    rw [hq] at hl hnone
    rw [hnone] at hl
    cases hl
  · exact h.apart q r o ((AList.lookup_erase_ne hq).symm.trans hl) ho hdirty

theorem keeps_guards_flushPage (hn : 0 ≤ pageOffset pageSize n) (pid : PageId) :
    Keeps (Guards f₀ pageSize n content)
      (BufferPool.flushPage pid : DbM BTreeFilePage PositionalFile Unit) := by
  intro db h
  unfold BufferPool.flushPage
  rw [bind_ok (get_run db)]
  cases hl : db.pages.lookup pid with
  | none => exact h
  | some ref =>
    dsimp only
    cases hobj : db.objects[ref]? with
    | none =>
      have hfail : deref ref db = .error .nullDeref db := by rw [deref, hobj]
      rw [bind_error hfail]
      exact h
    | some obj =>
      rw [bind_ok (deref_run hobj)]
      split
      · rename_i hdirty
        have hclean : Guards f₀ pageSize n content (db.setObject ref { obj with dirty := none }) :=
          h.setObject fun _ _ hd => nomatch hd
        rw [bind_ok (markDirty_run hobj none)]
        cases hw : PageFile.writePage db.files db.pageSize pid.getTableId obj.page with
        | error e => exact hclean
        | ok files =>
          have hfiles : files = db.files.writePage pageSize obj.page := by
            rw [← h.pageSize_eq]
            exact of_writePage_ok hw
          have hshelved : Shelved f₀ pageSize n content files := by
            rw [hfiles]
            exact h.shelved.writePage hn (h.apart pid ref obj hl hobj hdirty)
          exact ⟨h.pageSize_eq, hshelved, hclean.apart⟩
      · exact h

theorem keeps_guards_evictPage (hn : 0 ≤ pageOffset pageSize n) :
    Keeps (Guards f₀ pageSize n content)
      (BufferPool.evictPage : DbM BTreeFilePage PositionalFile Unit) := by
  apply Keeps.get
  intro db
  split
  · exact Keeps.pure ()
  · rename_i pid _
    refine Keeps.bind (Keeps.modify ?_) fun _ => (keeps_guards_flushPage hn pid).bind fun _ =>
      Keeps.modify ?_
    · exact fun _ h => ⟨h.pageSize_eq, h.shelved, h.apart⟩
    · exact fun _ h => h.erase pid

theorem Guards.newObject (h : Guards f₀ pageSize n content db) (page : BTreeFilePage)
    (pid : PageId) :
    Guards f₀ pageSize n content
      { db with
        objects := db.objects ++ [⟨page, none⟩]
        pages := db.pages.insert pid db.objects.length } := by
  refine ⟨h.pageSize_eq, h.shelved, ?_⟩
  intro q r o hl ho hdirty
  have hold : r < db.objects.length := by
    by_contra hge
    have hlast : o = ⟨page, none⟩ := by
      change (db.objects ++ [⟨page, none⟩])[r]? = some o at ho
      rw [List.getElem?_append_right (Nat.le_of_not_lt hge)] at ho
      exact List.mem_singleton.mp (List.mem_of_getElem? ho)
    rw [hlast] at hdirty
    cases hdirty
  have hq : q ≠ pid := by
    rintro rfl
    have hself : (db.pages.insert q db.objects.length).lookup q = some db.objects.length :=
      AList.lookup_insert db.pages
    obtain rfl : db.objects.length = r := Option.some.inj (hself.symm.trans hl)
    exact lt_irrefl _ hold
  exact h.apart q r o ((AList.lookup_insert_ne hq).symm.trans hl)
    ((List.getElem?_append_left hold).symm.trans ho) hdirty

theorem keeps_guards_loadPage (pid : PageId) :
    Keeps (Guards f₀ pageSize n content)
      (BufferPool.loadPage pid : DbM BTreeFilePage PositionalFile Ref) := by
  intro db h
  unfold BufferPool.loadPage
  rw [bind_ok (get_run db)]
  cases hread : (PageFile.readPage db.files db.pageSize pid db.objects.length :
    Except Fault BTreeFilePage) with
  | error e =>
    rw [bind_error (lift_error e db)]
    exact h
  | ok page =>
    rw [bind_ok (lift_run rfl db)]
    exact h.newObject page pid

theorem keeps_guards_getPage (hn : 0 ≤ pageOffset pageSize n) (pid : PageId) :
    Keeps (Guards f₀ pageSize n content)
      (BufferPool.getPage pid : DbM BTreeFilePage PositionalFile Ref) := by
  apply Keeps.get
  intro db
  split
  · exact Keeps.pure _
  · exact (Keeps.ite (keeps_guards_evictPage hn) (Keeps.pure ())).bind fun _ =>
      keeps_guards_loadPage pid

section Allocation

/-- A run keeps page `n` and its place as they are. -/
def Spares (f₀ : PositionalFile) (pageSize : ℕ) (n : Int32) (content : Buffer) {α : Type}
    (x : EStateM Fault (PoolTree PositionalFile) α) : Prop :=
  Keeps (fun s => Guards f₀ pageSize n content s.db) x

theorem spares_getPage (hn : 0 ≤ pageOffset pageSize n) (pid : BTreePageId) (perm : Permissions) :
    Spares f₀ pageSize n content
      (TreeStore.getPage pid perm : EStateM Fault (PoolTree PositionalFile) Ref) := by
  change Spares f₀ pageSize n content (PoolTree.getPage pid perm)
  apply Keeps.get
  intro s
  cases s.dirtypages.lookup (.btree pid) with
  | some ref => exact Keeps.pure ref
  | none =>
    refine Keeps.bind ?_ fun r => ?_
    · intro s hs
      rw [onDb, stateOf_zoom]
      exact keeps_guards_getPage hn _ _ hs
    · have hlist : Spares f₀ pageSize n content
          (modify fun s => { s with dirtypages := s.dirtypages.insert (.btree pid) r } :
            EStateM Fault (PoolTree PositionalFile) PUnit) := Keeps.modify fun _ h => h
      exact Keeps.ite (hlist.bind fun _ => Keeps.pure r) (Keeps.pure r)

theorem spares_store (ref : Ref) (page : BTreeFilePage) (hnamed : Named ref page.getId s)
    (hs : Guards f₀ pageSize n content s.db) :
    Guards f₀ pageSize n content (stateOf (TreeStore.store ref page s)).db := by
  obtain ⟨obj, hobj, hid⟩ := named_iff.mp hnamed
  have hderef : onDb (deref ref) s = .ok obj s := zoom_ok (deref_run hobj)
  change Guards f₀ pageSize n content (stateOf (PoolTree.store ref page s)).db
  rw [PoolTree.store, bind_ok hderef]
  apply hs.setObject
  intro pid hl hdirty
  change Apart pageSize n page.getId
  rw [← hid]
  exact hs.apart pid ref obj hl hobj hdirty

theorem spares_onFile {g : PositionalFile → ℕ → PositionalFile}
    (hg : ∀ f size, Shelved f₀ pageSize n content f → Shelved f₀ pageSize n content (g f size)) :
    Spares f₀ pageSize n content (onFile g) := by
  intro s hs
  exact ⟨hs.pageSize_eq, hg _ _ hs.shelved, hs.apart⟩

theorem spares_getRootPtrPage (hn : 0 ≤ pageOffset pageSize n) (hpos : 0 < pageSize) :
    Spares f₀ pageSize n content
      (getRootPtrPage : EStateM Fault (PoolTree PositionalFile) Ref) := by
  intro s hs
  have hnonempty : TreeStore.isEmpty s = false := by
    have hin := hs.shelved.in_file
    exact decide_eq_false (by omega)
  have hread : Spares f₀ pageSize n content
      (rootPtrId >>= fun id => TreeStore.getPage id .readOnly :
        EStateM Fault (PoolTree PositionalFile) Ref) :=
    Keeps.get fun _ => spares_getPage hn _ .readOnly
  rw [getRootPtrPage, bind_ok (get_run s), hnonempty]
  exact hread s hs

theorem spares_getEmptyPageNo (hn : 0 ≤ pageOffset pageSize n) (hpos : 0 < pageSize) :
    Spares f₀ pageSize n content
      (getEmptyPageNo : EStateM Fault (PoolTree PositionalFile) Int32) := by
  have hkept : KeptByAllocation fun s : PoolTree PositionalFile =>
      Guards f₀ pageSize n content s.db :=
    { getPage := spares_getPage hn
      store := fun ref page _ hnamed hs => spares_store ref page hnamed hs
      getRootPtrPage := spares_getRootPtrPage hn hpos
      appendPage := spares_onFile fun _ size h => h.appendPage size }
  exact hkept.getEmptyPageNo

end Allocation

section Reuse

/-- Page `n` is in the file and not in the pool: no resident page shares a byte with it. -/
structure StoredOnly (s : PoolTree PositionalFile) (n : Int32) : Prop where
  offset_nonneg : 0 ≤ pageOffset s.db.pageSize n
  in_file : pageOffset s.db.pageSize n + s.db.pageSize ≤ s.db.files.fd.size
  not_resident : ∀ pid ref obj, s.db.pages.lookup pid = some ref → s.db.objects[ref]? = some obj →
    Apart s.db.pageSize n obj.page.getId

theorem StoredOnly.guards (h : StoredOnly s n) :
    Guards s.db.files s.db.pageSize n
      (fun i => s.db.files.fd.byte (place s.db.pageSize n + i)) s.db := by
  have hplace := place_eq h.offset_nonneg
  have hin := h.in_file
  refine ⟨rfl, ⟨rfl, rfl, by omega, fun _ _ => rfl⟩, ?_⟩
  intro pid ref obj hl hobj _
  exact h.not_resident pid ref obj hl hobj

/-- The end of the pool's `getPage`: the new object holds what the file holds. -/
theorem loadPage_reads (h : Guards f₀ pageSize n content db) {id : BTreePageId} {ref : Ref}
    {db' : Database BTreeFilePage PositionalFile}
    (hrun : BufferPool.loadPage (.btree id) db = .ok ref db') :
    ∃ f obj, Shelved f₀ pageSize n content f ∧
      f.readPage pageSize id ref = .ok obj.page ∧ db'.objects[ref]? = some obj := by
  rw [BufferPool.loadPage, bind_ok (get_run db)] at hrun
  obtain ⟨page, db₁, hread, hnew⟩ := of_bind_ok hrun
  obtain ⟨hread, rfl⟩ := of_lift_ok hread
  cases hnew
  refine ⟨db₁.files, ⟨page, none⟩, h.shelved, ?_, ?_⟩
  · change (if id.tableId ≠ db₁.files.tableid then _ else _) = _ at hread
    split at hread
    · cases hread
    · rw [h.pageSize_eq] at hread
      exact hread
  · simp

theorem poolGetPage_reads (h : Guards f₀ pageSize n content db) (hn : 0 ≤ pageOffset pageSize n)
    {id : BTreePageId} (hpool : db.pages.lookup (.btree id) = none) {ref : Ref}
    {db' : Database BTreeFilePage PositionalFile}
    (hrun : BufferPool.getPage (.btree id) db = .ok ref db') :
    ∃ f obj, Shelved f₀ pageSize n content f ∧
      f.readPage pageSize id ref = .ok obj.page ∧ db'.objects[ref]? = some obj := by
  rw [BufferPool.getPage, bind_ok (get_run db), hpool] at hrun
  obtain ⟨⟨⟩, db₁, hevict, hload⟩ := of_bind_ok hrun
  have hkeep : Keeps (Guards f₀ pageSize n content)
      (BufferPool.evictIf (db.numPages ≤ db.pages.keys.length)) :=
    Keeps.ite (keeps_guards_evictPage hn) (Keeps.pure ())
  exact loadPage_reads (hkeep.of_ok h hevict) hload

/-- A page that is not in `dirtypages` nor in the pool comes from the file. -/
theorem getPage_reads (h : Guards f₀ pageSize n content s.db) (hn : 0 ≤ pageOffset pageSize n)
    {id : BTreePageId} (hdirty : s.dirtypages.lookup (.btree id) = none)
    (hpool : s.db.pages.lookup (.btree id) = none) {perm : Permissions} {ref : Ref}
    (hrun : TreeStore.getPage id perm s = .ok ref s') :
    ∃ f obj, Shelved f₀ pageSize n content f ∧
      f.readPage pageSize id ref = .ok obj.page ∧ s'.db.objects[ref]? = some obj := by
  change PoolTree.getPage id perm s = _ at hrun
  rw [PoolTree.getPage, bind_ok (get_run s), hdirty] at hrun
  obtain ⟨r, s₁, hload, hlist⟩ := of_bind_ok hrun
  cases hget : (BufferPool.getPage (.btree id) : DbM BTreeFilePage PositionalFile Ref) s.db with
  | error e db₁ =>
    rw [onDb, zoom_error hget] at hload
    cases hload
  | ok r' db₁ =>
    rw [onDb, zoom_ok hget] at hload
    cases hload
    obtain ⟨f, obj, hf, hread, hobj⟩ := poolGetPage_reads h hn hpool hget
    have hend : ref = r ∧ s'.db = db₁ := by
      cases perm with
      | readOnly =>
        cases hlist
        exact ⟨rfl, rfl⟩
      | readWrite =>
        cases hlist
        exact ⟨rfl, rfl⟩
    obtain ⟨rfl, hdb⟩ := hend
    exact ⟨f, obj, hf, hread, by rw [hdb]; exact hobj⟩

/-- The database after `getEmptyPage` has wiped the page and taken it out of the pool. -/
def wipedDb (db : Database BTreeFilePage PositionalFile) (id : BTreePageId) :
    Database BTreeFilePage PositionalFile :=
  { db with
    files := db.files.clearPage db.pageSize id.pgNo
    pages := db.pages.erase (.btree id) }

theorem getEmptyPage_run {type : BTreePageType} {s₁ : PoolTree PositionalFile}
    (hno : getEmptyPageNo s = .ok n s₁) :
    getEmptyPage type s = TreeStore.getPage ⟨s₁.db.files.tableid, n, type⟩ .readWrite
      ⟨wipedDb s₁.db ⟨s₁.db.files.tableid, n, type⟩,
        s₁.dirtypages.erase (.btree ⟨s₁.db.files.tableid, n, type⟩)⟩ := by
  rw [getEmptyPage, bind_ok hno]
  rfl

theorem Guards.wipe (h : Guards f₀ pageSize n (fun i => f₀.fd.byte (place pageSize n + i)) db)
    (hn : 0 ≤ pageOffset pageSize n) {id : BTreePageId} (hid : id.pgNo = n) :
    Guards f₀ pageSize n (f₀.wiped pageSize n) (wipedDb db id) := by
  subst hid
  have hshelved := h.shelved.clearPage hn
  have hcleared : Guards f₀ pageSize id.pgNo (f₀.wiped pageSize id.pgNo)
      { db with files := db.files.clearPage db.pageSize id.pgNo } := by
    refine ⟨h.pageSize_eq, ?_, h.apart⟩
    rw [h.pageSize_eq]
    exact hshelved
  exact hcleared.erase (.btree id)

/-- A page that is handed out again comes back empty exactly if its place was clean behind the nine
bytes that are wiped. -/
theorem getEmptyPage_isEmpty_iff {type : BTreePageType} (htype : type = .leaf ∨ type = .internal)
    {s s₁ s' : PoolTree PositionalFile} {n : Int32} {ref : Ref} (hsize : 12 ≤ s.db.pageSize)
    (hstored : StoredOnly s n) (hno : getEmptyPageNo s = .ok n s₁)
    (hrun : getEmptyPage type s = .ok ref s') :
    ∃ obj, s'.db.objects[ref]? = some obj ∧
      (obj.page.IsEmpty ↔ s.db.files.CleanBehind s.db.pageSize n type) := by
  have hn := hstored.offset_nonneg
  have h₁ : Guards s.db.files s.db.pageSize n
      (fun i => s.db.files.fd.byte (place s.db.pageSize n + i)) s₁.db :=
    (spares_getEmptyPageNo hn (by omega)).of_ok hstored.guards hno
  rw [getEmptyPage_run hno] at hrun
  obtain ⟨f, obj, hf, hread, hobj⟩ := getPage_reads (h₁.wipe hn rfl) hn (AList.lookup_erase _ _)
    (AList.lookup_erase _ _) hrun
  exact ⟨obj, hobj, hf.readPage_isEmpty_iff hn hsize rfl htype hread⟩

theorem storedOnly_iff {n : Int32} : StoredOnly s n ↔
    0 ≤ pageOffset s.db.pageSize n ∧
      pageOffset s.db.pageSize n + s.db.pageSize ≤ s.db.files.fd.size ∧
      ∀ item ∈ s.db.pages.entries, ∀ obj ∈ s.db.objects[item.2]?,
        Apart s.db.pageSize n obj.page.getId := by
  constructor
  · rintro ⟨hn, hin, hres⟩
    refine ⟨hn, hin, ?_⟩
    intro item hitem obj hobj
    exact hres item.1 item.2 obj (AList.mem_lookup_iff.mpr hitem) hobj
  · rintro ⟨hn, hin, hres⟩
    refine ⟨hn, hin, ?_⟩
    intro pid ref obj hl hobj
    exact hres ⟨pid, ref⟩ (AList.mem_lookup_iff.mp hl) obj hobj

instance (s : PoolTree PositionalFile) (n : Int32) : Decidable (StoredOnly s n) :=
  decidable_of_iff' _ storedOnly_iff

def OnDisk (page : BTreeFilePage) (s : PoolTree PositionalFile) : Prop :=
  HoldsAt s.db.files.toBTreeFile s.db.pageSize page.getId
    (page.getPageData s.db.pageSize s.db.files.scratch)

instance (page : BTreeFilePage) (s : PoolTree PositionalFile) : Decidable (OnDisk page s) :=
  inferInstanceAs (Decidable (∀ j < (span s.db.pageSize page.getId).2, _ = _))

/-- A leaf or internal page that is on disk is freed, and is handed out again while it is not in the
pool. -/
structure Reused (type : BTreePageType) (old : BTreeFilePage) (s s₁ s₂ s' : PoolTree PositionalFile)
    (ref : Ref) : Prop where
  old_kind : old.getId.type = .leaf ∨ old.getId.type = .internal
  flushed : OnDisk old s
  freed : setEmptyPage old.getId.pgNo s = .ok () s₁
  stored : StoredOnly s₁ old.getId.pgNo
  kind : type = .leaf ∨ type = .internal
  size : 12 ≤ s₁.db.pageSize
  number : getEmptyPageNo s₁ = .ok old.getId.pgNo s₂
  handed : getEmptyPage type s₁ = .ok ref s'

end Reuse

section Example

def intsFile : PositionalFile :=
  ⟨.opened 7 0 (.ofInts 1) (fun _ _ => 0) (fun _ _ => 0) fun _ => 0⟩

/-- A new leaf takes the tuple 5, is written to the file and leaves the pool. -/
def flushLeaf : EStateM Fault (PoolTree PositionalFile) BTreeFilePage := do
  let page ← getEmptyPage .leaf
  let l ← leafAt page
  let (l, _) ← lift (l.insertTuple ⟨.ofInts 1, [.int 5], none, rfl⟩)
  TreeStore.store page (.leaf l)
  onDb (markDirty page (some ⟨0⟩))
  onDb (BufferPool.flushPage (.btree l.pid))
  TreeStore.discardPage l.pid
  pure (.leaf l)

/-- Where the leaf is freed after it was flushed, the leaf handed out next is the same page with its
tuple. -/
def comesBack (old : BTreeFilePage) (s s₁ : PoolTree PositionalFile) : Bool :=
  match (getEmptyPageNo s₁ : EStateM.Result Fault (PoolTree PositionalFile) Int32),
    (getEmptyPage .leaf s₁ : EStateM.Result Fault (PoolTree PositionalFile) Ref) with
  | .ok n _, .ok ref s' =>
    match s'.db.objects[ref]? with
    | some ⟨.leaf p, _⟩ =>
      decide (old.getId.type = .leaf ∧ OnDisk old s ∧ StoredOnly s₁ old.getId.pgNo ∧
        12 ≤ s₁.db.pageSize) && decide (n = old.getId.pgNo ∧ 0 < p.numSlots ∧ p.isSlotUsed 0 = true)
    | _ => false
  | _, _ => false

def leafComesBack : Bool :=
  match flushLeaf (.opened intsFile 29 50 fun _ => 0) with
  | .ok old s =>
    match (setEmptyPage old.getId.pgNo s : EStateM.Result Fault (PoolTree PositionalFile) Unit) with
    | .ok _ s₁ => comesBack old s s₁
    | .error _ _ => false
  | .error _ _ => false

theorem leafComesBack_spec : ∃ old s s₁ s₂ s' ref p dirty, Reused .leaf old s s₁ s₂ s' ref ∧
    s'.db.objects[ref]? = some ⟨.leaf p, dirty⟩ ∧ 0 < p.numSlots ∧ p.isSlotUsed 0 = true := by
  have hback : leafComesBack = true := by decide +kernel
  unfold leafComesBack at hback
  split at hback
  · rename_i old s hold
    split at hback
    · rename_i s₁ hfreed
      unfold comesBack at hback
      split at hback
      · rename_i n s₂ ref s' hno hhanded
        split at hback
        · rename_i p dirty hobj
          rw [Bool.and_eq_true] at hback
          obtain ⟨hkind, hdisk, hstored, hsize⟩ := of_decide_eq_true hback.1
          obtain ⟨rfl, hslots, hused⟩ := of_decide_eq_true hback.2
          have hreused : Reused .leaf old s s₁ s₂ s' ref :=
            ⟨.inl hkind, hdisk, hfreed, hstored, .inl rfl, hsize, hno, hhanded⟩
          exact ⟨old, s, s₁, s₂, s', ref, p, dirty, hreused, hobj, hslots, hused⟩
        · cases hback
      · cases hback
    · cases hback
  · cases hback

theorem leafComesBack_iff : ∃ (s s' : PoolTree PositionalFile) (n : Int32) (ref : Ref)
    (obj : PageObject BTreeFilePage), getEmptyPage .leaf s = .ok ref s' ∧
      s'.db.objects[ref]? = some obj ∧
      (obj.page.IsEmpty ↔ s.db.files.CleanBehind s.db.pageSize n .leaf) := by
  obtain ⟨old, s, s₁, s₂, s', ref, -, -, hreused, -⟩ := leafComesBack_spec
  obtain ⟨obj, hobj, hiff⟩ := getEmptyPage_isEmpty_iff hreused.kind hreused.size hreused.stored
    hreused.number hreused.handed
  exact ⟨s₁, s', old.getId.pgNo, ref, obj, hreused.handed, hobj, hiff⟩

/-- A leaf that was freed comes back with its tuple. -/
theorem reused_not_empty :
    ¬ ∀ (type : BTreePageType) (old : BTreeFilePage) (s s₁ s₂ s' : PoolTree PositionalFile)
      (ref : Ref), Reused type old s s₁ s₂ s' ref →
      ∃ obj, s'.db.objects[ref]? = some obj ∧ obj.page.IsEmpty := by
  intro hclaim
  obtain ⟨old, s, s₁, s₂, s', ref, p, dirty, hreused, hobj, hslots, hused⟩ := leafComesBack_spec
  obtain ⟨obj, hobj', hempty⟩ := hclaim .leaf old s s₁ s₂ s' ref hreused
  rw [hobj] at hobj'
  cases hobj'
  obtain ⟨-, -, -, hunused⟩ := hempty
  rw [hunused 0 hslots] at hused
  cases hused

end Example

end PoolTree

end PagedDb
