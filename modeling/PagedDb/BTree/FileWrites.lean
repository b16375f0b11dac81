import PagedDb.BTree.FilePages

/-!
# Writing to a B+ tree file

Every write lengthens the file and changes no byte it has. The file is an array
of pages under a sequence of writes exactly if the writes leave no trace in it:
what they wrote was there before, and what they appended makes no new page.
-/

namespace PagedDb

namespace BTreeFile

def span (pageSize : ℕ) (id : BTreePageId) : ℕ × ℕ :=
  if id.type = .rootPtr then (0, BTreeRootPtrPage.size)
  else (BTreeRootPtrPage.size + (id.pgNo.toInt.toNat - 1) * pageSize, pageSize)

def InFile (f : BTreeFile) (pageSize : ℕ) (id : BTreePageId) : Prop :=
  (id.type = .rootPtr ∨ 1 ≤ id.pgNo.toInt) ∧
    (span pageSize id).1 + (span pageSize id).2 ≤ f.fd.size

/-- A sequence of `writePage` calls. -/
def writeAll (f : BTreeFile) (pageSize : ℕ) (pages : List BTreeFilePage) : BTreeFile :=
  pages.foldl (fun f page => f.writePage pageSize page) f

/-- The last page of the sequence that is written to the place of `id`. -/
def lastWrite (pageSize : ℕ) (pages : List BTreeFilePage) (id : BTreePageId) :
    Option BTreeFilePage :=
  pages.reverse.find? fun page => span pageSize page.getId = span pageSize id

/-- The bytes of the file at the place of a page are those of `data`. -/
def HoldsAt (f : BTreeFile) (pageSize : ℕ) (id : BTreePageId) (data : Memory.Buffer) : Prop :=
  ∀ j < (span pageSize id).2, f.fd.byte ((span pageSize id).1 + j) = data j

/-- After the writes every page reads as last written, or as before if it was not written, and
the number of pages is the same. -/
structure ArrayOfPages (f : BTreeFile) (pageSize : ℕ) (pages : List BTreeFilePage) : Prop where
  written : ∀ id page, f.InFile pageSize id → lastWrite pageSize pages id = some page →
    (f.writeAll pageSize pages).HoldsAt pageSize id (page.getPageData pageSize f.scratch)
  unwritten : ∀ id, f.InFile pageSize id → lastWrite pageSize pages id = none →
    (f.writeAll pageSize pages).HoldsAt pageSize id
      fun j => f.fd.byte ((span pageSize id).1 + j)
  count : (f.writeAll pageSize pages).getNumPages pageSize = f.getNumPages pageSize

/-- How many bytes a write appends; none if the offset overflows to a negative number. -/
def appended (pageSize : ℕ) (id : BTreePageId) : ℕ :=
  if id.type = .rootPtr then BTreeRootPtrPage.size
  else if pageOffset pageSize id.pgNo < 0 then 0 else pageSize

def totalAppended (pageSize : ℕ) (pages : List BTreeFilePage) : ℕ :=
  (pages.map fun page => appended pageSize page.getId).sum

variable {f : BTreeFile} {pageSize : ℕ} {pages : List BTreeFilePage}

/-- In a file below 2 GiB the offset of a page is where the page is. -/
theorem pageOffset_eq_span {f : BTreeFile} {size : ℕ} {id : BTreePageId}
    (hkind : id.type ≠ .rootPtr) (hin : f.InFile size id) (hsmall : f.fd.size < 2147483648) :
    pageOffset size id.pgNo = (span size id).1 := by
  obtain ⟨hfirst, hend⟩ := hin
  have hpos : 1 ≤ id.pgNo.toInt := hfirst.resolve_left hkind
  obtain ⟨k, hk⟩ := Int.eq_ofNat_of_zero_le (show 0 ≤ id.pgNo.toInt - 1 by omega)
  have hno : id.pgNo.toInt.toNat - 1 = k := by omega
  rw [span, if_neg hkind, hno] at hend ⊢
  have hsum : 9 + k * size < 2147483648 := by
    change 9 + k * size + size ≤ f.fd.size at hend
    omega
  have hnine : Int32.toInt 9 = 9 := rfl
  have hone : Int32.toInt 1 = 1 := rfl
  have hsize : Int32.size = 2 ^ 32 := rfl
  rw [pageOffset, Int32.toInt_add, Int32.toInt_mul, Int32.toInt_sub, Int32.toInt_ofNat', hnine,
    hone, hk, hsize, Int.bmod_mul_bmod, Int.mul_bmod_bmod, Int.add_bmod_bmod, ← Int.natCast_mul]
  exact Int.bmod_eq_of_le_mul_two (by omega) (by omega)

theorem writePage_fd (f : BTreeFile) (pageSize : ℕ) (page : BTreeFilePage) :
    (f.writePage pageSize page).fd.size = f.fd.size + appended pageSize page.getId ∧
      (∀ i < f.fd.size, (f.writePage pageSize page).fd.byte i = f.fd.byte i) ∧
      (f.writePage pageSize page).scratch = f.scratch := by
  unfold writePage appended File.pwriteAppend
  split
  · refine ⟨?_, ?_, rfl⟩
    · simp
    · intro i hi
      exact File.append_byte_of_lt hi
  · split
    · exact ⟨rfl, fun _ _ => rfl, rfl⟩
    · refine ⟨?_, ?_, rfl⟩
      · simp
      · intro i hi
        exact File.append_byte_of_lt hi

theorem writeAll_fd (f : BTreeFile) (pageSize : ℕ) (pages : List BTreeFilePage) :
    (f.writeAll pageSize pages).fd.size = f.fd.size + totalAppended pageSize pages ∧
      ∀ i < f.fd.size, (f.writeAll pageSize pages).fd.byte i = f.fd.byte i := by
  induction pages generalizing f with
  | nil => exact ⟨rfl, fun _ _ => rfl⟩
  | cons page pages ih =>
    obtain ⟨hsize, hbyte, -⟩ := f.writePage_fd pageSize page
    obtain ⟨hsize', hbyte'⟩ := ih (f.writePage pageSize page)
    change (writeAll (f.writePage pageSize page) pageSize pages).fd.size = _ ∧
      ∀ i < f.fd.size, (writeAll (f.writePage pageSize page) pageSize pages).fd.byte i = _
    constructor
    · rw [hsize', hsize, totalAppended, totalAppended, List.map_cons, List.sum_cons]
      omega
    · intro i hi
      rw [hbyte' i (by omega), hbyte i hi]

theorem holdsAt_writeAll {id : BTreePageId} (hin : f.InFile pageSize id) {data : Memory.Buffer} :
    (f.writeAll pageSize pages).HoldsAt pageSize id data ↔ f.HoldsAt pageSize id data := by
  obtain ⟨-, hbyte⟩ := f.writeAll_fd pageSize pages
  have hend := hin.2
  apply forall_congr'
  intro j
  apply imp_congr_right
  intro hj
  rw [hbyte _ (by omega)]

/-- The number of pages stays the same exactly if the bytes behind the last page and the
appended ones do not make another page. -/
theorem getNumPages_writeAll (hsize : BTreeRootPtrPage.size ≤ f.fd.size) (hpos : 0 < pageSize) :
    (f.writeAll pageSize pages).getNumPages pageSize = f.getNumPages pageSize ↔
      (f.fd.size - BTreeRootPtrPage.size) % pageSize + totalAppended pageSize pages < pageSize := by
  rw [getNumPages, getNumPages, (f.writeAll_fd pageSize pages).1]
  have hsplit := Nat.div_add_mod (f.fd.size - BTreeRootPtrPage.size) pageSize
  generalize (f.fd.size - BTreeRootPtrPage.size) / pageSize = q at hsplit ⊢
  generalize (f.fd.size - BTreeRootPtrPage.size) % pageSize = r at hsplit ⊢
  have hall : f.fd.size + totalAppended pageSize pages - BTreeRootPtrPage.size =
      r + totalAppended pageSize pages + pageSize * q := by omega
  rw [hall, Nat.add_mul_div_left _ _ hpos]
  have hdiv : (r + totalAppended pageSize pages) / pageSize = 0 ↔
      r + totalAppended pageSize pages < pageSize := by
    rw [Nat.div_eq_zero_iff]
    omega
  rw [← hdiv]
  omega

def IsRootWrite (page : BTreeFilePage) : Prop := page.getId.type = .rootPtr

instance : DecidablePred IsRootWrite := fun page =>
  inferInstanceAs (Decidable (page.getId.type = .rootPtr))

/-- The write is to the root pointer page, or its offset overflows to a negative number and it
fails; every other write appends a page. -/
def AppendsNoPage (pageSize : ℕ) (page : BTreeFilePage) : Prop :=
  IsRootWrite page ∨ pageOffset pageSize page.getId.pgNo < 0

theorem totalAppended_lt_iff {r : ℕ} :
    r + totalAppended pageSize pages < pageSize ↔ (∀ page ∈ pages, AppendsNoPage pageSize page) ∧
      r + BTreeRootPtrPage.size * pages.countP (fun page => IsRootWrite page) < pageSize := by
  induction pages generalizing r with
  | nil => simp [totalAppended]
  | cons page pages ih =>
    have htotal : r + totalAppended pageSize (page :: pages) =
        r + appended pageSize page.getId + totalAppended pageSize pages := by
      rw [totalAppended, List.map_cons, List.sum_cons, Nat.add_assoc]
      rfl
    rw [htotal, ih, List.forall_mem_cons]
    by_cases hroot : IsRootWrite page
    · have happ : appended pageSize page.getId = BTreeRootPtrPage.size := if_pos hroot
      have hno : AppendsNoPage pageSize page := .inl hroot
      rw [happ, List.countP_cons_of_pos (by simpa using hroot), Nat.mul_succ]
      constructor
      · rintro ⟨hall, hlt⟩
        exact ⟨⟨hno, hall⟩, by omega⟩
      · rintro ⟨⟨-, hall⟩, hlt⟩
        exact ⟨hall, by omega⟩
    · rw [List.countP_cons_of_neg (by simpa using hroot)]
      by_cases hneg : pageOffset pageSize page.getId.pgNo < 0
      · have happ : appended pageSize page.getId = 0 := by
          unfold IsRootWrite at hroot
          rw [appended, if_neg hroot, if_pos hneg]
        have hno : AppendsNoPage pageSize page := .inr hneg
        rw [happ, Nat.add_zero]
        constructor
        · rintro ⟨hall, hlt⟩
          exact ⟨⟨hno, hall⟩, hlt⟩
        · rintro ⟨⟨-, hall⟩, hlt⟩
          exact ⟨hall, hlt⟩
      · have happ : appended pageSize page.getId = pageSize := by
          unfold IsRootWrite at hroot
          rw [appended, if_neg hroot, if_neg hneg]
        rw [happ]
        constructor
        · rintro ⟨-, hlt⟩
          omega
        · rintro ⟨⟨hno, -⟩, -⟩
          rcases hno with h | h
          · exact absurd h hroot
          · exact absurd h hneg

/-- The file is an array of pages under the writes exactly if no write appends a page, the root
pointer writes do not fill one up, and every page already held what was last written to it. -/
theorem arrayOfPages_iff (hsize : BTreeRootPtrPage.size ≤ f.fd.size) (hpos : 0 < pageSize) :
    f.ArrayOfPages pageSize pages ↔
      (∀ page ∈ pages, AppendsNoPage pageSize page) ∧
      (f.fd.size - BTreeRootPtrPage.size) % pageSize +
        BTreeRootPtrPage.size * pages.countP (fun page => IsRootWrite page) < pageSize ∧
      ∀ id page, f.InFile pageSize id → lastWrite pageSize pages id = some page →
        f.HoldsAt pageSize id (page.getPageData pageSize f.scratch) := by
  rw [← and_assoc, ← totalAppended_lt_iff]
  constructor
  · rintro ⟨hwritten, -, hcount⟩
    refine ⟨(getNumPages_writeAll hsize hpos).mp hcount, ?_⟩
    intro id page hin hlast
    exact (holdsAt_writeAll hin).mp (hwritten id page hin hlast)
  · rintro ⟨hroom, hheld⟩
    refine ⟨?_, ?_, (getNumPages_writeAll hsize hpos).mpr hroom⟩
    · intro id page hin hlast
      exact (holdsAt_writeAll hin).mpr (hheld id page hin hlast)
    · intro id hin _
      exact (holdsAt_writeAll hin).mpr fun _ _ => rfl

/-- One page of 37 bytes of fives behind a root pointer page: the root is the leaf 1, the first
header page is 2. -/
def onePageFile : BTreeFile where
  tableid := 7
  keyField := 0
  td := .ofInts 1
  fd :=
    { size := 46
      byte := fun i =>
        if i < 46 then [1, 0, 0, 0, 2, 0, 0, 0, 2].getD i 5 else 0
      byte_of_size_le := by
        intro i hi
        exact if_neg (Nat.not_lt.mpr hi) }
  heap := fun _ _ => 0
  stack := fun _ _ => 0
  scratch := fun _ => 0

def rootPtrTo (root : Int32) (category : BTreePageType) : BTreeFilePage :=
  .rootPtr ⟨BTreeRootPtrPage.getId 7, root, 2, category⟩

/-- A new root and the old one again are written over the root pointer page. -/
def rootWrites : List BTreeFilePage :=
  [rootPtrTo 3 .internal, rootPtrTo 1 .leaf, rootPtrTo 4 .internal, rootPtrTo 1 .leaf]

/-- What was written last was there before, and the 36 bytes behind the page are none. -/
theorem arrayOfPages_iff_rootWrites : onePageFile.ArrayOfPages 37 rootWrites := by
  apply (arrayOfPages_iff (by decide) (by decide)).mpr
  refine ⟨?_, by decide, ?_⟩
  · simp only [rootWrites, List.forall_mem_cons]
    exact ⟨.inl rfl, .inl rfl, .inl rfl, .inl rfl, by simp⟩
  · intro id page hin hlast j hj
    have hfound := List.find?_some hlast
    have hspan : span 37 page.getId = span 37 id := of_decide_eq_true hfound
    have hroot : ∀ p ∈ rootWrites, span 37 p.getId = (0, 9) := by decide
    have hid : span 37 id = (0, 9) := by
      rw [← hspan]
      exact hroot page (List.mem_reverse.mp (List.mem_of_find?_eq_some hlast))
    rw [lastWrite, hid] at hlast
    obtain rfl : rootPtrTo 1 .leaf = page := Option.some.inj hlast
    rw [hid] at hj ⊢
    have hheld : ∀ k < 9, onePageFile.fd.byte (0 + k) =
        (rootPtrTo 1 .leaf).getPageData 37 onePageFile.scratch k := by decide
    exact hheld j hj

/-- Storing a leaf in place of page 1 makes a page 2. -/
theorem write_makes_page :
    ¬ ∀ (f : BTreeFile) (pageSize : ℕ) (pages : List BTreeFilePage),
      BTreeRootPtrPage.size ≤ f.fd.size → 0 < pageSize →
      (∀ page ∈ pages, f.InFile pageSize page.getId) → f.ArrayOfPages pageSize pages := by
  intro hclaim
  let leaf : BTreeFilePage := .leaf (BTreeLeafPage.onePage 37 1 [5])
  have hin : ∀ page ∈ [leaf], onePageFile.InFile 37 page.getId := by
    intro page hpage
    rw [List.mem_singleton.mp hpage]
    exact ⟨by decide, by decide⟩
  have hcount := (hclaim onePageFile 37 [leaf] (by decide) (by decide) hin).count
  rw [getNumPages_writeAll (by decide) (by decide)] at hcount
  exact absurd hcount (by decide)

end BTreeFile

end PagedDb
