import PagedDb.BTree.PoolSim
import PagedDb.BTree.TreeGrowth

/-!
# Eviction does not show in insertions

Two pools over files in which writing is positional and pages read back as they
were written take the same insertions. Whatever their capacities are and
whatever they evict, both runs fail at the same call or at none, and after every
call each page is the same in both.
-/

namespace PagedDb

open Exec LogicalTree

namespace PoolTree

variable {δ : Type} [IdealDisk δ]

/-- The page with an id: the copy in the pool if it is resident, else what is on disk. A page that
is not in the file yet counts as an empty one. -/
def content (s : PoolTree δ) (id : BTreePageId) : BTreeFilePage :=
  match (s.db.pages.lookup (.btree id)).bind fun ref => s.db.objects[ref]? with
  | some obj => obj.page
  | none =>
    if BTreeRootPtrPage.size ≤ IdealDisk.size s.db.files ∧ Numbered (BTreeDisk.tableid s.db.files)
        (BTreeDisk.getNumPages s.db.files s.db.pageSize) id then
      IdealDisk.content s.db.files s.db.pageSize id
    else emptyPage (IdealDisk.td s.db.files) (BTreeDisk.keyField s.db.files) s.db.pageSize id

/-- The file and the pool have `p` as the page with the number `n`, and the pool has no page with
that number under another id. -/
structure PageAt (s : PoolTree δ) (n : Int32) (p : BTreeFilePage) : Prop where
  tableid : p.getId.tableId = BTreeDisk.tableid s.db.files
  number : p.getId.pgNo = n
  content : content s p.getId = p
  resident : ∀ id : BTreePageId, id.pgNo = n → (s.db.pages.lookup (.btree id)).isSome →
    id = p.getId

/-- A page is in the vector that `BTreeFile::insertTuple` returns in the call. -/
def Returns (call : InsertCall) (s : PoolTree δ) (p : BTreeFilePage) : Prop :=
  ∃ u s', BTreeFile.insertTuple call.tuple { s with dirtypages := ∅ } = .ok u s' ∧
    ∃ ref ∈ s'.returned, ∃ obj, s'.db.objects[ref]? = some obj ∧ obj.page = p

/-- After a call from `s` to `s'`, `p` is the page with the number `n`; if it was another one
before, the file has returned it. -/
structure Left (call : InsertCall) (s s' : PoolTree δ) (n : Int32) (p : BTreeFilePage) : Prop where
  page : PageAt s' n p
  returned : PoolTree.content s p.getId ≠ p → Returns call s p

/-- Two calls of one insertion end alike: both fail with the same fault, or both return the same
tuple, leave files with as many pages and the same page under each number, and go on alike. -/
def SameRuns : List Tuple → PoolTree δ → PoolTree δ → Prop
  | [], _, _ => True
  | tuple :: tuples, s₁, s₂ => ∀ c₁ c₂ : InsertCall, c₁.tuple = tuple → c₂.tuple = tuple →
    match insertTuple c₁ s₁, insertTuple c₂ s₂ with
    | .ok u₁ s₁', .ok u₂ s₂' => u₁ = u₂ ∧
      BTreeDisk.getNumPages s₁'.db.files s₁'.db.pageSize =
        BTreeDisk.getNumPages s₂'.db.files s₂'.db.pageSize ∧
      (∀ n : Int32, 0 ≤ n.toInt →
        n.toInt ≤ BTreeDisk.getNumPages s₁'.db.files s₁'.db.pageSize →
          ∃ p, Left c₁ s₁ s₁' n p ∧ Left c₂ s₂ s₂' n p) ∧
      SameRuns tuples s₁' s₂'
    | .error e₁ _, .error e₂ _ => e₁ = e₂
    | _, _ => False

section Content

variable {s s' : PoolTree δ} {t t' : LogicalTree} {n : Int32} {p : BTreeFilePage}

theorem Couples.content (h : Couples s.db ∅ t) (hp : t.pages n = some p) :
    content s p.getId = p := by
  have hrest := h.rests n p hp (AList.lookup_empty _)
  unfold Rests at hrest
  cases hl : s.db.pages.lookup (.btree p.getId) with
  | some ref =>
    rw [hl] at hrest
    obtain ⟨obj, hobj, hpage, -⟩ := hrest
    rw [PoolTree.content, hl, Option.bind_some, hobj]
    exact hpage
  | none =>
    rw [hl] at hrest
    rw [PoolTree.content, hl, Option.bind_none]
    exact (if_pos (h.stored hp)).trans hrest

theorem Couples.content_blank (h : Couples s.db ∅ t) {id : BTreePageId}
    (hnone : t.pages id.pgNo = none) : PoolTree.content s id = t.blank 0 id := by
  obtain ⟨-, hl⟩ := h.not_cached hnone
  rw [PoolTree.content, hl, Option.bind_none]
  simp only
  split
  · rename_i hstored
    refine h.fresh id ⟨?_, by simp [h.limit], ?_⟩ hnone
    · rw [← h.size]
      exact hstored.1
    · rw [h.tableid, IdealDisk.getNumPages_eq, h.size, h.pageSize] at hstored
      exact hstored.2
  · rw [h.blank, h.keyField, h.pageSize]

theorem Couples.pageAt (h : Couples s.db ∅ t) (hp : t.pages n = some p) : PageAt s n p := by
  obtain ⟨hnum, -, -, hnumbered⟩ := h.known n p hp
  refine ⟨hnumbered.1.trans h.tableid.symm, hnum, h.content hp, ?_⟩
  rintro id rfl hsome
  obtain ⟨m, q, hq, hid⟩ := h.cached _ (.inr hsome)
  obtain rfl := PageId.btree.inj hid
  rw [(h.known m q hq).1, hq] at hp
  cases hp
  rfl

theorem Couples.left (h : Couples s.db ∅ t) (h' : Couples s'.db ∅ t') {call : InsertCall}
    {u : Tuple} (hrun : BTreeFile.insertTuple call.tuple t = .ok u t') (hp : t'.pages n = some p) :
    Left call s s' n p := by
  refine ⟨h'.pageAt hp, fun hne => ?_⟩
  obtain ⟨s₁, hins, h₁, hadv⟩ := insertTuple_advances h hrun
  have hnum := (h'.known n p hp).1
  rcases hadv.changed n p hp with heq | hsome
  · -- the page was the same before
    refine absurd ?_ hne
    cases hold : t.pages n with
    | none =>
      rw [hold] at heq
      rw [h.content_blank (by rw [hnum, hold])]
      exact heq
    | some q =>
      rw [hold] at heq
      obtain rfl : q = p := heq
      exact h.content hold
  · obtain ⟨ref, hl⟩ := Option.isSome_iff_exists.mp hsome
    obtain ⟨hobj, -⟩ := h₁.inUse n p hp ref hl
    exact ⟨u, s₁, hins, ref, List.mem_map.mpr ⟨_, AList.mem_lookup_iff.mp hl, rfl⟩, hobj⟩

end Content

theorem sameRuns_of_live {F : FileShape} {t : LogicalTree} (hlive : Live F t) {s₁ s₂ : PoolTree δ}
    (h₁ : Couples s₁.db ∅ t) (h₂ : Couples s₂.db ∅ t) (tuples : List Tuple) :
    SameRuns tuples s₁ s₂ := by
  induction tuples generalizing t s₁ s₂ with
  | nil => trivial
  | cons tuple tuples ih =>
    rintro c₁ c₂ hc₁ hc₂
    have hend := hlive.insertTuple tuple
    cases hrun : BTreeFile.insertTuple tuple t with
    | error e t' =>
      rw [hrun] at hend
      obtain ⟨s₁', hrun₁⟩ := insertTuple_error h₁ c₁ (hc₁ ▸ hrun) hend
      obtain ⟨s₂', hrun₂⟩ := insertTuple_error h₂ c₂ (hc₂ ▸ hrun) hend
      rw [hrun₁, hrun₂]
    | ok u t' =>
      rw [hrun] at hend
      obtain ⟨hlive', hc⟩ := hend.of_ok
      obtain ⟨s₁', hrun₁, h₁'⟩ := insertTuple_ok h₁ c₁ (hc₁ ▸ hrun)
      obtain ⟨s₂', hrun₂, h₂'⟩ := insertTuple_ok h₂ c₂ (hc₂ ▸ hrun)
      have hcount : ∀ {s : PoolTree δ}, Couples s.db ∅ t' →
          BTreeDisk.getNumPages s.db.files s.db.pageSize = t'.getNumPages := by
        intro s h
        rw [IdealDisk.getNumPages_eq, h.size, h.pageSize]
        rfl
      rw [hrun₁, hrun₂]
      refine ⟨rfl, (hcount h₁').trans (hcount h₂').symm, fun n hpos hle => ?_, ih hlive' h₁' h₂'⟩
      rw [hcount h₁'] at hle
      obtain ⟨p, hp⟩ : ∃ p, t'.pages n = some p := by
        by_cases hzero : n = 0
        · obtain ⟨r, root, hr, -⟩ := hc.root
          exact ⟨_, hzero ▸ hr⟩
        · refine Option.isSome_iff_exists.mp (hc.complete n (lt_of_le_of_ne hpos ?_) hle)
          exact fun heq => hzero (Int32.toInt_inj.mp heq.symm)
      exact ⟨p, h₁.left h₁' (hc₁ ▸ hrun) hp, h₂.left h₂' (hc₂ ▸ hrun) hp⟩

section Files

variable {file : δ} {pageSize : ℕ}

/-- An empty file that can grow without a limit. -/
def idealTree (file : δ) (pageSize : ℕ) : LogicalTree where
  tableid := BTreeDisk.tableid file
  keyField := BTreeDisk.keyField file
  pageSize
  limit := ⊤
  clearGrowth := 0
  blank _ := emptyPage (IdealDisk.td file) (BTreeDisk.keyField file) pageSize
  reads := 0
  size := 0
  pages _ := none

theorem opened_couples (hempty : IdealDisk.size file = 0) (numPages : ℕ) (order : ℕ → ℕ) :
    Couples (opened file pageSize numPages order).db ∅ (idealTree file pageSize) := by
  refine ⟨rfl, rfl, rfl, rfl, rfl, fun _ => rfl, hempty, nofun, nofun, nofun, ?_, ?_⟩
  · rintro pid (h | h) <;> cases h
  · rintro id ⟨hsize, -⟩
    exact absurd hsize (show ¬ BTreeRootPtrPage.size ≤ 0 by decide)

theorem idealTree_untouched (hpos : 0 < pageSize) :
    Untouched (IdealDisk.td file) (idealTree file pageSize) := by
  have hroot : (idealTree file pageSize).blank 0 (BTreeRootPtrPage.getId (BTreeDisk.tableid file)) =
      .rootPtr (.ofData (BTreeRootPtrPage.getId (BTreeDisk.tableid file)) fun _ => 0) := rfl
  refine ⟨hpos, le_top, rfl, fun _ => rfl, ⟨_, hroot, rfl, rfl, rfl⟩, freshPages_of_isEmpty ?_ ?_⟩
  · intro k id hid
    have hblank : (idealTree file pageSize).blank k id = .leaf (.ofData pageSize (IdealDisk.td file)
        id (BTreeDisk.keyField file) (fun _ => 0) fun _ => 0) := by
      change emptyPage _ _ _ id = _
      rw [emptyPage, hid]
      rfl
    refine ⟨_, _, hblank, ?_⟩
    rw [hblank]
    exact BTreeLeafPage.ofData_isEmpty_iff.mpr ⟨fun _ _ => rfl, fun _ _ => Nat.zero_testBit _⟩
  · intro k id hid
    have hblank : (idealTree file pageSize).blank k id = .internal (.ofData pageSize
        (IdealDisk.td file) id (BTreeDisk.keyField file) (fun _ => 0) fun _ => 0) := by
      change emptyPage _ _ _ id = _
      rw [emptyPage, hid]
      rfl
    refine ⟨_, _, hblank, ?_⟩
    rw [hblank]
    exact BTreeInternalPage.ofData_isEmpty_iff.mpr ⟨fun _ _ => rfl, fun _ _ => Nat.zero_testBit _⟩

/-- Insertions into an empty file do not depend on the capacity of the pool, which may be so large
that nothing is ever evicted, nor on the pages that it evicts. -/
theorem insertTuple_sameRuns (hempty : IdealDisk.size file = 0) (hpos : 0 < pageSize)
    (hsmall : pageSize < 2 ^ 31) (numPages₁ numPages₂ : ℕ) (order₁ order₂ : ℕ → ℕ)
    (tuples : List Tuple) :
    SameRuns tuples (opened file pageSize numPages₁ order₁)
      (opened file pageSize numPages₂ order₂) := by
  let F : FileShape := ⟨BTreeDisk.tableid file, IdealDisk.td file, BTreeDisk.keyField file, pageSize⟩
  have hlive : Live F (idealTree file pageSize) :=
    ⟨rfl, hpos, hsmall, .untouched (idealTree_untouched hpos) rfl rfl rfl rfl⟩
  exact sameRuns_of_live hlive (opened_couples hempty numPages₁ order₁)
    (opened_couples hempty numPages₂ order₂) tuples

end Files

end PoolTree

/-- A file that keeps the pages that are written to it under their numbers. -/
structure PageMap where
  tableid : Int32
  keyField : ℕ
  td : TupleDesc
  size : ℕ
  pages : Int32 → Option BTreeFilePage

namespace PageMap

def getNumPages (d : PageMap) (pageSize : ℕ) : ℕ := (d.size - BTreeRootPtrPage.size) / pageSize

def content (d : PageMap) (pageSize : ℕ) (id : BTreePageId) : BTreeFilePage :=
  ((d.pages id.pgNo).filter fun p => p.getId = id).getD (emptyPage d.td d.keyField pageSize id)

def readPage (d : PageMap) (pageSize : ℕ) : PageId → Except Fault BTreeFilePage
  | .btree id => .ok (d.content pageSize id)
  | .heap _ => .error .nullDeref

def writePage (d : PageMap) (p : BTreeFilePage) : PageMap :=
  { d with pages := Function.update d.pages p.getId.pgNo (some p) }

def createFile (d : PageMap) (pageSize : ℕ) : PageMap :=
  { d with size := BTreeRootPtrPage.size + pageSize, pages := fun _ => none }

def appendPage (d : PageMap) (pageSize : ℕ) : PageMap :=
  { d with
    size := d.size + pageSize
    pages := fun n => (d.pages n).filter fun p =>
      Numbered d.tableid (d.getNumPages pageSize) p.getId }

def clearPage (d : PageMap) (n : Int32) : PageMap :=
  { d with pages := Function.update d.pages n none }

instance : BTreeDisk PageMap where
  getId p := .btree p.getId
  readPage d pageSize pid _ := d.readPage pageSize pid
  writePage d _ _ p := .ok (d.writePage p)
  tableid := tableid
  keyField := keyField
  isEmpty d := d.size = 0
  getNumPages := getNumPages
  createFile := createFile
  appendPage := appendPage
  clearPage d _ n := d.clearPage n

variable {d : PageMap} {pageSize : ℕ} {id : BTreePageId}

theorem content_id : (d.content pageSize id).getId = id := by
  unfold content
  cases hp : (d.pages id.pgNo).filter fun p => p.getId = id with
  | none => exact emptyPage_id _ _ _ id
  | some p =>
    obtain ⟨-, hid⟩ := Option.filter_eq_some_iff.mp hp
    simpa using hid

theorem content_write (p : BTreeFilePage) : (d.writePage p).content pageSize p.getId = p := by
  simp [content, writePage, Option.filter]

theorem content_write_ne {p : BTreeFilePage} (h : id.pgNo ≠ p.getId.pgNo) :
    (d.writePage p).content pageSize id = d.content pageSize id := by
  simp [content, writePage, h]

theorem content_append : (d.appendPage pageSize).content pageSize id =
    if Numbered d.tableid (d.getNumPages pageSize) id then d.content pageSize id
    else emptyPage d.td d.keyField pageSize id := by
  have hfilter : ((d.appendPage pageSize).pages id.pgNo).filter (fun p => p.getId = id) =
      if Numbered d.tableid (d.getNumPages pageSize) id then
        (d.pages id.pgNo).filter fun p => p.getId = id
      else none := by
    ext p
    split
    · rename_i hin
      simp only [appendPage, Option.filter_eq_some_iff, decide_eq_true_eq]
      constructor
      · rintro ⟨⟨hp, -⟩, hid⟩
        exact ⟨hp, hid⟩
      · rintro ⟨hp, hid⟩
        exact ⟨⟨hp, hid ▸ hin⟩, hid⟩
    · rename_i hout
      simp only [appendPage, Option.filter_eq_some_iff, decide_eq_true_eq, reduceCtorEq, iff_false]
      rintro ⟨⟨-, hin⟩, hid⟩
      exact hout (hid ▸ hin)
  unfold content
  rw [hfilter]
  split
  · rfl
  · rfl

theorem content_clear {n : Int32}
    (h : id.pgNo = n → d.content pageSize id = emptyPage d.td d.keyField pageSize id) :
    (d.clearPage n).content pageSize id = d.content pageSize id := by
  by_cases hn : id.pgNo = n
  · rw [h hn]
    simp [content, clearPage, hn]
  · simp [content, clearPage, hn]

theorem content_create : (d.createFile pageSize).content pageSize id =
    emptyPage d.td d.keyField pageSize id := rfl

theorem write_ok (p : BTreeFilePage) : ∃ d', PageFile.writePage d pageSize p.getId.tableId p =
      .ok d' ∧ d'.tableid = d.tableid ∧ d'.keyField = d.keyField ∧ d'.td = d.td ∧
    d'.size = d.size ∧ d'.content pageSize p.getId = p ∧
    ∀ id : BTreePageId, id.pgNo ≠ p.getId.pgNo →
      d'.content pageSize id = d.content pageSize id :=
  ⟨d.writePage p, rfl, rfl, rfl, rfl, rfl, content_write p, fun _ h => content_write_ne h⟩

instance : IdealDisk PageMap where
  td := td
  size := size
  content := content
  getId_eq _ := rfl
  isEmpty_eq _ := rfl
  getNumPages_eq _ _ := rfl
  read_ok _ _ _ _ _ _ := ⟨rfl, content_id⟩
  write_ok _ _ p _ _ := write_ok p
  create_ok _ _ _ := ⟨rfl, rfl, rfl, rfl, fun _ => content_create⟩
  append_ok _ _ := ⟨rfl, rfl, rfl, rfl, fun _ => content_append⟩
  clear_ok _ _ _ _ _ := ⟨rfl, rfl, rfl, rfl, fun _ h => content_clear h⟩

def threeInts : PageMap := ⟨7, 0, .ofInts 3, 0, fun _ => none⟩

end PageMap

/-- Six rows in pages of 37 bytes, with a pool of one page and with one of a hundred. -/
theorem threeInts_sameRuns : PoolTree.SameRuns ([1, 2, 3, 4, 5, 6].map fun k => (rowCall k).tuple)
    (.opened PageMap.threeInts 37 1 fun n => n) (.opened PageMap.threeInts 37 100 fun _ => 0) :=
  PoolTree.insertTuple_sameRuns rfl (by decide) (by decide) 1 100 _ _ _

end PagedDb
