import PagedDb.BTree.FileWrites
import PagedDb.BTree.TreeSim
import PagedDb.Storage.PoolCoherence

/-!
# A pool that holds every page

While the pool has room for all pages of a file, no page is evicted or written
back: the bytes of the file stay zero, and every page is read once, as an empty
one. The pool is then itself the map of pages.
-/

namespace PagedDb

open Exec

namespace BTreeFile

/-- The page that zero bytes read as, in the new object `ref`. -/
def blankPage (f : BTreeFile) (pageSize : ℕ) (ref : Ref) (id : BTreePageId) : BTreeFilePage :=
  if id.type = .rootPtr then
    .rootPtr (.ofData id (Memory.zeroed BTreeRootPtrPage.size (f.heap ref)))
  else
    let data := Memory.zeroed pageSize (f.heap ref)
    if id.type = .internal then .internal (.ofData pageSize f.td id f.keyField data (f.stack ref))
    else if id.type = .leaf then .leaf (.ofData pageSize f.td id f.keyField data (f.stack ref))
    else .header (.ofData pageSize id data)

variable {f : BTreeFile} {pageSize : ℕ} {ref : Ref} {id : BTreePageId}

theorem blankPage_id : (f.blankPage pageSize ref id).getId = id := by
  unfold blankPage
  split_ifs <;> rfl

theorem inFile_of_numbered (hsize : BTreeRootPtrPage.size ≤ f.fd.size)
    (hnum : LogicalTree.Numbered f.tableid (f.getNumPages pageSize) id) : f.InFile pageSize id := by
  obtain ⟨-, hnum⟩ := hnum
  unfold InFile span
  by_cases htype : id.type = .rootPtr
  · rw [if_pos htype]
    exact ⟨.inl htype, by simpa using hsize⟩
  · rw [if_neg htype] at hnum ⊢
    obtain ⟨hpos, hle⟩ := hnum
    refine ⟨.inr hpos, ?_⟩
    have hlast : id.pgNo.toInt.toNat - 1 + 1 ≤ f.getNumPages pageSize := by omega
    have hmul := (Nat.mul_le_mul_right pageSize hlast).trans (Nat.div_mul_le_self _ _)
    rw [Nat.succ_mul] at hmul
    change BTreeRootPtrPage.size + _ + pageSize ≤ _
    omega

theorem pread_zero {fd : File} {buf : Memory.Buffer} {n off : ℕ} (hzero : ∀ i, fd.byte i = 0)
    (hend : off + n ≤ fd.size) : fd.pread buf n off = Memory.zeroed n buf := by
  have hcount : fd.preadCount n off = some n := by
    rw [File.preadCount, if_neg (by omega), Int.toNat_natCast, Nat.min_eq_left (by omega)]
  funext i
  simp only [File.pread, hcount, Memory.zeroed, hzero]

theorem readPage_zero (hzero : ∀ i, f.fd.byte i = 0) (hin : f.InFile pageSize id)
    (hsmall : f.fd.size < 2147483648) :
    f.readPage pageSize id ref = .ok (f.blankPage pageSize ref id) := by
  have hend := hin.2
  have hcount : ∀ n off : ℕ, off + n ≤ f.fd.size → f.fd.preadCount n off = some n := by
    intro n off hle
    rw [File.preadCount, if_neg (by omega), Int.toNat_natCast, Nat.min_eq_left (by omega)]
  unfold readPage blankPage
  by_cases htype : id.type = .rootPtr
  · have hend : 0 + BTreeRootPtrPage.size ≤ f.fd.size := by simpa [span, htype] using hend
    rw [if_pos htype, if_pos htype, show (0 : Int) = ((0 : ℕ) : Int) from rfl, hcount _ _ hend,
      pread_zero hzero hend]
    rfl
  · have hoff := pageOffset_eq_span htype hin hsmall
    have hlen : (span pageSize id).2 = pageSize := by rw [span, if_neg htype]
    rw [hlen] at hend
    rw [if_neg htype, if_neg htype, hoff]
    dsimp only
    rw [hcount _ _ hend, pread_zero hzero hend, assertThat_ok rfl]
    split_ifs <;> rfl

end BTreeFile

theorem File.append_zero {fd : File} {data : Memory.Buffer} {n : ℕ} (hzero : ∀ i, fd.byte i = 0)
    (hdata : ∀ i < n, data i = 0) (i : ℕ) : (fd.append data n).byte i = 0 := by
  simp only [File.append, File.put]
  split
  · exact hdata _ (by omega)
  · exact hzero i

theorem Memory.zeroed_lt {n i : ℕ} {fresh : Memory.Buffer} (hi : i < n) :
    Memory.zeroed n fresh i = 0 := if_pos hi

namespace PoolTree

/-- The size up to which the offsets of a file fit in `int` and the pool has room for its pages. -/
def sizeLimit (db : Database BTreeFilePage BTreeFile) : ℕ :=
  min 2147483647 (BTreeRootPtrPage.size + db.pageSize * db.numPages - 1)

def Holds (db : Database BTreeFilePage BTreeFile) (p : BTreeFilePage) (ref : Ref) : Prop :=
  db.pages.lookup (.btree p.getId) = some ref ∧ ∃ obj, db.objects[ref]? = some obj ∧ obj.page = p

/-- The pool contains the map of pages, and the file contains zeros. -/
structure Resident (db : Database BTreeFilePage BTreeFile) (dirtypages : PagesMap)
    (t : LogicalTree) : Prop where
  tableid : db.files.tableid = t.tableid
  keyField : db.files.keyField = t.keyField
  pageSize : db.pageSize = t.pageSize
  limit : t.limit = sizeLimit db
  clearGrowth : t.clearGrowth = BTreeRootPtrPage.size
  blank : t.blank = db.files.blankPage db.pageSize
  reads : t.reads = db.objects.length
  size : db.files.fd.size = t.size
  zero : ∀ i, db.files.fd.byte i = 0
  known : ∀ n p, t.pages n = some p → p.getId.pgNo = n ∧ BTreeRootPtrPage.size ≤ t.size ∧
    LogicalTree.Numbered t.tableid t.getNumPages p.getId
  held : ∀ n p, t.pages n = some p → ∃ ref, Holds db p ref
  cached : ∀ pid ref, db.pages.lookup pid = some ref →
    ∃ n p, t.pages n = some p ∧ pid = .btree p.getId
  dirty : ∀ pid ref, dirtypages.lookup pid = some ref → db.pages.lookup pid = some ref

namespace Resident

variable {db db' : Database BTreeFilePage BTreeFile} {dirtypages : PagesMap} {t : LogicalTree}
  {pid : PageId} {ref : Ref} {n m : Int32} {p q : BTreeFilePage} {id : BTreePageId}

theorem getNumPages (h : Resident db dirtypages t) :
    db.files.getNumPages db.pageSize = t.getNumPages := by
  rw [BTreeFile.getNumPages, h.size, h.pageSize]
  rfl

theorem unique {t' : LogicalTree} (h : Resident db dirtypages t) (h' : Resident db dirtypages t') :
    t = t' := by
  have hle : ∀ {t t' : LogicalTree}, Resident db dirtypages t → Resident db dirtypages t' →
      ∀ {n p}, t.pages n = some p → t'.pages n = some p := by
    intro t t' h h' n p hp
    obtain ⟨ref, hl, obj, hobj, rfl⟩ := h.held n p hp
    obtain ⟨n', p', hp', hid⟩ := h'.cached _ ref hl
    obtain ⟨ref', hl', obj', hobj', rfl⟩ := h'.held n' p' hp'
    rw [← hid, hl] at hl'
    cases hl'
    rw [hobj] at hobj'
    cases hobj'
    rwa [← (h.known n _ hp).1, (h'.known n' _ hp').1]
  have hpages : t.pages = t'.pages := by
    funext n
    exact Option.ext fun p => ⟨hle h h', hle h' h⟩
  obtain ⟨tableid, keyField, pageSize, limit, clearGrowth, blank, reads, size, pages⟩ := t
  obtain ⟨tableid', keyField', pageSize', limit', clearGrowth', blank', reads', size', pages'⟩ := t'
  obtain rfl : tableid = tableid' := h.tableid.symm.trans h'.tableid
  obtain rfl : keyField = keyField' := h.keyField.symm.trans h'.keyField
  obtain rfl : pageSize = pageSize' := h.pageSize.symm.trans h'.pageSize
  obtain rfl : limit = limit' := h.limit.trans h'.limit.symm
  obtain rfl : clearGrowth = clearGrowth' := h.clearGrowth.trans h'.clearGrowth.symm
  obtain rfl : blank = blank' := h.blank.trans h'.blank.symm
  obtain rfl : reads = reads' := h.reads.trans h'.reads.symm
  obtain rfl : size = size' := h.size.symm.trans h'.size
  obtain rfl : pages = pages' := hpages
  rfl

theorem owner (h : Resident db dirtypages t) (hl : db.pages.lookup pid = some ref) :
    ∃ n p obj, t.pages n = some p ∧ pid = .btree p.getId ∧ db.objects[ref]? = some obj ∧
      obj.page = p := by
  obtain ⟨n, p, hp, rfl⟩ := h.cached pid ref hl
  obtain ⟨ref', hl', obj, hobj, hpage⟩ := h.held n p hp
  obtain rfl : ref = ref' := Option.some.inj (hl.symm.trans hl')
  exact ⟨n, p, obj, hp, rfl, hobj, hpage⟩

theorem ref_inj (h : Resident db dirtypages t) {pid' : PageId}
    (hl : db.pages.lookup pid = some ref) (hl' : db.pages.lookup pid' = some ref) : pid = pid' := by
  obtain ⟨n, p, obj, -, rfl, hobj, rfl⟩ := h.owner hl
  obtain ⟨n', p', obj', -, rfl, hobj', rfl⟩ := h.owner hl'
  obtain rfl : obj = obj' := Option.some.inj (hobj.symm.trans hobj')
  rfl

theorem not_cached (h : Resident db dirtypages t) (hnone : t.pages id.pgNo = none) :
    db.pages.lookup (.btree id) = none := by
  cases hl : db.pages.lookup (.btree id) with
  | none => rfl
  | some ref =>
    obtain ⟨n, p, hp, heq⟩ := h.cached _ ref hl
    rw [PageId.btree.inj heq, (h.known n p hp).1, hp] at hnone
    cases hnone

def number : PageId → ℕ
  | .btree id => id.pgNo.toInt.toNat
  | .heap _ => 0

theorem numbered_lt {tableid : Int32} {count : ℕ} (h : LogicalTree.Numbered tableid count id) :
    number (.btree id) < count + 1 ∧ (number (.btree id) : Int) = id.pgNo.toInt := by
  obtain ⟨-, hnum⟩ := h
  change id.pgNo.toInt.toNat < count + 1 ∧ (id.pgNo.toInt.toNat : Int) = id.pgNo.toInt
  split at hnum
  · rw [hnum]
    exact ⟨Nat.succ_pos count, rfl⟩
  · omega

/-- A page that is not in the pool has room there. -/
theorem not_full (h : Resident db dirtypages t) (hin : t.InFile id)
    (hnone : t.pages id.pgNo = none) : db.pages.keys.length < db.numPages := by
  obtain ⟨hsize, hlimit, hnum⟩ := hin
  have hcount : t.getNumPages < db.numPages := by
    have hle : t.size ≤ BTreeRootPtrPage.size + db.pageSize * db.numPages - 1 := by
      rw [h.limit] at hlimit
      exact (Nat.cast_le.mp hlimit).trans (min_le_right _ _)
    unfold BTreeRootPtrPage.size at hsize hle
    rw [LogicalTree.getNumPages, ← h.pageSize]
    exact Nat.div_lt_of_lt_mul (show t.size - 9 < _ by omega)
  have hkey : ∀ pid ∈ db.pages.keys, ∃ n p, t.pages n = some p ∧ pid = .btree p.getId := by
    intro pid hpid
    obtain ⟨ref, hl⟩ := Option.isSome_iff_exists.mp
      (AList.lookup_isSome.mpr (AList.mem_keys.mp hpid))
    exact h.cached pid ref hl
  have hinj : ∀ a ∈ db.pages.keys, ∀ b ∈ db.pages.keys, number a = number b → a = b := by
    intro a ha b hb heq
    obtain ⟨n, p, hp, rfl⟩ := hkey a ha
    obtain ⟨m, q, hq, rfl⟩ := hkey b hb
    obtain ⟨hpn, -, hpnum⟩ := h.known n p hp
    obtain ⟨hqm, -, hqnum⟩ := h.known m q hq
    have hno : p.getId.pgNo = q.getId.pgNo := by
      apply Int32.toInt_inj.mp
      rw [← (numbered_lt hpnum).2, ← (numbered_lt hqnum).2, heq]
    have hnm : n = m := by rw [← hpn, hno, hqm]
    subst hnm
    rw [hp] at hq
    cases hq
    rfl
  have hsub : (db.pages.keys.map number).toFinset ⊆
      (Finset.range (t.getNumPages + 1)).erase (number (.btree id)) := by
    intro k hk
    obtain ⟨pid, hpid, rfl⟩ := List.mem_map.mp (List.mem_toFinset.mp hk)
    obtain ⟨n, p, hp, rfl⟩ := hkey pid hpid
    obtain ⟨hpn, -, hpnum⟩ := h.known n p hp
    refine Finset.mem_erase.mpr ⟨fun heq => ?_, Finset.mem_range.mpr (numbered_lt hpnum).1⟩
    have hno : p.getId.pgNo = id.pgNo := by
      apply Int32.toInt_inj.mp
      rw [← (numbered_lt hpnum).2, ← (numbered_lt hnum).2, heq]
    rw [← hno, hpn, hp] at hnone
    cases hnone
  have hcard := Finset.card_le_card hsub
  rw [List.toFinset_card_of_nodup (List.Nodup.map_on hinj (AList.keys_nodup _)), List.length_map,
    Finset.card_erase_of_mem (Finset.mem_range.mpr (numbered_lt hnum).1), Finset.card_range] at hcard
  omega

theorem setFile (h : Resident db dirtypages t) {fd : File} {size : ℕ} (hsize : fd.size = size)
    (hgrow : t.size ≤ size) (hzero : ∀ i, fd.byte i = 0) :
    Resident { db with files := { db.files with fd } } dirtypages { t with size } := by
  refine
    { tableid := h.tableid, keyField := h.keyField, pageSize := h.pageSize, limit := h.limit
      clearGrowth := h.clearGrowth, blank := h.blank, reads := h.reads, size := hsize, zero := hzero
      known := ?_, held := h.held, cached := h.cached, dirty := h.dirty }
  intro n p hp
  obtain ⟨hpn, hroot, htable, hnum⟩ := h.known n p hp
  refine ⟨hpn, hroot.trans hgrow, htable, ?_⟩
  split_ifs at hnum ⊢
  · exact hnum
  · have hle : t.getNumPages ≤ ({ t with size } : LogicalTree).getNumPages :=
      Nat.div_le_div_right (Nat.sub_le_sub_right hgrow _)
    exact ⟨hnum.1, le_trans hnum.2 (by exact_mod_cast hle)⟩

/-- The first access to a page reads it into a new object. -/
theorem touch (h : Resident db dirtypages t) (hin : t.InFile id) (hnone : t.pages id.pgNo = none) :
    ∃ db', BufferPool.getPage (.btree id) db = .ok db.objects.length db' ∧
      Resident db' dirtypages (t.touch id) ∧ Holds db' (t.blank t.reads id) db.objects.length ∧
      ∀ pid ref, db.pages.lookup pid = some ref → db'.pages.lookup pid = some ref := by
  have hl := h.not_cached hnone
  have hroom := h.not_full hin hnone
  have hblank : t.blank t.reads id = db.files.blankPage db.pageSize db.objects.length id := by
    rw [h.blank, h.reads]
  have hid : (t.blank t.reads id).getId = id := by rw [hblank, BTreeFile.blankPage_id]
  obtain ⟨hsize, hlimit, hnum⟩ := hin
  have hsmall : db.files.fd.size < 2147483648 := by
    rw [h.limit] at hlimit
    rw [h.size]
    exact Nat.lt_succ_of_le ((Nat.cast_le.mp hlimit).trans (min_le_left _ _))
  have hread : PageFile.readPage db.files db.pageSize (.btree id) db.objects.length =
      .ok (t.blank t.reads id) := by
    have hinFile : db.files.InFile db.pageSize id := by
      apply BTreeFile.inFile_of_numbered (by rwa [h.size])
      rwa [h.tableid, h.getNumPages]
    rw [hblank, ← BTreeFile.readPage_zero h.zero hinFile hsmall]
    exact if_neg (not_not_intro (hnum.1.trans h.tableid.symm))
  let db' : Database BTreeFilePage BTreeFile :=
    { db with
      objects := db.objects ++ [⟨t.blank t.reads id, none⟩]
      pages := db.pages.insert (.btree id) db.objects.length }
  have hkeep : ∀ pid ref, db.pages.lookup pid = some ref → db'.pages.lookup pid = some ref := by
    intro pid ref hpid
    have hne : pid ≠ .btree id := by
      rintro rfl
      rw [hl] at hpid
      cases hpid
    exact (AList.lookup_insert_ne hne).trans hpid
  have hself : Holds db' (t.blank t.reads id) db.objects.length :=
    ⟨by rw [hid]; exact AList.lookup_insert db.pages, _, List.getElem?_concat_length, rfl⟩
  have hpages : ∀ n p, (t.touch id).pages n = some p →
      (n = id.pgNo ∧ p = t.blank t.reads id) ∨ t.pages n = some p := by
    intro n p hp
    change Function.update t.pages id.pgNo _ n = some p at hp
    rcases eq_or_ne n id.pgNo with rfl | hne
    · rw [Function.update_self] at hp
      exact .inl ⟨rfl, (Option.some.inj hp).symm⟩
    · rw [Function.update_of_ne hne] at hp
      exact .inr hp
  have hstays : ∀ n p, t.pages n = some p → (t.touch id).pages n = some p := by
    intro n p hp
    have hne : n ≠ id.pgNo := by
      rintro rfl
      rw [hp] at hnone
      cases hnone
    exact (Function.update_of_ne hne _ _).trans hp
  refine ⟨db', ?_, ?_, hself, hkeep⟩
  · rw [BufferPool.getPage, bind_ok (get_run db), hl]
    simp only [BufferPool.evictIf, if_neg (Nat.not_le.mpr hroom)]
    rw [bind_ok (pure_run () db), BufferPool.loadPage, bind_ok (get_run db),
      bind_ok (lift_run hread db)]
    rfl
  · refine
      { tableid := h.tableid, keyField := h.keyField, pageSize := h.pageSize, limit := h.limit
        clearGrowth := h.clearGrowth, blank := h.blank, size := h.size, zero := h.zero
        reads := ?_, known := ?_, held := ?_, cached := ?_, dirty := ?_ }
    · change t.reads + 1 = (db.objects ++ [_]).length
      rw [h.reads, List.length_append, List.length_singleton]
    · intro n p hp
      obtain ⟨rfl, rfl⟩ | hp := hpages n p hp
      · rw [hid]
        exact ⟨rfl, hsize, hnum⟩
      · exact h.known n p hp
    · intro n p hp
      obtain ⟨rfl, rfl⟩ | hp := hpages n p hp
      · exact ⟨_, hself⟩
      · obtain ⟨ref, href, obj, hobj, hpage⟩ := h.held n p hp
        refine ⟨ref, hkeep _ _ href, obj, ?_, hpage⟩
        exact (List.getElem?_append_left (List.getElem?_eq_some_iff.mp hobj).1).trans hobj
    · intro pid ref hpid
      by_cases heq : pid = .btree id
      · exact ⟨id.pgNo, _, Function.update_self _ _ _, by rw [heq, hid]⟩
      · obtain ⟨n, p, hp, rfl⟩ := h.cached pid ref ((AList.lookup_insert_ne heq).symm.trans hpid)
        exact ⟨n, p, hstays n p hp, rfl⟩
    · exact fun pid ref hpid => hkeep pid ref (h.dirty pid ref hpid)

/-- Changing the object of a page. -/
theorem setObject (h : Resident db dirtypages t) (hp : t.pages n = some p) (hold : Holds db p ref)
    {obj : PageObject BTreeFilePage} (hid : obj.page.getId = p.getId) :
    Resident (db.setObject ref obj) dirtypages (t.setPage n obj.page) := by
  obtain ⟨hl, o, ho, -⟩ := hold
  have hself : (db.setObject ref obj).objects[ref]? = some obj := Database.setObject_self ho
  have hpages : ∀ m q, (t.setPage n obj.page).pages m = some q →
      (m = n ∧ q = obj.page) ∨ (m ≠ n ∧ t.pages m = some q) := by
    intro m q hq
    rcases eq_or_ne m n with rfl | hne
    · rw [LogicalTree.setPage_self] at hq
      exact .inl ⟨rfl, (Option.some.inj hq).symm⟩
    · rw [LogicalTree.setPage_ne hne] at hq
      exact .inr ⟨hne, hq⟩
  refine
    { tableid := h.tableid, keyField := h.keyField, pageSize := h.pageSize, limit := h.limit
      clearGrowth := h.clearGrowth, blank := h.blank, size := h.size, zero := h.zero
      reads := ?_, known := ?_, held := ?_, cached := ?_, dirty := h.dirty }
  · exact h.reads.trans (List.length_set ..).symm
  · intro m q hq
    obtain ⟨rfl, rfl⟩ | ⟨-, hq⟩ := hpages m q hq
    · rw [hid]
      exact h.known m p hp
    · exact h.known m q hq
  · intro m q hq
    obtain ⟨rfl, rfl⟩ | ⟨hm, hq⟩ := hpages m q hq
    · exact ⟨ref, by rw [hid]; exact hl, obj, hself, rfl⟩
    · obtain ⟨ref', hl', o', ho', hpage⟩ := h.held m q hq
      refine ⟨ref', hl', o', ?_, hpage⟩
      rw [Database.setObject_ne, ho']
      rintro rfl
      apply hm
      rw [← (h.known m q hq).1, ← PageId.btree.inj (h.ref_inj hl hl'), (h.known n p hp).1]
  · intro pid ref' hpid
    obtain ⟨m, q, hq, rfl⟩ := h.cached pid ref' hpid
    rcases eq_or_ne m n with rfl | hm
    · rw [hp] at hq
      cases hq
      exact ⟨m, obj.page, LogicalTree.setPage_self, by rw [hid]⟩
    · exact ⟨m, q, (LogicalTree.setPage_ne hm).trans hq, rfl⟩

/-- A page that goes back to the pool is there. -/
theorem registerDirty (h : Resident db dirtypages t) (hl : db.pages.lookup pid = some ref)
    (tid : TransactionId) :
    ∃ db', BufferPool.registerDirty tid ref db = .ok () db' ∧ Resident db' dirtypages t ∧
      ∀ pid, db'.pages.lookup pid = db.pages.lookup pid := by
  obtain ⟨n, p, obj, hp, rfl, hobj, rfl⟩ := h.owner hl
  let db₁ := db.setObject ref { obj with dirty := some tid }
  have h₁ : Resident db₁ dirtypages t := by
    have hset : Resident db₁ dirtypages (t.setPage n obj.page) :=
      h.setObject hp ⟨hl, obj, hobj, rfl⟩ rfl
    rwa [LogicalTree.setPage_eq_self hp] at hset
  have hevict : BufferPool.evictIf (db.numPages ≤ db.pages.keys.length ∧
      db.pages.lookup (PageFile.getId BTreeFile obj.page) = none) db₁ = .ok () db₁ := by
    rw [BufferPool.evictIf, if_neg, pure_run]
    rintro ⟨-, hnone⟩
    rw [show PageFile.getId BTreeFile obj.page = .btree obj.page.getId from rfl, hl] at hnone
    cases hnone
  have hlookup : ∀ pid, (db₁.pages.insert (.btree obj.page.getId) ref).lookup pid =
      db₁.pages.lookup pid := by
    intro pid
    by_cases hid : pid = .btree obj.page.getId
    · rw [hid, AList.lookup_insert]
      exact hl.symm
    · exact AList.lookup_insert_ne hid
  refine ⟨_, BufferPool.registerDirty_run hobj hevict, ?_, hlookup⟩
  refine
    { tableid := h₁.tableid, keyField := h₁.keyField, pageSize := h₁.pageSize, limit := h₁.limit
      clearGrowth := h₁.clearGrowth, blank := h₁.blank, reads := h₁.reads, size := h₁.size
      zero := h₁.zero, known := h₁.known, held := ?_, cached := ?_, dirty := ?_ }
  · intro m q hq
    obtain ⟨r, hr, hrest⟩ := h₁.held m q hq
    exact ⟨r, (hlookup _).trans hr, hrest⟩
  · exact fun pid r hr => h₁.cached pid r ((hlookup pid).symm.trans hr)
  · exact fun pid r hr => (hlookup pid).trans (h₁.dirty pid r hr)

end Resident

end PoolTree

end PagedDb
