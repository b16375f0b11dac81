import PagedDb.BTree.PoolSim
import PagedDb.BTree.ResidentPages

/-!
# A tree in a pool that holds every page

The code of a tree on such a pool does to the map of pages what it does on the
map itself, up to the size from which on the pool or an offset is too small.
-/

namespace PagedDb

open Exec

namespace PoolTree

variable {s s' : PoolTree BTreeFile} {t t' : LogicalTree} {ref : Ref} {n : Int32}

/-- The pool that holds every page follows the map of pages. -/
def residentCoupling : Coupling Fault (PoolTree BTreeFile) LogicalTree where
  stuck := LogicalTree.stuck
  Inv s t := Resident s.db s.dirtypages t
  Evolves s t s' t' :=
    (∀ pid ref, s.db.pages.lookup pid = some ref → s'.db.pages.lookup pid = some ref) ∧
      ∀ n p, t.pages n = some p → ∃ p', t'.pages n = some p' ∧ p'.getId = p.getId
  refl _ _ := ⟨fun _ _ hl => hl, fun _ p hp => ⟨p, hp, rfl⟩⟩
  trans := by
    intro s t s' t' s'' t'' h h'
    refine ⟨fun pid ref hl => h'.1 pid ref (h.1 pid ref hl), fun n p hp => ?_⟩
    obtain ⟨p', hp', hid⟩ := h.2 n p hp
    obtain ⟨p'', hp'', hid'⟩ := h'.2 n p' hp'
    exact ⟨p'', hp'', hid'.trans hid⟩

def Filed (ref : Ref) (n : Int32) (s : PoolTree BTreeFile) (t : LogicalTree) : Prop :=
  ∃ p, t.pages n = some p ∧ s.db.pages.lookup (.btree p.getId) = some ref

theorem Filed.holds (h : Resident s.db s.dirtypages t) (hf : Filed ref n s t) :
    ∃ p, t.pages n = some p ∧ Holds s.db p ref := by
  obtain ⟨p, hp, hl⟩ := hf
  obtain ⟨ref', hl', hobj⟩ := h.held n p hp
  rw [Option.some.inj (hl'.symm.trans hl)] at hobj
  exact ⟨p, hp, hl, hobj⟩

theorem getPage_handle {id : BTreePageId} {db : _}
    (hdirty : s.dirtypages.lookup (.btree id) = none)
    (hget : BufferPool.getPage (.btree id) s.db = .ok ref db) (hdb : Resident db s.dirtypages t')
    (hl : db.pages.lookup (.btree id) = some ref) (perm : Permissions) :
    ∃ s', getPage id perm s = .ok ref s' ∧ s'.db = db ∧ Resident s'.db s'.dirtypages t' := by
  have hon : onDb (BufferPool.getPage (.btree id)) s = .ok ref { s with db } := zoom_ok hget
  rw [getPage, bind_ok (get_run s), hdirty]
  simp only [bind_ok hon]
  cases perm with
  | readOnly => exact ⟨_, rfl, rfl, hdb⟩
  | readWrite =>
    refine ⟨_, rfl, rfl, { hdb with dirty := ?_ }⟩
    intro pid r hr
    by_cases hid : pid = .btree id
    · rw [hid, AList.lookup_insert] at hr
      rw [hid, hl, hr]
    · exact hdb.dirty pid r ((AList.lookup_insert_ne hid).symm.trans hr)

theorem getPage_resident (h : Resident s.db s.dirtypages t) (id : BTreePageId)
    (perm : Permissions) :
    Agrees residentCoupling s t Filed
      ((TreeStore.getPage id perm : EStateM Fault (PoolTree BTreeFile) Ref) s)
      (TreeStore.getPage id perm t) := by
  by_cases hin : t.InFile id
  · cases hp : t.pages id.pgNo with
    | some p =>
      by_cases hid : p.getId = id
      · rw [LogicalTree.getPage_run perm hp hid hin]
        subst hid
        obtain ⟨ref, hl, -⟩ := h.held _ p hp
        have hrun : ∃ s', getPage p.getId perm s = .ok ref s' ∧ s'.db = s.db ∧
            Resident s'.db s'.dirtypages t := by
          cases hd : s.dirtypages.lookup (.btree p.getId) with
          | some ref' =>
            obtain rfl : ref' = ref := Option.some.inj ((h.dirty _ _ hd).symm.trans hl)
            refine ⟨s, ?_, rfl, h⟩
            rw [getPage, bind_ok (get_run s), hd]
            rfl
          | none =>
            have hget : BufferPool.getPage (.btree p.getId) s.db = .ok ref s.db := by
              rw [BufferPool.getPage, bind_ok (get_run s.db), hl]
              rfl
            exact getPage_handle hd hget h hl perm
        obtain ⟨s', hrun, hdb, h'⟩ := hrun
        change Agrees residentCoupling s t _ (getPage p.getId perm s) _
        rw [hrun]
        refine Agrees.ok (C := residentCoupling) h' ⟨?_, fun _ p hp => ⟨p, hp, rfl⟩⟩
          ⟨p, hp, by rw [hdb, hl]⟩
        exact fun pid r hr => by rw [hdb, hr]
      · have hstuck : (TreeStore.getPage id perm : EStateM Fault LogicalTree Int32) t =
            .error LogicalTree.stuck t := by
          change LogicalTree.getPage id t = _
          simp [LogicalTree.getPage, hin, hp, hid]
        rw [hstuck]
        exact Agrees.stuck _ _
    | none =>
      rw [LogicalTree.getPage_touch perm hp hin]
      obtain ⟨db, hget, hdb, ⟨hl, -⟩, hkeep⟩ := h.touch hin hp
      have hid : (t.blank t.reads id).getId = id := by
        rw [h.blank, BTreeFile.blankPage_id]
      rw [hid] at hl
      have hnot := h.not_cached hp
      have hd : s.dirtypages.lookup (.btree id) = none := by
        cases hd : s.dirtypages.lookup (.btree id) with
        | none => rfl
        | some r =>
          rw [h.dirty _ r hd] at hnot
          cases hnot
      obtain ⟨s', hrun, rfl, h'⟩ := getPage_handle hd hget hdb hl perm
      change Agrees residentCoupling s t _ (getPage id perm s) _
      rw [hrun]
      refine Agrees.ok (C := residentCoupling) h' ⟨hkeep, fun m q hq => ⟨q, ?_, rfl⟩⟩
        ⟨_, Function.update_self _ _ _, by rw [hid]; exact hl⟩
      have hne : m ≠ id.pgNo := by
        rintro rfl
        rw [hq] at hp
        cases hp
      exact (Function.update_of_ne hne _ _).trans hq
  · have hstuck : (TreeStore.getPage id perm : EStateM Fault LogicalTree Int32) t =
        .error LogicalTree.stuck t := by
      change LogicalTree.getPage id t = _
      simp [LogicalTree.getPage, hin]
    rw [hstuck]
    exact Agrees.stuck _ _

theorem setFile_agrees (h : Resident s.db s.dirtypages t) {f : BTreeFile → ℕ → BTreeFile}
    {fd : File} {size : ℕ} (hf : f s.db.files s.db.pageSize = { s.db.files with fd })
    (hsize : fd.size = size) (hgrow : t.size ≤ size) (hzero : ∀ i, fd.byte i = 0) :
    Agrees residentCoupling s t (fun _ _ _ _ => True) (onFile f s) (.ok () { t with size }) := by
  have hset : Resident { s.db with files := f s.db.files s.db.pageSize } s.dirtypages
      { t with size } := by
    rw [hf]
    exact h.setFile hsize hgrow hzero
  exact Agrees.ok (C := residentCoupling) hset
    ⟨fun _ _ hl => hl, fun _ p hp => ⟨p, hp, rfl⟩⟩ trivial

theorem createFile_resident (h : Resident s.db s.dirtypages t) :
    Agrees residentCoupling s t (fun _ _ _ _ => True) (onFile BTreeDisk.createFile s)
      (LogicalTree.createFile t) := by
  unfold LogicalTree.createFile
  split
  · rename_i hempty
    apply setFile_agrees h rfl
    · change ((s.db.files.fd.append _ BTreeRootPtrPage.size).append _ s.db.pageSize).size = _
      rw [File.append_size, File.append_size, h.size, hempty, h.pageSize, Nat.zero_add]
    · omega
    · exact File.append_zero (File.append_zero h.zero fun i hi => Memory.zeroed_lt hi)
        fun i hi => Memory.zeroed_lt hi
  · exact Agrees.stuck _ _

theorem appendPage_resident (h : Resident s.db s.dirtypages t) :
    Agrees residentCoupling s t (fun _ _ _ _ => True) (onFile BTreeDisk.appendPage s)
      (LogicalTree.appendPage t) := by
  unfold LogicalTree.appendPage
  split
  · apply setFile_agrees h rfl
    · rw [File.append_size, h.size, h.pageSize]
    · omega
    · exact File.append_zero h.zero fun i hi => Memory.zeroed_lt hi
  · exact Agrees.stuck _ _

theorem clearPage_resident (h : Resident s.db s.dirtypages t) (n : Int32) :
    Agrees residentCoupling s t (fun _ _ _ _ => True)
      (onFile (fun f pageSize => BTreeDisk.clearPage f pageSize n) s)
      (LogicalTree.clearPage n t) := by
  unfold LogicalTree.clearPage
  split
  · rename_i hn
    obtain ⟨-, hlimit, hpos, hle⟩ := hn
    have hsmall : s.db.files.fd.size < 2147483648 := by
      rw [h.limit] at hlimit
      rw [h.size]
      exact Nat.lt_succ_of_le ((Nat.cast_le.mp hlimit).trans (min_le_left _ _))
    have hroot : BTreeRootPtrPage.size ≤ s.db.files.fd.size := by
      rw [h.size]
      by_contra hlt
      have hzero : t.getNumPages = 0 := by
        rw [LogicalTree.getNumPages, Nat.sub_eq_zero_of_le (by omega), Nat.zero_div]
      omega
    have hnum : LogicalTree.Numbered s.db.files.tableid
        (s.db.files.getNumPages s.db.pageSize) ⟨s.db.files.tableid, n, .leaf⟩ := by
      refine ⟨rfl, ?_⟩
      rw [if_neg (show BTreePageType.leaf ≠ .rootPtr by decide), h.getNumPages]
      exact ⟨hpos, hle⟩
    have hoff := BTreeFile.pageOffset_eq_span (show BTreePageType.leaf ≠ .rootPtr by decide)
      (BTreeFile.inFile_of_numbered hroot hnum) hsmall
    let fd := s.db.files.fd.append (Memory.zeroed BTreeRootPtrPage.size s.db.files.scratch)
      BTreeRootPtrPage.size
    have hput : s.db.files.fd.pwriteAppend
        (Memory.zeroed BTreeRootPtrPage.size s.db.files.scratch) BTreeRootPtrPage.size
        (BTreeFile.pageOffset s.db.pageSize n) = fd := by
      rw [File.pwriteAppend, if_neg]
      rw [show BTreeFile.pageOffset s.db.pageSize n = _ from hoff]
      omega
    have hclear : BTreeDisk.clearPage s.db.files s.db.pageSize n = { s.db.files with fd } := by
      rw [← hput]
      rfl
    apply setFile_agrees h hclear
    · rw [File.append_size, h.size, h.clearGrowth]
    · omega
    · exact File.append_zero h.zero fun i hi => Memory.zeroed_lt hi
  · exact Agrees.stuck _ _

theorem discardPage_resident (h : Resident s.db s.dirtypages t) (id : BTreePageId) :
    Agrees residentCoupling s t (fun _ _ _ _ => True) (discardPage id s)
      (LogicalTree.discardPage id t) := by
  unfold LogicalTree.discardPage
  split
  · rename_i hnone
    have hl := h.not_cached hnone
    have hd : s.dirtypages.lookup (.btree id) = none := by
      cases hd : s.dirtypages.lookup (.btree id) with
      | none => rfl
      | some r =>
        rw [h.dirty _ r hd] at hl
        cases hl
    have hpool : onDb (BufferPool.discardPage (.btree id)) s = .ok () s := by
      have hdiscard : BufferPool.discardPage (.btree id) s.db = .ok () s.db := by
        rw [BufferPool.discardPage, modify_run, erase_of_lookup_none hl]
      exact zoom_ok hdiscard
    have hrun : discardPage id s = .ok () s := by
      rw [discardPage, bind_ok hpool, modify_run, erase_of_lookup_none hd]
    rw [hrun]
    exact Agrees.ok (C := residentCoupling) h (residentCoupling.refl s t) trivial
  · exact Agrees.stuck _ _

/-- A pool that holds every page reaches pages as the map of pages says. -/
def residentSim : TreeSim (PoolTree BTreeFile) Ref where
  toCoupling := residentCoupling
  stuck_eq := rfl
  Held := Filed
  Seen := Filed
  seen_of_held _ _ _ hh := hh
  held_evolves := by
    intro s t s' t' ref n hev hf
    obtain ⟨p, hp, hl⟩ := hf
    obtain ⟨p', hp', hid⟩ := hev.2 n p hp
    exact ⟨p', hp', by rw [hid]; exact hev.1 _ _ hl⟩
  tableid h := Resident.tableid h
  keyField h := Resident.keyField h
  pageSize h := Resident.pageSize h
  isEmpty := by
    intro s t h
    change decide (s.db.files.fd.size = 0) = decide (t.size = 0)
    rw [Resident.size h]
  getNumPages h := Resident.getNumPages h
  readPage h id := getPage_resident h id .readOnly
  writePage h id := getPage_resident h id .readWrite
  load := by
    intro s t h ref n hf
    obtain ⟨_, hp, -, obj, hobj, rfl⟩ := hf.holds h
    have hrun : onDb (deref ref) s = .ok obj s := zoom_ok (deref_run hobj)
    have hload : (TreeStore.load ref : EStateM Fault (PoolTree BTreeFile) BTreeFilePage) s =
        .ok obj.page s := by
      change (onDb (deref ref) >>= fun obj => pure obj.page) s = _
      rw [bind_ok hrun]
      rfl
    rw [hload, LogicalTree.load_run hp]
    exact Agrees.ok (C := residentCoupling) h (residentCoupling.refl s t) ⟨rfl, rfl, rfl⟩
  store := by
    intro s t h ref n hf q
    obtain ⟨_, hp, hl, obj, hobj, rfl⟩ := hf.holds h
    by_cases hid : obj.page.getId = q.getId
    · rw [LogicalTree.store_run hp hid]
      have hrun : onDb (deref ref) s = .ok obj s := zoom_ok (deref_run hobj)
      change Agrees residentCoupling s t _ ((onDb (deref ref) >>= _) s) _
      rw [bind_ok hrun]
      have hset : Resident (s.db.setObject ref { obj with page := q }) s.dirtypages
          (t.setPage n q) :=
        h.setObject hp ⟨hl, obj, hobj, rfl⟩ hid.symm
      refine Agrees.ok (C := residentCoupling) hset ⟨fun _ _ hl => hl, fun m r hr => ?_⟩ trivial
      rcases eq_or_ne m n with rfl | hne
      · obtain rfl : obj.page = r := Option.some.inj (hp.symm.trans hr)
        exact ⟨q, LogicalTree.setPage_self, hid.symm⟩
      · exact ⟨r, (LogicalTree.setPage_ne hne).trans hr, rfl⟩
    · have hstuck : (TreeStore.store n q : EStateM Fault LogicalTree Unit) t =
          .error LogicalTree.stuck t := by
        change LogicalTree.store n q t = _
        simp [LogicalTree.store, hp, hid]
      rw [hstuck]
      exact Agrees.stuck _ _
  createFile h := createFile_resident h
  appendPage h := appendPage_resident h
  clearPage h n := clearPage_resident h n
  discardPage h id := discardPage_resident h id

/-- The map of pages of an empty file. -/
def emptyTree (file : BTreeFile) (pageSize numPages : ℕ) (order : ℕ → ℕ) : LogicalTree where
  tableid := file.tableid
  keyField := file.keyField
  pageSize := pageSize
  limit := sizeLimit (opened file pageSize numPages order).db
  clearGrowth := BTreeRootPtrPage.size
  blank := file.blankPage pageSize
  reads := 0
  size := 0
  pages _ := none

theorem opened_resident {file : BTreeFile} (hsize : file.fd.size = 0)
    (hzero : ∀ i, file.fd.byte i = 0) (pageSize numPages : ℕ) (order : ℕ → ℕ) :
    Resident (opened file pageSize numPages order).db ∅
      (emptyTree file pageSize numPages order) := by
  constructor
  case tableid => rfl
  case keyField => rfl
  case pageSize => rfl
  case limit => rfl
  case clearGrowth => rfl
  case blank => rfl
  case reads => rfl
  case size => exact hsize
  case zero => exact hzero
  case known => intro n p hp; cases hp
  case held => intro n p hp; cases hp
  case cached => intro pid ref hl; cases hl
  case dirty => intro pid ref hl; cases hl

theorem registerAll_resident (tid : TransactionId) {refs : List Ref} {db : _} {dirtypages : PagesMap}
    (h : Resident db dirtypages t)
    (hrefs : ∀ ref ∈ refs, ∃ pid, db.pages.lookup pid = some ref) :
    ∃ db', refs.forM (BufferPool.registerDirty tid) db = .ok ⟨⟩ db' ∧ Resident db' dirtypages t := by
  induction refs generalizing db with
  | nil => exact ⟨db, rfl, h⟩
  | cons ref refs ih =>
    obtain ⟨pid, hl⟩ := hrefs ref List.mem_cons_self
    obtain ⟨db₁, hrun, h₁, hlookup⟩ := h.registerDirty hl tid
    obtain ⟨db₂, hrest, h₂⟩ := ih h₁ fun r hr => by
      obtain ⟨pid', hl'⟩ := hrefs r (List.mem_cons_of_mem ref hr)
      exact ⟨pid', (hlookup pid').trans hl'⟩
    refine ⟨db₂, ?_, h₂⟩
    change (BufferPool.registerDirty tid ref >>= fun _ => refs.forM _) db = _
    rw [bind_ok hrun, hrest]

/-- `BufferPool::insertTuple` follows the map of pages where that returns. -/
theorem insertTuple_resident (h : Resident s.db s.dirtypages t) (call : InsertCall) {tuple : Tuple}
    (hrun : BTreeFile.insertTuple call.tuple t = .ok tuple t') :
    ∃ s', insertTuple call s = .ok tuple s' ∧ Resident s'.db s'.dirtypages t' := by
  have hempty : Resident s.db ∅ t := { h with dirty := fun _ _ hl => by cases hl }
  have hagrees := residentSim.insertTuple (s := { s with dirtypages := ∅ }) hempty call.tuple
  rw [hrun] at hagrees
  obtain ⟨tuple', s₁, hins, h₁, -, rfl⟩ := hagrees.of_ok
  have h₁ : Resident s₁.db s₁.dirtypages t' := h₁
  have hrefs : ∀ ref ∈ call.arrange s₁.returned, ∃ pid, s₁.db.pages.lookup pid = some ref := by
    intro ref href
    obtain ⟨⟨pid, r⟩, he, rfl⟩ := List.mem_map.mp ((call.arrange_perm _).mem_iff.mp href)
    exact ⟨pid, h₁.dirty pid r (AList.mem_lookup_iff.mpr he)⟩
  obtain ⟨db₂, hregister, h₂⟩ := registerAll_resident call.tid h₁ hrefs
  refine ⟨{ s₁ with db := db₂ }, ?_, h₂⟩
  have hon : onDb ((call.arrange s₁.returned).forM (BufferPool.registerDirty call.tid)) s₁ =
      .ok ⟨⟩ { s₁ with db := db₂ } := zoom_ok hregister
  rw [insertTuple, bind_ok (modify_run _ s), bind_ok hins, bind_ok (get_run s₁), bind_ok hon]
  rfl

end PoolTree

end PagedDb
