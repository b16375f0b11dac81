import PagedDb.BTree.PoolInsert
import PagedDb.BTree.TreeSim
import PagedDb.Storage.PoolCoherence

/-!
# The pages in a pool over a file

What the pool, the file and the map of dirty pages of an operation contain is
one map of pages: a page in `dirtypages` is what its object holds, another page
is what the pool's object holds if it is resident, and else what is on disk.
Eviction does not change it, whatever page is chosen.
-/

namespace PagedDb

open Exec

def emptyPage (td : TupleDesc) (keyField pageSize : ℕ) (id : BTreePageId) : BTreeFilePage :=
  let zeros : Memory.Buffer := fun _ => 0
  if id.type = .rootPtr then .rootPtr (.ofData id zeros)
  else if id.type = .internal then .internal (.ofData pageSize td id keyField zeros zeros)
  else if id.type = .leaf then .leaf (.ofData pageSize td id keyField zeros zeros)
  else .header (.ofData pageSize id zeros)

theorem emptyPage_id (td : TupleDesc) (keyField pageSize : ℕ) (id : BTreePageId) :
    (emptyPage td keyField pageSize id).getId = id := by
  unfold emptyPage
  split_ifs <;> rfl

/-- An ideal file, which the source does not have: writing is positional, a page reads back as it
was written, and a page that was never written reads as an empty one. `BTreeFile` is opened with
`O_APPEND` and its pages lose data on the way, so it is no instance. `size` counts bytes and
`content` is the page that a reader of an id gets. -/
class IdealDisk (δ : Type) extends BTreeDisk δ where
  td : δ → TupleDesc
  size : δ → ℕ
  content : δ → ℕ → BTreePageId → BTreeFilePage
  getId_eq : ∀ page : BTreeFilePage, PageFile.getId δ page = .btree page.getId
  isEmpty_eq : ∀ d, isEmpty d = decide (size d = 0)
  getNumPages_eq : ∀ d pageSize,
    getNumPages d pageSize = (size d - BTreeRootPtrPage.size) / pageSize
  read_ok : ∀ d pageSize id ref, BTreeRootPtrPage.size ≤ size d →
    LogicalTree.Numbered (tableid d) (getNumPages d pageSize) id →
    PageFile.readPage d pageSize (.btree id) ref = .ok (content d pageSize id) ∧
      (content d pageSize id).getId = id
  write_ok : ∀ d pageSize (page : BTreeFilePage), BTreeRootPtrPage.size ≤ size d →
    LogicalTree.Numbered (tableid d) (getNumPages d pageSize) page.getId →
    ∃ d', PageFile.writePage d pageSize page.getId.tableId page = .ok d' ∧
      tableid d' = tableid d ∧ keyField d' = keyField d ∧ td d' = td d ∧ size d' = size d ∧
      content d' pageSize page.getId = page ∧
      ∀ id, id.pgNo ≠ page.getId.pgNo → content d' pageSize id = content d pageSize id
  create_ok : ∀ d pageSize, size d = 0 →
    tableid (createFile d pageSize) = tableid d ∧ keyField (createFile d pageSize) = keyField d ∧
      td (createFile d pageSize) = td d ∧
      size (createFile d pageSize) = BTreeRootPtrPage.size + pageSize ∧
      ∀ id, content (createFile d pageSize) pageSize id =
        emptyPage (td d) (keyField d) pageSize id
  append_ok : ∀ d pageSize,
    tableid (appendPage d pageSize) = tableid d ∧ keyField (appendPage d pageSize) = keyField d ∧
      td (appendPage d pageSize) = td d ∧ size (appendPage d pageSize) = size d + pageSize ∧
      ∀ id, content (appendPage d pageSize) pageSize id =
        if LogicalTree.Numbered (tableid d) (getNumPages d pageSize) id then content d pageSize id
        else emptyPage (td d) (keyField d) pageSize id
  clear_ok : ∀ d pageSize (n : Int32), 0 < n.toInt → n.toInt ≤ getNumPages d pageSize →
    tableid (clearPage d pageSize n) = tableid d ∧ keyField (clearPage d pageSize n) = keyField d ∧
      td (clearPage d pageSize n) = td d ∧ size (clearPage d pageSize n) = size d ∧
      ∀ id, (id.pgNo = n → content d pageSize id = emptyPage (td d) (keyField d) pageSize id) →
        content (clearPage d pageSize n) pageSize id = content d pageSize id

namespace PoolTree

variable {δ : Type} [IdealDisk δ]

/-- What a page is outside of an operation: a resident one is what its object holds, which is
also on disk unless it is dirty. -/
def Rests (db : Database BTreeFilePage δ) (p : BTreeFilePage) : Prop :=
  match db.pages.lookup (.btree p.getId) with
  | some ref => ∃ obj, db.objects[ref]? = some obj ∧ obj.page = p ∧
      (obj.dirty = none → IdealDisk.content db.files db.pageSize p.getId = p)
  | none => IdealDisk.content db.files db.pageSize p.getId = p

/-- What a page is in an operation that has asked for it to write: the pool has no other object
for it. -/
def InUse (db : Database BTreeFilePage δ) (p : BTreeFilePage) (ref : Ref) : Prop :=
  (∃ obj, db.objects[ref]? = some obj ∧ obj.page = p) ∧
    ∀ ref', db.pages.lookup (.btree p.getId) = some ref' → ref' = ref

/-- The pool, the file and `dirtypages` contain the map of pages. -/
structure Couples (db : Database BTreeFilePage δ) (dirtypages : PagesMap) (t : LogicalTree) :
    Prop where
  tableid : BTreeDisk.tableid db.files = t.tableid
  keyField : BTreeDisk.keyField db.files = t.keyField
  pageSize : db.pageSize = t.pageSize
  limit : t.limit = ⊤
  clearGrowth : t.clearGrowth = 0
  blank : ∀ k, t.blank k = emptyPage (IdealDisk.td db.files) t.keyField t.pageSize
  size : IdealDisk.size db.files = t.size
  known : ∀ n p, t.pages n = some p → p.getId.pgNo = n ∧ t.InFile p.getId
  inUse : ∀ n p, t.pages n = some p → ∀ ref, dirtypages.lookup (.btree p.getId) = some ref →
    InUse db p ref
  rests : ∀ n p, t.pages n = some p → dirtypages.lookup (.btree p.getId) = none → Rests db p
  cached : ∀ pid, (dirtypages.lookup pid).isSome ∨ (db.pages.lookup pid).isSome →
    ∃ n p, t.pages n = some p ∧ pid = .btree p.getId
  fresh : ∀ id, t.InFile id → t.pages id.pgNo = none →
    IdealDisk.content db.files db.pageSize id = t.blank 0 id

variable {db db' : Database BTreeFilePage δ} {dirtypages : PagesMap} {t : LogicalTree}
  {pid pid' : PageId} {ref : Ref}

theorem Couples.owner (h : Couples db dirtypages t)
    (hl : dirtypages.lookup pid = some ref ∨ db.pages.lookup pid = some ref) :
    ∃ n p obj, t.pages n = some p ∧ pid = .btree p.getId ∧ db.objects[ref]? = some obj ∧
      obj.page = p := by
  obtain ⟨n, p, hp, rfl⟩ := h.cached pid (hl.imp (by simp +contextual) (by simp +contextual))
  refine ⟨n, p, ?_⟩
  cases hd : dirtypages.lookup (.btree p.getId) with
  | some r =>
    obtain ⟨⟨obj, hobj, hpage⟩, hown⟩ := h.inUse n p hp r hd
    have hr : ref = r := by
      rcases hl with hl | hl
      · exact Option.some.inj (hl.symm.trans hd)
      · exact hown ref hl
    exact ⟨obj, hp, rfl, hr ▸ hobj, hpage⟩
  | none =>
    have hl : db.pages.lookup (.btree p.getId) = some ref := hl.resolve_left (by simp [hd])
    have hrest := h.rests n p hp hd
    rw [Rests, hl] at hrest
    obtain ⟨obj, hobj, hpage, -⟩ := hrest
    exact ⟨obj, hp, rfl, hobj, hpage⟩

theorem Couples.ref_inj (h : Couples db dirtypages t)
    (hl : dirtypages.lookup pid = some ref ∨ db.pages.lookup pid = some ref)
    (hl' : dirtypages.lookup pid' = some ref ∨ db.pages.lookup pid' = some ref) : pid = pid' := by
  obtain ⟨n, p, obj, -, rfl, hobj, rfl⟩ := h.owner hl
  obtain ⟨n', p', obj', -, rfl, hobj', rfl⟩ := h.owner hl'
  obtain rfl : obj = obj' := Option.some.inj (hobj.symm.trans hobj')
  rfl

theorem Couples.number_inj (h : Couples db dirtypages t) {n m : Int32} {p q : BTreeFilePage}
    (hp : t.pages n = some p) (hq : t.pages m = some q) (hne : p.getId ≠ q.getId) :
    p.getId.pgNo ≠ q.getId.pgNo := by
  rw [(h.known n p hp).1, (h.known m q hq).1]
  rintro rfl
  rw [hp] at hq
  cases hq
  exact hne rfl

/-- Dropping a page from the pool, after its write-back if it is dirty. -/
theorem Couples.drop (h : Couples db dirtypages t) {n : Int32} {p : BTreeFilePage}
    {obj : PageObject BTreeFilePage} {files : δ} (hp : t.pages n = some p)
    (hl : db.pages.lookup (.btree p.getId) = some ref) (hobj : db.objects[ref]? = some obj)
    (hmeta : BTreeDisk.tableid files = BTreeDisk.tableid db.files ∧
      BTreeDisk.keyField files = BTreeDisk.keyField db.files ∧
      IdealDisk.td files = IdealDisk.td db.files ∧ IdealDisk.size files = IdealDisk.size db.files)
    (hself : dirtypages.lookup (.btree p.getId) = none →
      IdealDisk.content files db.pageSize p.getId = p)
    (hother : ∀ id : BTreePageId, id.pgNo ≠ p.getId.pgNo →
      IdealDisk.content files db.pageSize id = IdealDisk.content db.files db.pageSize id)
    (hdb : db'.pageSize = db.pageSize ∧ db'.files = files ∧
      db'.pages = db.pages.erase (.btree p.getId) ∧
      (db'.objects = db.objects ∨ db'.objects = db.objects.set ref { obj with dirty := none })) :
    Couples db' dirtypages t := by
  obtain ⟨hsize, rfl, hpages, hobjects⟩ := hdb
  have hpage : ∀ (r : Ref) q, (∃ o, db.objects[r]? = some o ∧ o.page = q) →
      ∃ o, db'.objects[r]? = some o ∧ o.page = q := by
    rintro r _ ⟨o, ho, rfl⟩
    rcases hobjects with heq | heq
    · exact ⟨o, by rw [heq, ho], rfl⟩
    · rw [heq]
      rcases eq_or_ne ref r with rfl | hne
      · obtain rfl : obj = o := Option.some.inj (hobj.symm.trans ho)
        exact ⟨_, List.getElem?_set_self (List.getElem?_eq_some_iff.mp ho).1, rfl⟩
      · exact ⟨o, by rw [List.getElem?_set_ne hne, ho], rfl⟩
  have hsame : ∀ r, r ≠ ref → db'.objects[r]? = db.objects[r]? := by
    intro r hr
    rcases hobjects with heq | heq
    · rw [heq]
    · rw [heq, List.getElem?_set_ne (Ne.symm hr)]
  refine ⟨hmeta.1.trans h.tableid, hmeta.2.1.trans h.keyField, hsize.trans h.pageSize, h.limit,
    h.clearGrowth, ?_, hmeta.2.2.2.trans h.size, h.known, ?_, ?_, ?_, ?_⟩
  · intro k
    rw [hmeta.2.2.1]
    exact h.blank k
  · intro m q hq r hr
    obtain ⟨hex, hown⟩ := h.inUse m q hq r hr
    refine ⟨hpage r q hex, fun r' hr' => hown r' ?_⟩
    rw [hpages] at hr'
    by_cases hid : PageId.btree q.getId = .btree p.getId
    · rw [hid, AList.lookup_erase] at hr'
      cases hr'
    · rwa [AList.lookup_erase_ne hid] at hr'
  · intro m q hq hr
    have hrest := h.rests m q hq hr
    unfold Rests at hrest ⊢
    rw [hpages, hsize]
    by_cases hid : q.getId = p.getId
    · obtain rfl : n = m := by rw [← (h.known n p hp).1, ← (h.known m q hq).1, hid]
      obtain rfl : p = q := Option.some.inj (hp.symm.trans hq)
      rw [AList.lookup_erase]
      exact hself hr
    · have hne : PageId.btree q.getId ≠ .btree p.getId := fun heq => hid (PageId.btree.inj heq)
      rw [AList.lookup_erase_ne hne, hother _ (h.number_inj hq hp hid)]
      cases hlq : db.pages.lookup (.btree q.getId) with
      | none => rwa [hlq] at hrest
      | some r =>
        have hrne : r ≠ ref := by
          rintro rfl
          exact hne (h.ref_inj (.inr hlq) (.inr hl))
        rw [hlq] at hrest
        obtain ⟨o, ho, hrest⟩ := hrest
        exact ⟨o, (hsame r hrne).trans ho, hrest⟩
  · intro j hj
    apply h.cached j
    apply hj.imp_right
    intro hsome
    rw [hpages] at hsome
    by_cases hid : j = .btree p.getId
    · rw [hid, AList.lookup_erase] at hsome
      cases hsome
    · rwa [AList.lookup_erase_ne hid] at hsome
  · intro id hin hnone
    rw [hsize, hother id, h.fresh id hin hnone]
    rintro heq
    rw [heq, (h.known n p hp).1, hp] at hnone
    cases hnone

theorem Couples.onDisk (h : Couples db dirtypages t) {n : Int32} {p : BTreeFilePage}
    {obj : PageObject BTreeFilePage} (hp : t.pages n = some p)
    (hl : db.pages.lookup (.btree p.getId) = some ref) (hobj : db.objects[ref]? = some obj)
    (hclean : obj.dirty = none) (hd : dirtypages.lookup (.btree p.getId) = none) :
    IdealDisk.content db.files db.pageSize p.getId = p := by
  have hrest := h.rests n p hp hd
  rw [Rests, hl] at hrest
  obtain ⟨obj', hobj', -, hdisk⟩ := hrest
  obtain rfl : obj = obj' := Option.some.inj (hobj.symm.trans hobj')
  exact hdisk hclean

theorem Couples.stored (h : Couples db dirtypages t) {n : Int32} {p : BTreeFilePage}
    (hp : t.pages n = some p) :
    BTreeRootPtrPage.size ≤ IdealDisk.size db.files ∧
      LogicalTree.Numbered (BTreeDisk.tableid db.files)
        (BTreeDisk.getNumPages db.files db.pageSize) p.getId := by
  obtain ⟨-, hsize, -, hnum⟩ := h.known n p hp
  rw [h.tableid, IdealDisk.getNumPages_eq, h.size, h.pageSize]
  exact ⟨hsize, hnum⟩

/-- `evictPage` drops some page, and the map of pages stays. An object that no id of the pool
leads to is left alone. -/
theorem Couples.evictPage (h : Couples db dirtypages t) :
    ∃ db', BufferPool.evictPage db = .ok () db' ∧ Couples db' dirtypages t ∧
      (∀ pid, db.pages.lookup pid = none → db'.pages.lookup pid = none) ∧
      ∀ r, (∀ pid, db.pages.lookup pid ≠ some r) → db'.objects[r]? = db.objects[r]? := by
  rw [BufferPool.evictPage, bind_ok (get_run db)]
  cases hkey : db.pages.keys[db.order 0 % db.pages.keys.length]? with
  | none => exact ⟨db, rfl, h, fun _ hnone => hnone, fun _ _ => rfl⟩
  | some victim =>
    have hmem : victim ∈ db.pages.keys := List.mem_of_getElem? hkey
    obtain ⟨ref, hl⟩ := Option.isSome_iff_exists.mp
      (AList.lookup_isSome.mpr (AList.mem_keys.mpr hmem))
    obtain ⟨n, p, obj, hp, rfl, hobj, hpage⟩ := h.owner (.inr hl)
    let db₁ : Database BTreeFilePage δ := { db with order := fun n => db.order (n + 1) }
    have hgone : ∀ {pages : PagesMap}, pages = db.pages → ∀ pid, db.pages.lookup pid = none →
        (pages.erase (.btree p.getId)).lookup pid = none := by
      rintro _ rfl pid hnone
      by_cases hid : pid = .btree p.getId
      · rw [hid, AList.lookup_erase]
      · rwa [AList.lookup_erase_ne hid]
    have hobj₁ : db₁.objects[ref]? = some obj := hobj
    simp only [bind_ok (modify_run _ db)]
    cases hdirty : obj.dirty with
    | none =>
      have hflush : BufferPool.flushPage (.btree p.getId) db₁ = .ok () db₁ := by
        rw [BufferPool.flushPage, bind_ok (get_run db₁), hl]
        simp only
        rw [bind_ok (deref_run hobj₁), hdirty]
        rfl
      rw [bind_ok hflush]
      refine ⟨_, rfl, ?_, hgone rfl, fun _ _ => rfl⟩
      exact h.drop hp hl hobj ⟨rfl, rfl, rfl, rfl⟩ (fun hd => h.onDisk hp hl hobj hdirty hd)
        (fun _ _ => rfl) ⟨rfl, rfl, rfl, .inl rfl⟩
    | some tid =>
      obtain ⟨files, hwrite, htable, hkeyField, htd, hsize, hself, hother⟩ :=
        IdealDisk.write_ok db.files db.pageSize p (h.stored hp).1 (h.stored hp).2
      have hflush : BufferPool.flushPage (.btree p.getId) db₁ =
          .ok () { db₁.setObject ref { obj with dirty := none } with files } := by
        rw [BufferPool.flushPage, bind_ok (get_run db₁), hl]
        simp only
        rw [bind_ok (deref_run hobj₁), hdirty]
        change (markDirty ref none >>= _) db₁ = _
        rw [bind_ok (markDirty_run hobj₁ none), hpage]
        exact bind_ok (lift_run hwrite _)
      rw [bind_ok hflush]
      refine ⟨_, rfl, ?_, hgone rfl, fun r hr => ?_⟩
      · exact h.drop hp hl hobj ⟨htable, hkeyField, htd, hsize⟩ (fun _ => hself) hother
          ⟨rfl, rfl, rfl, .inr rfl⟩
      · apply Database.setObject_ne
        rintro rfl
        exact hr _ hl

theorem Couples.evictIf (h : Couples db dirtypages t) (full : Prop) [Decidable full] :
    ∃ db', BufferPool.evictIf full db = .ok () db' ∧ Couples db' dirtypages t ∧
      (∀ pid, db.pages.lookup pid = none → db'.pages.lookup pid = none) ∧
      (full → ∀ r, (∀ pid, db.pages.lookup pid ≠ some r) → db'.objects[r]? = db.objects[r]?) ∧
      (¬ full → db' = db) := by
  unfold BufferPool.evictIf
  split
  · rename_i hfull
    obtain ⟨db', hrun, h', hnone, hframe⟩ := h.evictPage
    exact ⟨db', hrun, h', hnone, fun _ => hframe, fun hnot => absurd hfull hnot⟩
  · rename_i hfull
    exact ⟨db, rfl, h, fun _ hnone => hnone, fun _ _ _ => rfl, fun _ => rfl⟩

theorem Couples.not_cached (h : Couples db dirtypages t) {id : BTreePageId}
    (hnone : t.pages id.pgNo = none) :
    dirtypages.lookup (.btree id) = none ∧ db.pages.lookup (.btree id) = none := by
  have hno : ¬ ((dirtypages.lookup (.btree id)).isSome ∨ (db.pages.lookup (.btree id)).isSome) := by
    intro hsome
    obtain ⟨n, p, hp, heq⟩ := h.cached _ hsome
    rw [PageId.btree.inj heq, (h.known n p hp).1, hp] at hnone
    cases hnone
  rw [not_or] at hno
  simpa using hno

/-- A page of the file that nobody has asked for is an empty page. -/
theorem Couples.touch (h : Couples db dirtypages t) {id : BTreePageId} (hin : t.InFile id)
    (hnone : t.pages id.pgNo = none) : Couples db dirtypages (t.touch id) := by
  obtain ⟨hd, hl⟩ := h.not_cached hnone
  have hblank : (t.blank t.reads id).getId = id := by rw [h.blank, emptyPage_id]
  have hcontent : IdealDisk.content db.files db.pageSize id = t.blank t.reads id := by
    rw [h.fresh id hin hnone, h.blank, h.blank]
  have hcases : ∀ n p, (t.touch id).pages n = some p →
      (n = id.pgNo ∧ p = t.blank t.reads id) ∨ (n ≠ id.pgNo ∧ t.pages n = some p) := by
    intro n p hp
    change Function.update t.pages id.pgNo _ n = some p at hp
    rcases eq_or_ne n id.pgNo with rfl | hne
    · rw [Function.update_self] at hp
      exact .inl ⟨rfl, (Option.some.inj hp).symm⟩
    · rw [Function.update_of_ne hne] at hp
      exact .inr ⟨hne, hp⟩
  refine ⟨h.tableid, h.keyField, h.pageSize, h.limit, h.clearGrowth, h.blank, h.size, ?_, ?_, ?_,
    ?_, ?_⟩
  · intro n p hp
    obtain ⟨rfl, rfl⟩ | ⟨-, hp⟩ := hcases n p hp
    · rw [hblank]
      exact ⟨rfl, hin⟩
    · exact h.known n p hp
  · intro n p hp ref hr
    obtain ⟨rfl, rfl⟩ | ⟨-, hp⟩ := hcases n p hp
    · rw [hblank, hd] at hr
      cases hr
    · exact h.inUse n p hp ref hr
  · intro n p hp hr
    obtain ⟨rfl, rfl⟩ | ⟨-, hp⟩ := hcases n p hp
    · rw [Rests, hblank, hl]
      exact hcontent
    · exact h.rests n p hp hr
  · intro pid hsome
    obtain ⟨n, p, hp, rfl⟩ := h.cached pid hsome
    have hne : n ≠ id.pgNo := by
      rintro rfl
      rw [hp] at hnone
      cases hnone
    exact ⟨n, p, (Function.update_of_ne hne _ _).trans hp, rfl⟩
  · intro id' hin' hnone'
    have hne : id'.pgNo ≠ id.pgNo := by
      intro heq
      have hself : (t.touch id).pages id'.pgNo = some (t.blank t.reads id) := by
        rw [heq]
        exact Function.update_self _ _ _
      rw [hself] at hnone'
      cases hnone'
    exact h.fresh id' hin' ((Function.update_of_ne hne _ _).symm.trans hnone')

/-- A page that is not resident is read into a new object. -/
theorem Couples.loadPage (h : Couples db dirtypages t) {n : Int32} {p : BTreeFilePage}
    (hp : t.pages n = some p) (hd : dirtypages.lookup (.btree p.getId) = none)
    (hl : db.pages.lookup (.btree p.getId) = none) :
    ∃ db' ref, BufferPool.loadPage (.btree p.getId) db = .ok ref db' ∧ Couples db' dirtypages t ∧
      db'.pages.lookup (.btree p.getId) = some ref := by
  have hcontent := h.rests n p hp hd
  rw [Rests, hl] at hcontent
  obtain ⟨hread, -⟩ := IdealDisk.read_ok db.files db.pageSize p.getId db.objects.length
    (h.stored hp).1 (h.stored hp).2
  rw [show IdealDisk.content db.files db.pageSize p.getId = p from hcontent] at hread
  let db' : Database BTreeFilePage δ :=
    { db with
      objects := db.objects ++ [⟨p, none⟩]
      pages := db.pages.insert (.btree p.getId) db.objects.length }
  have hold : ∀ (r : Ref) o, db.objects[r]? = some o → db'.objects[r]? = some o := by
    intro r o ho
    exact (List.getElem?_append_left (List.getElem?_eq_some_iff.mp ho).1).trans ho
  have hl' : db'.pages.lookup (.btree p.getId) = some db.objects.length :=
    AList.lookup_insert db.pages
  have hlne : ∀ j, j ≠ .btree p.getId → db'.pages.lookup j = db.pages.lookup j :=
    fun j hj => AList.lookup_insert_ne hj
  refine ⟨db', db.objects.length, ?_, ⟨h.tableid, h.keyField, h.pageSize, h.limit, h.clearGrowth,
    h.blank, h.size, h.known, ?_, ?_, ?_, h.fresh⟩, hl'⟩
  · rw [BufferPool.loadPage, bind_ok (get_run db), bind_ok (lift_run hread db)]
    rfl
  · intro m q hq ref hr
    obtain ⟨⟨o, ho, hpage⟩, hown⟩ := h.inUse m q hq ref hr
    have hne : PageId.btree q.getId ≠ .btree p.getId := by
      intro heq
      rw [heq, hd] at hr
      cases hr
    exact ⟨⟨o, hold _ _ ho, hpage⟩, fun r' hr' => hown r' ((hlne _ hne).symm.trans hr')⟩
  · intro m q hq hr
    have hrest := h.rests m q hq hr
    unfold Rests at hrest ⊢
    by_cases hid : q.getId = p.getId
    · obtain rfl : n = m := by rw [← (h.known n p hp).1, ← (h.known m q hq).1, hid]
      obtain rfl : p = q := Option.some.inj (hp.symm.trans hq)
      rw [hl']
      exact ⟨⟨p, none⟩, List.getElem?_concat_length, rfl, fun _ => hcontent⟩
    · rw [hlne _ fun heq => hid (PageId.btree.inj heq)]
      cases hlq : db.pages.lookup (.btree q.getId) with
      | none => rwa [hlq] at hrest
      | some r =>
        rw [hlq] at hrest
        obtain ⟨o, ho, hrest⟩ := hrest
        exact ⟨o, hold _ _ ho, hrest⟩
  · intro pid hsome
    by_cases hid : pid = .btree p.getId
    · exact ⟨n, p, hp, hid⟩
    · rw [hlne pid hid] at hsome
      exact h.cached pid hsome

/-- `BufferPool::getPage` of a page that the operation has not asked for to write. -/
theorem Couples.getPage (h : Couples db dirtypages t) {n : Int32} {p : BTreeFilePage}
    (hp : t.pages n = some p) (hd : dirtypages.lookup (.btree p.getId) = none) :
    ∃ db' ref, BufferPool.getPage (.btree p.getId) db = .ok ref db' ∧ Couples db' dirtypages t ∧
      db'.pages.lookup (.btree p.getId) = some ref := by
  rw [BufferPool.getPage, bind_ok (get_run db)]
  cases hl : db.pages.lookup (.btree p.getId) with
  | some ref => exact ⟨db, ref, rfl, h, hl⟩
  | none =>
    obtain ⟨db₁, hevict, h₁, hnone, -⟩ := h.evictIf (db.numPages ≤ db.pages.keys.length)
    obtain ⟨db₂, ref, hload, h₂, hl₂⟩ := h₁.loadPage hp hd (hnone _ hl)
    exact ⟨db₂, ref, by simp only [bind_ok hevict, hload], h₂, hl₂⟩

/-- Changing the object of a page that the operation has asked for to write. -/
theorem Couples.setObject (h : Couples db dirtypages t) {n : Int32} {p : BTreeFilePage}
    (hp : t.pages n = some p) (hd : dirtypages.lookup (.btree p.getId) = some ref)
    {obj : PageObject BTreeFilePage} (hid : obj.page.getId = p.getId) :
    Couples (db.setObject ref obj) dirtypages (t.setPage n obj.page) := by
  obtain ⟨⟨o, ho, -⟩, hown⟩ := h.inUse n p hp ref hd
  have hself : (db.setObject ref obj).objects[ref]? = some obj := Database.setObject_self ho
  have hcases : ∀ m q, (t.setPage n obj.page).pages m = some q →
      (m = n ∧ q = obj.page) ∨ (m ≠ n ∧ t.pages m = some q) := by
    intro m q hq
    rcases eq_or_ne m n with rfl | hne
    · rw [LogicalTree.setPage_self] at hq
      exact .inl ⟨rfl, (Option.some.inj hq).symm⟩
    · rw [LogicalTree.setPage_ne hne] at hq
      exact .inr ⟨hne, hq⟩
  have hne_ref : ∀ m q, m ≠ n → t.pages m = some q → ∀ r,
      dirtypages.lookup (.btree q.getId) = some r ∨ db.pages.lookup (.btree q.getId) = some r →
      (db.setObject ref obj).objects[r]? = db.objects[r]? := by
    intro m q hm hq r hr
    apply Database.setObject_ne
    rintro rfl
    have heq := PageId.btree.inj (h.ref_inj (.inl hd) hr)
    apply hm
    rw [← (h.known m q hq).1, ← heq, (h.known n p hp).1]
  refine ⟨h.tableid, h.keyField, h.pageSize, h.limit, h.clearGrowth, h.blank, h.size, ?_, ?_, ?_,
    ?_, ?_⟩
  · intro m q hq
    obtain ⟨rfl, rfl⟩ | ⟨-, hq⟩ := hcases m q hq
    · rw [hid]
      exact h.known m p hp
    · exact h.known m q hq
  · intro m q hq r hr
    obtain ⟨rfl, rfl⟩ | ⟨hm, hq⟩ := hcases m q hq
    · rw [hid] at hr
      obtain rfl := Option.some.inj (hd.symm.trans hr)
      refine ⟨⟨obj, hself, rfl⟩, fun r' hr' => hown r' ?_⟩
      rwa [hid] at hr'
    · obtain ⟨⟨o', ho', hpage⟩, hown'⟩ := h.inUse m q hq r hr
      exact ⟨⟨o', (hne_ref m q hm hq r (.inl hr)).trans ho', hpage⟩, hown'⟩
  · intro m q hq hr
    obtain ⟨rfl, rfl⟩ | ⟨hm, hq⟩ := hcases m q hq
    · rw [hid, hd] at hr
      cases hr
    · have hrest := h.rests m q hq hr
      unfold Rests at hrest ⊢
      change match db.pages.lookup (.btree q.getId) with | some ref => _ | none => _
      cases hlq : db.pages.lookup (.btree q.getId) with
      | none => rwa [hlq] at hrest
      | some r =>
        rw [hlq] at hrest
        obtain ⟨o', ho', hrest⟩ := hrest
        exact ⟨o', (hne_ref m q hm hq r (.inr hlq)).trans ho', hrest⟩
  · intro pid hsome
    obtain ⟨m, q, hq, rfl⟩ := h.cached pid hsome
    rcases eq_or_ne m n with rfl | hm
    · obtain rfl : p = q := Option.some.inj (hp.symm.trans hq)
      exact ⟨m, obj.page, LogicalTree.setPage_self, by rw [hid]⟩
    · exact ⟨m, q, (LogicalTree.setPage_ne hm).trans hq, rfl⟩
  · intro id hin hnone
    have hm : id.pgNo ≠ n := by
      intro heq
      rw [heq, LogicalTree.setPage_self] at hnone
      cases hnone
    rw [LogicalTree.setPage_ne hm] at hnone
    exact h.fresh id hin hnone

/-- The end of `BufferPool::insertTuple` for one page: it goes back to the pool, dirty. -/
theorem Couples.registerDirty (h : Couples db dirtypages t)
    (hd : dirtypages.lookup pid = some ref) (tid : TransactionId) :
    ∃ db', BufferPool.registerDirty tid ref db = .ok () db' ∧
      Couples db' (dirtypages.erase pid) t := by
  obtain ⟨n, p, obj, hp, rfl, hobj, hpage⟩ := h.owner (.inl hd)
  have h₁ : Couples (db.setObject ref { obj with dirty := some tid }) dirtypages t := by
    subst hpage
    have hset := @setObject _ _ _ _ _ _ h _ _ hp hd { obj with dirty := some tid } rfl
    rwa [LogicalTree.setPage_eq_self hp] at hset
  let db₁ := db.setObject ref { obj with dirty := some tid }
  have hobj₁ : db₁.objects[ref]? = some { obj with dirty := some tid } :=
    Database.setObject_self hobj
  obtain ⟨db₂, hevict, h₂, hnone₂, hframe, hkeep⟩ := h₁.evictIf
    (db.numPages ≤ db.pages.keys.length ∧ db.pages.lookup (.btree p.getId) = none)
  have hobj₂ : db₂.objects[ref]? = some { obj with dirty := some tid } := by
    by_cases hfull : db.numPages ≤ db.pages.keys.length ∧
        db.pages.lookup (.btree p.getId) = none
    · rw [hframe hfull ref, hobj₁]
      intro pid' hl'
      obtain rfl := h.ref_inj (.inl hd) (.inr hl')
      rw [show db₁.pages.lookup (.btree p.getId) = none from hfull.2] at hl'
      cases hl'
    · rw [hkeep hfull, hobj₁]
  have hrun : BufferPool.registerDirty tid ref db =
      .ok () { db₂ with pages := db₂.pages.insert (.btree p.getId) ref } := by
    have hid : PageFile.getId δ obj.page = .btree p.getId := by rw [IdealDisk.getId_eq, hpage]
    rw [← hid] at hevict ⊢
    exact BufferPool.registerDirty_run hobj hevict
  have hlne : ∀ j, j ≠ .btree p.getId →
      (db₂.pages.insert (.btree p.getId) ref).lookup j = db₂.pages.lookup j :=
    fun j hj => AList.lookup_insert_ne hj
  refine ⟨_, hrun, h₂.tableid, h₂.keyField, h₂.pageSize, h₂.limit, h₂.clearGrowth, h₂.blank,
    h₂.size, h₂.known, ?_, ?_, ?_, h₂.fresh⟩
  · intro m q hq r hr
    have hne : PageId.btree q.getId ≠ .btree p.getId := by
      intro heq
      rw [heq, AList.lookup_erase] at hr
      cases hr
    rw [AList.lookup_erase_ne hne] at hr
    obtain ⟨hex, hown⟩ := h₂.inUse m q hq r hr
    exact ⟨hex, fun r' hr' => hown r' ((hlne _ hne).symm.trans hr')⟩
  · intro m q hq hr
    unfold Rests
    by_cases hid : q.getId = p.getId
    · obtain rfl : n = m := by rw [← (h.known n p hp).1, ← (h.known m q hq).1, hid]
      obtain rfl : p = q := Option.some.inj (hp.symm.trans hq)
      rw [AList.lookup_insert]
      exact ⟨_, hobj₂, hpage, by simp⟩
    · have hne : PageId.btree q.getId ≠ .btree p.getId := fun heq => hid (PageId.btree.inj heq)
      rw [AList.lookup_erase_ne hne] at hr
      rw [hlne _ hne]
      exact h₂.rests m q hq hr
  · intro j hsome
    by_cases hid : j = .btree p.getId
    · exact ⟨n, p, hp, hid⟩
    · rw [AList.lookup_erase_ne hid, hlne j hid] at hsome
      exact h₂.cached j hsome

end PoolTree

end PagedDb
