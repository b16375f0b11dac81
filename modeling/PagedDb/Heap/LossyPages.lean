import PagedDb.Heap.PageFetch

/-!
# What an eviction can do to the rows of a page

A page with string columns is read from its bytes and from what the memory around
them happens to hold, so a reader may find several rows on it. A page in the pool
has fixed ones, until it is evicted and its bytes are read again.
-/

namespace PagedDb

open Memory Exec WriteBack

namespace HeapFile

/-- The database with another order of the map and with other leftovers in memory. -/
def withLeftovers (db : HeapDb) (order : ℕ → ℕ) (heap stack : Ref → Buffer) (scratch : Buffer) :
    HeapDb := { db with order, files := { db.files with heap, stack, scratch } }

/-- The rows that the file gives for a page, read into the buffer `data` with the local array
`stack`. -/
def FileRows (db : HeapDb) (id : HeapPageId) (data stack : Buffer) (rows : ℕ → Option Row) : Prop :=
  ∃ f, db.files.file? id.tableId = some f ∧
    (∀ j < db.pageSize, data j = f.fd.byte (id.pgNo.toInt.toNat * db.pageSize + j)) ∧
    rows = (HeapPage.ofData db.pageSize f.td id data stack).row?

/-- The rows that the bytes of a page give; `fresh` is what the memory behind the encoder's buffer
held. -/
def PageRows (pageSize : ℕ) (p : HeapPage) (data stack fresh : Buffer) (rows : ℕ → Option Row) :
    Prop :=
  (∀ j < pageSize, data j = p.getPageData pageSize fresh j) ∧
    rows = (HeapPage.ofData pageSize p.td p.pid data stack).row?

def MayRead (db : HeapDb) (id : HeapPageId) (rows : ℕ → Option Row) : Prop :=
  match db.object? (.heap id) with
  | some obj => rows = obj.page.row?
  | none => ∃ data stack, FileRows db id data stack rows

/-- The rows of a page in that memory once the page is not in the pool any more. -/
def EvictedRows (db : HeapDb) (id : HeapPageId) (data stack fresh : Buffer)
    (rows : ℕ → Option Row) : Prop :=
  match db.object? (.heap id) with
  | some obj =>
    if obj.dirty.isSome then PageRows db.pageSize obj.page data stack fresh rows
    else FileRows db id data stack rows
  | none => FileRows db id data stack rows

/-- The page survives its eviction: whatever is read then, could be read before. -/
def Survives (db : HeapDb) (id : HeapPageId) : Prop :=
  ∀ data stack fresh rows, EvictedRows db id data stack fresh rows → MayRead db id rows

/-- How many of the pages `k, …, k + m - 1` are not in the pool. -/
def absent (db : HeapDb) (tbl : Int32) (k m : ℕ) : ℕ :=
  (List.range' k m).countP fun i => (db.pages.lookup (.heap (pageId tbl i))).isNone

variable {db db' db₁ : HeapDb} {id v : HeapPageId} {ref : Ref} {γ : Type} {V : HeapPage.View γ}
  {data stack fresh : Buffer} {rows : ℕ → Option Row}

theorem mayRead_resident {obj : PageObject HeapPage} (h : db.object? (.heap id) = some obj) :
    MayRead db id rows ↔ rows = obj.page.row? := by
  rw [MayRead, h]

theorem mayRead_absent (h : db.object? (.heap id) = none) :
    MayRead db id rows ↔ ∃ data stack, FileRows db id data stack rows := by
  rw [MayRead, h]

theorem evictedRows_clean (h : ∀ obj, db.object? (.heap id) = some obj → obj.dirty = none) :
    EvictedRows db id data stack fresh rows ↔ FileRows db id data stack rows := by
  unfold EvictedRows
  cases hobj : db.object? (.heap id) with
  | none => exact Iff.rfl
  | some obj => simp [h obj hobj]

theorem evictedRows_dirty {obj : PageObject HeapPage} (h : db.object? (.heap id) = some obj)
    (hd : obj.dirty.isSome = true) :
    EvictedRows db id data stack fresh rows ↔ PageRows db.pageSize obj.page data stack fresh rows := by
  rw [EvictedRows, h]
  simp [hd]

theorem survives_absent (h : db.object? (.heap id) = none) : Survives db id := by
  intro data stack fresh rows hrows
  rw [evictedRows_clean fun obj hobj => by rw [h] at hobj; cases hobj] at hrows
  exact (mayRead_absent h).mpr ⟨data, stack, hrows⟩

/-- So does a page of integers, if the pool and the file agree on it. -/
theorem survives_of_intOnly (h : Ready HeapPage.rowView db)
    (hlive : .heap id ∈ livePages db.files.schema) : Survives db id := by
  intro data stack fresh rows hrows
  cases hl : db.pages.lookup (.heap id) with
  | none => exact survives_absent (Database.object?_eq_none hl) data stack fresh rows hrows
  | some ref =>
    obtain ⟨obj, -, hobj, hid, hgood⟩ := h.serving.object hl
    have hpid : obj.page.pid = id := PageId.heap.inj hid
    rw [mayRead_resident hobj]
    cases hd : obj.dirty with
    | some tid =>
      obtain ⟨hdata, rfl⟩ := (evictedRows_dirty hobj (by rw [hd]; rfl)).mp hrows
      exact HeapPage.ofData_getPageData hgood.fits (HeapPage.roundTrips_of_intOnly hgood.viewed) hdata
    | none =>
      have hclean : ∀ o, db.object? (.heap id) = some o → o.dirty = none := by
        intro o ho
        rw [hobj] at ho
        cases ho
        exact hd
      obtain ⟨f, hf, hdata, rfl⟩ := (evictedRows_clean hclean).mp hrows
      have hback := h.serving.coherent (.heap id)
      have hcache : (db.store (backing HeapPage.rowView db.pageSize)).cache (.heap id) =
          some (obj.page.row?, false) := by
        simp only [Database.store, hobj, Option.map_some, hd]
        rfl
      rw [hcache] at hback
      have hdisk := hback hlive
      change stored HeapPage.rowView db.pageSize db.files (.heap id) = _ at hdisk
      simp only [stored, hf] at hdisk
      split at hdisk
      · obtain ⟨_, td, n, heq, hs, -⟩ := hlive
        cases heq
        obtain ⟨f', hf', -, htd, -⟩ := schema_eq_some hs
        obtain rfl : f = f' := Option.some.inj (hf.symm.trans hf')
        have hint : f.td.IntOnly := htd ▸ h.covered _ _ _ hs
        rw [← Option.some.inj hdisk]
        exact HeapPage.rowView.congr hint hdata
      · cases hdisk

theorem Ready.withLeftovers (h : Ready V db) (order : ℕ → ℕ) (heap stack : Ref → Buffer)
    (scratch : Buffer) : Ready V (withLeftovers db order heap stack scratch) :=
  ⟨h.pageSize, h.numPages, h.covered, h.offsets, h.serving.pageSize, h.serving.entry,
    h.serving.capacity, h.serving.coherent, h.serving.writable⟩

section Evict

/-- What an eviction of page `v` does. -/
structure Evicts (v : HeapPageId) (db db' : HeapDb) : Prop where
  pages : db'.pages = db.pages.erase (.heap v)
  others : ∀ id, id ≠ v → db'.object? (.heap id) = db.object? (.heap id)
  pageSize : db'.pageSize = db.pageSize
  numPages : db'.numPages = db.numPages
  heap : db'.files.heap = db.files.heap
  stack : db'.files.stack = db.files.stack
  scratch : db'.files.scratch = db.files.scratch
  file : ∀ id, .heap id ∈ livePages db.files.schema → id ≠ v → ∀ data stack rows,
    FileRows db' id data stack rows ↔ FileRows db id data stack rows
  written : .heap v ∈ livePages db.files.schema → ∀ data stack rows,
    FileRows db' v data stack rows ↔ EvictedRows db v data stack db.files.scratch rows

theorem Evicts.gone (h : Evicts v db db') : db'.object? (.heap v) = none := by
  apply Database.object?_eq_none
  rw [h.pages]
  exact AList.lookup_erase ..

theorem live_inRange (h : Ready V db) (hlive : .heap id ∈ livePages db.files.schema) :
    InRange db.pageSize id := h.serving.writable _ hlive

/-- Writing a page changes its own bytes in the file and no others. -/
theorem writePage_rows (h : Ready V db) {p : HeapPage}
    (hgood : GoodPage V db.pageSize db.files.schema p)
    (hlive : .heap p.pid ∈ livePages db.files.schema) :
    ∃ files, writePage db.files db.pageSize p.pid.tableId p = .ok files ∧
      files.heap = db.files.heap ∧ files.stack = db.files.stack ∧
      files.scratch = db.files.scratch ∧
      (∀ data stack rows, FileRows { db with files } p.pid data stack rows ↔
        PageRows db.pageSize p data stack db.files.scratch rows) ∧
      ∀ id, .heap id ∈ livePages db.files.schema → id ≠ p.pid → ∀ data stack rows,
        FileRows { db with files } id data stack rows ↔ FileRows db id data stack rows := by
  obtain ⟨n, hschema⟩ := hgood.schema
  obtain ⟨f, hf, hid, htd, rfl⟩ := schema_eq_some hschema
  have hin := live_inRange h hlive
  let off := p.pid.pgNo.toInt.toNat * db.pageSize
  let bytes := p.getPageData db.pageSize db.files.scratch
  let f' : HeapFile := { f with fd := f.fd.put bytes db.pageSize off }
  have hf' : (db.files.setFile f').file? p.pid.tableId = some f' := by
    rw [← hid]
    exact HeapFiles.setFile_self db.files f'
  refine ⟨db.files.setFile f', ?_, rfl, rfl, rfl, ?_, ?_⟩
  · change (db.files.getDatabaseFile p.pid.tableId >>= _) = _
    rw [getDatabaseFile_ok hf]
    change Except.ok (db.files.setFile { f with fd := f.fd.pwrite bytes db.pageSize _ }) = _
    rw [pageOffset_eq hin, File.pwrite, if_neg (by omega)]
    rfl
  · intro data stack rows
    have hbyte : ∀ j < db.pageSize, f'.fd.byte (off + j) = bytes j :=
      fun j hj => File.put_byte_inside hj
    constructor
    · rintro ⟨g, hg, hdata, rfl⟩
      obtain rfl : f' = g := Option.some.inj (hf'.symm.trans hg)
      exact ⟨fun j hj => (hdata j hj).trans (hbyte j hj), by rw [← htd]⟩
    · rintro ⟨hdata, rfl⟩
      exact ⟨f', hf', fun j hj => (hdata j hj).trans (hbyte j hj).symm, by rw [← htd]⟩
  · intro id hlive' hne data stack rows
    rcases eq_or_ne id.tableId p.pid.tableId with htable | htable
    · have hnum : id.pgNo.toInt.toNat ≠ p.pid.pgNo.toInt.toNat := by
        intro heq
        have h₁ := (live_inRange h hlive').1
        have h₂ := hin.1
        have hpg : id.pgNo = p.pid.pgNo := Int32.toInt_inj.mp (by omega)
        apply hne
        cases id
        cases hp : p.pid
        simp_all
      have hbyte : ∀ j < db.pageSize, f'.fd.byte (id.pgNo.toInt.toNat * db.pageSize + j) =
          f.fd.byte (id.pgNo.toInt.toNat * db.pageSize + j) :=
        fun j hj => File.put_byte_outside (disjoint_pages hnum hj)
      constructor
      · rintro ⟨g, hg, hdata, rfl⟩
        rw [htable] at hg
        obtain rfl : f' = g := Option.some.inj (hf'.symm.trans hg)
        exact ⟨f, htable ▸ hf, fun j hj => (hdata j hj).trans (hbyte j hj), rfl⟩
      · rintro ⟨g, hg, hdata, rfl⟩
        rw [htable] at hg
        obtain rfl : f = g := Option.some.inj (hf.symm.trans hg)
        exact ⟨f', htable ▸ hf', fun j hj => (hdata j hj).trans (hbyte j hj).symm, rfl⟩
    · have hsame : (db.files.setFile f').file? id.tableId = db.files.file? id.tableId :=
        HeapFiles.setFile_ne db.files f' (by rwa [hid])
      unfold FileRows
      rw [hsame]

theorem Ready.object?_erase (h : Ready V db) {v id : HeapPageId} {ref : Ref}
    (hl : db.pages.lookup (.heap v) = some ref) (hne : id ≠ v) {objects : List (PageObject HeapPage)}
    (hobjects : ∀ r, r ≠ ref → objects[r]? = db.objects[r]?) :
    ((db.pages.erase (.heap v)).lookup (.heap id)).bind (fun r => objects[r]?) =
      db.object? (.heap id) := by
  have hkey : PageId.heap id ≠ .heap v := fun heq => hne (PageId.heap.inj heq)
  rw [AList.lookup_erase_ne hkey, Database.object?]
  cases hr : db.pages.lookup (.heap id) with
  | none => rfl
  | some r =>
    have hrne : r ≠ ref := by
      rintro rfl
      exact hkey (h.serving.ref_inj hr hl)
    exact hobjects r hrne

/-- An eviction takes the page that the order names and puts its bytes into the file if it is
dirty. -/
theorem evictPage_effect (h : Ready V db) (hne : db.pages.keys ≠ []) :
    ∃ v db', db.pages.keys[db.order 0 % db.pages.keys.length]? = some (.heap v) ∧
      BufferPool.evictPage db = .ok () db' ∧ Evicts v db db' := by
  have hpos : 0 < db.pages.keys.length := List.length_pos_iff.mpr hne
  have hidx : db.order 0 % db.pages.keys.length < db.pages.keys.length := Nat.mod_lt _ hpos
  obtain ⟨ref, hl⟩ : ∃ ref, db.pages.lookup db.pages.keys[db.order 0 % db.pages.keys.length] =
      some ref := by
    rw [← Option.isSome_iff_exists, AList.lookup_isSome, AList.mem_keys]
    exact List.getElem_mem hidx
  obtain ⟨obj, hobj, hobj?, hid, hgood⟩ := h.serving.object hl
  have hvictim : db.pages.keys[db.order 0 % db.pages.keys.length]? = some (.heap obj.page.pid) := by
    rw [List.getElem?_eq_getElem hidx, ← hid]
    rfl
  rw [← hid] at hl hobj?
  change db.pages.lookup (.heap obj.page.pid) = some ref at hl
  change db.object? (.heap obj.page.pid) = some obj at hobj?
  let db₀ : HeapDb := { db with order := fun n => db.order (n + 1) }
  have hrun : ∀ db₁ : HeapDb, BufferPool.flushPage (.heap obj.page.pid) db₀ = .ok () db₁ →
      BufferPool.evictPage db =
        .ok () { db₁ with pages := db₁.pages.erase (.heap obj.page.pid) } := by
    intro db₁ hflush
    rw [BufferPool.evictPage, bind_ok (get_run db), hvictim]
    simp only
    rw [bind_ok (modify_run _ db), bind_ok hflush]
    rfl
  cases hd : obj.dirty with
  | none =>
    refine ⟨obj.page.pid, _, hvictim, hrun db₀ ?_, ⟨rfl, fun id hne => ?_, rfl, rfl, rfl, rfl, rfl,
      fun _ _ _ _ _ _ => Iff.rfl, fun _ data stack rows => ?_⟩⟩
    · rw [BufferPool.flushPage, bind_ok (get_run db₀), show db₀.pages.lookup _ = some ref from hl]
      simp only
      rw [bind_ok (deref_run (show db₀.objects[ref]? = some obj from hobj)), hd]
      rfl
    · exact h.object?_erase hl hne fun _ _ => rfl
    · have hclean : ∀ o, db.object? (.heap obj.page.pid) = some o → o.dirty = none := by
        intro o ho
        rw [hobj?] at ho
        cases ho
        exact hd
      rw [evictedRows_clean hclean]
      exact Iff.rfl
  | some tid =>
    have hcache : (db.store (backing V db.pageSize)).cache (.heap obj.page.pid) =
        some (V.content obj.page, true) := by
      simp only [Database.store, hobj?, Option.map_some, hd]
      rfl
    have hlive := h.serving.coherent.live_of_dirty hcache
    obtain ⟨files, hwrite, hheap, hstack, hscratch, hself, hrest⟩ := writePage_rows h hgood hlive
    have hwrite' : PageFile.writePage db₀.files db₀.pageSize
        (PageId.heap obj.page.pid).getTableId obj.page = .ok files := hwrite
    let clean : PageObject HeapPage := { obj with dirty := none }
    have hflush : BufferPool.flushPage (.heap obj.page.pid) db₀ =
        .ok () { db₀ with objects := db.objects.set ref clean, files } := by
      rw [BufferPool.flushPage, bind_ok (get_run db₀), show db₀.pages.lookup _ = some ref from hl]
      simp only
      rw [bind_ok (deref_run (show db₀.objects[ref]? = some obj from hobj)), hd,
        if_pos (by rfl), bind_ok (markDirty_run (show db₀.objects[ref]? = some obj from hobj) none),
        bind_ok (lift_run hwrite' _)]
      rfl
    refine ⟨obj.page.pid, _, hvictim, hrun _ hflush, ⟨rfl, fun id hne => ?_, rfl, rfl, hheap, hstack,
      hscratch, hrest, fun _ data stack rows => ?_⟩⟩
    · exact h.object?_erase hl hne fun r hr => List.getElem?_set_ne hr.symm
    · rw [evictedRows_dirty hobj? (by rw [hd]; rfl)]
      exact hself data stack rows

end Evict

section Load

/-- What loading a page does: it is read from the file into memory with the leftovers of the new
object. -/
structure Loads (id : HeapPageId) (db db' : HeapDb) : Prop where
  object : ∃ p data, db'.object? (.heap id) = some ⟨p, none⟩ ∧
    FileRows db id data (db.files.stack db.objects.length) p.row? ∧
    ∀ j, db.pageSize ≤ j → data j = db.files.heap db.objects.length j
  others : ∀ i, i ≠ id → db'.object? (.heap i) = db.object? (.heap i)
  keys : db'.pages.keys = .heap id :: db.pages.keys
  files : db'.files = db.files
  pageSize : db'.pageSize = db.pageSize
  numPages : db'.numPages = db.numPages

/-- In a database in order the file has every live page that the pool does not have. -/
theorem file_of_absent (h : Ready V db) (hlive : .heap id ∈ livePages db.files.schema)
    (habsent : db.pages.lookup (.heap id) = none) :
    ∃ f, db.files.file? id.tableId = some f ∧
      id.pgNo.toInt.toNat * db.pageSize + db.pageSize ≤ f.fd.size := by
  obtain ⟨c, hc⟩ := h.serving.coherent.view_isSome hlive
  have hobj := Database.object?_eq_none habsent
  rw [h.serving.coherent.view_eq_disk hlive fun c => by simp [Database.store, hobj]] at hc
  change stored V db.pageSize db.files (.heap id) = some c at hc
  cases hf : db.files.file? id.tableId with
  | none => simp [stored, hf] at hc
  | some f =>
    simp only [stored, hf] at hc
    split at hc
    · rename_i hin
      exact ⟨f, rfl, hin.2⟩
    · cases hc

/-- The database after page `id` was loaded as `p`. -/
def withPage (db : HeapDb) (id : HeapPageId) (p : HeapPage) : HeapDb :=
  { db with
    objects := db.objects ++ [⟨p, none⟩]
    pages := db.pages.insert (.heap id) db.objects.length }

theorem loadPage_effect (h : Ready V db) (hlive : .heap id ∈ livePages db.files.schema)
    (habsent : db.pages.lookup (.heap id) = none) :
    ∃ p, (∀ order, BufferPool.loadPage (.heap id) { db with order } =
        .ok db.objects.length (withPage { db with order } id p)) ∧ Loads id db (withPage db id p) := by
  obtain ⟨f, hf, hsize⟩ := file_of_absent h hlive habsent
  have hin := live_inRange h hlive
  let data := f.fd.pread (db.files.heap db.objects.length) db.pageSize (pageOffset db.pageSize id)
  let p : HeapPage :=
    HeapPage.ofData db.pageSize f.td id data (db.files.stack db.objects.length)
  have hread : PageFile.readPage db.files db.pageSize (.heap id) db.objects.length = .ok p := by
    change (db.files.getDatabaseFile id.tableId >>= _) = _
    rw [getDatabaseFile_ok hf]
    rfl
  have hl : (withPage db id p).pages.lookup (.heap id) = some db.objects.length :=
    AList.lookup_insert db.pages
  have hnew : (withPage db id p).objects[db.objects.length]? = some ⟨p, none⟩ :=
    List.getElem?_concat_length
  have hkey : PageId.heap id ∉ db.pages := by
    rw [← AList.lookup_eq_none]
    exact habsent
  refine ⟨p, fun order => ?_, ⟨⟨p, data, Database.object?_of_lookup hl hnew, ⟨f, hf, ?_, rfl⟩, ?_⟩,
    ?_, ?_, rfl, rfl, rfl⟩⟩
  · let db₁ : HeapDb := { db with order }
    change BufferPool.loadPage (.heap id) db₁ = _
    have hread₁ : PageFile.readPage db₁.files db₁.pageSize (.heap id) db₁.objects.length = .ok p :=
      hread
    rw [BufferPool.loadPage, bind_ok (get_run db₁), bind_ok (lift_run hread₁ db₁)]
    rfl
  · intro j hj
    change f.fd.pread _ _ (pageOffset db.pageSize id) j = _
    rw [pageOffset_eq hin]
    exact File.pread_eq hj hsize
  · intro j hj
    change f.fd.pread _ _ (pageOffset db.pageSize id) j = _
    rw [pageOffset_eq hin, File.pread, File.preadCount, if_neg (by omega)]
    simp only
    rw [if_neg (by omega)]
  · intro i hne
    have hne' : PageId.heap i ≠ .heap id := fun heq => hne (PageId.heap.inj heq)
    have hli : (withPage db id p).pages.lookup (.heap i) = db.pages.lookup (.heap i) :=
      AList.lookup_insert_ne hne'
    rw [Database.object?, Database.object?, hli]
    cases hr : db.pages.lookup (.heap i) with
    | none => rfl
    | some r =>
      obtain ⟨o, ho, -⟩ := h.serving.object hr
      exact List.getElem?_append_left (List.getElem?_eq_some_iff.mp ho).1
  · have hmem : PageId.heap id ∉ db.pages.keys := hkey
    change (db.pages.insert (.heap id) _).keys = _
    rw [AList.keys_insert, List.erase_of_not_mem hmem]

/-- The ways of `getPage`: the page is in the pool, there is room for it, or a page is evicted. -/
theorem getPage_cases (h : Ready V db) (hlive : .heap id ∈ livePages db.files.schema) :
    (∃ ref, db.pages.lookup (.heap id) = some ref ∧
      BufferPool.getPage (.heap id) db = .ok ref db) ∨
    (db.pages.lookup (.heap id) = none ∧ db.pages.keys.length < db.numPages ∧ ∃ p,
      (∀ order, BufferPool.getPage (.heap id) { db with order } =
        .ok db.objects.length (withPage { db with order } id p)) ∧ Loads id db (withPage db id p)) ∨
    (db.pages.lookup (.heap id) = none ∧ db.numPages ≤ db.pages.keys.length ∧ ∃ v db₁ ref db',
      db.pages.keys[db.order 0 % db.pages.keys.length]? = some (.heap v) ∧ Evicts v db db₁ ∧
      db₁.files.schema = db.files.schema ∧ db₁.object? (.heap id) = none ∧
      BufferPool.getPage (.heap id) db = .ok ref db' ∧ Loads id db₁ db') := by
  cases hl : db.pages.lookup (.heap id) with
  | some ref => exact .inl ⟨ref, rfl, BufferPool.getPage_resident hl⟩
  | none =>
    right
    by_cases hroom : db.pages.keys.length < db.numPages
    · obtain ⟨p, hload, hloads⟩ := loadPage_effect h hlive hl
      refine .inl ⟨rfl, hroom, p, fun order => ?_, hloads⟩
      let db₁ : HeapDb := { db with order }
      change BufferPool.getPage (.heap id) db₁ = _
      have hl₁ : db₁.pages.lookup (.heap id) = none := hl
      have hnot : ¬ db₁.numPages ≤ db₁.pages.keys.length := Nat.not_le.mpr hroom
      rw [BufferPool.getPage, bind_ok (get_run db₁), hl₁]
      simp only
      rw [BufferPool.evictIf, if_neg hnot]
      exact hload order
    · have hfull := Nat.le_of_not_lt hroom
      have hpos : 1 ≤ db.numPages := h.numPages
      have hne : db.pages.keys ≠ [] := by
        rintro hnil
        rw [hnil, List.length_nil] at hfull
        omega
      obtain ⟨v, db₁, hv, hevict, heffect⟩ := evictPage_effect h hne
      obtain ⟨db₁', -, hevict', hserving₁, hquiet₁, -⟩ := BufferPool.evictPage_spec h.serving hne
      obtain ⟨-, rfl⟩ := EStateM.Result.ok.inj (hevict.symm.trans hevict')
      have h₁ : Ready V db₁ := h.keep hserving₁ hquiet₁.info hquiet₁.numPages
      have hlive₁ : .heap id ∈ livePages db₁.files.schema := by
        rw [show db₁.files.schema = db.files.schema from hquiet₁.info]
        exact hlive
      have hne' : PageId.heap id ≠ .heap v := by
        intro heq
        have hmem := List.mem_of_getElem? hv
        rw [← heq, ← AList.mem_keys, ← AList.lookup_isSome, hl] at hmem
        cases hmem
      have habsent₁ : db₁.pages.lookup (.heap id) = none := by
        rw [heffect.pages, AList.lookup_erase_ne hne']
        exact hl
      obtain ⟨p, hload, hloads⟩ := loadPage_effect h₁ hlive₁ habsent₁
      refine .inr ⟨rfl, hfull, v, db₁, db₁.objects.length, withPage db₁ id p, hv, heffect,
        hquiet₁.info, Database.object?_eq_none habsent₁, ?_, hloads⟩
      rw [BufferPool.getPage, bind_ok (get_run db), hl]
      simp only
      rw [BufferPool.evictIf, if_pos hfull, bind_ok hevict]
      exact hload db₁.order

end Load

section Readers

theorem Loads.mayRead (hloads : Loads id db db') (habsent : db.object? (.heap id) = none)
    {i : HeapPageId} (hrows : MayRead db' i rows) : MayRead db i rows := by
  rcases eq_or_ne i id with rfl | hne
  · obtain ⟨p, data, hobj, hfile, -⟩ := hloads.object
    rw [mayRead_resident hobj] at hrows
    subst hrows
    exact (mayRead_absent habsent).mpr ⟨data, _, hfile⟩
  · have hsame := hloads.others i hne
    unfold MayRead at hrows ⊢
    rw [hsame] at hrows
    cases hobj : db.object? (.heap i) with
    | some obj =>
      rw [hobj] at hrows
      exact hrows
    | none =>
      rw [hobj] at hrows
      obtain ⟨data, stack, hfile⟩ := hrows
      refine ⟨data, stack, ?_⟩
      unfold FileRows at hfile ⊢
      rwa [hloads.files, hloads.pageSize] at hfile

theorem Loads.fileRows (hloads : Loads id db db') (i : HeapPageId) :
    FileRows db' i data stack rows ↔ FileRows db i data stack rows := by
  unfold FileRows
  rw [hloads.files, hloads.pageSize]

theorem Loads.evictedRows (hloads : Loads id db db') (habsent : db.object? (.heap id) = none)
    (i : HeapPageId) :
    EvictedRows db' i data stack fresh rows ↔ EvictedRows db i data stack fresh rows := by
  rcases eq_or_ne i id with rfl | hne
  · obtain ⟨p, data', hobj, -⟩ := hloads.object
    have hclean : ∀ o, db'.object? (.heap i) = some o → o.dirty = none := by
      intro o ho
      rw [hobj] at ho
      cases ho
      rfl
    have hnone : ∀ o, db.object? (.heap i) = some o → o.dirty = none := by
      intro o ho
      rw [habsent] at ho
      cases ho
    rw [evictedRows_clean hclean, evictedRows_clean hnone, hloads.fileRows]
  · unfold EvictedRows
    rw [hloads.others i hne, hloads.pageSize]
    simp only [hloads.fileRows]

/-- The pages of `db` show what the ones of `db₀` could, and go on to do so when they are
evicted. -/
structure Shows (db₀ db : HeapDb) : Prop where
  schema : db.files.schema = db₀.files.schema
  mayRead : ∀ id, .heap id ∈ livePages db₀.files.schema → ∀ rows, MayRead db id rows →
    MayRead db₀ id rows
  evicted : ∀ id, .heap id ∈ livePages db₀.files.schema → ∀ data stack fresh rows,
    EvictedRows db id data stack fresh rows → MayRead db₀ id rows

theorem Shows.refl (hsurvive : ∀ id, .heap id ∈ livePages db.files.schema → Survives db id) :
    Shows db db :=
  ⟨rfl, fun _ _ _ h => h, fun id hlive data stack fresh rows => hsurvive id hlive data stack fresh rows⟩

theorem Shows.loads {db₀ : HeapDb} (h : Shows db₀ db) (hloads : Loads id db db')
    (habsent : db.object? (.heap id) = none) : Shows db₀ db' where
  schema := by rw [hloads.files, h.schema]
  mayRead := fun i hlive rows hrows => h.mayRead i hlive rows (hloads.mayRead habsent hrows)
  evicted := fun i hlive data stack fresh rows hrows =>
    h.evicted i hlive data stack fresh rows ((hloads.evictedRows habsent i).mp hrows)

theorem Shows.evicts {db₀ : HeapDb} (h : Shows db₀ db) (hevicts : Evicts v db db')
    (hschema : db'.files.schema = db.files.schema) : Shows db₀ db' := by
  have hlive' : ∀ {i}, PageId.heap i ∈ livePages db₀.files.schema →
      PageId.heap i ∈ livePages db.files.schema := fun hlive => h.schema ▸ hlive
  have hgone : ∀ {i}, PageId.heap i ∈ livePages db₀.files.schema → i = v → ∀ data stack rows,
      FileRows db' i data stack rows → MayRead db₀ i rows := by
    rintro i hlive rfl data stack rows hrows
    exact h.evicted i hlive data stack _ rows ((hevicts.written (hlive' hlive) _ _ _).mp hrows)
  refine ⟨hschema.trans h.schema, fun i hlive rows hrows => ?_,
    fun i hlive data stack fresh rows hrows => ?_⟩
  · rcases eq_or_ne i v with heq | hne
    · subst heq
      obtain ⟨data, stack, hfile⟩ := (mayRead_absent hevicts.gone).mp hrows
      exact hgone hlive rfl data stack rows hfile
    · apply h.mayRead i hlive
      unfold MayRead at hrows ⊢
      rw [hevicts.others i hne] at hrows
      cases hobj : db.object? (.heap i) with
      | some obj =>
        rw [hobj] at hrows
        exact hrows
      | none =>
        rw [hobj] at hrows
        obtain ⟨data, stack, hfile⟩ := hrows
        exact ⟨data, stack, (hevicts.file i (hlive' hlive) hne _ _ _).mp hfile⟩
  · rcases eq_or_ne i v with heq | hne
    · subst heq
      have hnone : ∀ o, db'.object? (.heap i) = some o → o.dirty = none := by
        intro o ho
        rw [hevicts.gone] at ho
        cases ho
      exact hgone hlive rfl data stack rows ((evictedRows_clean hnone).mp hrows)
    · apply h.evicted i hlive data stack fresh
      unfold EvictedRows at hrows ⊢
      rw [hevicts.others i hne, hevicts.pageSize] at hrows
      simp only [hevicts.file i (hlive' hlive) hne] at hrows
      exact hrows

/-- Page `v` shows `rows`, or will when it is read again, in a memory whose leftovers are always
the same. -/
structure Stuck (v : HeapPageId) (data stack : Buffer) (rows : ℕ → Option Row) (db : HeapDb) :
    Prop where
  live : .heap v ∈ livePages db.files.schema
  file : FileRows db v data stack rows
  clean : ∀ obj, db.object? (.heap v) = some obj → obj.page.row? = rows ∧ obj.dirty = none
  heap : db.files.heap = fun _ => data
  stack : db.files.stack = fun _ => stack

theorem Stuck.mayRead (h : Stuck v data stack rows db) : MayRead db v rows := by
  cases hobj : db.object? (.heap v) with
  | some obj => exact (mayRead_resident hobj).mpr (h.clean obj hobj).1.symm
  | none => exact (mayRead_absent hobj).mpr ⟨data, stack, h.file⟩

theorem Stuck.evicts {w : HeapPageId} (h : Stuck v data stack rows db) (hevicts : Evicts w db db')
    (hschema : db'.files.schema = db.files.schema) : Stuck v data stack rows db' := by
  refine ⟨hschema ▸ h.live, ?_, ?_, hevicts.heap.trans h.heap, hevicts.stack.trans h.stack⟩
  · rcases eq_or_ne v w with rfl | hne
    · rw [hevicts.written h.live, evictedRows_clean fun obj hobj => (h.clean obj hobj).2]
      exact h.file
    · exact (hevicts.file v h.live hne _ _ _).mpr h.file
  · intro obj hobj
    rcases eq_or_ne v w with rfl | hne
    · rw [hevicts.gone] at hobj
      cases hobj
    · exact h.clean obj (hevicts.others v hne ▸ hobj)

theorem Stuck.loads (h : Stuck v data stack rows db) (hloads : Loads id db db') :
    Stuck v data stack rows db' := by
  have hfiles := hloads.files
  refine ⟨hfiles ▸ h.live, (hloads.fileRows v).mpr h.file, ?_, hfiles ▸ h.heap, hfiles ▸ h.stack⟩
  intro obj hobj
  rcases eq_or_ne v id with rfl | hne
  · obtain ⟨p, data', hp, ⟨f, hf, hbytes, hrow⟩, hrest⟩ := hloads.object
    obtain ⟨f', hf', hbytes', rfl⟩ := h.file
    obtain rfl : f = f' := Option.some.inj (hf.symm.trans hf')
    have hdata : data' = data := by
      funext j
      rcases Nat.lt_or_ge j db.pageSize with hj | hj
      · rw [hbytes j hj, hbytes' j hj]
      · rw [hrest j hj, h.heap]
    rw [hp] at hobj
    cases hobj
    refine ⟨?_, rfl⟩
    change p.row? = _
    rw [hrow, hdata, h.stack]
  · exact h.clean obj (hloads.others v hne ▸ hobj)

theorem Evicts.stuck (hevicts : Evicts v db db') (hlive : .heap v ∈ livePages db.files.schema)
    (hschema : db'.files.schema = db.files.schema)
    (hrows : EvictedRows db v data stack db.files.scratch rows)
    (hheap : db.files.heap = fun _ => data) (hstack : db.files.stack = fun _ => stack) :
    Stuck v data stack rows db' := by
  refine ⟨hschema ▸ hlive, (hevicts.written hlive _ _ _).mpr hrows, ?_, hevicts.heap.trans hheap,
    hevicts.stack.trans hstack⟩
  intro obj hobj
  rw [hevicts.gone] at hobj
  cases hobj

end Readers

section Traffic

variable {S : HeapDb → Prop} {tbl : Int32} {td : TupleDesc} {n : ℕ}

theorem getPage_keeps
    (hload : ∀ id db db', S db → db.object? (.heap id) = none → Loads id db db' → S db')
    (hevict : ∀ v db db', S db → Evicts v db db' → db'.files.schema = db.files.schema → S db')
    (h : Ready V db) (hlive : .heap id ∈ livePages db.files.schema) (hS : S db)
    (hrun : BufferPool.getPage (.heap id) db = .ok ref db') : S db' := by
  rcases getPage_cases h hlive with ⟨ref', -, hget⟩ | ⟨hl, -, p, hget, hloads⟩ |
    ⟨-, -, v, db₁, ref', db₂, -, hevicts, hschema, habsent, hget, hloads⟩
  · rw [hget] at hrun
    cases hrun
    exact hS
  · rw [show BufferPool.getPage (.heap id) db = _ from hget db.order] at hrun
    cases hrun
    exact hload id db _ hS (Database.object?_eq_none hl) hloads
  · rw [hget] at hrun
    cases hrun
    exact hload id db₁ _ (hevict v db db₁ hS hevicts hschema) habsent hloads

/-- So does the search. -/
theorem findPage_keeps
    (hload : ∀ id db db', S db → db.object? (.heap id) = none → Loads id db db' → S db')
    (hevict : ∀ v db db', S db → Evicts v db db' → db'.files.schema = db.files.schema → S db')
    (h : Ready V db) (hs : db.files.schema tbl = some (td, n)) {m k : ℕ} (hm : k + m ≤ n) (hS : S db)
    {found : Option Ref} (hrun : findPage tbl m k db = .ok found db') : S db' := by
  induction m generalizing k db with
  | zero =>
    cases hrun
    exact hS
  | succ m ih =>
    obtain ⟨ref, db₁, hget, hrest⟩ := of_bind_ok hrun
    obtain ⟨db₁', ref', obj, hget', hf⟩ := getPage_fetched h hs (k := k) (by omega)
    rw [show BufferPool.getPage (.heap ⟨tbl, Int32.ofNat k⟩) db = _ from hget'] at hget
    cases hget
    have hS₁ := getPage_keeps hload hevict h (h.page_live hs (by omega)) hS hget'
    have hs₁ : db₁.files.schema tbl = some (td, n) := hf.schema ▸ hs
    rw [bind_ok (deref_run hf.object)] at hrest
    split at hrest
    · obtain ⟨ref'', hget₂, -⟩ : ∃ ref'', BufferPool.getPage (.heap (pageId tbl k)) db₁ =
          .ok ref'' db' ∧ some ref'' = found := by
        cases hg : BufferPool.getPage (.heap ⟨tbl, Int32.ofNat k⟩) db₁ with
        | error e s =>
          change EStateM.map some _ db₁ = _ at hrest
          rw [EStateM.map, hg] at hrest
          cases hrest
        | ok a s =>
          change EStateM.map some _ db₁ = _ at hrest
          rw [EStateM.map, hg] at hrest
          cases hrest
          exact ⟨a, hg, rfl⟩
      exact getPage_keeps hload hevict hf.ready (hf.ready.page_live hs₁ (by omega)) hS₁ hget₂
    · exact ih hf.ready hs₁ (by omega) hS₁ hrest

end Traffic

end HeapFile

end PagedDb
