import PagedDb.Heap.HeapPool

/-!
# Inserting into a heap table through the pool

One insertion puts one tuple into one empty slot: of the first page with room,
or of a new page when every page is full. What a reader sees of every other
page stays the same, whatever is evicted on the way.
-/

namespace PagedDb

open Memory Exec WriteBack

namespace HeapFile

/-- The id of page `i` of a table. -/
def pageId (tableid : Int32) (i : ℕ) : HeapPageId := ⟨tableid, Int32.ofNat i⟩

def livePages (schema : Int32 → Option (TupleDesc × ℕ)) : Set PageId :=
  { pid | ∃ id td n, pid = .heap id ∧ schema id.tableId = some (td, n) ∧
    0 ≤ id.pgNo.toInt ∧ id.pgNo.toInt < n }

/-- The database is in order: every table has a schema the view covers, its page offsets stay
in `int`, and the pool serves its pages. -/
structure Ready {γ : Type} (V : HeapPage.View γ) (db : HeapDb) : Prop where
  pageSize : 0 < db.pageSize
  numPages : 1 ≤ db.numPages
  covered : ∀ id td n, db.files.schema id = some (td, n) → V.Schema td
  offsets : ∀ id td n, db.files.schema id = some (td, n) → n * db.pageSize ≤ 2147483648
  serving : Serving (backing V db.pageSize) (livePages db.files.schema) db

variable {γ : Type} {V : HeapPage.View γ} {db db' : HeapDb} {tbl : Int32} {td : TupleDesc} {n : ℕ}

def seen (V : HeapPage.View γ) (db : HeapDb) (id : HeapPageId) : Option γ :=
  (db.store (backing V db.pageSize)).view (.heap id)

theorem pageId_pgNo {i : ℕ} (h : i < 2147483648) : (pageId tbl i).pgNo.toInt = i :=
  Int32.toInt_ofNat_of_lt h

theorem pageId_inj {i j : ℕ} (hi : i < 2147483648) (hj : j < 2147483648)
    (h : pageId tbl i = pageId tbl j) : i = j := by
  have := congrArg (fun id => id.pgNo.toInt) h
  simp only [pageId_pgNo hi, pageId_pgNo hj] at this
  omega

theorem mem_livePages {schema : Int32 → Option (TupleDesc × ℕ)} {id : HeapPageId}
    (hs : schema id.tableId = some (td, n)) (hn : n ≤ 2147483648) :
    .heap id ∈ livePages schema ↔ ∃ i < n, id = pageId id.tableId i := by
  constructor
  · rintro ⟨id', td', n', heq, hs', h₀, hlt⟩
    cases heq
    rw [hs] at hs'
    cases hs'
    obtain ⟨i, hi⟩ := Int.eq_ofNat_of_zero_le h₀
    rw [hi] at hlt
    have hin : i < n := by exact_mod_cast hlt
    refine ⟨i, hin, ?_⟩
    obtain ⟨t, g⟩ := id
    have hg : g = Int32.ofNat i := by
      apply Int32.toInt_inj.mp
      rw [Int32.toInt_ofNat_of_lt (by omega)]
      exact hi
    rw [hg]
    rfl
  · rintro ⟨i, hi, heq⟩
    have hnum : id.pgNo.toInt = i := by
      rw [heq]
      exact pageId_pgNo (by omega)
    exact ⟨id, td, n, rfl, hs, by omega, by omega⟩

theorem Ready.count_le (h : Ready V db) (hs : db.files.schema tbl = some (td, n)) :
    n ≤ 2147483648 :=
  le_trans (Nat.le_mul_of_pos_right n h.pageSize) (h.offsets tbl td n hs)

theorem Ready.page_live (h : Ready V db) (hs : db.files.schema tbl = some (td, n)) {i : ℕ}
    (hi : i < n) : .heap (pageId tbl i) ∈ livePages db.files.schema :=
  (mem_livePages hs (h.count_le hs)).mpr ⟨i, hi, rfl⟩

theorem Ready.known (h : Ready V db) (hs : db.files.schema tbl = some (td, n)) (i : ℕ) :
    KnownPage V db.files.schema (.heap (pageId tbl i)) :=
  ⟨td, n, hs, h.covered tbl td n hs⟩

/-- What keeps the pool serving, the schema and the capacity keeps a database ready. -/
theorem Ready.keep (h : Ready V db)
    (hserving : Serving (backing V db.pageSize) (livePages db.files.schema) db')
    (hschema : db'.files.schema = db.files.schema) (hnum : db'.numPages = db.numPages) :
    Ready V db' := by
  have hsize : db'.pageSize = db.pageSize := hserving.pageSize
  refine ⟨?_, ?_, ?_, ?_, ?_⟩
  · rw [hsize]
    exact h.pageSize
  · rw [hnum]
    exact h.numPages
  · rw [hschema]
    exact h.covered
  · rw [hschema, hsize]
    exact h.offsets
  · rw [hschema, hsize]
    exact hserving

section Search

variable {live : Set PageId} {P : ℕ}

def SeenFull (V : HeapPage.View γ) (P : ℕ) (db : HeapDb) (id : HeapPageId) : Prop :=
  ∃ q : HeapPage, GoodPage V P db.files.schema q ∧ q.pid = id ∧
    (db.store (backing V P)).view (.heap id) = some (V.content q) ∧ q.getNumEmptySlots = 0

theorem SeenFull.of_quiet (hquiet : Quiet (backing V P) live db db') {id : HeapPageId}
    (hid : .heap id ∈ live) (h : SeenFull V P db' id) : SeenFull V P db id := by
  obtain ⟨q, hgood, hqid, hview, hfull⟩ := h
  refine ⟨q, ?_, hqid, by rw [← hquiet.view _ hid, hview], hfull⟩
  rwa [← show db'.files.schema = db.files.schema from hquiet.info]

/-- The search loop: it stops at the first page with room, and every page before is full. -/
theorem findPage_spec (hserving : Serving (backing V P) live db) (hcap : 1 ≤ db.numPages)
    (k i : ℕ) (hknown : ∀ j < i + k, KnownPage V db.files.schema (.heap (pageId tbl j)))
    (hlive : ∀ j < i + k, .heap (pageId tbl j) ∈ live) :
    ∃ db' found, findPage tbl k i db = .ok found db' ∧ Serving (backing V P) live db' ∧
      Quiet (backing V P) live db db' ∧
      match found with
      | none => ∀ j, i ≤ j → j < i + k → SeenFull V P db (pageId tbl j)
      | some ref => ∃ j obj, i ≤ j ∧ j < i + k ∧
          db'.pages.lookup (.heap (pageId tbl j)) = some ref ∧ db'.objects[ref]? = some obj ∧
          0 < obj.page.getNumEmptySlots := by
  induction k generalizing i db with
  | zero =>
    refine ⟨db, none, rfl, hserving, Quiet.refl _ _ _, ?_⟩
    intro j h₁ h₂
    omega
  | succ k ih =>
    have hk : (backing V P).Known ((backing V P).info db.files) (.heap (pageId tbl i)) :=
      hknown i (by omega)
    obtain ⟨db₁, ref, hget, h₁, hquiet₁, hl⟩ := BufferPool.getPage_spec hserving hcap hk
    obtain ⟨obj, hobj, hobj?, hid, hgood⟩ := h₁.object hl
    have hinfo : db₁.files.schema = db.files.schema := hquiet₁.info
    have hrun : findPage tbl (k + 1) i db = (if 0 < obj.page.getNumEmptySlots then
        some <$> BufferPool.getPage (.heap (pageId tbl i))
      else findPage tbl k (i + 1)) db₁ := by
      rw [findPage]
      change (BufferPool.getPage (.heap (pageId tbl i)) >>= _) db = _
      rw [bind_ok hget, bind_ok (deref_run hobj)]
      rfl
    by_cases hroom : 0 < obj.page.getNumEmptySlots
    · refine ⟨db₁, some ref, ?_, h₁, hquiet₁, i, obj, le_refl _, by omega, hl, hobj, hroom⟩
      rw [hrun, if_pos hroom, map_eq_pure_bind, bind_ok (BufferPool.getPage_resident hl)]
      rfl
    · obtain ⟨db₂, found, hfind, h₂, hquiet₂, hfound⟩ := ih h₁
        (by rw [hquiet₁.numPages]; exact hcap) (i + 1)
        (fun j hj => by rw [hinfo]; exact hknown j (by omega)) (fun j hj => hlive j (by omega))
      have hfull : SeenFull V P db (pageId tbl i) := by
        have hseen : (db₁.store (backing V P)).view (.heap (pageId tbl i)) =
            some (V.content obj.page) := by
          simp only [Store.view, Database.store, hobj?, Option.map_some]
          rfl
        have hpid : obj.page.pid = pageId tbl i := by
          injection hid
        exact SeenFull.of_quiet hquiet₁ (hlive i (by omega))
          ⟨obj.page, hgood, hpid, hseen, by omega⟩
      refine ⟨db₂, found, ?_, h₂, hquiet₁.trans hquiet₂, ?_⟩
      · rw [hrun, if_neg hroom, hfind]
      · cases found with
        | none =>
          intro j hj₁ hj₂
          rcases Nat.eq_or_lt_of_le hj₁ with rfl | hlt
          · exact hfull
          · exact SeenFull.of_quiet hquiet₁ (hlive j (by omega)) (hfound j hlt (by omega))
        | some r =>
          obtain ⟨j, o, hj₁, hj₂, hrest⟩ := hfound
          exact ⟨j, o, by omega, by omega, hrest⟩

end Search

theorem storeTuple_run {ref : Ref} {obj : PageObject HeapPage} {t : Tuple}
    (hobj : db.objects[ref]? = some obj) (hroom : 0 < obj.page.getNumEmptySlots)
    (htd : t.td = obj.page.td) :
    ∃ i < obj.page.numSlots, obj.page.row? i = none ∧
      storeTuple ref t db = .ok ([ref], t.setRecordId (some ⟨.heap obj.page.pid, i⟩))
        (db.setObject ref { obj with page := obj.page.put i t htd }) := by
  obtain ⟨i, hi, hempty, -, hinsert⟩ := HeapPage.insertTuple_ok hroom htd
  refine ⟨i, hi, hempty, ?_⟩
  rw [storeTuple, bind_ok (deref_run hobj), bind_ok (lift_run hinsert db)]
  rfl

theorem insertTuple_run {t t' : Tuple} {tid : TransactionId} {ref : Ref} {db₁ db₂ : HeapDb}
    {f : HeapFile} (hf : db.files.file? tbl = some f)
    (hinsert : insertTuple tbl tid t db = .ok ([ref], t') db₁)
    (hregister : BufferPool.registerDirty tid ref db₁ = .ok () db₂) :
    BufferPool.insertTuple tid tbl t db = .ok t' db₂ := by
  have hfile : DbFile.getDatabaseFile HeapPage db.files tbl = .ok () := by
    change (db.files.getDatabaseFile tbl).map (fun _ => ()) = _
    rw [getDatabaseFile_ok hf]
    rfl
  have hloop : [ref].forM (BufferPool.registerDirty tid) db₁ = .ok PUnit.unit db₂ := by
    change (BufferPool.registerDirty tid ref >>= fun _ => pure PUnit.unit) db₁ = _
    rw [bind_ok hregister]
    rfl
  rw [BufferPool.insertTuple, bind_ok (get_run db), bind_ok (lift_run hfile db)]
  change (insertTuple tbl tid t >>= _) db = _
  rw [bind_ok hinsert]
  change ([ref].forM (BufferPool.registerDirty tid) >>= _) db₁ = _
  rw [bind_ok hloop]
  rfl

section Finish

variable {live : Set PageId} {P : ℕ} {t : Tuple} {ref : Ref} {obj : PageObject HeapPage}

/-- An insertion into a resident page. -/
theorem store_resident (h : Serving (backing V P) live db)
    (hl : db.pages.lookup (.heap obj.page.pid) = some ref) (hobj : db.objects[ref]? = some obj)
    (hlive : .heap obj.page.pid ∈ live) (hroom : 0 < obj.page.getNumEmptySlots)
    (htd : t.td = obj.page.td) (tid : TransactionId) :
    ∃ db₁ db₂, ∃ i < obj.page.numSlots, obj.page.row? i = none ∧
      storeTuple ref t db = .ok ([ref], t.setRecordId (some ⟨.heap obj.page.pid, i⟩)) db₁ ∧
      BufferPool.registerDirty tid ref db₁ = .ok () db₂ ∧ Serving (backing V P) live db₂ ∧
      db₂.files = db.files ∧ db₂.numPages = db.numPages ∧
      (db₂.store (backing V P)).view (.heap obj.page.pid) =
        some (V.content (obj.page.put i t htd)) ∧
      (∀ j ∈ live, j ≠ .heap obj.page.pid →
        (db₂.store (backing V P)).view j = (db.store (backing V P)).view j) ∧
      db₂.object? (.heap obj.page.pid) = some ⟨obj.page.put i t htd, some tid⟩ := by
  obtain ⟨o, ho, -, -, hgood⟩ := h.object hl
  obtain rfl : obj = o := Option.some.inj (hobj.symm.trans ho)
  obtain ⟨i, hi, hempty, hstore⟩ := storeTuple_run hobj hroom htd
  let obj₁ : PageObject HeapPage := { obj with page := obj.page.put i t htd }
  let obj₂ : PageObject HeapPage := { obj₁ with dirty := some tid }
  let db₁ := db.setObject ref obj₁
  have hobj₁ : db₁.objects[ref]? = some obj₁ := Database.setObject_self hobj
  -- the page is resident, so registering it evicts nothing
  have hevict : BufferPool.evictIf (db₁.numPages ≤ db₁.pages.keys.length ∧
      db₁.pages.lookup (.heap obj.page.pid) = none) (db₁.setObject ref obj₂) =
      .ok () (db₁.setObject ref obj₂) := by
    rw [BufferPool.evictIf, if_neg]
    · rfl
    · rintro ⟨-, hnone⟩
      rw [show db₁.pages = db.pages from rfl, hl] at hnone
      cases hnone
  have hset : (db₁.setObject ref obj₂).objects = db.objects.set ref obj₂ := List.set_set ..
  have hself : (db.objects.set ref obj₂)[ref]? = some obj₂ :=
    List.getElem?_set_self (List.getElem?_eq_some_iff.mp hobj).1
  have hframe : ∀ (r : Ref) o, r ≠ ref → db.objects[r]? = some o →
      (db.objects.set ref obj₂)[r]? = some o :=
    fun r o hr ho => (List.getElem?_set_ne (Ne.symm hr)).trans ho
  have hgood₂ : GoodPage V P db.files.schema obj₂.page :=
    ⟨hgood.schema, hgood.viewed, hgood.fits.put t htd⟩
  obtain ⟨hserving, hview, hviews, hobject⟩ := BufferPool.install_spec h hself hframe
    (fun j hj => h.ref_inj hj hl) rfl rfl hgood₂ (.inl ⟨ref, hl⟩) rfl
  have hsame : insert (PageId.heap obj.page.pid) live = live := Set.insert_eq_of_mem hlive
  rw [← hset, hsame] at hserving
  rw [← hset] at hview hviews hobject
  exact ⟨db₁, _, i, hi, hempty, hstore, BufferPool.registerDirty_run hobj₁ hevict,
    hserving (h.writable _ hlive), rfl, rfl, hview, hviews, hobject⟩

/-- One more page in the file changes neither what the files hold nor which pages are good. -/
theorem grow_schema {files : HeapFiles} {f : HeapFile} (hf : files.file? tbl = some f) :
    let files' := files.setFile { f with numPages := f.numPages + 1 }
    files'.schema = Function.update files.schema tbl (some (f.td, f.numPages + 1)) ∧
      stored V P files' = stored V P files ∧
      ∀ q, GoodPage V P files.schema q → GoodPage V P files'.schema q := by
  intro files'
  have hid : f.tableid = tbl := files.filed tbl f hf
  have hself : files'.file? tbl = some { f with numPages := f.numPages + 1 } := by
    rw [← hid]
    exact HeapFiles.setFile_self files { f with numPages := f.numPages + 1 }
  have hother : ∀ id, id ≠ tbl → files'.file? id = files.file? id := by
    intro id hne
    exact HeapFiles.setFile_ne files _ (by rwa [hid])
  have hschema : files'.schema = Function.update files.schema tbl (some (f.td, f.numPages + 1)) := by
    funext id
    rcases eq_or_ne id tbl with rfl | hne
    · rw [Function.update_self, HeapFiles.schema, hself]
      rfl
    · rw [Function.update_of_ne hne, HeapFiles.schema, hother id hne, HeapFiles.schema]
  refine ⟨hschema, ?_, ?_⟩
  · funext pid
    cases pid with
    | btree id => rfl
    | heap id =>
      rcases eq_or_ne id.tableId tbl with hid | hne
      · simp only [stored, hid, hself, hf]
      · simp only [stored, hother _ hne]
  · rintro q ⟨⟨n, hq⟩, hviewed, hfits⟩
    refine ⟨?_, hviewed, hfits⟩
    rw [hschema]
    rcases eq_or_ne q.pid.tableId tbl with hid | hne
    · rw [hid] at hq
      obtain ⟨g, hg, -, htd, -⟩ := schema_eq_some hq
      obtain rfl : f = g := Option.some.inj (hf.symm.trans hg)
      exact ⟨f.numPages + 1, by rw [hid, Function.update_self, htd]⟩
    · exact ⟨n, by rw [Function.update_of_ne hne, hq]⟩

/-- `growFile`: an object for an empty page, which no id leads to yet. -/
theorem growFile_spec (h : Serving (backing V P) live db) {f : HeapFile}
    (hf : db.files.file? tbl = some f) (hviewed : V.Schema f.td) :
    ∃ db', ∃ p : HeapPage, growFile tbl db = .ok db.objects.length db' ∧
      db'.objects[db.objects.length]? = some ⟨p, none⟩ ∧ p.pid = pageId tbl f.numPages ∧
      (p.row? = fun _ => none) ∧ p.td = f.td ∧ GoodPage V P db'.files.schema p ∧
      Serving (backing V P) live db' ∧ db'.store (backing V P) = db.store (backing V P) ∧
      db'.files.schema = Function.update db.files.schema tbl (some (f.td, f.numPages + 1)) ∧
      db'.numPages = db.numPages ∧ ∀ pid, db'.pages.lookup pid ≠ some db.objects.length := by
  have hid : f.tableid = tbl := db.files.filed tbl f hf
  have hsize : db.pageSize = P := h.pageSize
  obtain ⟨hschema, hstored, hgoods⟩ := grow_schema (V := V) (P := P) hf
  let ref := db.objects.length
  let p := HeapPage.ofData db.pageSize f.td ⟨f.tableid, Int32.ofNat f.numPages⟩
    (zeroed db.pageSize (db.files.heap ref)) (db.files.stack ref)
  let db' : HeapDb :=
    { db with
      objects := db.objects ++ [⟨p, none⟩]
      files := db.files.setFile { f with numPages := f.numPages + 1 } }
  have hold : ∀ (r : Ref) o, db.objects[r]? = some o → db'.objects[r]? = some o := by
    intro r o ho
    exact (List.getElem?_append_left (List.getElem?_eq_some_iff.mp ho).1).trans ho
  have hstore : db'.store (backing V P) = db.store (backing V P) := by
    have hcache : ∀ j, db'.object? j = db.object? j := by
      intro j
      cases hr : db.pages.lookup j with
      | none =>
        have hr' : db'.pages.lookup j = none := hr
        rw [Database.object?_eq_none hr, Database.object?_eq_none hr']
      | some r =>
        have hr' : db'.pages.lookup j = some r := hr
        obtain ⟨o, ho, ho?, -⟩ := h.object hr
        rw [Database.object?_of_lookup hr' (hold r o ho), ho?]
    have hdisk : (backing V P).disk db'.files = (backing V P).disk db.files := hstored
    simp only [Database.store, hcache, hdisk]
  refine ⟨db', p, ?_, List.getElem?_concat_length, ?_, HeapPage.ofData_zeroed_row? .., rfl, ?_, ?_,
    hstore, hschema, rfl, ?_⟩
  · rw [growFile, bind_ok (get_run db), bind_ok (lift_run (getDatabaseFile_ok hf) db)]
    rfl
  · rw [← hid]
    rfl
  · refine ⟨⟨f.numPages + 1, ?_⟩, hviewed, ?_⟩
    · change db'.files.schema f.tableid = _
      rw [hschema, hid, Function.update_self]
      rfl
    · rw [← hsize]
      exact HeapPage.ofData_fits ..
  · refine ⟨h.pageSize, ?_, h.capacity, ?_, h.writable⟩
    · intro j r hr
      obtain ⟨o, ho, hoid, hogood⟩ := h.entry j r hr
      exact ⟨o, hold r o ho, hoid, hgoods o.page hogood⟩
    · rw [hstore]
      exact h.coherent
  · intro pid hl
    obtain ⟨o, ho, -⟩ := h.entry pid _ hl
    exact absurd (List.getElem?_eq_some_iff.mp ho).1 (lt_irrefl _)

/-- An insertion into a new page behind the last one. -/
theorem store_new (h : Serving (backing V P) live db) (hcap : 1 ≤ db.numPages) {f : HeapFile}
    (hf : db.files.file? tbl = some f) (hviewed : V.Schema f.td) (htd : t.td = f.td)
    (hslot : 0 < HeapPage.getNumTuples P f.td) (tid : TransactionId) :
    ∃ db₀ db₁ db₂ ref, ∃ p : HeapPage, ∃ i < p.numSlots, ∃ htd : t.td = p.td,
      growFile tbl db = .ok ref db₀ ∧
      storeTuple ref t db₀ = .ok ([ref], t.setRecordId (some ⟨.heap p.pid, i⟩)) db₁ ∧
      BufferPool.registerDirty tid ref db₁ = .ok () db₂ ∧
      p.pid = pageId tbl f.numPages ∧ (p.row? = fun _ => none) ∧ p.Fits P ∧
      (InRange P p.pid → Serving (backing V P) (insert (.heap p.pid) live) db₂) ∧
      db₂.files.schema = Function.update db.files.schema tbl (some (f.td, f.numPages + 1)) ∧
      db₂.numPages = db.numPages ∧ db₂.pageSize = P ∧
      (db₂.store (backing V P)).view (.heap p.pid) = some (V.content (p.put i t htd)) ∧
      (∀ j ∈ live, j ≠ .heap p.pid →
        (db₂.store (backing V P)).view j = (db.store (backing V P)).view j) ∧
      db₂.object? (.heap p.pid) = some ⟨p.put i t htd, some tid⟩ := by
  obtain ⟨db₀, p, hgrow, hobj, hpid, hempty, hptd, hgood, h₀, hstore₀, hschema, hnum, hstray⟩ :=
    growFile_spec h hf hviewed
  have htd' : t.td = p.td := htd.trans hptd.symm
  have hpos : 0 < p.numSlots := by
    rw [hgood.fits.slots, hptd]
    exact hslot
  have hroom : 0 < p.getNumEmptySlots := by
    refine TuplePage.getNumEmptySlots_pos.mpr ⟨0, hpos, ?_⟩
    rw [← p.row?_isSome hpos, hempty]
    rfl
  obtain ⟨i, hi, -, hstoreTuple⟩ := storeTuple_run hobj hroom htd'
  obtain ⟨h₁, hstore₁⟩ := BufferPool.setObject_stray h₀ hstray ⟨p.put i t htd', none⟩
  have hgood₁ : GoodPage V P db₀.files.schema (p.put i t htd') :=
    ⟨hgood.schema, hgood.viewed, hgood.fits.put t htd'⟩
  obtain ⟨db₂, hregister, hserving, hinfo, hnum₂, hsize, hview, hviews, hobject⟩ :=
    BufferPool.registerDirty_stray h₁ (by rw [← hnum] at hcap; exact hcap)
      (Database.setObject_self hobj) rfl hstray hgood₁ tid
  refine ⟨db₀, _, db₂, _, p, i, hi, htd', hgrow, hstoreTuple, hregister, hpid, hempty, hgood.fits,
    hserving, ?_, hnum₂.trans hnum, hsize.trans h₁.pageSize, hview, ?_, hobject⟩
  · exact (show db₂.files.schema = db₀.files.schema from hinfo).trans hschema
  · intro j hj hne
    rw [hviews j hj hne, hstore₁, hstore₀]

end Finish

/-- Tuple `t` went to slot `i`, empty until then, of page `p`, which is now resident and dirty;
a reader sees every other page of every table as before. -/
structure Stored (V : HeapPage.View γ) (tid : TransactionId) (t : Tuple) (db db' : HeapDb)
    (p : HeapPage) (i : ℕ) : Prop where
  td : t.td = p.td
  slot : i < p.numSlots
  empty : p.row? i = none
  fits : p.Fits db.pageSize
  object : db'.object? (.heap p.pid) = some ⟨p.put i t td, some tid⟩
  self : seen V db' p.pid = some (V.content (p.put i t td))
  other : ∀ id, .heap id ∈ livePages db.files.schema → id ≠ p.pid → seen V db' id = seen V db id
  numPages : db'.numPages = db.numPages
  pageSize : db'.pageSize = db.pageSize

/-- The page was there before the insertion, with room on it. -/
structure OnOldPage (V : HeapPage.View γ) (tbl : Int32) (n : ℕ) (db db' : HeapDb) (p : HeapPage) :
    Prop where
  page : ∃ j < n, p.pid = pageId tbl j
  seen : seen V db p.pid = some (V.content p)
  schema : db'.files.schema = db.files.schema
  ready : Ready V db'

/-- The page is new; every page the table had is full. -/
structure OnNewPage (V : HeapPage.View γ) (tbl : Int32) (td : TupleDesc) (n : ℕ) (db db' : HeapDb)
    (p : HeapPage) : Prop where
  page : p.pid = pageId tbl n
  empty : p.row? = fun _ => none
  full : ∀ j < n, SeenFull V db.pageSize db (pageId tbl j)
  schema : db'.files.schema = Function.update db.files.schema tbl (some (td, n + 1))
  ready : (n + 1) * db.pageSize ≤ 2147483648 → Ready V db'

theorem livePages_grow {schema : Int32 → Option (TupleDesc × ℕ)} (hs : schema tbl = some (td, n))
    (hn : n < 2147483648) :
    livePages (Function.update schema tbl (some (td, n + 1))) =
      insert (.heap (pageId tbl n)) (livePages schema) := by
  have hsame : ∀ id : HeapPageId, id.tableId = tbl →
      (.heap id ∈ livePages (Function.update schema tbl (some (td, n + 1))) ↔
        .heap id ∈ insert (PageId.heap (pageId tbl n)) (livePages schema)) := by
    rintro id rfl
    rw [Set.mem_insert_iff, mem_livePages hs hn.le,
      mem_livePages (Function.update_self ..) (by omega)]
    constructor
    · rintro ⟨i, hi, heq⟩
      rcases Nat.lt_succ_iff_lt_or_eq.mp hi with hlt | rfl
      · exact .inr ⟨i, hlt, heq⟩
      · exact .inl (congrArg PageId.heap heq)
    · rintro (heq | ⟨i, hi, heq⟩)
      · exact ⟨n, Nat.lt_succ_self n, by injection heq⟩
      · exact ⟨i, Nat.lt_succ_of_lt hi, heq⟩
  ext pid
  cases pid with
  | btree id =>
    simp only [Set.mem_insert_iff, reduceCtorEq, false_or]
    constructor <;> rintro ⟨_, _, _, heq, -⟩ <;> cases heq
  | heap id =>
    rcases eq_or_ne id.tableId tbl with hid | hne
    · exact hsame id hid
    · have hne' : ¬ PageId.heap id = .heap (pageId tbl n) := by
        intro heq
        injection heq with heq
        exact hne (congrArg HeapPageId.tableId heq)
      rw [Set.mem_insert_iff, or_iff_right hne']
      constructor
      · rintro ⟨_, td', n', heq, hs', hrange⟩
        cases heq
        rw [Function.update_of_ne hne] at hs'
        exact ⟨id, td', n', rfl, hs', hrange⟩
      · rintro ⟨_, td', n', heq, hs', hrange⟩
        cases heq
        exact ⟨id, td', n', rfl, by rw [Function.update_of_ne hne, hs'], hrange⟩

/-- Inserting through the pool: one tuple more in one slot, on the first page with room or on a
new page. -/
theorem insertTuple_spec (h : Ready V db) (hs : db.files.schema tbl = some (td, n)) {t : Tuple}
    (htd : t.td = td) (hslot : 0 < HeapPage.getNumTuples db.pageSize td) (tid : TransactionId) :
    ∃ db' p i, BufferPool.insertTuple tid tbl t db =
        .ok (t.setRecordId (some ⟨.heap p.pid, i⟩)) db' ∧ Stored V tid t db db' p i ∧
      (OnOldPage V tbl n db db' p ∨ OnNewPage V tbl td n db db' p) := by
  obtain ⟨f, hf, hid, rfl, rfl⟩ := schema_eq_some hs
  have hknown : ∀ j < 0 + f.numPages, KnownPage V db.files.schema (.heap (pageId tbl j)) :=
    fun j _ => h.known hs j
  have hlive : ∀ j < 0 + f.numPages, .heap (pageId tbl j) ∈ livePages db.files.schema :=
    fun j hj => h.page_live hs (by omega)
  obtain ⟨db₀, found, hfind, h₀, hquiet, hfound⟩ :=
    findPage_spec h.serving h.numPages f.numPages 0 hknown hlive
  have hinfo : db₀.files.schema = db.files.schema := hquiet.info
  cases found with
  | some ref =>
    obtain ⟨j, obj, -, hj, hl, hobj, hroom⟩ := hfound
    rw [Nat.zero_add] at hj
    obtain ⟨o, ho, hobj?, hoid, hgood⟩ := h₀.object hl
    obtain rfl : obj = o := Option.some.inj (hobj.symm.trans ho)
    have hpid : obj.page.pid = pageId tbl j := by injection hoid
    have htd' : t.td = obj.page.td := by
      obtain ⟨m, hm⟩ := hgood.schema
      rw [show (backing V db.pageSize).info db₀.files = db.files.schema from hinfo, hpid,
        show (pageId tbl j).tableId = tbl from rfl, hs] at hm
      exact htd.trans (congrArg Prod.fst (Option.some.inj hm))
    have hlive' := h.page_live hs hj
    rw [← hpid] at hl hlive'
    obtain ⟨db₁, db₂, i, hi, hempty, hstore, hregister, h₂, hfiles, hnum, hview, hviews, hobject⟩ :=
      store_resident h₀ hl hobj hlive' hroom htd' tid
    have hsize : db₂.pageSize = db.pageSize := h₂.pageSize
    have hschema : db₂.files.schema = db.files.schema := by rw [hfiles, hinfo]
    have hrun : insertTuple tbl tid t db =
        .ok ([ref], t.setRecordId (some ⟨.heap obj.page.pid, i⟩)) db₁ := by
      rw [insertTuple, bind_ok (get_run db), bind_ok (lift_run (getDatabaseFile_ok hf) db), hid,
        bind_ok hfind]
      exact hstore
    refine ⟨db₂, obj.page, i, insertTuple_run hf hrun hregister,
      ⟨htd', hi, hempty, hgood.fits, hobject, ?_, ?_, hnum.trans hquiet.numPages, hsize⟩,
      .inl ⟨⟨j, hj, hpid⟩, ?_, hschema, h.keep h₂ hschema (hnum.trans hquiet.numPages)⟩⟩
    · rw [seen, hsize, hview]
    · intro id hid' hne
      rw [seen, seen, hsize, hviews _ hid' (by simpa using hne), hquiet.view _ hid']
    · rw [seen, ← hquiet.view _ hlive']
      simp only [Store.view, Database.store, hobj?, hpid, Option.map_some]
      rfl
  | none =>
    obtain ⟨f₀, hf₀, -, htd₀, hn₀⟩ := schema_eq_some (hinfo ▸ hs)
    have hviewed₀ : V.Schema f₀.td := htd₀ ▸ h.covered tbl f.td f.numPages hs
    obtain ⟨_, db₁, db₂, ref, p, i, hi, htd', hgrow, hstore, hregister, hpid, hempty, hfits,
      hserving, hschema, hnum, hsize, hview, hviews, hobject⟩ :=
      store_new h₀ (by rw [hquiet.numPages]; exact h.numPages) hf₀ hviewed₀ (htd.trans htd₀.symm)
        (htd₀.symm ▸ hslot) tid
    have hrun : insertTuple tbl tid t db =
        .ok ([ref], t.setRecordId (some ⟨.heap p.pid, i⟩)) db₁ := by
      rw [insertTuple, bind_ok (get_run db), bind_ok (lift_run (getDatabaseFile_ok hf) db), hid,
        bind_ok hfind]
      exact (bind_ok hgrow).trans hstore
    rw [hn₀] at hpid
    rw [htd₀, hn₀, hinfo] at hschema
    refine ⟨db₂, p, i, insertTuple_run hf hrun hregister,
      ⟨htd', hi, by rw [hempty], hfits, hobject, ?_, ?_, hnum.trans hquiet.numPages, hsize⟩,
      .inr ⟨hpid, hempty, fun j hj => hfound j (Nat.zero_le j) (by omega), hschema, ?_⟩⟩
    · rw [seen, hsize, hview]
    · intro id hid' hne
      rw [seen, seen, hsize, hviews _ hid' (by simpa using hne), hquiet.view _ hid']
    · intro hfit
      have hlt : f.numPages + 1 ≤ 2147483648 :=
        le_trans (Nat.le_mul_of_pos_right _ h.pageSize) hfit
      have hrange : InRange db.pageSize p.pid := by
        unfold InRange
        rw [hpid, pageId_pgNo (by omega)]
        exact ⟨by omega, by exact_mod_cast hfit⟩
      have hserving₂ := hserving hrange
      rw [hpid, ← livePages_grow hs (by omega), ← hschema] at hserving₂
      refine ⟨hsize.symm ▸ h.pageSize, ?_, ?_, ?_, by rwa [hsize]⟩
      · rw [hnum, hquiet.numPages]
        exact h.numPages
      · intro id td' n' hs'
        rw [hschema] at hs'
        rcases eq_or_ne id tbl with rfl | hne
        · rw [Function.update_self] at hs'
          cases hs'
          exact h.covered id f.td f.numPages hs
        · rw [Function.update_of_ne hne] at hs'
          exact h.covered id td' n' hs'
      · intro id td' n' hs'
        rw [hschema] at hs'
        rw [hsize]
        rcases eq_or_ne id tbl with rfl | hne
        · rw [Function.update_self] at hs'
          cases hs'
          exact hfit
        · rw [Function.update_of_ne hne] at hs'
          exact h.offsets id td' n' hs'

end HeapFile

end PagedDb
