import PagedDb.Heap.TableInsert

/-!
# The rows of a heap table

A table is what a reader finds in the used slots of its pages, each page taken
from the pool if it is resident and from the file otherwise. An insertion adds
one row to one table.
-/

namespace PagedDb

open Memory Exec WriteBack

namespace HeapFile

variable {db db' : HeapDb} {tbl : Int32} {td : TupleDesc} {n : ℕ}

/-- The page a reader gets: the pool's copy if it is resident, else what the file gives. -/
def readerPage (db : HeapDb) (id : HeapPageId) : Option HeapPage :=
  match db.page? (.heap id) with
  | some p => some p
  | none => (readPage db.files db.pageSize (.heap id) db.objects.length).toOption

section Reader

variable {γ : Type} {V : HeapPage.View γ} {id : HeapPageId}

/-- A reader gets a page with the content the write-back store shows. -/
theorem readerPage_spec (h : Ready V db) (hlive : .heap id ∈ livePages db.files.schema) :
    ∃ p, readerPage db id = some p ∧ p.pid = id ∧ GoodPage V db.pageSize db.files.schema p ∧
      seen V db id = some (V.content p) := by
  cases hl : db.pages.lookup (.heap id) with
  | some ref =>
    obtain ⟨obj, -, hobj?, hid, hgood⟩ := h.serving.object hl
    refine ⟨obj.page, ?_, by injection hid, hgood, ?_⟩
    · simp [readerPage, Database.page?, hobj?]
    · simp only [seen, Store.view, Database.store, hobj?, Option.map_some]
      rfl
  | none =>
    have hobj? := Database.object?_eq_none hl
    have hlive' := hlive
    obtain ⟨_, td, n, heq, hs, -⟩ := hlive'
    cases heq
    have hknown : KnownPage V db.files.schema (.heap id) := ⟨td, n, hs, h.covered _ _ _ hs⟩
    obtain ⟨p, hread, hpid, hgood, hcontent⟩ :=
      readPage_ok db.pageSize db.objects.length hknown
    obtain ⟨c, hc⟩ := h.serving.coherent.view_isSome hlive
    have hdisk : stored V db.pageSize db.files (.heap id) = some c := by
      rw [h.serving.coherent.view_eq_disk hlive fun c => by simp [Database.store, hobj?]] at hc
      exact hc
    refine ⟨p, ?_, by injection hpid, hgood, ?_⟩
    · simp [readerPage, Database.page?, hobj?, hread, Except.toOption]
    · rw [hcontent c hdisk]
      exact hc

end Reader

theorem GoodPage.td_eq {γ : Type} {V : HeapPage.View γ} {p : HeapPage} {i : ℕ}
    (hgood : GoodPage V db.pageSize db.files.schema p) (hpid : p.pid = pageId tbl i)
    (hs : db.files.schema tbl = some (td, n)) : p.td = td := by
  obtain ⟨m, hm⟩ := hgood.schema
  rw [hpid, show (pageId tbl i).tableId = tbl from rfl, hs] at hm
  exact (congrArg Prod.fst (Option.some.inj hm)).symm

theorem seen_iff (h : Ready HeapPage.rowView db) {id : HeapPageId}
    (hlive : .heap id ∈ livePages db.files.schema) {c : ℕ → Option Row} :
    seen HeapPage.rowView db id = some c ↔ ∃ p, readerPage db id = some p ∧ p.row? = c := by
  obtain ⟨p, hp, -, -, hseen⟩ := readerPage_spec h hlive
  rw [hseen, hp]
  constructor
  · intro hc
    exact ⟨p, rfl, Option.some.inj hc⟩
  · rintro ⟨q, hq, rfl⟩
    cases hq
    rfl

/-- Changing one entry of a list by adding an element adds it to the concatenation. -/
theorem flatMap_perm_of_one {α β : Type} {f g : α → List β} {xs : List α} {a : α} {b : β}
    (hnodup : xs.Nodup) (ha : a ∈ xs) (hone : (g a).Perm (b :: f a))
    (hrest : ∀ x ∈ xs, x ≠ a → g x = f x) : (xs.flatMap g).Perm (b :: xs.flatMap f) := by
  induction xs with
  | nil => cases ha
  | cons x xs ih =>
    rw [List.nodup_cons] at hnodup
    rw [List.flatMap_cons, List.flatMap_cons]
    rcases List.mem_cons.mp ha with rfl | hmem
    · have hsame : xs.flatMap g = xs.flatMap f := by
        apply List.flatMap_congr
        intro y hy
        apply hrest y (List.mem_cons_of_mem a hy)
        rintro rfl
        exact hnodup.1 hy
      rw [hsame]
      exact hone.append_right _
    · have hx : g x = f x := by
        apply hrest x List.mem_cons_self
        rintro rfl
        exact hnodup.1 hmem
      rw [hx]
      have := ih hnodup.2 hmem fun y hy => hrest y (List.mem_cons_of_mem x hy)
      exact (this.append_left (f x)).trans List.perm_middle

theorem page_tableId {γ : Type} {V : HeapPage.View γ} {p : HeapPage}
    (hplace : OnOldPage V tbl n db db' p ∨ OnNewPage V tbl td n db db' p) :
    p.pid.tableId = tbl := by
  rcases hplace with hold | hnew
  · obtain ⟨j, -, hpid⟩ := hold.page
    rw [hpid]
    rfl
  · rw [hnew.page]
    rfl

/-- Something counted on pages: what a view shows decides it, a tuple stored in an empty slot
adds one item, and an empty page has none. -/
structure Tally {γ : Type} (V : HeapPage.View γ) (β : Type) where
  items : HeapPage → List β
  item : Tuple → β
  congr : ∀ p q : HeapPage, p.td = q.td → p.numSlots = q.numSlots → V.content p = V.content q →
    items p = items q
  put : ∀ (p : HeapPage) (i : ℕ) (t : Tuple) (htd : t.td = p.td), i < p.numSlots →
    p.row? i = none → (items (p.put i t htd)).Perm (item t :: items p)
  empty : ∀ p : HeapPage, (p.row? = fun _ => none) → items p = []

/-- The rows, as the row view shows them. -/
def rowTally : Tally HeapPage.rowView Row where
  items := TuplePage.rows
  item := Tuple.fields
  congr := by
    intro p q _ hslots hrow
    rw [TuplePage.rows, TuplePage.rows, hslots, show p.row? = q.row? from hrow]
  put := fun p _ t htd hi hempty => p.put_rows_perm t htd hi hempty
  empty := by
    intro p hempty
    rw [TuplePage.rows, hempty]
    exact Slots.segment_eq_nil fun _ _ _ => rfl

/-- The number of rows, which the bitmap alone decides. -/
def countTally : Tally HeapPage.headerView Unit where
  items := fun p => p.rows.map fun _ => ()
  item := fun _ => ()
  congr := by
    intro p q _ hslots hheader
    have hlen : p.rows.length = q.rows.length := by
      have hused : ∀ i, p.isSlotUsed i = q.isSlotUsed i := fun i => by
        rw [TuplePage.isSlotUsed, TuplePage.isSlotUsed, show p.header = q.header from hheader]
      rw [p.rows_length, q.rows_length, hslots, funext hused]
    rw [List.map_const', List.map_const', hlen]
  put := fun p _ t htd hi hempty => (p.put_rows_perm t htd hi hempty).map _
  empty := by
    intro p hempty
    rw [TuplePage.rows, hempty, Slots.segment_eq_nil fun _ _ _ => rfl]
    rfl

section Tally

variable {γ β : Type} {V : HeapPage.View γ} (M : Tally V β)

/-- The items on the pages `0, …, numPages - 1` of a table, each page as `page` gives it. -/
def itemsOf (db : HeapDb) (tbl : Int32) (page : HeapPageId → Option HeapPage) : List β :=
  match db.files.schema tbl with
  | none => []
  | some (_, n) => (List.range n).flatMap fun i => ((page (pageId tbl i)).map M.items).getD []

theorem readerPage_items (h : Ready V db) (hs : db.files.schema tbl = some (td, n)) {i : ℕ}
    (hi : i < n) {q : HeapPage} (hfits : q.Fits db.pageSize) (htd : q.td = td)
    (hc : seen V db (pageId tbl i) = some (V.content q)) :
    ((readerPage db (pageId tbl i)).map M.items).getD [] = M.items q := by
  obtain ⟨p, hp, hpid, hgood, hseen⟩ := readerPage_spec h (h.page_live hs hi)
  have hptd := hgood.td_eq hpid hs
  have hcontent : V.content p = V.content q := Option.some.inj (hseen.symm.trans hc)
  rw [hp, Option.map_some, Option.getD_some]
  exact M.congr p q (hptd.trans htd.symm) (by rw [hgood.fits.slots, hfits.slots, hptd, htd]) hcontent

theorem readerPage_items_congr (h : Ready V db) (hs : db.files.schema tbl = some (td, n))
    (h' : Ready V db') {m : ℕ} (hs' : db'.files.schema tbl = some (td, m))
    (hsize : db'.pageSize = db.pageSize) {k : ℕ} (hk : k < n) (hkm : k < m)
    (hseen : seen V db' (pageId tbl k) = seen V db (pageId tbl k)) :
    ((readerPage db' (pageId tbl k)).map M.items).getD [] =
      ((readerPage db (pageId tbl k)).map M.items).getD [] := by
  obtain ⟨q, hq, hqid, hqgood, hqseen⟩ := readerPage_spec h (h.page_live hs hk)
  have htd := hqgood.td_eq hqid hs
  rw [readerPage_items M h' hs' hkm (hsize ▸ hqgood.fits) htd (hseen.trans hqseen),
    readerPage_items M h hs hk hqgood.fits htd hqseen]

theorem items_congr (h : Ready V db) (h' : Ready V db')
    (hs : db'.files.schema tbl = db.files.schema tbl) (hsize : db'.pageSize = db.pageSize)
    (hseen : ∀ id, id.tableId = tbl → .heap id ∈ livePages db.files.schema →
      seen V db' id = seen V db id) :
    itemsOf M db' tbl (readerPage db') = itemsOf M db tbl (readerPage db) := by
  unfold itemsOf
  rw [hs]
  cases hsome : db.files.schema tbl with
  | none => rfl
  | some e =>
    obtain ⟨td, n⟩ := e
    apply List.flatMap_congr
    intro i hi
    have hin := List.mem_range.mp hi
    exact readerPage_items_congr M h hsome h' (hs.trans hsome) hsize hin hin
      (hseen _ rfl (h.page_live hsome hin))

/-- Inserting adds one item to its table and none to the others. -/
theorem items_insert {p : HeapPage} {i : ℕ} {t : Tuple} {tid : TransactionId}
    (h : Ready V db) (hs : db.files.schema tbl = some (td, n)) (htd : t.td = td)
    (hstored : Stored V tid t db db' p i)
    (hplace : OnOldPage V tbl n db db' p ∨ OnNewPage V tbl td n db db' p) (h' : Ready V db') :
    (itemsOf M db' tbl (readerPage db')).Perm (M.item t :: itemsOf M db tbl (readerPage db)) ∧
      ∀ id, id ≠ tbl → itemsOf M db' id (readerPage db') = itemsOf M db id (readerPage db) := by
  have hptd : p.td = td := hstored.td.symm.trans htd
  have hput := M.put p i t hstored.td hstored.slot hstored.empty
  have hfits' : HeapPage.Fits (p.put i t hstored.td) db'.pageSize := by
    rw [hstored.pageSize]
    exact hstored.fits.put t hstored.td
  have hself := hstored.self
  constructor
  · rcases hplace with hold | hnew
    · obtain ⟨j, hj, hpid⟩ := hold.page
      have hs' := hold.schema ▸ hs
      have hbefore := hold.seen
      rw [hpid] at hself hbefore
      unfold itemsOf
      rw [hold.schema, hs]
      apply flatMap_perm_of_one List.nodup_range (List.mem_range.mpr hj)
      · rw [readerPage_items M h' hs' hj hfits' hptd hself,
          readerPage_items M h hs hj hstored.fits hptd hbefore]
        exact hput
      · intro k hk hkj
        have hkn := List.mem_range.mp hk
        have hne : pageId tbl k ≠ p.pid := by
          rw [hpid]
          intro heq
          have := h.count_le hs
          exact hkj (pageId_inj (by omega) (by omega) heq)
        exact readerPage_items_congr M h hs h' hs' hstored.pageSize hkn hkn
          (hstored.other _ (h.page_live hs hkn) hne)
    · -- the old pages are unchanged and the new one holds just the new tuple
      have hs' : db'.files.schema tbl = some (td, n + 1) := by
        rw [hnew.schema, Function.update_self]
      have hcount := h'.count_le hs'
      rw [hnew.page] at hself
      rw [M.empty p hnew.empty] at hput
      have hsame : (List.range n).flatMap
            (fun i => ((readerPage db' (pageId tbl i)).map M.items).getD []) =
          (List.range n).flatMap
            fun i => ((readerPage db (pageId tbl i)).map M.items).getD [] := by
        apply List.flatMap_congr
        intro k hk
        have hkn := List.mem_range.mp hk
        have hne : pageId tbl k ≠ p.pid := by
          rw [hnew.page]
          intro heq
          have := pageId_inj (by omega) (by omega) heq
          omega
        exact readerPage_items_congr M h hs h' hs' hstored.pageSize hkn (by omega)
          (hstored.other _ (h.page_live hs hkn) hne)
      unfold itemsOf
      rw [hs', hs]
      simp only
      rw [List.range_succ, List.flatMap_append, List.flatMap_singleton,
        readerPage_items M h' hs' (Nat.lt_succ_self n) hfits' hptd hself, hsame]
      exact (hput.append_left _).trans (List.perm_append_singleton _ _)
  · intro id hid
    have hschema : db'.files.schema id = db.files.schema id := by
      rcases hplace with hold | hnew
      · rw [hold.schema]
      · rw [hnew.schema, Function.update_of_ne hid]
    apply items_congr M h h' hschema hstored.pageSize
    intro pid hpid hlive
    apply hstored.other pid hlive
    rintro rfl
    exact hid (hpid.symm.trans (page_tableId hplace))

end Tally

def tableRows (db : HeapDb) (tbl : Int32) : List Row := itemsOf rowTally db tbl (readerPage db)

def diskRows (db : HeapDb) (tbl : Int32) : List Row :=
  itemsOf rowTally db tbl fun id =>
    (readPage db.files db.pageSize (.heap id) db.objects.length).toOption

theorem tableRows_length (db : HeapDb) (tbl : Int32) :
    (tableRows db tbl).length = (itemsOf countTally db tbl (readerPage db)).length := by
  unfold tableRows itemsOf
  cases db.files.schema tbl with
  | none => rfl
  | some e =>
    simp only [List.length_flatMap]
    congr 1
    apply List.map_congr_left
    intro i _
    cases readerPage db (pageId tbl i) with
    | none => rfl
    | some p => exact (List.length_map _).symm

def Holds (db : HeapDb) (id : HeapPageId) (i : ℕ) (row : Row) : Prop :=
  .heap id ∈ livePages db.files.schema ∧ ∃ p, readerPage db id = some p ∧ p.row? i = some row

/-- Every page of every table ends below `2 ^ 31`. -/
def OffsetsFit (db : HeapDb) : Prop :=
  ∀ id td n, db.files.schema id = some (td, n) → n * db.pageSize ≤ 2147483648

/-- A pool with nothing in it over heap files as their constructor opens them, with as many
pages as fit in the file. -/
structure Fresh (db : HeapDb) : Prop where
  pages : db.pages = ∅
  numPages : 1 ≤ db.numPages
  pageSize : 0 < db.pageSize
  count : ∀ id f, db.files.file? id = some f → f.numPages = f.fd.size / db.pageSize

theorem Fresh.ready {γ : Type} {V : HeapPage.View γ} (h : Fresh db)
    (hviewed : ∀ id f, db.files.file? id = some f → V.Schema f.td) (hfit : OffsetsFit db) :
    Ready V db := by
  have hnone : ∀ pid, db.pages.lookup pid = none := by
    intro pid
    rw [h.pages]
    exact AList.lookup_empty pid
  have hcache : ∀ pid, (db.store (backing V db.pageSize)).cache pid = none := by
    intro pid
    simp [Database.store, Database.object?_eq_none (hnone pid)]
  have hrange : ∀ (id : HeapPageId) (td : TupleDesc) (n : ℕ),
      db.files.schema id.tableId = some (td, n) → 0 ≤ id.pgNo.toInt → id.pgNo.toInt < (n : Int) →
      InRange db.pageSize id := by
    intro id td n hs h₀ hlt
    refine ⟨h₀, ?_⟩
    have hle : (id.pgNo.toInt + 1) * db.pageSize ≤ (n : Int) * db.pageSize :=
      Int.mul_le_mul_of_nonneg_right (by omega) (Int.natCast_nonneg _)
    have := hfit _ _ _ hs
    exact le_trans hle (by exact_mod_cast this)
  refine ⟨h.pageSize, h.numPages, ?_, hfit, ⟨rfl, ?_, ?_, ?_, ?_⟩⟩
  · intro id td n hs
    obtain ⟨f, hf, -, rfl, -⟩ := schema_eq_some hs
    exact hviewed id f hf
  · intro pid ref hl
    rw [hnone] at hl
    cases hl
  · rw [h.pages]
    exact Nat.zero_le _
  · intro pid
    rw [hcache]
    rintro ⟨id, td, n, rfl, hs, h₀, hlt⟩
    obtain ⟨f, hf, -, rfl, rfl⟩ := schema_eq_some hs
    have hin := hrange id _ _ hs h₀ hlt
    have hend : id.pgNo.toInt.toNat * db.pageSize + db.pageSize ≤ f.fd.size := by
      rw [h.count _ f hf] at hlt
      have hmul := Nat.div_mul_le_self f.fd.size db.pageSize
      have hstep : (id.pgNo.toInt.toNat + 1) * db.pageSize ≤ f.fd.size / db.pageSize * db.pageSize :=
        Nat.mul_le_mul_right _ (by omega)
      rw [Nat.succ_mul] at hstep
      omega
    have hstored : (HeapFile.stored V db.pageSize db.files (.heap id)).isSome := by
      simp only [HeapFile.stored, hf]
      rw [if_pos ⟨hin, hend⟩]
      rfl
    exact Option.isSome_iff_exists.mp hstored
  · rintro pid ⟨id, td, n, rfl, hs, h₀, hlt⟩
    exact hrange id td n hs h₀ hlt

/-- A pool over one heap file, as the constructors leave them. -/
def openTable (pageSize numPages : ℕ) (tableid : Int32) (td : TupleDesc) (fd : File) : HeapDb where
  objects := []
  pageSize
  numPages
  pages := ∅
  order := fun _ => 0
  files :=
    { file? := fun id => if id = tableid then some ⟨tableid, td, fd.size / pageSize, fd⟩ else none
      filed := by
        intro id f hf
        split at hf
        · cases hf
          exact Eq.symm ‹_›
        · cases hf
      heap := fun _ _ => 0
      stack := fun _ _ => 0
      scratch := fun _ => 0 }

theorem openTable_file {pageSize numPages : ℕ} {tableid id : Int32} {td : TupleDesc} {fd : File}
    {f : HeapFile} (hf : (openTable pageSize numPages tableid td fd).files.file? id = some f) :
    f = ⟨tableid, td, fd.size / pageSize, fd⟩ := by
  simp only [openTable] at hf
  split at hf
  · exact (Option.some.inj hf).symm
  · cases hf

theorem openTable_fresh {pageSize numPages : ℕ} {tableid : Int32} {td : TupleDesc} {fd : File}
    (hsize : 0 < pageSize) (hnum : 1 ≤ numPages) :
    Fresh (openTable pageSize numPages tableid td fd) := by
  refine ⟨rfl, hnum, hsize, ?_⟩
  intro id f hf
  rw [openTable_file hf]
  rfl

def oneInt : TupleDesc := ⟨[⟨.intType, ""⟩]⟩

def intTuple (v : Int32) : Tuple := ⟨oneInt, [.int v], none, typed_int v⟩

def onePageFile : File where
  size := 9
  byte := fun j => if j = 0 then 1 else if j = 1 then 5 else 0
  byte_of_size_le := by
    intro j hj
    rw [if_neg (by omega), if_neg (by omega)]

theorem openTable_ready {γ : Type} {V : HeapPage.View γ} {pageSize numPages : ℕ} {tableid : Int32}
    {td : TupleDesc} {fd : File} (hsize : 0 < pageSize) (hnum : 1 ≤ numPages) (hview : V.Schema td)
    (hfit : fd.size ≤ 2147483648) : Ready V (openTable pageSize numPages tableid td fd) := by
  apply (openTable_fresh hsize hnum).ready
  · intro id f hf
    rw [openTable_file hf]
    exact hview
  · intro id td' n hs
    obtain ⟨f, hf, -, -, rfl⟩ := schema_eq_some hs
    rw [openTable_file hf]
    exact le_trans (Nat.div_mul_le_self _ _) hfit

end HeapFile

end PagedDb
