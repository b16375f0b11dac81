import PagedDb.Heap.FailedInsert
import PagedDb.Heap.SlotStore

/-!
# What a reader of heap tables has before it

A table's pages, as a reader gets them, are shelves with the rows of the table. An
insertion through the pool puts its row where first fit puts it, and a deletion by
the file takes the row of one slot, whatever is in the pool.
-/

namespace PagedDb

open Exec WriteBack

namespace HeapFile

variable {db db' : HeapDb} {tbl : Int32} {td : TupleDesc} {n i : ℕ} {x : SlotTable} {t : Tuple}

/-- The rows on `count` pages of `width` slots each. -/
def shelvesOf (width count : ℕ) (page : ℕ → Option HeapPage) : Shelves Row where
  width := width
  count := count
  at? n i := if n < count ∧ i < width then (page n).bind fun p => p.row? i else none
  behind := fun _ _ h => if_neg (by omega)
  beyond := fun _ _ h => if_neg (by omega)

theorem shelvesOf_at? (width count : ℕ) (page : ℕ → Option HeapPage) (n i : ℕ) :
    (shelvesOf width count page).at? n i =
      if n < count ∧ i < width then (page n).bind fun p => p.row? i else none := rfl

theorem shelvesOf_congr {width count : ℕ} {page page' : ℕ → Option HeapPage}
    (h : ∀ n < count, (page n).map TuplePage.row? = (page' n).map TuplePage.row?) :
    shelvesOf width count page = shelvesOf width count page' := by
  ext1
  case width => rfl
  case count => rfl
  case at? =>
    funext n i
    have hbind : ∀ page : Option HeapPage,
        (page.bind fun p => p.row? i) = (page.map TuplePage.row?).bind (· i) := by
      intro page
      cases page <;> rfl
    by_cases hin : n < count ∧ i < width
    · rw [shelvesOf_at?, shelvesOf_at?, if_pos hin, if_pos hin, hbind, hbind, h n hin.1]
    · rw [shelvesOf_at?, shelvesOf_at?, if_neg hin, if_neg hin]

/-- The tables, with each page as `page` gives it. -/
def tablesOf (db : HeapDb) (page : HeapPageId → Option HeapPage) (tbl : Int32) : Option SlotTable :=
  (db.files.schema tbl).map fun e =>
    ⟨e.1, shelvesOf (HeapPage.getNumTuples db.pageSize e.1) e.2 fun n => page (pageId tbl n)⟩

def tables (db : HeapDb) : Int32 → Option SlotTable := tablesOf db (readerPage db)

def diskTables (db : HeapDb) : Int32 → Option SlotTable :=
  tablesOf db fun id => (readPage db.files db.pageSize (.heap id) db.objects.length).toOption

/-- A table whose pages are seen as these rows. -/
structure Shown (db : HeapDb) (tbl : Int32) (x : SlotTable) : Prop where
  schema : db.files.schema tbl = some (x.td, x.rows.count)
  width : x.rows.width = HeapPage.getNumTuples db.pageSize x.td
  seen : ∀ n < x.rows.count, seen HeapPage.rowView db (pageId tbl n) = some (x.rows.at? n)

theorem shown_iff (h : Ready HeapPage.rowView db) : tables db tbl = some x ↔ Shown db tbl x := by
  have hat : ∀ {td n}, db.files.schema tbl = some (td, n) → ∀ k < n, ∃ p,
      readerPage db (pageId tbl k) = some p ∧ HeapFile.seen HeapPage.rowView db (pageId tbl k) =
        some p.row? ∧ ∀ i, HeapPage.getNumTuples db.pageSize td ≤ i → p.row? i = none := by
    intro td n hs k hk
    obtain ⟨p, hp, hpid, hgood, hseen⟩ := readerPage_spec h (h.page_live hs hk)
    refine ⟨p, hp, hseen, fun i hi => p.row?_of_le ?_⟩
    rw [hgood.fits.slots, hgood.td_eq hpid hs]
    exact hi
  constructor
  · intro htables
    obtain ⟨⟨td, n⟩, hs, heq⟩ := Option.map_eq_some_iff.mp htables
    cases heq
    refine ⟨hs, rfl, fun k hk => ?_⟩
    obtain ⟨p, hp, hseen, hbeyond⟩ := hat hs k hk
    rw [hseen]
    congr 1
    funext i
    change p.row? i = if _ then (readerPage db (pageId tbl k)).bind _ else none
    rw [hp, Option.bind_some]
    split
    · rfl
    · rename_i hout
      exact hbeyond i (by by_contra hi; exact hout ⟨hk, Nat.lt_of_not_le hi⟩)
  · rintro ⟨hs, hwidth, hseen⟩
    rw [tables, tablesOf, hs, Option.map_some]
    obtain ⟨td, S⟩ := x
    congr 2
    ext1
    case width => exact hwidth.symm
    case count => rfl
    case at? =>
      funext k i
      change (if _ then (readerPage db (pageId tbl k)).bind _ else none) = S.at? k i
      by_cases hk : k < S.count
      · obtain ⟨p, hp, hrow, hbeyond⟩ := hat hs k hk
        rw [hseen k hk] at hrow
        rw [hp, Option.bind_some, Option.some.inj hrow]
        split
        · rfl
        · rename_i hout
          exact (hbeyond i (by by_contra hi; exact hout ⟨hk, Nat.lt_of_not_le hi⟩)).symm
      · rw [if_neg fun hin => hk hin.1, S.behind k i (Nat.le_of_not_lt hk)]

theorem Shown.numSlots (hx : Shown db tbl x) {p : HeapPage}
    (hgood : GoodPage HeapPage.rowView db.pageSize db.files.schema p) (hpid : p.pid = pageId tbl n) :
    p.numSlots = x.rows.width := by
  rw [hgood.fits.slots, hgood.td_eq hpid hx.schema, hx.width]

theorem tables_eq_none : tables db tbl = none ↔ db.files.schema tbl = none := Option.map_eq_none_iff

theorem Shown.contents (hx : Shown db tbl x) (h : Ready HeapPage.rowView db) :
    x.rows.contents = (tableRows db tbl : Multiset Row) := by
  rw [tableRows, itemsOf, hx.schema]
  refine Eq.trans ?_ (Multiset.coe_bind (List.range x.rows.count) _)
  refine Multiset.bind_congr fun n hn => ?_
  have hlt : n < x.rows.count := Multiset.mem_range.mp hn
  obtain ⟨p, hp, hpid, hgood, hseen⟩ := readerPage_spec h (h.page_live hx.schema hlt)
  have hrow : x.rows.at? n = p.row? := Option.some.inj ((hx.seen n hlt).symm.trans hseen)
  rw [hp, hrow, ← hx.numSlots hgood hpid]
  rfl

section Insertion

variable {γ : Type} {V : HeapPage.View γ} {tid : TransactionId} {ref : Ref} {t' : Tuple}

/-- A search that has found a page does not look at those behind it. -/
theorem findPage_stops {k m : ℕ} (h : findPage tbl k i db = .ok (some ref) db') :
    findPage tbl (k + m) i db = .ok (some ref) db' := by
  induction k generalizing i db with
  | zero => cases h
  | succ k ih =>
    rw [findPage] at h
    obtain ⟨r, db₁, hget, h⟩ := of_bind_ok h
    obtain ⟨obj, db₂, hderef, h⟩ := of_bind_ok h
    rw [Nat.add_right_comm, findPage, bind_ok hget, bind_ok hderef]
    split at h
    · rename_i hroom
      rw [if_pos hroom]
      exact h
    · rename_i hfull
      rw [if_neg hfull]
      exact ih h

theorem of_storeTuple {obj : PageObject HeapPage} {refs : List Ref}
    (hobj : db.objects[ref]? = some obj) (h : storeTuple ref t db = .ok (refs, t') db') :
    ∃ i, obj.page.LowestFree i ∧ t' = t.setRecordId (some ⟨.heap obj.page.pid, i⟩) := by
  rw [storeTuple, bind_ok (deref_run hobj)] at h
  obtain ⟨⟨p, u⟩, db₁, hlift, hend⟩ := of_bind_ok h
  obtain ⟨hinsert, rfl⟩ := of_lift_ok hlift
  cases hend
  by_cases hbad : (∃ i < obj.page.numSlots, obj.page.isSlotUsed i = false) ∧ t.td = obj.page.td
  · obtain ⟨i, hi⟩ := HeapPage.lowestFree_exists hbad.1
    rw [HeapPage.insertTuple_lowest hi hbad.2] at hinsert
    cases hinsert
    exact ⟨i, hi, rfl⟩
  · obtain ⟨e, herror, -⟩ := HeapPage.insertCall_error hbad
    rw [herror] at hinsert
    cases hinsert

theorem of_poolInsert (h : BufferPool.insertTuple tid tbl t db = .ok t' db') :
    ∃ refs db₁, insertTuple tbl tid t db = .ok (refs, t') db₁ := by
  rw [BufferPool.insertTuple, bind_ok (get_run db)] at h
  obtain ⟨_, db₀, hlift, hrest⟩ := of_bind_ok h
  obtain ⟨-, rfl⟩ := of_lift_ok hlift
  obtain ⟨⟨refs, u⟩, db₁, hinsert, hloop⟩ := of_bind_ok hrest
  obtain ⟨_, db₂, -, hend⟩ := of_bind_ok hloop
  cases hend
  exact ⟨refs, db₁, hinsert⟩

theorem seen_of_resident {live : Set PageId} {P : ℕ} {id : HeapPageId} {obj : PageObject HeapPage}
    (h : Serving (backing V P) live db') (hquiet : Quiet (backing V P) live db db')
    (hid : .heap id ∈ live) (hl : db'.pages.lookup (.heap id) = some ref)
    (hobj : db'.objects[ref]? = some obj) : obj.page.pid = id ∧
      GoodPage V P db'.files.schema obj.page ∧
      (db.store (backing V P)).view (.heap id) = some (V.content obj.page) := by
  obtain ⟨o, ho, ho?, hoid, hgood⟩ := h.object hl
  obtain rfl : obj = o := Option.some.inj (hobj.symm.trans ho)
  refine ⟨by injection hoid, hgood, ?_⟩
  rw [← hquiet.view _ hid]
  simp only [Store.view, Database.store, ho?, Option.map_some]
  rfl

theorem freeSlot_of_lowest {p : HeapPage} (hrow : x.rows.at? n = p.row?)
    (hslots : p.numSlots = x.rows.width) (hi : p.LowestFree i) : x.rows.freeSlot n = i := by
  apply Shelves.freeSlot_eq (hslots ▸ hi.lt)
  · rw [hrow, ← Option.not_isSome_iff_eq_none, p.row?_isSome hi.lt, hi.free]
    exact Bool.false_ne_true
  · intro j hj
    rw [hrow, p.row?_isSome (hj.trans hi.lt)]
    exact hi.below j hj

theorem freeShelf_le_of_room {p : HeapPage} (hrow : x.rows.at? n = p.row?)
    (hslots : p.numSlots = x.rows.width) (hroom : 0 < p.getNumEmptySlots) :
    x.rows.freeShelf ≤ n := by
  obtain ⟨i, hi, hempty⟩ := TuplePage.getNumEmptySlots_pos.mp hroom
  by_contra hlt
  have hused := Shelves.full_before (Nat.lt_of_not_le hlt) (hslots ▸ hi)
  rw [hrow, p.row?_isSome hi, hempty] at hused
  cases hused

/-- The search for a page with room, as far as page `k`. -/
theorem findPage_shown (h : Ready HeapPage.rowView db) (hx : Shown db tbl x)
    (hpos : 0 < x.rows.width) {k : ℕ} (hk : k ≤ x.rows.count) :
    ∃ db₁ found, findPage tbl k 0 db = .ok found db₁ ∧
      Serving (backing HeapPage.rowView db.pageSize) (livePages db.files.schema) db₁ ∧
      db₁.files.schema = db.files.schema ∧
      (found = none → k ≤ x.rows.freeShelf) ∧
      ∀ ref, found = some ref → ∃ j < k, ∃ obj, x.rows.freeShelf ≤ j ∧
        db₁.objects[ref]? = some obj ∧ obj.page.pid = pageId tbl j ∧
        x.rows.at? j = obj.page.row? ∧ obj.page.numSlots = x.rows.width := by
  obtain ⟨db₁, found, hfind, h₁, hquiet, hfound⟩ := findPage_spec h.serving h.numPages k 0
    (fun j _ => h.known hx.schema j) fun j hj => h.page_live hx.schema (by omega)
  have hinfo : db₁.files.schema = db.files.schema := hquiet.info
  refine ⟨db₁, found, hfind, h₁, hinfo, ?_, ?_⟩
  · rintro rfl
    by_contra hlt
    have hshelf : x.rows.freeShelf < k := Nat.lt_of_not_le hlt
    obtain ⟨q, hgood, hpid, hview, hfull⟩ := hfound x.rows.freeShelf (Nat.zero_le _) (by omega)
    obtain ⟨hslot, hfree⟩ := Shelves.place_free hpos
    have hrow : x.rows.at? x.rows.freeShelf = q.row? :=
      Option.some.inj ((hx.seen _ (by omega)).symm.trans hview)
    have hlt : x.rows.freeSlot x.rows.freeShelf < q.numSlots := by rwa [hx.numSlots hgood hpid]
    have hroom := TuplePage.getNumEmptySlots_pos.mpr ⟨_, hlt, by
      rw [← q.row?_isSome hlt, ← hrow, hfree]
      rfl⟩
    omega
  · rintro ref rfl
    obtain ⟨j, obj, -, hj, hl, hobj, hroom⟩ := hfound
    rw [Nat.zero_add] at hj
    obtain ⟨hpid, hgood, hseen⟩ :=
      seen_of_resident h₁ hquiet (h.page_live hx.schema (by omega)) hl hobj
    have hrow : x.rows.at? j = obj.page.row? :=
      Option.some.inj ((hx.seen j (by omega)).symm.trans hseen)
    have hslots := hx.numSlots (hinfo ▸ hgood) hpid
    exact ⟨j, hj, obj, freeShelf_le_of_room hrow hslots hroom, hobj, hpid, hrow, hslots⟩

/-- An insertion that returns has put its row where first fit puts it. -/
theorem insertTuple_place (h : Ready HeapPage.rowView db) (hx : Shown db tbl x)
    (hpos : 0 < x.rows.width) (hrun : BufferPool.insertTuple tid tbl t db = .ok t' db') :
    t' = t.setRecordId
      (some ⟨.heap (pageId tbl x.rows.freeShelf), x.rows.freeSlot x.rows.freeShelf⟩) := by
  obtain ⟨f, hf, hid, htd, hcount⟩ := schema_eq_some hx.schema
  obtain ⟨refs, db₁, hinsert⟩ := of_poolInsert hrun
  rcases (Shelves.freeShelf_le (S := x.rows)).lt_or_eq with hlt | heq
  · -- the search ends at the first page with a free slot
    obtain ⟨db₂, found, hfind, -, -, hnone, hsome⟩ :=
      findPage_shown h hx hpos (show x.rows.freeShelf + 1 ≤ x.rows.count from hlt)
    cases found with
    | none => exact absurd (hnone rfl) (by omega)
    | some ref =>
      obtain ⟨j, hj, obj, hle, hobj, hpid, hrow, hslots⟩ := hsome ref rfl
      obtain rfl : j = x.rows.freeShelf := by omega
      have hstops := findPage_stops (m := f.numPages - (x.rows.freeShelf + 1)) hfind
      rw [show x.rows.freeShelf + 1 + (f.numPages - (x.rows.freeShelf + 1)) = f.numPages by omega]
        at hstops
      rw [insertTuple_found hf hstops] at hinsert
      obtain ⟨i, hi, rfl⟩ := of_storeTuple hobj hinsert
      rw [freeSlot_of_lowest hrow hslots hi, hpid]
  · -- every page is full
    obtain ⟨db₂, found, hfind, h₂, hinfo, -, hsome⟩ := findPage_shown h hx hpos le_rfl
    cases found with
    | some ref =>
      obtain ⟨j, hj, obj, hle, -⟩ := hsome ref rfl
      omega
    | none =>
      rw [← hcount] at hfind
      rw [insertTuple_notFound hf hfind] at hinsert
      obtain ⟨g, hg, -, hgtd, hgcount⟩ := schema_eq_some (hinfo ▸ hx.schema)
      obtain ⟨db₃, p, hgrow, hobj, hpid, hempty, hptd, hgood, -, -, hschema, -⟩ :=
        growFile_spec h₂ hg (by rw [hgtd]; exact h.covered _ _ _ hx.schema)
      rw [bind_ok hgrow] at hinsert
      obtain ⟨i, hi, rfl⟩ := of_storeTuple hobj hinsert
      have hslots : p.numSlots = x.rows.width := by
        rw [hgood.fits.slots, hptd, hgtd, hx.width]
      have hrow : x.rows.at? x.rows.freeShelf = p.row? := by
        rw [hempty]
        funext j
        exact x.rows.behind _ j heq.ge
      rw [freeSlot_of_lowest hrow hslots hi, hpid, hgcount, heq]

theorem Shown.untouched (hx : Shown db tbl x) (hschema : db'.files.schema tbl = db.files.schema tbl)
    (hsize : db'.pageSize = db.pageSize)
    (hseen : ∀ n < x.rows.count, HeapFile.seen HeapPage.rowView db' (pageId tbl n) =
      HeapFile.seen HeapPage.rowView db (pageId tbl n)) : Shown db' tbl x :=
  ⟨hschema.trans hx.schema, hsize ▸ hx.width, fun n hn => (hseen n hn).trans (hx.seen n hn)⟩

theorem tables_update (h : Ready HeapPage.rowView db) (h' : Ready HeapPage.rowView db')
    (hsize : db'.pageSize = db.pageSize)
    (hschema : ∀ id, id ≠ tbl → db'.files.schema id = db.files.schema id)
    (hseen : ∀ id : HeapPageId, .heap id ∈ livePages db.files.schema → id.tableId ≠ tbl →
      seen HeapPage.rowView db' id = seen HeapPage.rowView db id)
    (hx : Shown db' tbl x) : tables db' = Function.update (tables db) tbl (some x) := by
  funext id
  rcases eq_or_ne id tbl with rfl | hne
  · rw [Function.update_self]
    exact (shown_iff h').mpr hx
  · rw [Function.update_of_ne hne]
    cases hy : tables db id with
    | none => exact tables_eq_none.mpr ((hschema id hne).trans (tables_eq_none.mp hy))
    | some y =>
      have hshown := (shown_iff h).mp hy
      exact (shown_iff h').mpr (hshown.untouched (hschema id hne) hsize fun n hn =>
        hseen _ (h.page_live hshown.schema hn) hne)

/-- The page of an insertion is an old one where a shelf has a free slot, and else a new one. -/
theorem place_shelf {p : HeapPage} (hstored : Stored HeapPage.rowView tid t db db' p i)
    (h : Ready HeapPage.rowView db) (h' : Ready HeapPage.rowView db') (hx : Shown db tbl x)
    (hslots : p.numSlots = x.rows.width)
    (hplace : OnOldPage HeapPage.rowView tbl x.rows.count db db' p ∨
      OnNewPage HeapPage.rowView tbl x.td x.rows.count db db' p)
    (hpid : p.pid = pageId tbl x.rows.freeShelf) : x.rows.at? x.rows.freeShelf = p.row? ∧
      db'.files.schema tbl = some (x.td, max x.rows.count (x.rows.freeShelf + 1)) ∧
      ∀ id, id ≠ tbl → db'.files.schema id = db.files.schema id := by
  have hcount := h.count_le hx.schema
  have hshelf := Shelves.freeShelf_le (S := x.rows)
  rcases hplace with hold | hnew
  · obtain ⟨j, hj, hpid'⟩ := hold.page
    have hbefore := hold.seen
    rw [hpid'] at hbefore
    have hrow : x.rows.at? j = p.row? := Option.some.inj ((hx.seen j hj).symm.trans hbefore)
    have hroom : 0 < p.getNumEmptySlots := by
      refine TuplePage.getNumEmptySlots_pos.mpr ⟨i, hstored.slot, ?_⟩
      rw [← p.row?_isSome hstored.slot, hstored.empty]
      rfl
    have hle := freeShelf_le_of_room hrow hslots hroom
    obtain rfl : j = x.rows.freeShelf :=
      pageId_inj (by omega) (by omega) (hpid'.symm.trans hpid)
    refine ⟨hrow, ?_, fun id _ => by rw [hold.schema]⟩
    rw [hold.schema, hx.schema, Nat.max_eq_left hj]
  · have hs' : db'.files.schema tbl = some (x.td, x.rows.count + 1) := by
      rw [hnew.schema, Function.update_self]
    have hcount' := h'.count_le hs'
    have heq : x.rows.count = x.rows.freeShelf :=
      pageId_inj (by omega) (by omega) (hnew.page.symm.trans hpid)
    refine ⟨?_, ?_, fun id hne => by rw [hnew.schema, Function.update_of_ne hne]⟩
    · rw [hnew.empty]
      funext j
      exact x.rows.behind _ j heq.le
    · rw [hs', ← heq, Nat.max_eq_right (Nat.le_succ _)]

/-- An insertion that stays below `2 ^ 31` is one by first fit. -/
theorem tables_insert {p : HeapPage} (hstored : Stored HeapPage.rowView tid t db db' p i)
    (h : Ready HeapPage.rowView db) (h' : Ready HeapPage.rowView db') (hx : Shown db tbl x)
    (htd : t.td = x.td)
    (hplace : OnOldPage HeapPage.rowView tbl x.rows.count db db' p ∨
      OnNewPage HeapPage.rowView tbl x.td x.rows.count db db' p)
    (hpid : p.pid = pageId tbl x.rows.freeShelf) (hi : i = x.rows.freeSlot x.rows.freeShelf) :
    tables db' =
      Function.update (tables db) tbl (some { x with rows := x.rows.insert t.fields }) := by
  have hslots : p.numSlots = x.rows.width := by
    rw [hstored.fits.slots, ← hstored.td, htd, hx.width]
  obtain ⟨hrow, hschema, hothers⟩ := place_shelf hstored h h' hx hslots hplace hpid
  have hwidth : i < x.rows.width := hslots ▸ hstored.slot
  refine tables_update h h' hstored.pageSize hothers ?_ ⟨hschema, ?_, fun k hk => ?_⟩
  · exact fun id hid hne => hstored.other id hid fun heq => hne (heq ▸ hpid ▸ rfl)
  · rw [hstored.pageSize]
    exact hx.width
  · change k < max x.rows.count (x.rows.freeShelf + 1) at hk
    change seen HeapPage.rowView db' (pageId tbl k) = some ((x.rows.insert t.fields).at? k)
    rcases eq_or_ne k x.rows.freeShelf with rfl | hne
    · have hput : (p.put i t hstored.td).row? = Function.update p.row? i (some t.fields) :=
        TuplePage.put_row? p t hstored.td hstored.slot
      rw [← hpid, hstored.self, Shelves.insert, ← hi, Shelves.set_shelf hwidth, hrow, ← hput]
      rfl
    · have hlt : k < x.rows.count := by
        have hshelf := Shelves.freeShelf_le (S := x.rows)
        omega
      have hcount := h'.count_le hschema
      have hpage : pageId tbl k ≠ p.pid := fun heq =>
        hne (pageId_inj (by omega) (by omega) (heq.trans hpid))
      rw [hstored.other _ (h.page_live hx.schema hlt) hpage, hx.seen k hlt, Shelves.insert,
        Shelves.set_other_shelf hne]

end Insertion

section Deletion

variable {live : Set PageId} {P : ℕ} {ref : Ref} {obj : PageObject HeapPage} {tid : TransactionId}

/-- Another page in a resident object, which the pool is told of. -/
theorem register_resident (h : Serving (backing HeapPage.rowView P) live db)
    (hl : db.pages.lookup (.heap obj.page.pid) = some ref) (hobj : db.objects[ref]? = some obj)
    (hlive : .heap obj.page.pid ∈ live) {q : HeapPage} (hpid : q.pid = obj.page.pid)
    (hgood : GoodPage HeapPage.rowView P db.files.schema q) (tid : TransactionId) :
    ∃ db', BufferPool.registerDirty tid ref (db.setObject ref { obj with page := q }) = .ok () db' ∧
      Serving (backing HeapPage.rowView P) live db' ∧ db'.files = db.files ∧
      db'.numPages = db.numPages ∧
      (db'.store (backing HeapPage.rowView P)).view (.heap q.pid) = some q.row? ∧
      ∀ j ∈ live, j ≠ .heap q.pid → (db'.store (backing HeapPage.rowView P)).view j =
        (db.store (backing HeapPage.rowView P)).view j := by
  rw [← hpid] at hl hlive
  let obj₂ : PageObject HeapPage := { page := q, dirty := some tid }
  let db₁ := db.setObject ref { obj with page := q }
  have hobj₁ : db₁.objects[ref]? = some { obj with page := q } := Database.setObject_self hobj
  -- the page is resident, so registering it evicts nothing
  have hevict : BufferPool.evictIf (db₁.numPages ≤ db₁.pages.keys.length ∧
      db₁.pages.lookup (.heap q.pid) = none) (db₁.setObject ref obj₂) =
      .ok () (db₁.setObject ref obj₂) := by
    rw [BufferPool.evictIf, if_neg]
    · rfl
    · rintro ⟨-, hnone⟩
      rw [show db₁.pages = db.pages from rfl, hl] at hnone
      cases hnone
  have hset : (db₁.setObject ref obj₂).objects = db.objects.set ref obj₂ := List.set_set ..
  have hself : (db.objects.set ref obj₂)[ref]? = some obj₂ :=
    List.getElem?_set_self (List.getElem?_eq_some_iff.mp hobj).1
  have hframe : ∀ (r : Ref) o, r ≠ ref → db.objects[r]? = some o →
      (db.objects.set ref obj₂)[r]? = some o :=
    fun r o hr ho => (List.getElem?_set_ne (Ne.symm hr)).trans ho
  obtain ⟨hserving, hview, hviews, -⟩ := BufferPool.install_spec h hself hframe
    (fun j hj => h.ref_inj hj hl) rfl rfl hgood (.inl ⟨ref, hl⟩) rfl
  rw [← hset, Set.insert_eq_of_mem hlive] at hserving
  rw [← hset] at hview hviews
  exact ⟨_, BufferPool.registerDirty_run hobj₁ hevict, hserving (h.writable _ hlive), rfl, rfl, hview,
    hviews⟩

end Deletion

/-- `HeapFile::deleteTuple` by an idealised caller, which marks the page that comes back and files it
as `BufferPool::insertTuple` does with its pages. No function of the source does this: the pool's
own `deleteTuple` calls the file's `insertTuple`, and the page of a deletion is not marked. -/
def fileDelete (tid : TransactionId) (t : Tuple) : HeapM Tuple := do
  match t.rid with
  | none => throw .nullDeref
  | some rid =>
    let db ← get
    lift (DbFile.getDatabaseFile HeapPage db.files rid.pid.getTableId)
    let (dirtypages, t) ← deleteTuple rid.pid.getTableId tid t
    dirtypages.forM (BufferPool.registerDirty tid)
    pure t

section Calls

variable {rid : RecordId} {db₁ : HeapDb} {ref : Ref} {obj : PageObject HeapPage} {f : HeapFile}

theorem deleteTuple_run (hrid : t.rid = some rid) (hget : BufferPool.getPage rid.pid db = .ok ref db₁)
    (hobj : db₁.objects[ref]? = some obj) {q : HeapPage} (hdelete : obj.page.deleteTuple t = .ok q)
    (tid : TransactionId) : deleteTuple tbl tid t db =
      .ok ([ref], t) (db₁.setObject ref { obj with page := q }) := by
  rw [deleteTuple, hrid]
  change (BufferPool.getPage rid.pid >>= _) db = _
  rw [bind_ok hget, bind_ok (deref_run hobj), bind_ok (lift_run hdelete db₁)]
  rfl

theorem deleteTuple_error (hrid : t.rid = some rid)
    (hget : BufferPool.getPage rid.pid db = .ok ref db₁) (hobj : db₁.objects[ref]? = some obj)
    {e : Fault} (hdelete : obj.page.deleteTuple t = .error e) (tid : TransactionId) :
    deleteTuple tbl tid t db = .error e db₁ := by
  rw [deleteTuple, hrid]
  change (BufferPool.getPage rid.pid >>= _) db = _
  rw [bind_ok hget, bind_ok (deref_run hobj), hdelete]
  rfl

theorem fileDelete_run (hrid : t.rid = some rid)
    (hf : db.files.file? rid.pid.getTableId = some f) {tid : TransactionId} {refs : List Ref}
    (hdelete : deleteTuple rid.pid.getTableId tid t db = .ok (refs, t) db₁)
    (hloop : refs.forM (BufferPool.registerDirty tid) db₁ = .ok () db') :
    fileDelete tid t db = .ok t db' := by
  have hfile : DbFile.getDatabaseFile HeapPage db.files rid.pid.getTableId = .ok () := by
    change (db.files.getDatabaseFile _).map (fun _ => ()) = _
    rw [getDatabaseFile_ok hf]
    rfl
  rw [fileDelete, hrid]
  change ((get : HeapM HeapDb) >>= _) db = _
  rw [bind_ok (get_run db), bind_ok (lift_run hfile db), bind_ok hdelete]
  change (refs.forM (BufferPool.registerDirty tid) >>= fun _ => pure t) db₁ = _
  rw [bind_ok hloop]
  rfl

theorem fileDelete_error (hrid : t.rid = some rid)
    (hf : db.files.file? rid.pid.getTableId = some f) {tid : TransactionId} {e : Fault}
    (hdelete : deleteTuple rid.pid.getTableId tid t db = .error e db₁) :
    fileDelete tid t db = .error e db₁ := by
  have hfile : DbFile.getDatabaseFile HeapPage db.files rid.pid.getTableId = .ok () := by
    change (db.files.getDatabaseFile _).map (fun _ => ()) = _
    rw [getDatabaseFile_ok hf]
    rfl
  rw [fileDelete, hrid]
  change ((get : HeapM HeapDb) >>= _) db = _
  rw [bind_ok (get_run db), bind_ok (lift_run hfile db), bind_error hdelete]

end Calls

/-- A deletion takes out the row of a slot that is in use, and fails at one that is not. -/
theorem fileDelete_spec (h : Ready HeapPage.rowView db) (hx : Shown db tbl x) (hn : n < x.rows.count)
    (hi : i < x.rows.width) (hrid : t.rid = some ⟨.heap (pageId tbl n), i⟩) (tid : TransactionId) :
    ((x.rows.at? n i).isSome → ∃ db', fileDelete tid t db = .ok t db' ∧
      Ready HeapPage.rowView db' ∧ db'.files.schema = db.files.schema ∧
      db'.numPages = db.numPages ∧ db'.pageSize = db.pageSize ∧ tables db' =
        Function.update (tables db) tbl (some { x with rows := x.rows.set n i none })) ∧
    ((x.rows.at? n i).isSome = false →
      ∃ db', fileDelete tid t db = .error (.runtimeError "Empty slot") db') := by
  obtain ⟨f, hf, -, -, -⟩ := schema_eq_some hx.schema
  have hlive := h.page_live hx.schema hn
  have hknown : (backing HeapPage.rowView db.pageSize).Known
      ((backing HeapPage.rowView db.pageSize).info db.files) (.heap (pageId tbl n)) :=
    h.known hx.schema n
  obtain ⟨db₁, ref, hget, h₁, hquiet, hl⟩ := BufferPool.getPage_spec h.serving h.numPages hknown
  obtain ⟨obj, hobj, -⟩ := h₁.object hl
  obtain ⟨hpid, hgood, hseen⟩ := seen_of_resident h₁ hquiet hlive hl hobj
  have hinfo : db₁.files.schema = db.files.schema := hquiet.info
  have hrow : x.rows.at? n = obj.page.row? := Option.some.inj ((hx.seen n hn).symm.trans hseen)
  have hslots := hx.numSlots (hinfo ▸ hgood) hpid
  have hlt : i < obj.page.numSlots := hslots ▸ hi
  have hused : (x.rows.at? n i).isSome = obj.page.isSlotUsed i := by
    rw [hrow, obj.page.row?_isSome hlt]
  have hdelete : obj.page.deleteTuple t = if obj.page.isSlotUsed i then .ok (obj.page.free i)
      else .error (.runtimeError "Empty slot") := by
    rw [HeapPage.deleteTuple, hrid, hpid]
    exact if_neg (not_not.mpr rfl)
  rw [hused]
  constructor
  · intro hbit
    rw [if_pos hbit] at hdelete
    have hfits : HeapPage.Fits (obj.page.free i) db.pageSize :=
      ⟨hgood.fits.slots, by simpa [TuplePage.free] using hgood.fits.header⟩
    obtain ⟨db', hregister, h', hfiles, hnum, hself, hothers⟩ :=
      register_resident h₁ (hpid ▸ hl) hobj (hpid ▸ hlive) (q := obj.page.free i) rfl
        ⟨hgood.schema, hgood.viewed, hfits⟩ tid
    have hloop : [ref].forM (BufferPool.registerDirty tid)
        (db₁.setObject ref { obj with page := obj.page.free i }) = .ok () db' := by
      change (BufferPool.registerDirty tid ref >>= fun _ => pure ()) _ = _
      rw [bind_ok hregister]
      rfl
    have hschema : db'.files.schema = db.files.schema := by rw [hfiles, hinfo]
    have hsize : db'.pageSize = db.pageSize := h'.pageSize
    have hready := h.keep h' hschema (hnum.trans hquiet.numPages)
    have hother : ∀ id, .heap id ∈ livePages db.files.schema → id ≠ obj.page.pid →
        seen HeapPage.rowView db' id = seen HeapPage.rowView db id := by
      intro id hid hne
      unfold seen
      rw [hsize]
      exact (hothers _ hid fun heq => hne (PageId.heap.inj heq)).trans (hquiet.view _ hid)
    have hshown : Shown db' tbl { x with rows := x.rows.set n i none } := by
      refine ⟨?_, hsize ▸ hx.width, fun k hk => ?_⟩
      · rw [hschema, hx.schema]
        congr 2
        exact (Nat.max_eq_left hn).symm
      · change k < max x.rows.count (n + 1) at hk
        change seen HeapPage.rowView db' (pageId tbl k) = some ((x.rows.set n i none).at? k)
        have hk' : k < x.rows.count := by omega
        have hcount := h.count_le hx.schema
        rcases eq_or_ne k n with rfl | hne
        · rw [Shelves.set_shelf hi, hrow, ← obj.page.free_row? hlt, ← hpid]
          unfold seen
          rw [hsize]
          exact hself
        · have hpage : pageId tbl k ≠ obj.page.pid := fun heq =>
            hne (pageId_inj (by omega) (by omega) (heq.trans hpid))
          rw [hother _ (h.page_live hx.schema hk') hpage, hx.seen k hk', Shelves.set_other_shelf hne]
    refine ⟨db', fileDelete_run hrid hf (deleteTuple_run hrid hget hobj hdelete tid) hloop, hready,
      hschema, hnum.trans hquiet.numPages, hsize, ?_⟩
    refine tables_update h hready hsize (fun id _ => by rw [hschema]) ?_ hshown
    exact fun id hid hne => hother id hid fun heq => hne (by rw [heq, hpid]; rfl)
  · intro hbit
    rw [if_neg (by simp [hbit])] at hdelete
    exact ⟨db₁, fileDelete_error hrid hf (deleteTuple_error hrid hget hobj hdelete tid)⟩

section Traffic

theorem tables_quiet (h : Ready HeapPage.rowView db)
    (h' : Serving (backing HeapPage.rowView db.pageSize) (livePages db.files.schema) db')
    (hquiet : Quiet (backing HeapPage.rowView db.pageSize) (livePages db.files.schema) db db') :
    tables db' = tables db := by
  have hschema : db'.files.schema = db.files.schema := hquiet.info
  have hready := h.keep h' hschema hquiet.numPages
  have hseen : ∀ id, .heap id ∈ livePages db.files.schema →
      seen HeapPage.rowView db' id = seen HeapPage.rowView db id := by
    intro id hid
    unfold seen
    rw [h'.pageSize]
    exact hquiet.view _ hid
  funext tbl
  cases hx : tables db tbl with
  | none => exact tables_eq_none.mpr ((congrFun hschema tbl).trans (tables_eq_none.mp hx))
  | some x =>
    have hshown := (shown_iff h).mp hx
    exact (shown_iff hready).mpr (hshown.untouched (congrFun hschema tbl) h'.pageSize fun n hn =>
      hseen _ (h.page_live hshown.schema hn))

theorem run_quiet (h : Ready HeapPage.rowView db) {op : PoolOp} (hlegal : op.Legal db.files.schema)
    (hop : op.added = []) : ∃ db', op.run db = .ok [] db' ∧
      Serving (backing HeapPage.rowView db.pageSize) (livePages db.files.schema) db' ∧
      Quiet (backing HeapPage.rowView db.pageSize) (livePages db.files.schema) db db' := by
  cases op with
  | insertTuple tid tableId t => cases hop
  | getPage id =>
    obtain ⟨⟨td, n⟩, hs⟩ := Option.isSome_iff_exists.mp hlegal
    have hknown : (backing HeapPage.rowView db.pageSize).Known
        ((backing HeapPage.rowView db.pageSize).info db.files) (.heap id) :=
      ⟨td, n, hs, h.covered _ _ _ hs⟩
    obtain ⟨db', ref, hrun, h', hquiet, -⟩ := BufferPool.getPage_spec h.serving h.numPages hknown
    exact ⟨db', by rw [PoolOp.run, bind_ok hrun]; rfl, h', hquiet⟩
  | flushPage id =>
    obtain ⟨db', hrun, h', hquiet, -⟩ := BufferPool.flushPage_spec h.serving (.heap id)
    exact ⟨db', by rw [PoolOp.run, bind_ok hrun]; rfl, h', hquiet⟩
  | flushPages tid =>
    obtain ⟨db', hrun, h', hquiet, -⟩ := BufferPool.flushPages_spec h.serving tid
    exact ⟨db', by rw [PoolOp.run, bind_ok hrun]; rfl, h', hquiet⟩
  | flushAllPages =>
    obtain ⟨db', hrun, h', hquiet, -⟩ := BufferPool.flushAllPages_spec h.serving
    exact ⟨db', by rw [PoolOp.run, bind_ok hrun]; rfl, h', hquiet⟩
  | evictPage =>
    obtain ⟨db', hrun, h', hquiet⟩ := evictPage_any h
    exact ⟨db', by rw [PoolOp.run, bind_ok hrun]; rfl, h', hquiet⟩

/-- Once everything is flushed, the bytes on disk decode to what a reader had before it. -/
theorem diskTables_flushed (h : Ready HeapPage.rowView db) :
    ∃ db', BufferPool.flushAllPages db = .ok () db' ∧ diskTables db' = tables db := by
  obtain ⟨db', hrun, h', hquiet, -, hclean⟩ := BufferPool.flushAllPages_spec h.serving
  have hsize : db'.pageSize = db.pageSize := h'.pageSize
  have hschema : db'.files.schema = db.files.schema := hquiet.info
  have hready := h.keep h' hschema hquiet.numPages
  refine ⟨db', hrun, funext fun tbl => ?_⟩
  rw [diskTables, tables, tablesOf, tablesOf, hschema, hsize]
  refine Option.map_congr fun e he => ?_
  obtain ⟨td, n⟩ := e
  have hpage : ∀ k < n, ∃ p q, readerPage db (pageId tbl k) = some p ∧
      (readPage db'.files db.pageSize (.heap (pageId tbl k)) db'.objects.length).toOption = some q ∧
      q.row? = p.row? := by
    intro k hk
    have hlive := h.page_live he hk
    obtain ⟨p, hp, hpid, hgood, hseen⟩ := readerPage_spec h hlive
    obtain ⟨q, hread, -, -, hcontent⟩ :=
      readPage_ok db'.pageSize db'.objects.length (hready.known (hschema ▸ he) k)
    have hview := (hquiet.view _ hlive).trans hseen
    rw [h'.coherent.view_eq_disk hlive fun c => hclean _ c, ← hsize] at hview
    exact ⟨p, q, hp, by rw [← hsize, hread]; rfl, hcontent _ hview⟩
  congr 1
  refine shelvesOf_congr fun k hk => ?_
  obtain ⟨p, q, hp, hq, hrow⟩ := hpage k hk
  rw [hp, hq, Option.map_some, Option.map_some, hrow]

end Traffic

end HeapFile

end PagedDb
