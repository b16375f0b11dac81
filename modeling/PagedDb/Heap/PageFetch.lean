import PagedDb.Heap.TableRows

/-!
# The pages of a table one after the other

A scan walks the used slots of a page and then asks the pool for the next page. The
pages that the pool hands out are those a reader sees, whatever it has to evict.
-/

namespace PagedDb

open Exec WriteBack

/-- `HeapPageIterator`. -/
structure HeapPageIterator where
  slot : ℕ
  page : Ref
  deriving DecidableEq

namespace HeapPageIterator

/-- The constructor: the first used slot from `i` on. -/
def new (i : ℕ) (page : Ref) : HeapM HeapPageIterator := do
  let obj ← deref page
  pure ⟨Slots.search obj.page.isSlotUsed (obj.page.numSlots - i) i, page⟩

/-- `operator++`. -/
def next (it : HeapPageIterator) : HeapM HeapPageIterator := do
  let obj ← deref it.page
  let slot := it.slot + 1
  pure ⟨Slots.search obj.page.isSlotUsed (obj.page.numSlots - slot) slot, it.page⟩

/-- `operator*`: `page->tuples[slot]`. -/
def get (it : HeapPageIterator) : HeapM Tuple := do
  let obj ← deref it.page
  match obj.page.tuples[it.slot]? with
  | some t => pure t
  | none => throw .outOfBounds

section Run

variable {db : HeapDb} {ref : Ref} {obj : PageObject HeapPage} {s : ℕ}

theorem new_run (hobj : db.objects[ref]? = some obj) :
    new 0 ref db = .ok ⟨Slots.search obj.page.isSlotUsed obj.page.numSlots 0, ref⟩ db := by
  rw [new, bind_ok (deref_run hobj)]
  rfl

theorem next_run (hobj : db.objects[ref]? = some obj) :
    next ⟨s, ref⟩ db = .ok ⟨Slots.search obj.page.isSlotUsed (obj.page.numSlots - (s + 1)) (s + 1),
      ref⟩ db := by
  rw [next, bind_ok (deref_run hobj)]
  rfl

theorem get_run {t : Tuple} (hobj : db.objects[ref]? = some obj)
    (ht : obj.page.tuples[s]? = some t) : get ⟨s, ref⟩ db = .ok t db := by
  rw [get, bind_ok (deref_run hobj)]
  simp [ht]

theorem get_behind (hobj : db.objects[ref]? = some obj) :
    get ⟨obj.page.numSlots, ref⟩ db = .error .outOfBounds db := by
  have hnone : obj.page.tuples[obj.page.numSlots]? = none := by
    rw [List.getElem?_eq_none_iff, obj.page.tuples_length]
  rw [get, bind_ok (deref_run hobj)]
  simp [hnone]

end Run

end HeapPageIterator

namespace HeapFile

variable {db db' : HeapDb} {tbl : Int32} {td : TupleDesc} {n k : ℕ} {ref : Ref}
  {obj : PageObject HeapPage} {γ : Type} {V : HeapPage.View γ}

/-- The pages `k, …, k + m - 1` of a table as the pool hands them out one after the other. -/
def fetchPages (tbl : Int32) : ℕ → ℕ → HeapM (List HeapPage)
  | 0, _ => pure []
  | m + 1, k => do
    let ref ← BufferPool.getPage (.heap (pageId tbl k))
    let obj ← deref ref
    let rest ← fetchPages tbl m (k + 1)
    pure (obj.page :: rest)

/-- What asking the pool for page `k` gives, and what it leaves as it was. -/
structure Fetched (V : HeapPage.View γ) (tbl : Int32) (n k : ℕ) (ref : Ref)
    (obj : PageObject HeapPage) (db db' : HeapDb) : Prop where
  ready : Ready V db'
  object : db'.objects[ref]? = some obj
  good : GoodPage V db.pageSize db.files.schema obj.page
  page : obj.page.pid = pageId tbl k
  content : seen V db (pageId tbl k) = some (V.content obj.page)
  schema : db'.files.schema = db.files.schema
  pageSize : db'.pageSize = db.pageSize
  seen : ∀ i < n, HeapFile.seen V db' (pageId tbl i) = HeapFile.seen V db (pageId tbl i)

theorem getPage_fetched (h : Ready V db) (hs : db.files.schema tbl = some (td, n)) (hk : k < n) :
    ∃ db' ref obj, BufferPool.getPage (.heap (pageId tbl k)) db = .ok ref db' ∧
      Fetched V tbl n k ref obj db db' := by
  have hknown : (backing V db.pageSize).Known ((backing V db.pageSize).info db.files)
      (.heap (pageId tbl k)) := h.known hs k
  obtain ⟨db', ref, hget, hserving, hquiet, hl⟩ :=
    BufferPool.getPage_spec h.serving h.numPages hknown
  obtain ⟨obj, hobj, hobj?, hid, hgood⟩ := hserving.object hl
  have hschema : db'.files.schema = db.files.schema := hquiet.info
  have hsize : db'.pageSize = db.pageSize := hserving.pageSize
  have hseen : ∀ i < n, HeapFile.seen V db' (pageId tbl i) = HeapFile.seen V db (pageId tbl i) := by
    intro i hi
    unfold HeapFile.seen
    rw [hsize]
    exact hquiet.view _ (h.page_live hs hi)
  refine ⟨db', ref, obj, hget, h.keep hserving hschema hquiet.numPages, hobj, ?_,
    PageId.heap.inj hid, ?_, hschema, hsize, hseen⟩
  · rw [← hschema]
    exact hgood
  · rw [← hseen k hk]
    simp only [HeapFile.seen, Store.view, Database.store, hobj?, Option.map_some]
    rfl

/-- The pages the pool hands out are the pages a reader sees at the start. -/
theorem fetchPages_spec (h : Ready V db) (hs : db.files.schema tbl = some (td, n)) (m k : ℕ)
    (hm : k + m ≤ n) :
    ∃ pages db', fetchPages tbl m k db = .ok pages db' ∧
      List.Forall₂ (fun i p => GoodPage V db.pageSize db.files.schema p ∧ p.pid = pageId tbl i ∧
        HeapFile.seen V db (pageId tbl i) = some (V.content p)) (List.range' k m) pages := by
  induction m generalizing k db with
  | zero => exact ⟨[], db, rfl, .nil⟩
  | succ m ih =>
    obtain ⟨db₁, ref, obj, hget, hf⟩ := getPage_fetched h hs (k := k) (by omega)
    obtain ⟨rest, db₂, hrest, hall⟩ := ih hf.ready (hf.schema ▸ hs) (k + 1) (by omega)
    refine ⟨obj.page :: rest, db₂, ?_, ?_⟩
    · rw [fetchPages, bind_ok hget, bind_ok (deref_run hf.object), bind_ok hrest]
      rfl
    · rw [List.range'_succ]
      refine .cons ⟨hf.good, hf.page, hf.content⟩ ?_
      have hin : ∀ i ∈ List.range' (k + 1) m, i < n := by
        intro i hi
        have := List.mem_range'_1.mp hi
        omega
      rw [hf.schema, hf.pageSize] at hall
      clear hrest
      generalize List.range' (k + 1) m = is at hall hin
      induction hall with
      | nil => exact .nil
      | cons hp hps ih' =>
        obtain ⟨hgood, hpid, hseen⟩ := hp
        refine .cons ⟨hgood, hpid, ?_⟩ (ih' fun i hi => hin i (List.mem_cons_of_mem _ hi))
        rw [← hf.seen _ (hin _ List.mem_cons_self)]
        exact hseen

theorem storedTuples_eq_search (p : HeapPage) :
    p.storedTuples = Slots.segment p.tuple? (Slots.search p.isSlotUsed p.numSlots 0) p.numSlots := by
  have hskip := @Slots.segment_search _ p.tuple? p.isSlotUsed p.numSlots 0 fun j hj =>
    (p.tuple?_isSome (by omega)).symm
  rw [Nat.zero_add] at hskip
  exact hskip

theorem search_lt_iff (p : HeapPage) :
    Slots.search p.isSlotUsed p.numSlots 0 < p.numSlots ↔ p.storedTuples ≠ [] := by
  rw [TuplePage.storedTuples_ne_nil]
  constructor
  · intro hlt
    refine ⟨_, hlt, ?_⟩
    apply Slots.search_stop
    rwa [Nat.zero_add]
  · rintro ⟨i, hi, hu⟩
    by_contra hge
    have := @Slots.search_before p.isSlotUsed p.numSlots 0 i (Nat.zero_le i) (by omega)
    rw [hu] at this
    cases this

theorem pgNo_succ (k : ℕ) : (pageId tbl k).pgNo + 1 = Int32.ofNat (k + 1) :=
  (Int32.ofNat_add k 1).symm

/-- The used slots of the pages `0, …, n - 1`, in page order and then in slot order. -/
def usedRecords (db : HeapDb) (tbl : Int32) (n : ℕ) : List RecordId :=
  (List.range n).flatMap fun i =>
    ((readerPage db (pageId tbl i)).map TuplePage.usedSlots).getD []

theorem forall₂_flatMap {α β δ : Type} {R : α → β → Prop} {xs : List α} {ys : List β}
    (h : List.Forall₂ R xs ys) {f : α → List δ} {g : β → List δ}
    (hfg : ∀ x y, x ∈ xs → R x y → f x = g y) : xs.flatMap f = ys.flatMap g := by
  induction h with
  | nil => rfl
  | cons hxy _ ih =>
    rw [List.flatMap_cons, List.flatMap_cons, hfg _ _ List.mem_cons_self hxy,
      ih fun x y hx => hfg x y (List.mem_cons_of_mem _ hx)]

theorem forall₂_all {α β : Type} {R : α → β → Prop} {xs : List α} {ys : List β}
    (h : List.Forall₂ R xs ys) {P : α → Prop} {Q : β → Prop}
    (hPQ : ∀ x y, x ∈ xs → R x y → (P x ↔ Q y)) : (∀ x ∈ xs, P x) ↔ ∀ y ∈ ys, Q y := by
  induction h with
  | nil => simp
  | cons hxy _ ih =>
    rw [List.forall_mem_cons, List.forall_mem_cons, hPQ _ _ List.mem_cons_self hxy,
      ih fun x y hx => hPQ x y (List.mem_cons_of_mem _ hx)]

theorem usedSlots_congr {P : ℕ} {p q : HeapPage} (hp : p.Fits P) (hq : q.Fits P)
    (htd : p.td = q.td) (hpid : p.pid = q.pid) (hheader : p.header = q.header) :
    p.usedSlots = q.usedSlots := by
  have hused : p.isSlotUsed = q.isSlotUsed := by
    funext i
    rw [TuplePage.isSlotUsed, TuplePage.isSlotUsed, hheader]
  rw [TuplePage.usedSlots, TuplePage.usedSlots, hused, hpid, hp.slots, hq.slots, htd]

def HasUsedSlot (db : HeapDb) (id : HeapPageId) : Prop :=
  ∃ p, readerPage db id = some p ∧ ∃ i < p.numSlots, p.isSlotUsed i = true

theorem exists_used_iff {p : HeapPage} :
    (∃ i < p.numSlots, p.isSlotUsed i = true) ↔ p.usedSlots ≠ [] := by
  rw [← TuplePage.storedTuples_ne_nil, ← not_iff_not, not_not, not_not]
  have hlen := congrArg List.length p.storedTuples_rid
  rw [List.length_map, List.length_map] at hlen
  rw [← List.length_eq_zero_iff, hlen, List.length_eq_zero_iff]

theorem fetched_page (h : Ready HeapPage.headerView db) (hs : db.files.schema tbl = some (td, n))
    {i : ℕ} (hi : i < n) {q : HeapPage}
    (hgood : GoodPage HeapPage.headerView db.pageSize db.files.schema q)
    (hpid : q.pid = pageId tbl i)
    (hseen : seen HeapPage.headerView db (pageId tbl i) = some q.header) :
    ∃ p, readerPage db (pageId tbl i) = some p ∧ p.usedSlots = q.usedSlots := by
  obtain ⟨p, hp, hppid, hpgood, hpseen⟩ := readerPage_spec h (h.page_live hs hi)
  refine ⟨p, hp, usedSlots_congr hpgood.fits hgood.fits ?_ (hppid.trans hpid.symm) ?_⟩
  · rw [hpgood.td_eq hppid hs, hgood.td_eq hpid hs]
  · exact Option.some.inj (hpseen.symm.trans hseen)

end HeapFile

end PagedDb
