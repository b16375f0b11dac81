import PagedDb.Heap.SlotMap
import PagedDb.Heap.LossyPages

/-!
# What a failed insertion leaves behind

The page refuses a tuple of another schema, and every tuple if it has no slots.
By then the search has gone through the table; where it found no page with
room, a new page has been counted that neither the pool nor the file has. And
what the search has evicted may have lost the ends of its strings.
-/

namespace PagedDb

open Memory Exec WriteBack

namespace HeapFile

variable {db db' db₁ : HeapDb} {tbl : Int32} {td : TupleDesc} {n : ℕ} {t : Tuple}

def HasRoom (db : HeapDb) (id : HeapPageId) : Prop :=
  ∃ p, readerPage db id = some p ∧ 0 < p.getNumEmptySlots

def Present (db : HeapDb) (id : HeapPageId) : Prop :=
  (db.object? (.heap id)).isSome ∨
    ∃ f, db.files.file? id.tableId = some f ∧
      id.pgNo.toInt.toNat * db.pageSize + db.pageSize ≤ f.fd.size

/-- The page that `insertTuple` finds or makes. -/
def choosePage (tableId : Int32) : HeapM Ref := do
  let db ← get
  let f ← lift (db.files.getDatabaseFile tableId)
  match ← findPage f.tableid f.numPages 0 with
  | some page => pure page
  | none => growFile tableId

/-- Both insertions throw, in the same state, and the page chosen for the tuple and the tuple with
its record id are as they were. -/
def Throws (tid : TransactionId) (tbl : Int32) (t : Tuple) (db : HeapDb) : Prop :=
  ∃ e db' ref obj, insertTuple tbl tid t db = .error e db' ∧
    BufferPool.insertTuple tid tbl t db = .error e db' ∧ choosePage tbl db = .ok ref db' ∧
    db'.objects[ref]? = some obj ∧
    HeapPage.insertCall obj.page (HeapPage.cells obj.page t) = .error e (HeapPage.cells obj.page t)

/-- The tables are as they were: the same page counts, on every page only rows that could be read
there before, and a scan of any table meets only pages that are there. -/
structure LeftAlone (db db' : HeapDb) : Prop where
  numPages : db'.files.schema = db.files.schema
  rows : ∀ id, .heap id ∈ livePages db.files.schema → ∀ rows, MayRead db' id rows →
    MayRead db id rows
  scans : ∀ tbl td n, db'.files.schema tbl = some (td, n) → ∀ k < n, ∀ pages db₁,
    fetchPages tbl k 0 db' = .ok pages db₁ → Present db₁ (pageId tbl k)

/-- Page `j` is the first one with an empty slot. -/
structure FirstRoom (db : HeapDb) (tbl : Int32) (n j : ℕ) : Prop where
  lt : j < n
  room : HasRoom db (pageId tbl j)
  full : ∀ i < j, ¬ HasRoom db (pageId tbl i)

section Reader

variable {γ : Type} {V : HeapPage.View γ}

theorem Ready.present (h : Ready V db) {id : HeapPageId}
    (hlive : .heap id ∈ livePages db.files.schema) : Present db id := by
  obtain ⟨c, hc⟩ := h.serving.coherent.view_isSome hlive
  cases hobj : db.object? (.heap id) with
  | some obj => exact .inl (by simp [hobj])
  | none =>
    right
    rw [h.serving.coherent.view_eq_disk hlive fun c => by simp [Database.store, hobj]] at hc
    change stored V db.pageSize db.files (.heap id) = some c at hc
    cases hf : db.files.file? id.tableId with
    | none => simp [stored, hf] at hc
    | some f =>
      simp only [stored, hf] at hc
      split at hc
      · rename_i hin
        exact ⟨f, rfl, hin.2⟩
      · cases hc

theorem fetchPages_ready (h : Ready V db) (hs : db.files.schema tbl = some (td, n)) (m k : ℕ)
    (hm : k + m ≤ n) {pages : List HeapPage} (hrun : fetchPages tbl m k db = .ok pages db₁) :
    Ready V db₁ ∧ db₁.files.schema = db.files.schema := by
  induction m generalizing k db pages with
  | zero =>
    cases hrun
    exact ⟨h, rfl⟩
  | succ m ih =>
    obtain ⟨db₂, ref, obj, hget, hf⟩ := getPage_fetched h hs (k := k) (by omega)
    rw [fetchPages, bind_ok hget, bind_ok (deref_run hf.object)] at hrun
    obtain ⟨rest, db₃, hrest, hend⟩ := of_bind_ok hrun
    cases hend
    obtain ⟨hready, hschema⟩ := ih hf.ready (hf.schema ▸ hs) (k + 1) (by omega) hrest
    exact ⟨hready, hschema.trans hf.schema⟩

theorem Ready.scans (h : Ready V db) (hs : db.files.schema tbl = some (td, n)) {k : ℕ}
    (hk : k < n) {pages : List HeapPage} (hrun : fetchPages tbl k 0 db = .ok pages db₁) :
    Present db₁ (pageId tbl k) := by
  obtain ⟨hready, hschema⟩ := fetchPages_ready h hs k 0 (by omega) hrun
  exact hready.present (hready.page_live (hschema ▸ hs) hk)

end Reader

theorem emptySlots_congr {P : ℕ} {p q : HeapPage} (hp : p.Fits P) (hq : q.Fits P)
    (htd : p.td = q.td) (hheader : p.header = q.header) :
    p.getNumEmptySlots = q.getNumEmptySlots := by
  have hused : p.isSlotUsed = q.isSlotUsed := by
    funext i
    rw [TuplePage.isSlotUsed, TuplePage.isSlotUsed, hheader]
  rw [TuplePage.getNumEmptySlots, TuplePage.getNumEmptySlots, hused, hp.slots, hq.slots, htd]

theorem hasRoom_iff (h : Ready HeapPage.headerView db) (hs : db.files.schema tbl = some (td, n))
    {i : ℕ} (hi : i < n) {q : HeapPage}
    (hgood : GoodPage HeapPage.headerView db.pageSize db.files.schema q)
    (hpid : q.pid = pageId tbl i)
    (hseen : seen HeapPage.headerView db (pageId tbl i) = some q.header) :
    HasRoom db (pageId tbl i) ↔ 0 < q.getNumEmptySlots := by
  obtain ⟨p, hp, hppid, hpgood, hpseen⟩ := readerPage_spec h (h.page_live hs hi)
  have hheader : p.header = q.header := Option.some.inj (hpseen.symm.trans hseen)
  have htd : p.td = q.td := by rw [hpgood.td_eq hppid hs, hgood.td_eq hpid hs]
  simp [HasRoom, hp, emptySlots_congr hpgood.fits hgood.fits htd hheader]

theorem hasRoom_congr (h : Ready HeapPage.headerView db) (h' : Ready HeapPage.headerView db')
    (hs : db.files.schema tbl = some (td, n)) (hs' : db'.files.schema tbl = some (td, n))
    (hsize : db'.pageSize = db.pageSize) {i : ℕ} (hi : i < n)
    (hseen : seen HeapPage.headerView db' (pageId tbl i) = seen HeapPage.headerView db (pageId tbl i)) :
    HasRoom db' (pageId tbl i) ↔ HasRoom db (pageId tbl i) := by
  obtain ⟨p, hp, hpid, hgood, hpseen⟩ := readerPage_spec h (h.page_live hs hi)
  obtain ⟨q, hq, hqid, hqgood, hqseen⟩ := readerPage_spec h' (h'.page_live hs' hi)
  have hheader : q.header = p.header := by
    rw [hseen, hpseen] at hqseen
    exact (Option.some.inj hqseen).symm
  have htd : q.td = p.td := by rw [hgood.td_eq hpid hs, hqgood.td_eq hqid hs']
  have hempty := emptySlots_congr (hsize ▸ hqgood.fits) hgood.fits htd hheader
  simp [HasRoom, hp, hq, hempty]

section Search

variable {k : ℕ} {ref : Ref} {obj : PageObject HeapPage}

theorem Fetched.hasRoom (hf : Fetched HeapPage.headerView tbl n k ref obj db db')
    (h : Ready HeapPage.headerView db) (hs : db.files.schema tbl = some (td, n)) (hk : k < n) :
    HasRoom db (pageId tbl k) ↔ 0 < obj.page.getNumEmptySlots :=
  hasRoom_iff h hs hk hf.good hf.page hf.content

theorem Fetched.hasRoom_after (hf : Fetched HeapPage.headerView tbl n k ref obj db db')
    (h : Ready HeapPage.headerView db) (hs : db.files.schema tbl = some (td, n)) {i : ℕ} (hi : i < n) :
    HasRoom db' (pageId tbl i) ↔ HasRoom db (pageId tbl i) :=
  hasRoom_congr h hf.ready hs (hf.schema ▸ hs) hf.pageSize hi (hf.seen i hi)

/-- The search stops at a page with room exactly if the table has one. -/
theorem findPage_outcome (h : Ready HeapPage.headerView db)
    (hs : db.files.schema tbl = some (td, n)) :
    ∃ db₁ found, findPage tbl n 0 db = .ok found db₁ ∧ db₁.files.schema = db.files.schema ∧
      Ready HeapPage.headerView db₁ ∧ db₁.pageSize = db.pageSize ∧
      (found.isSome ↔ ∃ i < n, HasRoom db (pageId tbl i)) ∧
      ∀ ref, found = some ref → ∃ obj, db₁.objects[ref]? = some obj ∧ obj.page.td = td ∧
        obj.page.Fits db.pageSize := by
  obtain ⟨db₁, found, hfind, hserving, hquiet, hfound⟩ :=
    findPage_spec h.serving h.numPages n 0 (fun j _ => h.known hs j)
      fun j hj => h.page_live hs (by omega)
  have hschema : db₁.files.schema = db.files.schema := hquiet.info
  have hready : Ready HeapPage.headerView db₁ := h.keep hserving hschema hquiet.numPages
  refine ⟨db₁, found, hfind, hschema, hready, hserving.pageSize, ?_, ?_⟩
  · cases found with
    | none =>
      simp only [Option.isSome_none, Bool.false_eq_true, false_iff, not_exists, not_and]
      intro i hi hroom
      obtain ⟨q, hgood, hpid, hview, hfull⟩ := hfound i (Nat.zero_le i) (by omega)
      have := (hasRoom_iff h hs hi hgood hpid hview).mp hroom
      omega
    | some ref =>
      obtain ⟨j, obj, -, hj, hl, hobj, hroom⟩ := hfound
      rw [Nat.zero_add] at hj
      obtain ⟨o, ho, hobj?, hoid, hgood⟩ := hserving.object hl
      obtain rfl : obj = o := Option.some.inj (hobj.symm.trans ho)
      have hview : seen HeapPage.headerView db (pageId tbl j) = some obj.page.header := by
        rw [seen, ← hquiet.view _ (h.page_live hs hj)]
        simp only [Store.view, Database.store, hobj?, Option.map_some]
        rfl
      have hgood' : GoodPage HeapPage.headerView db.pageSize db.files.schema obj.page := by
        rw [← hschema]
        exact hgood
      simp only [Option.isSome_some, true_iff]
      exact ⟨j, hj, (hasRoom_iff h hs hj hgood' (PageId.heap.inj hoid) hview).mpr hroom⟩
  · rintro ref rfl
    obtain ⟨j, obj, -, -, hl, hobj, -⟩ := hfound
    obtain ⟨o, ho, -, hoid, hgood⟩ := hserving.object hl
    obtain rfl : obj = o := Option.some.inj (hobj.symm.trans ho)
    have hgood' : GoodPage HeapPage.headerView db.pageSize db.files.schema obj.page := by
      rw [← hschema]
      exact hgood
    exact ⟨obj, hobj, hgood'.td_eq (PageId.heap.inj hoid) hs, hgood.fits⟩

theorem findPage_round {m : ℕ} (hget : BufferPool.getPage (.heap (pageId tbl k)) db = .ok ref db')
    (hobj : db'.objects[ref]? = some obj) :
    findPage tbl (m + 1) k db =
      if 0 < obj.page.getNumEmptySlots then
        (some <$> BufferPool.getPage (.heap (pageId tbl k))) db'
      else findPage tbl m (k + 1) db' := by
  rw [findPage]
  change (BufferPool.getPage (.heap (pageId tbl k)) >>= _) db = _
  rw [bind_ok hget, bind_ok (deref_run hobj)]
  split <;> rfl

theorem absent_resident {m : ℕ} (h : db.pages.lookup (.heap (pageId tbl k)) = some ref) :
    absent db tbl k (m + 1) = absent db tbl (k + 1) m := by
  rw [absent, List.range'_succ, List.countP_cons, h]
  rfl

/-- Loading page `k` takes room and leaves one page less to load. -/
theorem absent_load {m : ℕ} (hn : k + 1 + m ≤ 2147483648)
    (h : db.pages.lookup (.heap (pageId tbl k)) = none) (p : HeapPage) :
    (withPage db (pageId tbl k) p).pages.keys.length +
        absent (withPage db (pageId tbl k) p) tbl (k + 1) m =
      db.pages.keys.length + absent db tbl k (m + 1) := by
  have hkey : PageId.heap (pageId tbl k) ∉ db.pages.keys := by
    rw [← AList.mem_keys, ← AList.lookup_eq_none]
    exact h
  have hkeys : (withPage db (pageId tbl k) p).pages.keys.length = db.pages.keys.length + 1 := by
    change (db.pages.insert _ _).keys.length = _
    rw [AList.keys_insert, List.erase_of_not_mem hkey, List.length_cons]
  have hrest : absent (withPage db (pageId tbl k) p) tbl (k + 1) m = absent db tbl (k + 1) m := by
    refine List.countP_congr fun i hi => ?_
    have hi := List.mem_range'_1.mp hi
    have hne : PageId.heap (pageId tbl i) ≠ .heap (pageId tbl k) := by
      intro heq
      have := pageId_inj (by omega) (by omega) (PageId.heap.inj heq)
      omega
    change ((db.pages.insert _ _).lookup _).isNone = true ↔ _
    rw [AList.lookup_insert_ne hne]
  have hfirst : absent db tbl k (m + 1) = absent db tbl (k + 1) m + 1 := by
    rw [absent, List.range'_succ, List.countP_cons, h]
    rfl
  omega

/-- Where there is room for the pages up to `j`, the search only loads. -/
theorem findPage_room {S : HeapDb → Prop}
    (hload : ∀ id db db', S db → db.object? (.heap id) = none → Loads id db db' → S db')
    (h : Ready HeapPage.headerView db) (hs : db.files.schema tbl = some (td, n)) {j m k : ℕ}
    (hj : k + j < n) (hm : k + m = n) (hroom : HasRoom db (pageId tbl (k + j)))
    (hspace : db.pages.keys.length + absent db tbl k (j + 1) ≤ db.numPages) (hS : S db)
    {found : Option Ref} (hrun : findPage tbl m k db = .ok found db') : S db' := by
  have hn := h.count_le hs
  induction m generalizing k j db with
  | zero => omega
  | succ m ih =>
    obtain ⟨db₁, ref, obj, hget, hf⟩ := getPage_fetched h hs (k := k) (by omega)
    rw [findPage_round hget hf.object] at hrun
    -- the state after page `k` was asked for
    obtain ⟨hS₁, hl₁, hspace₁⟩ : S db₁ ∧ db₁.pages.lookup (.heap (pageId tbl k)) = some ref ∧
        db₁.pages.keys.length + absent db₁ tbl (k + 1) j ≤ db₁.numPages := by
      rcases getPage_cases h (h.page_live hs (i := k) (by omega)) with ⟨ref', hl, hget'⟩ |
        ⟨hl, -, p, hget', hloads⟩ | ⟨hl, hfull, -⟩
      · rw [hget] at hget'
        cases hget'
        rw [absent_resident hl] at hspace
        exact ⟨hS, hl, hspace⟩
      · rw [show BufferPool.getPage (.heap (pageId tbl k)) db = _ from hget' db.order] at hget
        cases hget
        refine ⟨hload _ db _ hS (Database.object?_eq_none hl) hloads, AList.lookup_insert db.pages, ?_⟩
        rw [absent_load (by omega) hl]
        exact hspace
      · exfalso
        rw [absent, List.range'_succ, List.countP_cons, hl] at hspace
        simp only [Option.isNone_none, if_true] at hspace
        omega
    split at hrun
    · have hagain := BufferPool.getPage_resident hl₁
      change EStateM.map some _ db₁ = _ at hrun
      rw [EStateM.map, hagain] at hrun
      cases hrun
      exact hS₁
    · rename_i hfull
      obtain ⟨j, rfl⟩ : ∃ j', j = j' + 1 := by
        refine Nat.exists_eq_succ_of_ne_zero fun hzero => ?_
        subst hzero
        exact hfull ((hf.hasRoom h hs (by omega)).mp hroom)
      have hs₁ : db₁.files.schema tbl = some (td, n) := hf.schema ▸ hs
      refine ih hf.ready hs₁ (k := k + 1) (j := j) (by omega) (by omega) ?_ hspace₁ hS₁ hrun
      rw [show k + 1 + j = k + (j + 1) by omega]
      exact (hf.hasRoom_after h hs (by omega)).mpr hroom

/-- A full page that every order of the map finds in the same way is passed over. -/
theorem findPage_skips (h : Ready HeapPage.headerView db) (hs : db.files.schema tbl = some (td, n))
    (hk : k < n) (hno : ¬ HasRoom db (pageId tbl k))
    (hget : ∀ order, BufferPool.getPage (.heap (pageId tbl k)) { db with order } =
      .ok ref { db₁ with order })
    (m : ℕ) (order : ℕ → ℕ) :
    findPage tbl (m + 1) k { db with order } = findPage tbl m (k + 1) { db₁ with order } := by
  have hready : Ready HeapPage.headerView { db with order } :=
    h.withLeftovers order db.files.heap db.files.stack db.files.scratch
  obtain ⟨db₂, ref', obj, hget', hf⟩ := getPage_fetched hready hs hk
  rw [hget order] at hget'
  cases hget'
  have hfull : ¬ 0 < obj.page.getNumEmptySlots := by
    rw [← hf.hasRoom hready hs hk, hasRoom_congr h hready hs hs rfl hk rfl]
    exact hno
  rw [findPage_round (hget order) hf.object, if_neg hfull]

section Evicted

variable {v : HeapPageId} {data stack : Buffer} {rows : ℕ → Option Row}

/-- In a full pool some order of the map evicts `v` for the page that is asked for. -/
theorem getPage_evicts (h : Ready HeapPage.headerView db)
    (hs : db.files.schema tbl = some (td, n)) (hk : k < n)
    (hl : db.pages.lookup (.heap (pageId tbl k)) = none)
    (hfull : db.numPages ≤ db.pages.keys.length)
    (hlive : .heap v ∈ livePages db.files.schema) (hv : .heap v ∈ db.pages.keys)
    (hrows : EvictedRows db v data stack db.files.scratch rows)
    (hheap : db.files.heap = fun _ => data) (hstack : db.files.stack = fun _ => stack) :
    ∃ order ref obj db₁,
      BufferPool.getPage (.heap (pageId tbl k)) { db with order } = .ok ref db₁ ∧
      Fetched HeapPage.headerView tbl n k ref obj { db with order } db₁ ∧
      Stuck v data stack rows db₁ := by
  obtain ⟨i, hi⟩ := List.getElem?_of_mem hv
  have hilt := (List.getElem?_eq_some_iff.mp hi).1
  -- `begin()` finds `v`
  let order : ℕ → ℕ := fun _ => i
  let db₀ : HeapDb := { db with order }
  have hready : Ready HeapPage.headerView db₀ :=
    h.withLeftovers order db.files.heap db.files.stack db.files.scratch
  obtain ⟨db₁, ref, obj, hget, hf⟩ := getPage_fetched hready hs hk
  refine ⟨order, ref, obj, db₁, hget, hf, ?_⟩
  rcases getPage_cases hready (h.page_live hs hk) with ⟨ref', hl', -⟩ | ⟨-, hroom, -⟩ |
    ⟨-, -, w, db₂, ref', db₃, hw, hevicts, hschema, -, hget', hloads⟩
  · rw [show db₀.pages.lookup _ = none from hl] at hl'
    cases hl'
  · exact absurd hroom (Nat.not_lt.mpr hfull)
  · have hvw : v = w := by
      change db.pages.keys[i % db.pages.keys.length]? = _ at hw
      rw [Nat.mod_eq_of_lt hilt, hi] at hw
      exact PageId.heap.inj (Option.some.inj hw)
    subst hvw
    rw [hget] at hget'
    cases hget'
    exact (hevicts.stuck hlive hschema hrows hheap hstack).loads hloads

/-- What is lost stays lost: the rest of the search leaves the page as the file has it. -/
theorem findPage_stuck {m : ℕ} (hm : k + m < n)
    (hget : BufferPool.getPage (.heap (pageId tbl k)) db = .ok ref db₁)
    (hf : Fetched HeapPage.headerView tbl n k ref obj db db₁)
    (hs₁ : db₁.files.schema tbl = some (td, n)) (hstuck : Stuck v data stack rows db₁)
    {found : Option Ref} (hrun : findPage tbl (m + 1) k db = .ok found db') :
    Stuck v data stack rows db' := by
  rw [findPage_round hget hf.object] at hrun
  split at hrun
  · obtain ⟨ref', db₂, hget₂, hend⟩ : ∃ ref' db₂,
        BufferPool.getPage (.heap (pageId tbl k)) db₁ = .ok ref' db₂ ∧ db₂ = db' := by
      rw [map_eq_pure_bind] at hrun
      obtain ⟨ref', db₂, hget₂, hpure⟩ := of_bind_ok hrun
      cases hpure
      exact ⟨ref', _, hget₂, rfl⟩
    subst hend
    exact getPage_keeps (fun _ _ _ hS _ hl => hS.loads hl) (fun _ _ _ hS he hsch => hS.evicts he hsch)
      hf.ready (hf.ready.page_live hs₁ (by omega)) hstuck hget₂
  · exact findPage_keeps (fun _ _ _ hS _ hl => hS.loads hl)
      (fun _ _ _ hS he hsch => hS.evicts he hsch) hf.ready hs₁ (by omega) hstuck hrun

/-- Where there is no room, some order of the map evicts a given page first. Its rows are from
then on what its bytes give. -/
theorem findPage_evicts
    (h : Ready HeapPage.headerView db) (hs : db.files.schema tbl = some (td, n)) {j m k : ℕ}
    (hj : k + j < n) (hm : k + m = n) (hfull : ∀ i < j, ¬ HasRoom db (pageId tbl (k + i)))
    (hover : db.numPages < db.pages.keys.length + absent db tbl k (j + 1))
    (hlive : .heap v ∈ livePages db.files.schema) (hv : .heap v ∈ db.pages.keys)
    (hrows : EvictedRows db v data stack db.files.scratch rows)
    (hheap : db.files.heap = fun _ => data) (hstack : db.files.stack = fun _ => stack) :
    ∃ order found db', findPage tbl m k { db with order } = .ok found db' ∧
      Stuck v data stack rows db' := by
  have hn := h.count_le hs
  induction m generalizing k j db with
  | zero => omega
  | succ m ih =>
    have hcap := h.serving.capacity
    have hk : k < n := by omega
    rcases getPage_cases h (h.page_live hs hk) with ⟨ref, hl, -⟩ | ⟨hl, hroom, p, hget, hloads⟩ |
      ⟨hl, hfullPool, -⟩
    · -- the page is in the pool, so another one has to be asked for
      rw [absent_resident hl] at hover
      obtain ⟨j, rfl⟩ : ∃ j', j = j' + 1 := by
        refine Nat.exists_eq_succ_of_ne_zero fun hzero => ?_
        subst hzero
        have hnone : absent db tbl (k + 1) 0 = 0 := rfl
        omega
      obtain ⟨order, found, db', hrun, hstuck⟩ := ih h hs (k := k + 1) (j := j) (by omega) (by omega)
        (fun i hi => by
          rw [show k + 1 + i = k + (i + 1) by omega]
          exact hfull (i + 1) (by omega)) hover hlive hv hrows hheap hstack
      refine ⟨order, found, db', ?_, hstuck⟩
      rw [findPage_skips h hs hk (hfull 0 (Nat.succ_pos j))
        (fun order => BufferPool.getPage_resident hl) m order]
      exact hrun
    · -- there is room for the page, and not for all that follow
      have hcount := absent_load (m := j) (by omega) hl p
      obtain ⟨j, rfl⟩ : ∃ j', j = j' + 1 := by
        refine Nat.exists_eq_succ_of_ne_zero fun hzero => ?_
        subst hzero
        rw [← hcount, hloads.keys, List.length_cons] at hover
        have hnone : absent (withPage db (pageId tbl k) p) tbl (k + 1) 0 = 0 := rfl
        omega
      obtain ⟨db₁, ref, obj, hget₁, hf⟩ := getPage_fetched h hs hk
      rw [show BufferPool.getPage (.heap (pageId tbl k)) db = _ from hget db.order] at hget₁
      cases hget₁
      obtain ⟨order, found, db', hrun, hstuck⟩ := ih hf.ready (hf.schema ▸ hs) (k := k + 1) (j := j)
        (by omega) (by omega) (fun i hi => by
          rw [show k + 1 + i = k + (i + 1) by omega, hf.hasRoom_after h hs (by omega)]
          exact hfull (i + 1) (by omega)) (by rw [hcount]; exact hover) hlive
        (by rw [hloads.keys]; exact List.mem_cons_of_mem _ hv)
        ((hloads.evictedRows (Database.object?_eq_none hl) v).mpr hrows) hheap hstack
      refine ⟨order, found, db', ?_, hstuck⟩
      have hgets : ∀ order, BufferPool.getPage (.heap (pageId tbl k)) { db with order } =
          .ok db.objects.length { withPage db (pageId tbl k) p with order } := hget
      rw [findPage_skips h hs hk (hfull 0 (Nat.succ_pos j)) hgets m order]
      exact hrun
    · -- the page is loaded in the place of `v`
      obtain ⟨order, ref, obj, db₁, hget, hf, hstuck⟩ :=
        getPage_evicts h hs hk hl hfullPool hlive hv hrows hheap hstack
      have hready : Ready HeapPage.headerView { db with order } :=
        h.withLeftovers order db.files.heap db.files.stack db.files.scratch
      obtain ⟨db', found, hrun, -⟩ := findPage_spec hready.serving h.numPages (m + 1) k
        (fun i _ => h.known hs i) fun i hi => h.page_live hs (by omega)
      exact ⟨order, found, db', hrun, findPage_stuck (by omega) hget hf (hf.schema ▸ hs) hstuck hrun⟩

end Evicted

end Search

theorem storeTuple_error {ref : Ref} {obj : PageObject HeapPage}
    (hobj : db.objects[ref]? = some obj)
    (hbad : ¬ ((∃ i < obj.page.numSlots, obj.page.isSlotUsed i = false) ∧ t.td = obj.page.td)) :
    ∃ e, storeTuple ref t db = .error e db ∧
      HeapPage.insertCall obj.page (HeapPage.cells obj.page t) =
        .error e (HeapPage.cells obj.page t) := by
  obtain ⟨e, herror, hcall⟩ := HeapPage.insertCall_error hbad
  refine ⟨e, ?_, hcall⟩
  rw [storeTuple, bind_ok (deref_run hobj), herror]
  rfl

theorem insertTuple_found {f : HeapFile} (hf : db.files.file? tbl = some f) {ref : Ref}
    (hfind : findPage tbl f.numPages 0 db = .ok (some ref) db₁) (tid : TransactionId) (t : Tuple) :
    insertTuple tbl tid t db = storeTuple ref t db₁ := by
  rw [insertTuple, bind_ok (get_run db), bind_ok (lift_run (getDatabaseFile_ok hf) db),
    db.files.filed tbl f hf, bind_ok hfind]

theorem insertTuple_notFound {f : HeapFile} (hf : db.files.file? tbl = some f)
    (hfind : findPage tbl f.numPages 0 db = .ok none db₁) (tid : TransactionId) (t : Tuple) :
    insertTuple tbl tid t db = (growFile tbl >>= fun page => storeTuple page t) db₁ := by
  rw [insertTuple, bind_ok (get_run db), bind_ok (lift_run (getDatabaseFile_ok hf) db),
    db.files.filed tbl f hf, bind_ok hfind]

/-- `BufferPool::insertTuple` fails with the file's call, in the same state. -/
theorem poolInsert_error {f : HeapFile} (hf : db.files.file? tbl = some f) {tid : TransactionId}
    {e : Fault} (hrun : insertTuple tbl tid t db = .error e db') :
    BufferPool.insertTuple tid tbl t db = .error e db' := by
  have hfile : DbFile.getDatabaseFile HeapPage db.files tbl = .ok () := by
    change (db.files.getDatabaseFile tbl).map (fun _ => ()) = _
    rw [getDatabaseFile_ok hf]
    rfl
  rw [BufferPool.insertTuple, bind_ok (get_run db), bind_ok (lift_run hfile db)]
  change (insertTuple tbl tid t >>= _) db = _
  rw [bind_error hrun]

theorem refuses {p : HeapPage} (hbad : t.td ≠ td ∨ HeapPage.getNumTuples db.pageSize td = 0)
    (hfits : p.Fits db.pageSize) (htd : p.td = td) :
    ¬ ((∃ i < p.numSlots, p.isSlotUsed i = false) ∧ t.td = p.td) := by
  rintro ⟨⟨i, hi, -⟩, heq⟩
  rcases hbad with hne | hnone
  · exact hne (heq.trans htd)
  · rw [hfits.slots, htd, hnone] at hi
    omega

theorem choosePage_found {f : HeapFile} (hf : db.files.file? tbl = some f) {ref : Ref}
    (hfind : findPage tbl f.numPages 0 db = .ok (some ref) db₁) :
    choosePage tbl db = .ok ref db₁ := by
  rw [choosePage, bind_ok (get_run db), bind_ok (lift_run (getDatabaseFile_ok hf) db),
    db.files.filed tbl f hf, bind_ok hfind]
  rfl

theorem choosePage_notFound {f : HeapFile} (hf : db.files.file? tbl = some f)
    (hfind : findPage tbl f.numPages 0 db = .ok none db₁) :
    choosePage tbl db = growFile tbl db₁ := by
  rw [choosePage, bind_ok (get_run db), bind_ok (lift_run (getDatabaseFile_ok hf) db),
    db.files.filed tbl f hf, bind_ok hfind]

/-- The insertion of a tuple that the table's pages refuse throws. It ends after the search if
some page has an empty slot, and otherwise after the table has got one more page. -/
theorem insertTuple_throws (h : Ready HeapPage.headerView db)
    (hs : db.files.schema tbl = some (td, n))
    (hbad : t.td ≠ td ∨ HeapPage.getNumTuples db.pageSize td = 0) (tid : TransactionId) :
    Throws tid tbl t db ∧
      ((∃ i < n, HasRoom db (pageId tbl i)) → ∃ found, Ready HeapPage.headerView
        (stateOf (insertTuple tbl tid t db)) ∧
        findPage tbl n 0 db = .ok found (stateOf (insertTuple tbl tid t db)) ∧
        (stateOf (insertTuple tbl tid t db)).files.schema = db.files.schema) ∧
      ((¬ ∃ i < n, HasRoom db (pageId tbl i)) →
        (stateOf (insertTuple tbl tid t db)).files.schema tbl = some (td, n + 1)) := by
  obtain ⟨f, hf, hid, rfl, rfl⟩ := schema_eq_some hs
  obtain ⟨db₁, found, hfind, hschema₁, h₁, hsize, hroom, hobject⟩ := findPage_outcome h hs
  cases found with
  | some ref =>
    obtain ⟨obj, hobj, htd, hfits⟩ := hobject ref rfl
    obtain ⟨e, hstore, hcall⟩ := storeTuple_error hobj (refuses hbad hfits htd)
    have hrun : insertTuple tbl tid t db = .error e db₁ := by
      rw [insertTuple_found hf hfind, hstore]
    refine ⟨⟨e, db₁, ref, obj, hrun, poolInsert_error hf hrun, choosePage_found hf hfind, hobj, hcall⟩,
      ?_, fun hnone => absurd (hroom.mp rfl) hnone⟩
    rw [hrun]
    exact fun _ => ⟨_, h₁, hfind, hschema₁⟩
  | none =>
    have hs₁ : db₁.files.schema tbl = some (f.td, f.numPages) := by rw [hschema₁, hs]
    obtain ⟨f₁, hf₁, -, htd₁, hn₁⟩ := schema_eq_some hs₁
    obtain ⟨db₂, p, hgrow, hobj, -, -, htd, hgood, -, -, hschema, -⟩ :=
      growFile_spec h₁.serving hf₁ trivial
    obtain ⟨e, hstore, hcall⟩ := storeTuple_error hobj
      (refuses hbad (hsize ▸ hgood.fits) (htd.trans htd₁))
    have hrun : insertTuple tbl tid t db = .error e db₂ := by
      rw [insertTuple_notFound hf hfind, bind_ok hgrow, hstore]
    refine ⟨⟨e, db₂, _, _, hrun, poolInsert_error hf hrun, ?_, hobj, hcall⟩, fun hsome => ?_, fun _ => ?_⟩
    · rw [choosePage_notFound hf hfind]
      exact hgrow
    · cases hroom.mpr hsome
    · -- the new page counts, although it was not stored
      rw [hrun]
      change db₂.files.schema tbl = _
      rw [hschema, Function.update_self, htd₁, hn₁]

/-- The search for a page with room, where nothing is evicted or what may be evicted survives, shows
no rows that could not be read before. -/
theorem findPage_shows (h : Ready HeapPage.headerView db) (hs : db.files.schema tbl = some (td, n))
    {j : ℕ} (hj : FirstRoom db tbl n j)
    (hsafe : db.pages.keys.length + absent db tbl 0 (j + 1) ≤ db.numPages ∨
      ∀ id, .heap id ∈ livePages db.files.schema → Survives db id)
    {found : Option Ref} (hrun : findPage tbl n 0 db = .ok found db₁) :
    ∀ id, .heap id ∈ livePages db.files.schema → ∀ rows, MayRead db₁ id rows →
      MayRead db id rows := by
  rcases hsafe with hspace | hsurvive
  · let S : HeapDb → Prop := fun d => ∀ id, .heap id ∈ livePages db.files.schema → ∀ rows,
      MayRead d id rows → MayRead db id rows
    refine findPage_room (S := S) (j := j) (k := 0) ?_ h hs (by have := hj.lt; omega) (Nat.zero_add n)
      (by rw [Nat.zero_add]; exact hj.room) hspace (fun _ _ _ hrows => hrows) hrun
    exact fun _ _ _ hS habsent hloads id hlive rows hrows =>
      hS id hlive rows (hloads.mayRead habsent hrows)
  · have hshows := findPage_keeps (S := Shows db) (fun _ _ _ hS habsent hl => hS.loads hl habsent)
      (fun _ _ _ hS he hschema => hS.evicts he hschema) h hs (k := 0) (by omega) (.refl hsurvive) hrun
    exact hshows.mayRead

/-- An insertion of a tuple that the table's pages refuse throws, in the file and in the pool, and
neither the page nor the tuple is changed. It leaves the tables alone, whatever order the map has
and whatever the memory holds, exactly if some page of the table has an empty slot and either the
pool has room for the pages up to the first such one or every page survives its eviction. -/
theorem failedInsert_leavesAlone_iff (h : Ready HeapPage.headerView db)
    (hs : db.files.schema tbl = some (td, n))
    (hbad : t.td ≠ td ∨ HeapPage.getNumTuples db.pageSize td = 0) (tid : TransactionId) :
    (∀ order heap stack scratch, Throws tid tbl t (withLeftovers db order heap stack scratch)) ∧
      ((∀ order heap stack scratch, LeftAlone (withLeftovers db order heap stack scratch)
          (stateOf (insertTuple tbl tid t (withLeftovers db order heap stack scratch)))) ↔
        ∃ j, FirstRoom db tbl n j ∧
          (db.pages.keys.length + absent db tbl 0 (j + 1) ≤ db.numPages ∨
            ∀ id, .heap id ∈ livePages db.files.schema → Survives db id)) := by
  have hready := fun order heap stack scratch => h.withLeftovers order heap stack scratch
  have hthrows := fun order heap stack scratch =>
    insertTuple_throws (hready order heap stack scratch) hs hbad tid
  have hroom : ∀ {order heap stack scratch i}, i < n →
      (HasRoom (withLeftovers db order heap stack scratch) (pageId tbl i) ↔
        HasRoom db (pageId tbl i)) := by
    intro order heap stack scratch i hi
    exact hasRoom_congr h (hready order heap stack scratch) hs hs rfl hi rfl
  refine ⟨fun order heap stack scratch => (hthrows order heap stack scratch).1, fun halone => ?_, ?_⟩
  · -- a page with room, or the table has grown
    have hsome : ∃ i < n, HasRoom db (pageId tbl i) := by
      by_contra hnone
      have hleft := halone db.order db.files.heap db.files.stack db.files.scratch
      have hgrown := (hthrows db.order db.files.heap db.files.stack db.files.scratch).2.2 hnone
      rw [hleft.numPages] at hgrown
      have := (Option.some.inj (hs.symm.trans hgrown))
      simp at this
    classical
    let j := Nat.find hsome
    obtain ⟨hj, hjroom⟩ := Nat.find_spec hsome
    have hfirst : FirstRoom db tbl n j := by
      refine ⟨hj, hjroom, fun i hi hroom => Nat.find_min hsome hi ⟨?_, hroom⟩⟩
      exact Nat.lt_trans hi hj
    refine ⟨j, hfirst, ?_⟩
    by_contra hnot
    rw [not_or, Nat.not_le] at hnot
    obtain ⟨hover, hlost⟩ := hnot
    push Not at hlost
    obtain ⟨v, hlive, hlost⟩ := hlost
    unfold Survives at hlost
    push Not at hlost
    obtain ⟨data, stack, fresh, rows, hrows, hnew⟩ := hlost
    have hv : PageId.heap v ∈ db.pages.keys := by
      rw [← AList.mem_keys, ← AList.lookup_isSome]
      cases hl : db.pages.lookup (.heap v) with
      | some ref => rfl
      | none =>
        exact absurd (survives_absent (Database.object?_eq_none hl) data stack fresh rows hrows) hnew
    obtain ⟨order, found, db', hrun, hstuck⟩ := findPage_evicts (j := j) (k := 0)
      (hready db.order (fun _ => data) (fun _ => stack) fresh) hs (by omega) (Nat.zero_add n)
      (fun i hi => by
        rw [Nat.zero_add, hroom (Nat.lt_trans hi hj)]
        exact hfirst.full i hi) hover hlive hv hrows rfl rfl
    have hleft := halone order (fun _ => data) (fun _ => stack) fresh
    obtain ⟨found', -, hrun', -⟩ := (hthrows order (fun _ => data) (fun _ => stack) fresh).2.1
      ⟨j, hj, (hroom hj).mpr hjroom⟩
    obtain ⟨-, hstate⟩ := EStateM.Result.ok.inj (hrun.symm.trans hrun')
    exact hnew (hleft.rows v hlive rows (hstate ▸ hstuck.mayRead))
  · rintro ⟨j, hj, hsafe⟩ order heap stack scratch
    obtain ⟨found, hready', hrun, hschema⟩ := (hthrows order heap stack scratch).2.1
      ⟨j, hj.lt, (hroom hj.lt).mpr hj.room⟩
    have hj' : FirstRoom (withLeftovers db order heap stack scratch) tbl n j :=
      ⟨hj.lt, (hroom hj.lt).mpr hj.room, fun i hi hr =>
        hj.full i hi ((hroom (Nat.lt_trans hi hj.lt)).mp hr)⟩
    exact ⟨hschema, findPage_shows (hready order heap stack scratch) hs hj' hsafe hrun,
      fun _ _ _ hs' _ hk _ _ hfetch => hready'.scans hs' hk hfetch⟩

/-- The bytes of two pages of two slots each; the first one is full. -/
def fullThenFreeByte (j : ℕ) : UInt8 :=
  if j = 0 then 3 else if j = 1 then 5 else if j = 5 then 6 else
    if j = 9 then 1 else if j = 10 then 7 else 0

theorem fullThenFreeByte_behind (j : ℕ) (hj : 18 ≤ j) : fullThenFreeByte j = 0 := by
  rw [fullThenFreeByte, if_neg (by omega), if_neg (by omega), if_neg (by omega), if_neg (by omega),
    if_neg (by omega)]

def fullThenFree : File := ⟨18, fullThenFreeByte, fullThenFreeByte_behind⟩

/-- The table refuses a tuple without columns and stays as it is, although the pool of one page has
to evict the first page for the second one. -/
theorem failedInsert_leavesAlone_fullThenFree :
    Throws ⟨1⟩ 7 .empty (openTable 9 1 7 oneInt fullThenFree) ∧
      LeftAlone (openTable 9 1 7 oneInt fullThenFree)
        (stateOf (insertTuple 7 ⟨1⟩ .empty (openTable 9 1 7 oneInt fullThenFree))) := by
  have hready : ∀ {γ : Type} {V : HeapPage.View γ}, V.Schema oneInt →
      Ready V (openTable 9 1 7 oneInt fullThenFree) := fun hV =>
    openTable_ready (by decide) (by decide) hV (by decide)
  have hs : (openTable 9 1 7 oneInt fullThenFree).files.schema 7 = some (oneInt, 2) := rfl
  have hbad : Tuple.empty.td ≠ oneInt := by decide
  obtain ⟨hthrows, hiff⟩ :=
    failedInsert_leavesAlone_iff (@hready _ HeapPage.headerView trivial) hs (.inl hbad) ⟨1⟩
  refine ⟨hthrows (fun _ => 0) (fun _ _ => 0) (fun _ _ => 0) fun _ => 0,
    hiff.mpr ⟨1, ⟨Nat.one_lt_two, ⟨_, rfl, by decide⟩, ?_⟩, .inr fun id hlive => ?_⟩
      (fun _ => 0) (fun _ _ => 0) (fun _ _ => 0) fun _ => 0⟩
  · rintro i hi ⟨p, hp, hempty⟩
    obtain rfl : i = 0 := by omega
    obtain rfl := Option.some.inj hp
    revert hempty
    decide
  · have hint : oneInt.IntOnly := by decide
    exact survives_of_intOnly (hready hint) hlive

/-- An empty table that refuses a tuple counts a page that is nowhere. -/
theorem failedInsert_counts_page : ¬ ∀ (db : HeapDb) (tbl : Int32) (td : TupleDesc) (n : ℕ)
    (t : Tuple) (tid : TransactionId), Ready HeapPage.headerView db →
    db.files.schema tbl = some (td, n) → t.td ≠ td →
    LeftAlone db (stateOf (BufferPool.insertTuple tid tbl t db)) := by
  intro hclaim
  have hready : Ready HeapPage.headerView (openTable 9 1 7 oneInt File.empty) :=
    openTable_ready (by decide) (by decide) trivial (by decide)
  have hleft := hclaim _ 7 oneInt 0 .empty ⟨1⟩ hready rfl (by decide)
  exact absurd (congrFun hleft.numPages 7) (by decide)

end HeapFile

end PagedDb
