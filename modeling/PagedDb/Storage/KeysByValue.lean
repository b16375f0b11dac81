import PagedDb.Foundation.StaleKeys
import PagedDb.Storage.KeyedPool

/-!
# The pool with its pages filed by value

A pool that files its pages by the values of their ids is simpler than one that
keeps pointers to ids, and as long as no dangling key is read it does the same.
What a request reads is known beforehand from the marks of the entries: the id of
the page, and whether the key dangles.
-/

namespace PagedDb

open Exec StaleKeys

section Lists

variable {α β : Type} [DecidableEq α]

theorem dedupKeys_eq_self {l : List (Sigma fun _ : α => β)} (h : l.NodupKeys) : l.dedupKeys = l := by
  induction l with
  | nil => rfl
  | cons s l ih =>
    obtain ⟨hs, hl⟩ := List.nodupKeys_cons.mp h
    rw [List.dedupKeys_cons, ih hl, List.kinsert_def, List.kerase_of_notMem_keys hs]

theorem kerase_eq_eraseIdx {l : List (Sigma fun _ : α => β)} (h : l.NodupKeys) {i : ℕ}
    {s : Sigma fun _ : α => β} (hs : l[i]? = some s) : l.kerase s.1 = l.eraseIdx i := by
  induction l generalizing i with
  | nil => cases hs
  | cons t l ih =>
    obtain ⟨ht, hl⟩ := List.nodupKeys_cons.mp h
    cases i with
    | zero =>
      cases hs
      rw [List.kerase_cons_eq rfl]
      rfl
    | succ i =>
      have hne : s.1 ≠ t.1 := by
        intro heq
        exact ht (heq ▸ List.mem_keys_of_mem (List.mem_of_getElem? hs))
      rw [List.kerase_cons_ne hne, ih hl hs]
      rfl

end Lists

variable {π δ : Type} [PageFile π δ] {db db' : KeyedDb π δ} {d d' : Database π δ} {key : Key}
  {pid : PageId} {ref : Ref} {i : ℕ}

/-- `d` is the database with the pages filed by value. -/
structure ByValue (db : KeyedDb π δ) (d : Database π δ) : Prop where
  objects : d.objects = db.objects
  pageSize : d.pageSize = db.pageSize
  numPages : d.numPages = db.numPages
  order : d.order = db.order
  files : d.files = db.files
  entries : d.pages.entries.map (fun s => (some s.1, s.2)) =
    db.entries.map fun e => (db.idAt (.page e.page), e.page)

/-- The database with the pages filed by value. -/
def KeyedDb.byValue (db : KeyedDb π δ) : Database π δ where
  objects := db.objects
  pageSize := db.pageSize
  numPages := db.numPages
  pages := (db.entries.filterMap fun e => (db.idAt (.page e.page)).map (Sigma.mk · e.page)).toAList
  order := db.order
  files := db.files

def idCode (pid : Option PageId) : UInt64 := (pid.map PageId.hash).getD 0

/-- The entries as the ids of their pages, each with a flag that is set if its key dangles. -/
def KeyedDb.marks (db : KeyedDb π δ) : List (Option PageId × Bool) :=
  db.entries.map fun e => (db.idAt (.page e.page), (db.idAt e.key).isNone)

theorem KeyedDb.idAt_congr (hcells : db'.cells = db.cells) (hobjects : db'.objects = db.objects) :
    db'.idAt = db.idAt := by
  funext key
  cases key with
  | cell c => rw [KeyedDb.idAt, KeyedDb.idAt, hcells]
  | page ref => rw [KeyedDb.idAt, KeyedDb.idAt, hobjects]

theorem Kept.byValue (h : Kept db) : ByValue db db.byValue := by
  refine ⟨rfl, rfl, rfl, rfl, rfl, ?_⟩
  let entries : List (Sigma fun _ : PageId => Ref) :=
    db.entries.filterMap fun e => (db.idAt (.page e.page)).map (Sigma.mk · e.page)
  have hmap : ∀ es : List Entry, (∀ e ∈ es, ∃ pid, db.idAt (.page e.page) = some pid) →
      (es.filterMap fun e => (db.idAt (.page e.page)).map
        (Sigma.mk (β := fun _ : PageId => Ref) · e.page)).map (fun s => (some s.1, s.2)) =
      es.map fun e => (db.idAt (.page e.page), e.page) := by
    intro es hes
    induction es with
    | nil => rfl
    | cons e es ih =>
      obtain ⟨pid, hpid⟩ := hes e List.mem_cons_self
      rw [List.filterMap_cons_some (b := ⟨pid, e.page⟩) (by rw [hpid]; rfl), List.map_cons,
        List.map_cons, ih fun e' he' => hes e' (List.mem_cons_of_mem _ he'), hpid]
  have hentries := hmap db.entries fun e he => by
    obtain ⟨pid, hpid, -⟩ := h.keyed e he
    exact ⟨pid, hpid⟩
  have hnodup : entries.NodupKeys := by
    have hfst := congrArg (List.map Prod.fst) hentries
    rw [List.map_map, List.map_map] at hfst
    have hdistinct := h.distinct
    change (db.entries.map (Prod.fst ∘ fun e => (db.idAt (.page e.page), e.page))).Nodup at hdistinct
    rw [← hfst] at hdistinct
    exact (List.Nodup.of_map some) (by rw [List.keys, List.map_map]; exact hdistinct)
  change (List.toAList entries).entries.map _ = _
  rw [AList.entries_toAList, dedupKeys_eq_self hnodup]
  exact hentries

namespace ByValue

theorem length_eq (h : ByValue db d) : d.pages.keys.length = db.entries.length := by
  have hlength := congrArg List.length h.entries
  rw [List.length_map, List.length_map] at hlength
  rw [← hlength]
  exact List.length_map ..

theorem lookup_iff (h : ByValue db d) :
    d.pages.lookup pid = some ref ↔ ∃ e ∈ db.entries, db.idAt (.page e.page) = some pid ∧
      e.page = ref := by
  have hmem : ⟨pid, ref⟩ ∈ d.pages.entries ↔
      (some pid, ref) ∈ d.pages.entries.map fun s => (some s.1, s.2) := by
    constructor
    · exact fun hs => List.mem_map.mpr ⟨_, hs, rfl⟩
    · intro hs
      obtain ⟨⟨pid', ref'⟩, hs', heq⟩ := List.mem_map.mp hs
      cases heq
      exact hs'
  rw [← Option.mem_def, AList.mem_lookup_iff, hmem, h.entries, List.mem_map]
  simp only [Prod.mk.injEq]

theorem lookup_eq_none (h : ByValue db d) :
    d.pages.lookup pid = none ↔ ∀ e ∈ db.entries, db.idAt (.page e.page) ≠ some pid := by
  constructor
  · intro hnone e he hid
    rw [h.lookup_iff.mpr ⟨e, he, hid, rfl⟩] at hnone
    cases hnone
  · intro hall
    cases hl : d.pages.lookup pid with
    | none => rfl
    | some ref =>
      obtain ⟨e, he, hid, -⟩ := h.lookup_iff.mp hl
      exact absurd hid (hall e he)

theorem entry_at (h : ByValue db d) {e : Entry} (he : db.entries[i]? = some e)
    (hid : db.idAt (.page e.page) = some pid) : d.pages.entries[i]? = some ⟨pid, e.page⟩ := by
  have hi := congrArg (fun l => l[i]?) h.entries
  simp only [List.getElem?_map, he, Option.map_some, hid] at hi
  obtain ⟨⟨pid', ref'⟩, hs, heq⟩ := Option.map_eq_some_iff.mp hi
  cases heq
  exact hs

theorem find?_eq (h : Kept db) (hv : ByValue db d) (hread : ¬ db.Dangles pid) :
    (db.find? pid).map Entry.page = d.pages.lookup pid := by
  cases hl : d.pages.lookup pid with
  | some ref =>
    obtain ⟨e, he, hid, rfl⟩ := hv.lookup_iff.mp hl
    rw [h.find_entry hread he hid]
    rfl
  | none =>
    cases hfind : db.find? pid with
    | none => rfl
    | some e =>
      have he := List.mem_of_find?_eq_some hfind
      have hid := (h.matches_iff hread he).mp (List.find?_some hfind)
      exact absurd hid (hv.lookup_eq_none.mp hl e he)

end ByValue

namespace Kept

theorem readable_iff (h : Kept db) : Readable idCode db.marks (some pid) ↔ ¬ db.Dangles pid := by
  constructor
  · rintro hread ⟨e, he, hcode, hnone⟩
    obtain ⟨q, hpage, hcode', -⟩ := h.keyed e he
    refine hread _ (List.mem_map.mpr ⟨e, he, rfl⟩) (by rw [hnone]; rfl) ?_
    rw [hpage]
    exact hcode'.symm.trans hcode
  · intro hread m hm hstale heq
    obtain ⟨e, he, rfl⟩ := List.mem_map.mp hm
    obtain ⟨q, hpage, hcode, -⟩ := h.keyed e he
    rw [hpage] at heq
    exact hread ⟨e, he, hcode.trans heq, Option.isNone_iff_eq_none.mp hstale⟩

theorem resident_iff (hv : ByValue db d) :
    Resident db.marks (some pid) ↔ (d.pages.lookup pid).isSome := by
  rw [Resident, KeyedDb.marks, List.map_map, List.mem_map, Option.isSome_iff_exists]
  simp only [hv.lookup_iff]
  constructor
  · rintro ⟨e, he, hid⟩
    exact ⟨e.page, e, he, hid, rfl⟩
  · rintro ⟨ref, e, he, hid, -⟩
    exact ⟨e, he, hid⟩

theorem nodup_marks (h : Kept db) : (db.marks.map Prod.fst).Nodup := by
  rw [KeyedDb.marks, List.map_map]
  exact h.distinct

theorem marks_length (db : KeyedDb π δ) : db.marks.length = db.entries.length := List.length_map ..

/-- Nothing changed that the keys or the entries show. -/
structure SameKeys (db db' : KeyedDb π δ) : Prop where
  ids : db'.idAt = db.idAt
  cells : db'.cells = db.cells
  objects : db'.objects.length = db.objects.length
  numPages : db'.numPages = db.numPages

theorem of_entries (h : Kept db) (hsame : SameKeys db db')
    (hentries : db'.entries.Sublist db.entries) : Kept db' where
  keyed := by
    intro e he
    rw [hsame.ids]
    exact h.keyed e (hentries.subset he)
  distinct := by
    rw [hsame.ids]
    exact h.distinct.sublist (hentries.map _)
  inside := by
    intro e he
    have hin := h.inside e (hentries.subset he)
    cases hk : e.key with
    | cell c =>
      rw [hk] at hin
      change c < db'.cells.length
      rwa [hsame.cells]
    | page ref =>
      rw [hk] at hin
      change ref < db'.objects.length
      rwa [hsame.objects]

/-- Ids are made, or changed where no key points at them, or end. -/
theorem of_cells (h : Kept db) {cells : List (Option PageId)}
    (hlen : db.cells.length ≤ cells.length) (hkeys : ∀ e ∈ db.entries, ∀ c, e.key = .cell c →
      cells[c]?.join = db.cells[c]?.join ∨ cells[c]?.join = none) : Kept { db with cells } where
  keyed := by
    intro e he
    obtain ⟨pid, hpage, hcode, hkey⟩ := h.keyed e he
    refine ⟨pid, hpage, hcode, ?_⟩
    cases hk : e.key with
    | page ref => rwa [hk] at hkey
    | cell c =>
      rw [hk] at hkey
      rcases hkeys e he c hk with hsame | hnone
      · change cells[c]?.join = _ ∨ cells[c]?.join = _
        rw [hsame]
        exact hkey
      · exact .inr hnone
  distinct := h.distinct
  inside := by
    intro e he
    have hin := h.inside e he
    cases hk : e.key with
    | page ref => rwa [hk] at hin
    | cell c =>
      rw [hk] at hin
      exact Nat.lt_of_lt_of_le hin hlen

end Kept

theorem ByValue.of_cells (hv : ByValue db d) (cells : List (Option PageId)) :
    ByValue { db with cells } d :=
  ⟨hv.objects, hv.pageSize, hv.numPages, hv.order, hv.files, hv.entries⟩

theorem KeyedDb.marks_of_cells {cells : List (Option PageId)} (hkeys : ∀ e ∈ db.entries, ∀ c,
    e.key = .cell c → cells[c]?.join = db.cells[c]?.join) :
    { db with cells }.marks = db.marks := by
  refine List.map_congr_left fun e he => ?_
  cases hk : e.key with
  | page ref => rfl
  | cell c =>
    change (_, cells[c]?.join.isNone) = (_, db.cells[c]?.join.isNone)
    rw [hkeys e he c hk]
    rfl

section NewCell

theorem Kept.newCell_join (h : Kept db) (pid : PageId) {e : Entry} (he : e ∈ db.entries) {c : ℕ}
    (hkey : e.key = .cell c) : (db.cells ++ [some pid])[c]?.join = db.cells[c]?.join := by
  have hin := h.inside e he
  rw [hkey] at hin
  rw [List.getElem?_append_left hin]

theorem Kept.newCell (h : Kept db) (pid : PageId) :
    Kept { db with cells := db.cells ++ [some pid] } :=
  h.of_cells (by simp) fun _ he _ hkey => .inl (h.newCell_join pid he hkey)

theorem Kept.marks_newCell (h : Kept db) (pid : PageId) :
    { db with cells := db.cells ++ [some pid] }.marks = db.marks :=
  KeyedDb.marks_of_cells fun _ he _ hkey => h.newCell_join pid he hkey

theorem KeyedDb.idAt_newCell (db : KeyedDb π δ) (pid : PageId) :
    { db with cells := db.cells ++ [some pid] }.idAt (.cell db.cells.length) = some pid := by
  change (db.cells ++ [some pid])[db.cells.length]?.join = _
  rw [List.getElem?_concat_length]
  rfl

theorem Kept.older (h : Kept db) {e : Entry} (he : e ∈ db.entries) :
    e.key ≠ .cell db.cells.length := by
  intro hkey
  have hin := h.inside e he
  rw [hkey] at hin
  exact lt_irrefl _ hin

end NewCell

section NewObject

theorem KeyedDb.idAt_newObject (db : KeyedDb π δ) (obj : PageObject π) :
    { db with objects := db.objects ++ [obj] }.idAt (.page db.objects.length) =
      some (PageFile.getId δ obj.page) := by
  change (db.objects ++ [obj])[db.objects.length]?.map _ = _
  rw [List.getElem?_concat_length]
  rfl

theorem KeyedDb.Inside.newObject (hin : db.Inside key) (obj : PageObject π) :
    { db with objects := db.objects ++ [obj] }.idAt key = db.idAt key := by
  cases key with
  | cell c => rfl
  | page r =>
    change (db.objects ++ [obj])[r]?.map _ = db.objects[r]?.map _
    rw [List.getElem?_append_left hin]

theorem Kept.newObject_idAt (h : Kept db) (obj : PageObject π) {e : Entry} (he : e ∈ db.entries) :
    { db with objects := db.objects ++ [obj] }.idAt (.page e.page) = db.idAt (.page e.page) ∧
      { db with objects := db.objects ++ [obj] }.idAt e.key = db.idAt e.key := by
  obtain ⟨pid, hpage, -⟩ := h.keyed e he
  exact ⟨(KeyedDb.inside_of_idAt hpage).newObject obj, (h.inside e he).newObject obj⟩

theorem Kept.newObject (h : Kept db) (obj : PageObject π) :
    Kept { db with objects := db.objects ++ [obj] } where
  keyed := by
    intro e he
    rw [(h.newObject_idAt obj he).1, (h.newObject_idAt obj he).2]
    exact h.keyed e he
  distinct := by
    rw [List.map_congr_left fun e he => (h.newObject_idAt obj he).1]
    exact h.distinct
  inside := by
    intro e he
    have hin := h.inside e he
    cases hk : e.key with
    | cell c =>
      rw [hk] at hin
      exact hin
    | page r =>
      rw [hk] at hin
      exact Nat.lt_of_lt_of_le hin (List.prefix_append _ _).length_le

theorem Kept.marks_newObject (h : Kept db) (obj : PageObject π) :
    { db with objects := db.objects ++ [obj] }.marks = db.marks :=
  List.map_congr_left fun e he => by rw [(h.newObject_idAt obj he).1, (h.newObject_idAt obj he).2]

theorem Kept.dangles_newObject (h : Kept db) (obj : PageObject π) :
    { db with objects := db.objects ++ [obj] }.Dangles pid ↔ db.Dangles pid := by
  refine exists_congr fun e => and_congr_right fun he => and_congr_right fun _ => ?_
  rw [(h.newObject_idAt obj he).2]

theorem ByValue.newObject (h : Kept db) (hv : ByValue db d) (obj : PageObject π) :
    ByValue { db with objects := db.objects ++ [obj] } { d with objects := db.objects ++ [obj] } := by
  refine ⟨rfl, hv.pageSize, hv.numPages, hv.order, hv.files, hv.entries.trans ?_⟩
  exact List.map_congr_left fun e he => by rw [(h.newObject_idAt obj he).1]

end NewObject

section NewEntry

theorem KeyedDb.idAt_newEntry (db : KeyedDb π δ) (e : Entry) :
    { db with entries := e :: db.entries }.idAt = db.idAt :=
  KeyedDb.idAt_congr rfl rfl

theorem KeyedDb.marks_newEntry (hkey : db.idAt key = some pid)
    (hpage : db.idAt (.page ref) = some pid) :
    { db with entries := ⟨key, pid.hash, ref⟩ :: db.entries }.marks = (some pid, false) :: db.marks := by
  rw [KeyedDb.marks, List.map_cons, db.idAt_newEntry, hpage, hkey]
  rfl

theorem Kept.newEntry (h : Kept db) (hkey : db.idAt key = some pid)
    (hpage : db.idAt (.page ref) = some pid)
    (hnew : ∀ e ∈ db.entries, db.idAt (.page e.page) ≠ some pid) :
    Kept { db with entries := ⟨key, pid.hash, ref⟩ :: db.entries } where
  keyed := by
    intro e he
    rw [db.idAt_newEntry]
    rcases List.mem_cons.mp he with rfl | he
    · exact ⟨pid, hpage, rfl, .inl hkey⟩
    · exact h.keyed e he
  distinct := by
    rw [db.idAt_newEntry, List.map_cons, hpage, List.nodup_cons]
    refine ⟨fun hmem => ?_, h.distinct⟩
    obtain ⟨e, he, hid⟩ := List.mem_map.mp hmem
    exact hnew e he hid
  inside := by
    intro e he
    rcases List.mem_cons.mp he with rfl | he
    · exact KeyedDb.inside_of_idAt hkey
    · exact h.inside e he

theorem ByValue.newEntry (hv : ByValue db d) (hpage : db.idAt (.page ref) = some pid)
    (hnew : d.pages.lookup pid = none) :
    ByValue { db with entries := ⟨key, pid.hash, ref⟩ :: db.entries }
      { d with pages := d.pages.insert pid ref } := by
  refine ⟨hv.objects, hv.pageSize, hv.numPages, hv.order, hv.files, ?_⟩
  have hentries : (d.pages.insert pid ref).entries = ⟨pid, ref⟩ :: d.pages.entries :=
    AList.entries_insert_of_notMem (AList.lookup_eq_none.mp hnew)
  rw [hentries, db.idAt_newEntry, List.map_cons, hv.entries, List.map_cons, hpage]

end NewEntry

open Kept (SameKeys)

namespace KeyedPool

omit [PageFile π δ] in
theorem of_deref_ok {d d' : Database π δ} {obj : PageObject π} (h : deref ref d = .ok obj d') :
    d.objects[ref]? = some obj ∧ d' = d := by
  unfold deref at h
  split at h
  · rename_i o ho
    cases h
    exact ⟨ho, rfl⟩
  · cases h

theorem sameKeys_set {obj o : PageObject π} (hobj : db.objects[ref]? = some obj)
    (hid : PageFile.getId δ o.page = PageFile.getId δ obj.page) (files : δ) (order : ℕ → ℕ) :
    SameKeys db { db with objects := db.objects.set ref o, files, order } := by
  refine ⟨?_, rfl, List.length_set .., rfl⟩
  funext key
  cases key with
  | cell c => rfl
  | page r =>
    change (db.objects.set ref o)[r]?.map _ = db.objects[r]?.map _
    rcases eq_or_ne ref r with rfl | hne
    · rw [hobj, List.getElem?_set_self (List.getElem?_eq_some_iff.mp hobj).1, Option.map_some,
        Option.map_some, hid]
    · rw [List.getElem?_set_ne hne]

/-- Flushing does what it does on the pool that files by value. -/
theorem flushPage_byValue (h : Kept db) (hv : ByValue db d) (hkey : db.idAt key = some pid)
    (hread : ¬ db.Dangles pid) (hrun : BufferPool.flushPage pid d = .ok () d') :
    ∃ db', flushPage key db = .ok () db' ∧ ByValue db' d' ∧ db'.entries = db.entries ∧
      db'.order = db.order ∧ SameKeys db db' ∧ d'.pages = d.pages := by
  have hfind := ByValue.find?_eq h hv hread
  rw [flushPage, bind_ok (readKey_run hkey), bind_ok (find_run hread)]
  rw [BufferPool.flushPage, bind_ok (get_run d)] at hrun
  cases hl : d.pages.lookup pid with
  | none =>
    rw [hl] at hrun hfind
    rw [Option.map_eq_none_iff.mp hfind]
    cases hrun
    exact ⟨db, rfl, hv, rfl, rfl, ⟨rfl, rfl, rfl, rfl⟩, rfl⟩
  | some ref =>
    rw [hl] at hrun hfind
    obtain ⟨e, he, rfl⟩ := Option.map_eq_some_iff.mp hfind
    rw [he]
    obtain ⟨obj, d₁, hderef, hrest⟩ := of_bind_ok hrun
    obtain ⟨hobj, rfl⟩ := of_deref_ok hderef
    rw [hv.objects] at hobj
    simp only
    rw [bind_ok (KeyedPool.deref_run hobj)]
    by_cases hdirty : obj.dirty.isSome = true
    · rw [if_pos hdirty] at hrest ⊢
      rw [bind_ok (PagedDb.markDirty_run (hv.objects ▸ hobj) none)] at hrest
      obtain ⟨files, d₂, hlift, hend⟩ := of_bind_ok hrest
      obtain ⟨hwrite, rfl⟩ := of_lift_ok hlift
      cases hend
      rw [hv.files, hv.pageSize] at hwrite
      rw [bind_ok (markDirty_run hobj none), bind_ok (get_run _), bind_ok (lift_run hwrite _)]
      have hsame := sameKeys_set (o := { obj with dirty := none }) hobj rfl files db.order
      refine ⟨_, rfl, ⟨?_, hv.pageSize, hv.numPages, hv.order, rfl, ?_⟩, rfl, rfl, hsame, rfl⟩
      · change d₁.objects.set e.page _ = db.objects.set e.page _
        rw [hv.objects]
      · refine hv.entries.trans ?_
        exact List.map_congr_left fun e' _ => by rw [← congrFun hsame.ids (.page e'.page)]
    · rw [if_neg hdirty] at hrest ⊢
      cases hrest
      exact ⟨db, rfl, hv, rfl, rfl, ⟨rfl, rfl, rfl, rfl⟩, rfl⟩

/-- So does an eviction, if it reads no dangling key. -/
theorem evictPage_byValue (h : Kept db) (hv : ByValue db d) {e : Entry}
    (he : db.entries[db.order 0 % db.entries.length]? = some e)
    (hid : db.idAt (.page e.page) = some pid) (hread : ¬ db.Dangles pid)
    (hrun : BufferPool.evictPage d = .ok () d') :
    ∃ db', evictPage db = .ok () db' ∧ ByValue db' d' ∧
      db'.entries = db.entries.eraseIdx (db.order 0 % db.entries.length) ∧
      (db'.order = fun n => db.order (n + 1)) ∧ SameKeys db db' := by
  obtain ⟨q, hq, hcode, hkey⟩ := h.keyed e (List.mem_of_getElem? he)
  obtain rfl : q = pid := Option.some.inj (hq.symm.trans hid)
  have hlive : db.idAt e.key = some q :=
    hkey.resolve_right fun hnone => hread ⟨e, List.mem_of_getElem? he, hcode, hnone⟩
  let i := db.order 0 % db.entries.length
  let db₀ : KeyedDb π δ := { db with order := fun n => db.order (n + 1) }
  let d₀ : Database π δ := { d with order := fun n => d.order (n + 1) }
  have hids₀ : db₀.idAt = db.idAt := KeyedDb.idAt_congr rfl rfl
  have h₀ : Kept db₀ := h.of_entries ⟨hids₀, rfl, rfl, rfl⟩ (.refl _)
  have hv₀ : ByValue db₀ d₀ := by
    refine ⟨hv.objects, hv.pageSize, hv.numPages, ?_, hv.files, ?_⟩
    · change (fun n => d.order (n + 1)) = fun n => db.order (n + 1)
      rw [hv.order]
    · rw [hids₀]
      exact hv.entries
  have hread₀ : ¬ db₀.Dangles q := by
    rw [KeyedDb.Dangles, hids₀]
    exact hread
  have hat : d.pages.keys[d.order 0 % d.pages.keys.length]? = some q := by
    rw [hv.order, hv.length_eq, AList.keys, List.keys, List.getElem?_map, hv.entry_at he hid]
    rfl
  rw [BufferPool.evictPage, bind_ok (get_run d), hat] at hrun
  simp only at hrun
  rw [bind_ok (modify_run _ d)] at hrun
  obtain ⟨_, d₁, hflush, hend⟩ := of_bind_ok hrun
  cases hend
  obtain ⟨db₁, hrun₁, hv₁, hentries₁, horder₁, hsame₁, hpages₁⟩ :=
    flushPage_byValue h₀ hv₀ (hids₀ ▸ hlive) hread₀ hflush
  refine ⟨{ db₁ with entries := db₁.entries.eraseIdx i }, ?_, ?_, ?_, horder₁, ?_⟩
  · rw [evictPage, bind_ok (get_run db), he]
    simp only
    rw [bind_ok (modify_run _ db), bind_ok hrun₁]
    rfl
  · refine ⟨hv₁.objects, hv₁.pageSize, hv₁.numPages, hv₁.order, hv₁.files, ?_⟩
    have hat₁ : d₁.pages.entries[i]? = some ⟨q, e.page⟩ := by
      rw [hpages₁]
      exact hv.entry_at he hid
    change (d₁.pages.entries.kerase q).map _ = (db₁.entries.eraseIdx i).map _
    rw [show d₁.pages.entries.kerase q = d₁.pages.entries.eraseIdx i from
      kerase_eq_eraseIdx d₁.pages.nodupKeys hat₁, ← List.eraseIdx_map, hv₁.entries, List.eraseIdx_map]
    rfl
  · change db₁.entries.eraseIdx i = _
    rw [hentries₁]
  · refine ⟨?_, hsame₁.cells, hsame₁.objects, hsame₁.numPages⟩
    rw [← hids₀, ← hsame₁.ids]
    exact KeyedDb.idAt_congr rfl rfl

theorem evictPage_dangles (h : Kept db) {e : Entry}
    (he : db.entries[db.order 0 % db.entries.length]? = some e)
    (hid : db.idAt (.page e.page) = some pid) (hread : db.Dangles pid) :
    ∃ db', evictPage db = .error .dangling db' := by
  obtain ⟨q, hq, hcode, hkey⟩ := h.keyed e (List.mem_of_getElem? he)
  obtain rfl : q = pid := Option.some.inj (hq.symm.trans hid)
  let db₀ : KeyedDb π δ := { db with order := fun n => db.order (n + 1) }
  have hids₀ : db₀.idAt = db.idAt := KeyedDb.idAt_congr rfl rfl
  have hread₀ : db₀.Dangles q := by
    rw [KeyedDb.Dangles, hids₀]
    exact hread
  have hflush : flushPage e.key db₀ = .error .dangling db₀ := by
    rw [flushPage]
    rcases hkey with hlive | hnone
    · rw [bind_ok (readKey_run (hids₀ ▸ hlive)), bind_error (find_dangles hread₀)]
    · rw [bind_error (readKey_missing (hids₀ ▸ hnone))]
  refine ⟨db₀, ?_⟩
  rw [evictPage, bind_ok (get_run db), he]
  simp only
  rw [bind_ok (modify_run _ db), bind_error hflush]

/-- Loading files the new page in front. -/
theorem loadPage_byValue (hload : ReadsById π δ) (h : Kept db) (hv : ByValue db d)
    (hkey : db.idAt key = some pid) (hread : ¬ db.Dangles pid) (hnew : d.pages.lookup pid = none)
    (hrun : BufferPool.loadPage pid d = .ok ref d') :
    ∃ db', loadPage key db = .ok ref db' ∧ ByValue db' d' ∧ Kept db' ∧ db'.cells = db.cells ∧
      db'.numPages = db.numPages ∧ db'.order = db.order ∧
      db'.entries = ⟨key, pid.hash, ref⟩ :: db.entries ∧ db'.marks = (some pid, false) :: db.marks := by
  rw [BufferPool.loadPage, bind_ok (get_run d)] at hrun
  obtain ⟨p, d₁, hpage, hrest⟩ := of_bind_ok hrun
  obtain ⟨hpage, rfl⟩ := of_lift_ok hpage
  cases hrest
  rw [hv.files, hv.pageSize, hv.objects] at hpage
  rw [hv.objects]
  -- first the object, then the entry
  let db₁ : KeyedDb π δ := { db with objects := db.objects ++ [⟨p, none⟩] }
  have h₁ : Kept db₁ := h.newObject _
  have hv₁ : ByValue db₁ { d₁ with objects := db.objects ++ [⟨p, none⟩] } := hv.newObject h _
  have hself : db₁.idAt (.page db.objects.length) = some pid :=
    (db.idAt_newObject _).trans (congrArg some (hload hpage))
  have hkey₁ : db₁.idAt key = some pid := ((KeyedDb.inside_of_idAt hkey).newObject _).trans hkey
  have hread₁ : ¬ db₁.Dangles pid := (h.dangles_newObject _).not.mpr hread
  have hmiss₁ : db₁.find? pid = none := by
    have hfind := ByValue.find?_eq h₁ hv₁ hread₁
    rw [hnew] at hfind
    exact Option.map_eq_none_iff.mp hfind
  have hrun' : loadPage key db =
      .ok db.objects.length { db₁ with entries := ⟨key, pid.hash, db.objects.length⟩ :: db.entries } := by
    have hnewObject : offPool (newObject p) db = .ok db.objects.length db₁ := rfl
    rw [loadPage, bind_ok (readKey_run hkey), bind_ok (get_run db), bind_ok (lift_run hpage db),
      bind_ok hnewObject, bind_ok (assign_run hkey₁ hread₁ _), hmiss₁]
    rfl
  refine ⟨_, hrun', hv₁.newEntry hself hnew, h₁.newEntry hkey₁ hself (hv₁.lookup_eq_none.mp hnew), rfl,
    rfl, rfl, rfl, ?_⟩
  exact (KeyedDb.marks_newEntry hkey₁ hself).trans (congrArg _ (h.marks_newObject _))

/-- What a request for `pid` leaves: no cell is touched, and an entry is new only if its page is. -/
structure Loads (db db' : KeyedDb π δ) (key : Key) (pid : PageId) (ref : Ref) : Prop where
  cells : db'.cells = db.cells
  numPages : db'.numPages = db.numPages
  marks : (db'.marks, db'.order) = serve db.numPages db.marks (some pid, false) db.order
  entries : (Resident db.marks (some pid) ∧ db'.entries = db.entries) ∨
    ¬ Resident db.marks (some pid) ∧ ∃ es, es.Sublist db.entries ∧
      db'.entries = ⟨key, pid.hash, ref⟩ :: es

theorem marks_at {e : Entry} (he : db.entries[i]? = some e) :
    db.marks[i]? = some (db.idAt (.page e.page), (db.idAt e.key).isNone) := by
  rw [KeyedDb.marks, List.getElem?_map, he]
  rfl

/-- A full pool first drops the entry that its order chooses, which reads every key under its code. -/
theorem evictLoad_byValue (hload : ReadsById π δ) (hpos : 0 < db.numPages) (h : Kept db)
    (hv : ByValue db d) (hkey : db.idAt key = some pid) (hread : ¬ db.Dangles pid)
    (hl : d.pages.lookup pid = none) (hfull : db.numPages ≤ db.entries.length)
    (hrun : (BufferPool.evictPage >>= fun _ => BufferPool.loadPage pid) d = .ok ref d') :
    ((∃ v, db.marks[db.order 0 % db.entries.length]? = some v ∧ Readable idCode db.marks v.1) →
      ∃ db', (evictPage >>= fun _ => loadPage key) db = .ok ref db' ∧ Loads db db' key pid ref ∧
        ByValue db' d' ∧ Kept db') ∧
    ((¬ ∃ v, db.marks[db.order 0 % db.entries.length]? = some v ∧ Readable idCode db.marks v.1) →
      ∃ db', (evictPage >>= fun _ => loadPage key) db = .error .dangling db') := by
  have hres : ¬ Resident db.marks (some pid) := by
    rw [Kept.resident_iff hv, hl]
    simp
  have hi : db.order 0 % db.entries.length < db.entries.length := Nat.mod_lt _ (by omega)
  let e := db.entries[db.order 0 % db.entries.length]
  have he : db.entries[db.order 0 % db.entries.length]? = some e := List.getElem?_eq_getElem hi
  obtain ⟨vid, hvid, -⟩ := h.keyed e (List.getElem_mem hi)
  have hvictim : (∃ v, db.marks[db.order 0 % db.entries.length]? = some v ∧
      Readable idCode db.marks v.1) ↔ ¬ db.Dangles vid := by
    rw [marks_at he, hvid, ← h.readable_iff]
    simp
  rw [hvictim, not_not]
  obtain ⟨_, d₁, hevict, hloadPage⟩ := of_bind_ok hrun
  refine ⟨fun hread' => ?_, fun hdangles => ?_⟩
  · obtain ⟨db₁, hrun₁, hv₁, hentries₁, horder₁, hsame₁⟩ :=
      evictPage_byValue h hv he hvid hread' hevict
    have hsub : (db.entries.eraseIdx (db.order 0 % db.entries.length)).Sublist db.entries :=
      List.eraseIdx_sublist ..
    have h₁ : Kept db₁ := h.of_entries hsame₁ (hentries₁ ▸ hsub)
    -- fewer entries read fewer keys
    have hread₁ : ¬ db₁.Dangles pid := by
      rintro ⟨e', he', hcode, hnone⟩
      rw [hentries₁] at he'
      rw [hsame₁.ids] at hnone
      exact hread ⟨e', hsub.subset he', hcode, hnone⟩
    have hnew₁ : d₁.pages.lookup pid = none := by
      rw [hv₁.lookup_eq_none]
      intro e' he'
      rw [hentries₁] at he'
      rw [hsame₁.ids]
      exact hv.lookup_eq_none.mp hl e' (hsub.subset he')
    obtain ⟨db₂, hrun₂, hv₂, h₂, hcells, hnum, horder₂, hentries₂, hmarks⟩ :=
      loadPage_byValue hload h₁ hv₁ (hsame₁.ids ▸ hkey) hread₁ hnew₁ hloadPage
    refine ⟨db₂, by rw [bind_ok hrun₁, hrun₂], ⟨hcells.trans hsame₁.cells,
      hnum.trans hsame₁.numPages, ?_, .inr ⟨hres, _, ?_, hentries₂⟩⟩, hv₂, h₂⟩
    · rw [serve_full hres (by rwa [Kept.marks_length, Nat.not_lt]), hmarks, horder₂, horder₁,
        Kept.marks_length]
      refine congrArg (Prod.mk · _) (congrArg _ ?_)
      rw [KeyedDb.marks, hentries₁, hsame₁.ids, KeyedDb.marks, List.eraseIdx_map]
    · rw [hentries₁]
      exact hsub
  · obtain ⟨db₁, hrun₁⟩ := evictPage_dangles h he hvid hdangles
    exact ⟨db₁, bind_error hrun₁⟩

/-- A request for a page that reads no dangling key does what it does on the pool that files by
value; the page that it loads is filed in front. Any other request fails. -/
theorem getPage_byValue (hload : ReadsById π δ) (hpos : 0 < db.numPages) (h : Kept db)
    (hv : ByValue db d) (hkey : db.idAt key = some pid)
    (hrun : BufferPool.getPage pid d = .ok ref d') :
    (Reads idCode db.numPages db.marks (some pid) db.order →
      ∃ db', getPage key db = .ok ref db' ∧ Loads db db' key pid ref ∧ ByValue db' d' ∧ Kept db') ∧
    (¬ Reads idCode db.numPages db.marks (some pid) db.order →
      ∃ db', getPage key db = .error .dangling db') := by
  rw [getPage, bind_ok (readKey_run hkey), Reads, h.readable_iff]
  by_cases hread : db.Dangles pid
  · exact ⟨fun hreads => absurd hread hreads.1, fun _ => ⟨db, bind_error (find_dangles hread)⟩⟩
  rw [bind_ok (find_run hread), and_iff_right hread]
  have hfind := ByValue.find?_eq h hv hread
  rw [BufferPool.getPage, bind_ok (get_run d)] at hrun
  cases hl : d.pages.lookup pid with
  | some ref' =>
    have hres : Resident db.marks (some pid) := (Kept.resident_iff hv).mpr (by rw [hl]; rfl)
    rw [hl] at hrun hfind
    cases hrun
    obtain ⟨e, he, rfl⟩ := Option.map_eq_some_iff.mp hfind
    rw [he]
    refine ⟨fun _ => ⟨db, rfl, ⟨rfl, rfl, ?_, .inl ⟨hres, rfl⟩⟩, hv, h⟩, fun hnot => ?_⟩
    · rw [serve_resident hres]
    · exact absurd (.inl hres) hnot
  | none =>
    have hres : ¬ Resident db.marks (some pid) := by
      rw [Kept.resident_iff hv, hl]
      simp
    rw [hl] at hrun hfind
    rw [Option.map_eq_none_iff.mp hfind]
    simp only at hrun ⊢
    rw [bind_ok (get_run db), or_iff_right hres, Kept.marks_length]
    by_cases hfull : db.numPages ≤ db.entries.length
    · have hfull' : d.numPages ≤ d.pages.keys.length := by rwa [hv.numPages, hv.length_eq]
      rw [BufferPool.evictIf, if_pos hfull'] at hrun
      rw [evictIf, if_pos hfull, or_iff_right (Nat.not_lt.mpr hfull)]
      exact evictLoad_byValue hload hpos h hv hkey hread hl hfull hrun
    · have hroom : db.entries.length < db.numPages := Nat.lt_of_not_le hfull
      have hfull' : ¬ d.numPages ≤ d.pages.keys.length := by rwa [hv.numPages, hv.length_eq]
      rw [BufferPool.evictIf, if_neg hfull'] at hrun
      rw [evictIf, if_neg hfull]
      obtain ⟨db₂, hrun₂, hv₂, h₂, hcells, hnum, horder₂, hentries₂, hmarks⟩ :=
        loadPage_byValue hload h hv hkey hread hl hrun
      refine ⟨fun _ => ⟨db₂, hrun₂, ⟨hcells, hnum, ?_, .inr ⟨hres, _, .refl _, hentries₂⟩⟩, hv₂, h₂⟩,
        fun hnot => absurd (.inl hroom) hnot⟩
      rw [serve_room hres (by rwa [Kept.marks_length]), hmarks, horder₂]

end KeyedPool

end PagedDb
