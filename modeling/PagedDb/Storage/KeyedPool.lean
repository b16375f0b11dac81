import PagedDb.Foundation.Erasure
import PagedDb.Storage.BufferPool

/-!
# The pool and the keys it keeps

`PagesMap` keeps the caller's pointer to a page id as the key and the hash code
that the id had when the entry was made. The id may be changed later by whoever
owns it, and then the entry is no longer found; or its life may end, and then the
map must not read the key any more. Here ids are cells, so this can be stated; as
long as no id is changed or ends, every page is filed under its id.
-/

namespace PagedDb

open Exec

/-- What a key points at: an id of a caller, or the id inside a page object. -/
inductive Key
  | cell (c : ℕ)
  | page (ref : Ref)
  deriving DecidableEq

/-- An entry of the map, with its stored hash code. -/
structure Entry where
  key : Key
  code : UInt64
  page : Ref
  deriving DecidableEq

/-- `std::hash<PageId>`. -/
def PageId.hash (pid : PageId) : UInt64 :=
  pid.getTableId.toInt64.toUInt64 ^^^ pid.pageNumber.toInt64.toUInt64

/-- The database with the ids callers own and the entries of the pool; a cell is empty once the
life of its id is over, and `order` says where each next `begin()` stands. -/
structure KeyedDb (π δ : Type) where
  cells : List (Option PageId)
  objects : List (PageObject π)
  pageSize : ℕ
  numPages : ℕ
  entries : List Entry
  order : ℕ → ℕ
  files : δ

abbrev KeyedM (π δ α : Type) := EStateM Fault (KeyedDb π δ) α

variable {π δ : Type}

def KeyedDb.below (db : KeyedDb π δ) : Database π δ :=
  ⟨db.objects, db.pageSize, db.numPages, ∅, db.order, db.files⟩

def offPool {α : Type} (x : DbM π δ α) : KeyedM π δ α :=
  zoom KeyedDb.below (fun db keyed => { keyed with objects := db.objects, files := db.files }) x

theorem offPool_ok {α : Type} {x : DbM π δ α} {db : KeyedDb π δ} {a : α}
    (h : x db.below = .ok a db.below) : offPool x db = .ok a db := zoom_ok h

theorem offPool_error {α : Type} {x : DbM π δ α} {db : KeyedDb π δ} {e : Fault}
    (h : x db.below = .error e db.below) : offPool x db = .error e db := zoom_error h

/-- A new id, as `new` or a local variable makes it. -/
def newCell (pid : PageId) : KeyedM π δ ℕ := fun db =>
  .ok db.cells.length { db with cells := db.cells ++ [some pid] }

def setCell (c : ℕ) (pid : PageId) : KeyedM π δ Unit :=
  modify fun db => { db with cells := db.cells.set c (some pid) }

def endCell (c : ℕ) : KeyedM π δ Unit :=
  modify fun db => { db with cells := db.cells.set c none }

variable [PageFile π δ]

namespace KeyedDb

def idAt (db : KeyedDb π δ) : Key → Option PageId
  | .cell c => db.cells[c]?.join
  | .page ref => db.objects[ref]?.map fun obj => PageFile.getId δ obj.page

def Matches (db : KeyedDb π δ) (pid : PageId) (e : Entry) : Bool :=
  e.code = pid.hash ∧ db.idAt e.key = some pid

/-- What `pages.find(pid)` finds. -/
def find? (db : KeyedDb π δ) (pid : PageId) : Option Entry :=
  db.entries.find? (db.Matches pid)

/-- A key under the code of `pid` dangles. -/
def Dangles (db : KeyedDb π δ) (pid : PageId) : Prop :=
  ∃ e ∈ db.entries, e.code = pid.hash ∧ db.idAt e.key = none

instance (db : KeyedDb π δ) (pid : PageId) : Decidable (db.Dangles pid) :=
  inferInstanceAs (Decidable (∃ e ∈ _, _))

end KeyedDb

namespace KeyedPool

/-- `*pid`. -/
def readKey (key : Key) : KeyedM π δ PageId := fun db =>
  match db.idAt key with
  | some pid => .ok pid db
  | none => .error .dangling db

/-- `pages.find(pid)`. In which order the map compares `pid` with the keys under its code is not
specified, so each of them is read. -/
def find (pid : PageId) : KeyedM π δ (Option Entry) := fun db =>
  if db.Dangles pid then .error .dangling db else .ok (db.find? pid) db

/-- `pages[pid] = page`. -/
def assign (key : Key) (ref : Ref) : KeyedM π δ Unit := do
  let pid ← readKey key
  let found ← find pid
  modify fun db =>
    { db with
      entries := match found with
        | some _ => db.entries.modify (db.entries.findIdx (db.Matches pid)) ({ · with page := ref })
        | none => ⟨key, pid.hash, ref⟩ :: db.entries }

def flushPage (key : Key) : KeyedM π δ Unit := do
  let pid ← readKey key
  match ← find pid with
  | none => pure ()
  | some e =>
    let obj ← offPool (deref e.page)
    if obj.dirty.isSome then
      offPool (markDirty e.page none)
      let db ← get
      let files ← lift (PageFile.writePage db.files db.pageSize pid.getTableId obj.page)
      modify fun db => { db with files }
    else pure ()

def evictPage : KeyedM π δ Unit := do
  let db ← get
  let i := db.order 0 % db.entries.length
  match db.entries[i]? with
  | none => pure ()
  | some e =>
    modify fun db => { db with order := fun n => db.order (n + 1) }
    flushPage e.key
    modify fun db => { db with entries := db.entries.eraseIdx i }

/-- The eviction that `getPage` and `insertTuple` guard by a test. -/
def evictIf (full : Prop) [Decidable full] : KeyedM π δ Unit :=
  if full then evictPage else pure ()

/-- The end of `getPage`: read the page into a new object and file it. -/
def loadPage (key : Key) : KeyedM π δ Ref := do
  let pid ← readKey key
  let db ← get
  let page ← lift (PageFile.readPage db.files db.pageSize pid db.objects.length)
  let ref ← offPool (newObject page)
  assign key ref
  pure ref

def getPage (key : Key) : KeyedM π δ Ref := do
  let pid ← readKey key
  match ← find pid with
  | some e => pure e.page
  | none =>
    let db ← get
    evictIf (db.numPages ≤ db.entries.length)
    loadPage key

/-- The test of `insertTuple` and its eviction: the map is asked only if the pool is full. -/
def evictFor (pid : PageId) : KeyedM π δ Unit := do
  let db ← get
  if db.numPages ≤ db.entries.length then
    let found ← find pid
    evictIf (found = none)
  else pure ()

/-- The loop body of `insertTuple`. -/
def registerDirty (tid : TransactionId) (ref : Ref) : KeyedM π δ Unit := do
  offPool (markDirty ref (some tid))
  let pid ← readKey (.page ref)
  evictFor pid
  assign (.page ref) ref

end KeyedPool

variable {db db' db'' : KeyedDb π δ}

/-- Every entry's key is the id of its page, under that id's code, and no page id occurs twice. -/
structure Filed (db : KeyedDb π δ) : Prop where
  keyed : ∀ e ∈ db.entries, ∃ pid, db.idAt e.key = some pid ∧ db.idAt (.page e.page) = some pid ∧
    e.code = pid.hash
  distinct : (db.entries.map fun e => db.idAt (.page e.page)).Nodup

def SameIds (db db' : KeyedDb π δ) : Prop :=
  ∀ key pid, db.idAt key = some pid → db'.idAt key = some pid

theorem SameIds.refl (db : KeyedDb π δ) : SameIds db db := fun _ _ h => h

theorem SameIds.trans (h : SameIds db db') (h' : SameIds db' db'') : SameIds db db'' :=
  fun key pid hid => h' key pid (h key pid hid)

def KeyedDb.Inside (db : KeyedDb π δ) : Key → Prop
  | .cell c => c < db.cells.length
  | .page ref => ref < db.objects.length

theorem KeyedDb.inside_of_idAt {key : Key} {pid : PageId} (h : db.idAt key = some pid) :
    db.Inside key := by
  cases key with
  | cell c => exact (List.getElem?_eq_some_iff.mp (Option.join_eq_some_iff.mp h)).1
  | page ref =>
    obtain ⟨obj, hobj, -⟩ := Option.map_eq_some_iff.mp h
    exact (List.getElem?_eq_some_iff.mp hobj).1

/-- Every page is filed under the code of its id, by a key that points at this id or dangles. -/
structure Kept (db : KeyedDb π δ) : Prop where
  keyed : ∀ e ∈ db.entries, ∃ pid, db.idAt (.page e.page) = some pid ∧ e.code = pid.hash ∧
    (db.idAt e.key = some pid ∨ db.idAt e.key = none)
  distinct : (db.entries.map fun e => db.idAt (.page e.page)).Nodup
  inside : ∀ e ∈ db.entries, db.Inside e.key

namespace Kept

theorem eq_of_id (h : Kept db) {e e' : Entry} (he : e ∈ db.entries) (he' : e' ∈ db.entries)
    (hid : db.idAt (.page e.page) = db.idAt (.page e'.page)) : e = e' :=
  List.inj_on_of_nodup_map h.distinct he he' hid

theorem matches_iff (h : Kept db) {pid : PageId} (hread : ¬ db.Dangles pid) {e : Entry}
    (he : e ∈ db.entries) : db.Matches pid e = true ↔ db.idAt (.page e.page) = some pid := by
  obtain ⟨q, hpage, hcode, hkey⟩ := h.keyed e he
  rw [KeyedDb.Matches, decide_eq_true_eq, hpage, Option.some.injEq]
  constructor
  · rintro ⟨-, hid⟩
    rw [hid] at hkey
    exact (Option.some.inj (hkey.resolve_right nofun)).symm
  · rintro rfl
    exact ⟨hcode, hkey.resolve_right fun hnone => hread ⟨e, he, hcode, hnone⟩⟩

theorem find_entry (h : Kept db) {pid : PageId} (hread : ¬ db.Dangles pid) {e : Entry}
    (he : e ∈ db.entries) (hid : db.idAt (.page e.page) = some pid) : db.find? pid = some e := by
  have hmatch := (h.matches_iff hread he).mpr hid
  cases hfind : db.find? pid with
  | none =>
    have := List.find?_eq_none.mp hfind e he
    contradiction
  | some e' =>
    have he' := List.mem_of_find?_eq_some hfind
    have hid' := (h.matches_iff hread he').mp (List.find?_some hfind)
    rw [h.eq_of_id he he' (hid.trans hid'.symm)]

end Kept

namespace Filed

theorem of_sublist (h : Filed db) (hids : SameIds db db')
    (hentries : db'.entries.Sublist db.entries) : Filed db' := by
  have hkeyed : ∀ e ∈ db'.entries, ∃ pid, db'.idAt e.key = some pid ∧
      db'.idAt (.page e.page) = some pid ∧ db.idAt (.page e.page) = some pid ∧ e.code = pid.hash := by
    intro e he
    obtain ⟨pid, hkey, hpage, hcode⟩ := h.keyed e (hentries.subset he)
    exact ⟨pid, hids _ _ hkey, hids _ _ hpage, hpage, hcode⟩
  refine ⟨?_, ?_⟩
  · intro e he
    obtain ⟨pid, hkey, hpage, -, hcode⟩ := hkeyed e he
    exact ⟨pid, hkey, hpage, hcode⟩
  · have hsame : (db'.entries.map fun e => db'.idAt (.page e.page)) =
        db'.entries.map fun e => db.idAt (.page e.page) := by
      apply List.map_congr_left
      intro e he
      obtain ⟨pid, -, hpage', hpage, -⟩ := hkeyed e he
      rw [hpage', hpage]
    rw [hsame]
    exact h.distinct.sublist (hentries.map _)

theorem keep (h : Filed db) (hids : SameIds db db') (hentries : db'.entries = db.entries) :
    Filed db' :=
  h.of_sublist hids (by rw [hentries])

theorem kept (h : Filed db) : Kept db where
  keyed := by
    intro e he
    obtain ⟨pid, hkey, hpage, hcode⟩ := h.keyed e he
    exact ⟨pid, hpage, hcode, .inl hkey⟩
  distinct := h.distinct
  inside := by
    intro e he
    obtain ⟨pid, hkey, -⟩ := h.keyed e he
    exact KeyedDb.inside_of_idAt hkey

theorem not_dangles (h : Filed db) (pid : PageId) : ¬ db.Dangles pid := by
  rintro ⟨e, he, -, hnone⟩
  obtain ⟨q, hkey, -⟩ := h.keyed e he
  rw [hnone] at hkey
  cases hkey

theorem matches_iff (h : Filed db) {e : Entry} (he : e ∈ db.entries) (pid : PageId) :
    db.Matches pid e = true ↔ db.idAt (.page e.page) = some pid :=
  h.kept.matches_iff (h.not_dangles pid) he

theorem find_entry (h : Filed db) {e : Entry} (he : e ∈ db.entries) {pid : PageId}
    (hid : db.idAt (.page e.page) = some pid) : db.find? pid = some e :=
  h.kept.find_entry (h.not_dangles pid) he hid

theorem not_mem_of_find (h : Filed db) {pid : PageId} (hfind : db.find? pid = none) {e : Entry}
    (he : e ∈ db.entries) : db.idAt (.page e.page) ≠ some pid := by
  intro hid
  rw [h.find_entry he hid] at hfind
  cases hfind

end Filed

namespace KeyedPool

theorem readKey_run {key : Key} {pid : PageId} (h : db.idAt key = some pid) :
    readKey key db = .ok pid db := by
  rw [readKey, h]

theorem readKey_missing {key : Key} (h : db.idAt key = none) :
    readKey key db = .error .dangling db := by
  rw [readKey, h]

theorem find_run {pid : PageId} (h : ¬ db.Dangles pid) : find pid db = .ok (db.find? pid) db :=
  if_neg h

theorem find_dangles {pid : PageId} (h : db.Dangles pid) : find pid db = .error .dangling db :=
  if_pos h

theorem assign_run {key : Key} {pid : PageId} (hkey : db.idAt key = some pid)
    (hread : ¬ db.Dangles pid) (ref : Ref) :
    assign key ref db = .ok () { db with
      entries := match db.find? pid with
        | some _ => db.entries.modify (db.entries.findIdx (db.Matches pid)) ({ · with page := ref })
        | none => ⟨key, pid.hash, ref⟩ :: db.entries } := by
  rw [assign, bind_ok (readKey_run hkey), bind_ok (find_run hread)]
  rfl

/-- Filing a page under a key that points at its id. -/
theorem assign_filed (h : Filed db) {key : Key} {ref : Ref} {pid : PageId}
    (hkey : db.idAt key = some pid) (hpage : db.idAt (.page ref) = some pid) :
    ∃ db', assign key ref db = .ok () db' ∧ Filed db' ∧ SameIds db db' := by
  refine ⟨_, assign_run hkey (h.not_dangles pid) ref, ?_, fun key _ hid => by cases key <;> exact hid⟩
  cases hfind : db.find? pid with
  | none =>
    refine ⟨?_, ?_⟩
    · intro e he
      rcases List.mem_cons.mp he with rfl | he
      · exact ⟨pid, hkey, hpage, rfl⟩
      · exact h.keyed e he
    · change (db.idAt (.page ref) :: List.map (fun e => db.idAt (.page e.page)) db.entries).Nodup
      refine List.nodup_cons.mpr ⟨?_, h.distinct⟩
      intro hmem
      obtain ⟨e, he, heq⟩ := List.mem_map.mp hmem
      exact h.not_mem_of_find hfind he (heq.trans hpage)
  | some e₀ =>
    -- the entry keeps its key and its code and gets a page with the same id
    let i := db.entries.findIdx (db.Matches pid)
    have hat : ∀ e, db.entries[i]? = some e → db.idAt (.page e.page) = some pid := by
      intro e he
      obtain ⟨hi, rfl⟩ := List.getElem?_eq_some_iff.mp he
      exact (h.matches_iff (List.getElem_mem hi) pid).mp (List.findIdx_getElem (w := hi))
    have hget : ∀ j : ℕ, ((db.entries.modify i ({ · with page := ref }))[j]?.map fun e : Entry =>
        db.idAt (.page e.page)) = db.entries[j]?.map fun e : Entry => db.idAt (.page e.page) := by
      intro j
      rw [List.getElem?_modify]
      cases he : db.entries[j]? with
      | none => rfl
      | some e =>
        by_cases hij : i = j
        · subst hij
          simp [hpage, hat e he]
        · simp [hij]
    refine ⟨?_, ?_⟩
    · intro e he
      obtain ⟨j, hj⟩ := List.getElem?_of_mem he
      change (db.entries.modify i _)[j]? = _ at hj
      rw [List.getElem?_modify] at hj
      cases he₀ : db.entries[j]? with
      | none => rw [he₀] at hj; cases hj
      | some e₁ =>
        rw [he₀] at hj
        obtain ⟨q, hkey₁, hpage₁, hcode₁⟩ := h.keyed e₁ (List.mem_of_getElem? he₀)
        by_cases hij : i = j
        · subst hij
          obtain rfl : q = pid := Option.some.inj (hpage₁.symm.trans (hat e₁ he₀))
          simp only [if_true] at hj
          cases hj
          exact ⟨q, hkey₁, hpage, hcode₁⟩
        · simp only [if_neg hij] at hj
          cases hj
          exact ⟨q, hkey₁, hpage₁, hcode₁⟩
    · have hsame : ((db.entries.modify i ({ · with page := ref })).map fun e : Entry =>
          db.idAt (.page e.page)) = db.entries.map fun e => db.idAt (.page e.page) := by
        apply List.ext_getElem?
        intro j
        rw [List.getElem?_map, List.getElem?_map]
        exact hget j
      change (List.map (fun e : Entry => db.idAt (.page e.page)) _).Nodup
      rw [hsame]
      exact h.distinct

omit [PageFile π δ] in
theorem deref_run {ref : Ref} {obj : PageObject π} (hobj : db.objects[ref]? = some obj) :
    offPool (deref ref) db = .ok obj db := zoom_ok (PagedDb.deref_run hobj)

omit [PageFile π δ] in
theorem deref_missing {ref : Ref} (hobj : db.objects[ref]? = none) :
    offPool (deref ref) db = .error .nullDeref db := by
  have hfail : deref ref db.below = .error .nullDeref db.below := by
    rw [deref, show db.below.objects[ref]? = none from hobj]
  exact offPool_error hfail

omit [PageFile π δ] in
theorem markDirty_run {ref : Ref} {obj : PageObject π} (hobj : db.objects[ref]? = some obj)
    (tid : Option TransactionId) :
    offPool (markDirty ref tid) db =
      .ok () { db with objects := db.objects.set ref { obj with dirty := tid } } :=
  zoom_ok (PagedDb.markDirty_run hobj tid)

theorem sameIds_set {ref : Ref} {obj o : PageObject π} (hobj : db.objects[ref]? = some obj)
    (hid : PageFile.getId δ o.page = PageFile.getId δ obj.page) (files : δ) :
    SameIds db { db with objects := db.objects.set ref o, files } := by
  intro key pid hkey
  cases key with
  | cell c => exact hkey
  | page r =>
    change (db.objects.set ref o)[r]?.map _ = some pid
    change db.objects[r]?.map _ = some pid at hkey
    rcases eq_or_ne ref r with rfl | hne
    · rw [hobj] at hkey
      rw [List.getElem?_set_self (List.getElem?_eq_some_iff.mp hobj).1, Option.map_some, hid]
      exact hkey
    · rwa [List.getElem?_set_ne hne]

theorem sameIds_append (db : KeyedDb π δ) (obj : PageObject π) (files : δ) :
    SameIds db { db with objects := db.objects ++ [obj], files } := by
  intro key pid hkey
  cases key with
  | cell c => exact hkey
  | page r =>
    change (db.objects ++ [obj])[r]?.map _ = some pid
    change db.objects[r]?.map _ = some pid at hkey
    obtain ⟨o, ho, hid⟩ := Option.map_eq_some_iff.mp hkey
    rw [List.getElem?_append_left (List.getElem?_eq_some_iff.mp ho).1, ho]
    exact congrArg some hid

theorem sameIds_newCell (db : KeyedDb π δ) (pid : PageId) :
    SameIds db { db with cells := db.cells ++ [some pid] } := by
  intro key q hkey
  cases key with
  | page r => exact hkey
  | cell c =>
    have hc : c < db.cells.length := KeyedDb.inside_of_idAt hkey
    change (db.cells ++ [some pid])[c]?.join = some q
    rwa [List.getElem?_append_left hc]

theorem setCell_filed (h : Filed db) {c : ℕ} (hfree : ∀ e ∈ db.entries, e.key ≠ .cell c)
    (pid : PageId) : Filed { db with cells := db.cells.set c (some pid) } := by
  refine ⟨?_, h.distinct⟩
  intro e he
  obtain ⟨q, hkey, hpage, hcode⟩ := h.keyed e he
  refine ⟨q, ?_, hpage, hcode⟩
  have hne := hfree e he
  cases hk : e.key with
  | page r => rwa [hk] at hkey
  | cell c' =>
    rw [hk] at hkey hne
    change (db.cells.set c (some pid))[c']?.join = some q
    rwa [List.getElem?_set_ne fun heq => hne (congrArg Key.cell heq.symm)]

/-- Flushing, successful or not, leaves the entries and the ids alone. -/
theorem flushPage_frame (db : KeyedDb π δ) (key : Key) :
    (stateOf (flushPage key db)).entries = db.entries ∧ SameIds db (stateOf (flushPage key db)) := by
  have hsame : db.entries = db.entries ∧ SameIds db db := ⟨rfl, .refl db⟩
  cases hkey : db.idAt key with
  | none =>
    rw [flushPage, bind_error (readKey_missing hkey)]
    exact hsame
  | some pid =>
    rw [flushPage, bind_ok (readKey_run hkey)]
    by_cases hread : db.Dangles pid
    · rw [bind_error (find_dangles hread)]
      exact hsame
    rw [bind_ok (find_run hread)]
    cases hfind : db.find? pid with
    | none => exact hsame
    | some e =>
      simp only
      cases hobj : db.objects[e.page]? with
      | none =>
        rw [bind_error (deref_missing hobj)]
        exact hsame
      | some obj =>
        rw [bind_ok (deref_run hobj)]
        split
        · rw [bind_ok (markDirty_run hobj none), bind_ok (get_run _)]
          cases hwrite : PageFile.writePage db.files db.pageSize pid.getTableId obj.page with
          | error fault => exact ⟨rfl, sameIds_set (o := { obj with dirty := none }) hobj rfl db.files⟩
          | ok files => exact ⟨rfl, sameIds_set (o := { obj with dirty := none }) hobj rfl files⟩
        · exact hsame

/-- An eviction, successful or not, takes entries away at most. -/
theorem evictPage_frame (db : KeyedDb π δ) :
    SameIds db (stateOf (evictPage db)) ∧ (stateOf (evictPage db)).entries.Sublist db.entries := by
  rw [evictPage, bind_ok (get_run db)]
  cases hvictim : db.entries[db.order 0 % db.entries.length]? with
  | none => exact ⟨.refl db, .refl _⟩
  | some e =>
    let db₀ : KeyedDb π δ := { db with order := fun n => db.order (n + 1) }
    have h₀ : SameIds db db₀ := fun key _ hid => by cases key <;> exact hid
    obtain ⟨hentries, hids⟩ := flushPage_frame db₀ e.key
    simp only
    rw [bind_ok (modify_run _ db)]
    cases hflush : flushPage e.key db₀ with
    | error fault db₁ =>
      rw [hflush] at hentries hids
      rw [bind_error hflush]
      refine ⟨h₀.trans hids, ?_⟩
      rw [hentries]
    | ok a db₁ =>
      rw [hflush, stateOf_ok] at hentries hids
      rw [bind_ok hflush]
      refine ⟨h₀.trans fun key pid hid => ?_, ?_⟩
      · have := hids key pid hid
        cases key <;> exact this
      · change (db₁.entries.eraseIdx _).Sublist _
        rw [hentries]
        exact List.eraseIdx_sublist _ _

theorem evictIf_frame (db : KeyedDb π δ) (full : Prop) [Decidable full] :
    SameIds db (stateOf (evictIf full db)) ∧
      (stateOf (evictIf full db)).entries.Sublist db.entries := by
  unfold evictIf
  split
  · exact evictPage_frame db
  · exact ⟨.refl db, .refl _⟩

theorem evictFor_frame (db : KeyedDb π δ) (pid : PageId) :
    SameIds db (stateOf (evictFor pid db)) ∧
      (stateOf (evictFor pid db)).entries.Sublist db.entries := by
  rw [evictFor, bind_ok (get_run db)]
  split
  · by_cases hread : db.Dangles pid
    · rw [bind_error (find_dangles hread)]
      exact ⟨.refl db, .refl _⟩
    · rw [bind_ok (find_run hread)]
      exact evictIf_frame db _
  · exact ⟨.refl db, .refl _⟩

/-- What the pool relies on: reading a page gives a page with the id asked for. -/
def ReadsById (π δ : Type) [PageFile π δ] : Prop :=
  ∀ {files : δ} {pageSize pid ref} {p : π},
    PageFile.readPage files pageSize pid ref = .ok p → PageFile.getId δ p = pid

/-- Loading a page, successful or not, keeps every page under its id. -/
theorem loadPage_filed (hread : ReadsById π δ) (h : Filed db) (key : Key) :
    Filed (stateOf (loadPage key db)) ∧ SameIds db (stateOf (loadPage key db)) := by
  cases hkey : db.idAt key with
  | none =>
    rw [loadPage, bind_error (readKey_missing hkey)]
    exact ⟨h, .refl db⟩
  | some pid =>
    rw [loadPage, bind_ok (readKey_run hkey), bind_ok (get_run db)]
    cases hp : (PageFile.readPage db.files db.pageSize pid db.objects.length : Except Fault π) with
    | error fault => exact ⟨h, .refl db⟩
    | ok p =>
      let db₁ : KeyedDb π δ := { db with objects := db.objects ++ [⟨p, none⟩] }
      have hids₁ : SameIds db db₁ := sameIds_append db ⟨p, none⟩ db.files
      have hnew : db₁.idAt (.page db.objects.length) = some pid := by
        change (db.objects ++ [⟨p, none⟩])[db.objects.length]?.map _ = _
        rw [List.getElem?_concat_length]
        exact congrArg some (hread hp)
      obtain ⟨db₂, hassign, h₂, hids₂⟩ :=
        assign_filed (h.keep hids₁ rfl) (hids₁ _ _ hkey) hnew
      have hrun : offPool (newObject p) db = .ok db.objects.length db₁ := rfl
      rw [bind_ok (lift_run rfl db), bind_ok hrun, bind_ok hassign]
      exact ⟨h₂, hids₁.trans hids₂⟩

/-- `getPage`, successful or not, keeps every page under its id. -/
theorem getPage_filed (hread : ReadsById π δ) (h : Filed db) (key : Key) :
    Filed (stateOf (getPage key db)) ∧ SameIds db (stateOf (getPage key db)) := by
  cases hkey : db.idAt key with
  | none =>
    rw [getPage, bind_error (readKey_missing hkey)]
    exact ⟨h, .refl db⟩
  | some pid =>
    rw [getPage, bind_ok (readKey_run hkey), bind_ok (find_run (h.not_dangles pid))]
    cases hfind : db.find? pid with
    | some e => exact ⟨h, .refl db⟩
    | none =>
      obtain ⟨hids₁, hsub₁⟩ := evictIf_frame db (db.numPages ≤ db.entries.length)
      simp only
      rw [bind_ok (get_run db)]
      cases hevict : evictIf (db.numPages ≤ db.entries.length) db with
      | error fault db₁ =>
        rw [hevict] at hids₁ hsub₁
        rw [bind_error hevict]
        exact ⟨h.of_sublist hids₁ hsub₁, hids₁⟩
      | ok a db₁ =>
        rw [hevict, stateOf_ok] at hids₁ hsub₁
        obtain ⟨h₂, hids₂⟩ := loadPage_filed hread (h.of_sublist hids₁ hsub₁) key
        rw [bind_ok hevict]
        exact ⟨h₂, hids₁.trans hids₂⟩

/-- Registering a page, successful or not, keeps every page under its id. -/
theorem registerDirty_filed (h : Filed db) (tid : TransactionId) (ref : Ref) :
    Filed (stateOf (registerDirty tid ref db)) ∧ SameIds db (stateOf (registerDirty tid ref db)) := by
  cases hobj : db.objects[ref]? with
  | none =>
    have hfail : markDirty ref (some tid) db.below = .error .nullDeref db.below := by
      have hderef : deref ref db.below = .error .nullDeref db.below := by
        rw [deref, show db.below.objects[ref]? = none from hobj]
      rw [markDirty, bind_error hderef]
    rw [registerDirty, bind_error (offPool_error hfail)]
    exact ⟨h, .refl db⟩
  | some obj =>
    let obj₁ : PageObject π := { obj with dirty := some tid }
    let db₁ : KeyedDb π δ := { db with objects := db.objects.set ref obj₁ }
    have hids₁ : SameIds db db₁ := sameIds_set (o := obj₁) hobj rfl db.files
    have hself : db₁.idAt (.page ref) = some (PageFile.getId δ obj.page) := by
      apply hids₁
      change db.objects[ref]?.map _ = _
      rw [hobj]
      rfl
    rw [registerDirty, bind_ok (markDirty_run hobj (some tid)), bind_ok (readKey_run hself)]
    obtain ⟨hids₂, hsub₂⟩ := evictFor_frame db₁ (PageFile.getId δ obj.page)
    have h₁ := h.keep hids₁ rfl
    cases hevict : evictFor (PageFile.getId δ obj.page) db₁ with
    | error fault db₂ =>
      rw [hevict] at hids₂ hsub₂
      rw [bind_error hevict]
      exact ⟨h₁.of_sublist hids₂ hsub₂, hids₁.trans hids₂⟩
    | ok a db₂ =>
      rw [hevict, stateOf_ok] at hids₂ hsub₂
      have hself₂ := hids₂ _ _ hself
      obtain ⟨db₃, hassign, h₃, hids₃⟩ :=
        assign_filed (h₁.of_sublist hids₂ hsub₂) hself₂ hself₂
      rw [bind_ok hevict, hassign]
      exact ⟨h₃, (hids₁.trans hids₂).trans hids₃⟩

/-- The eviction of the entry under an id whose owner has just changed it. The changed id is not
found, so the page is dropped unwritten; what is left is filed under the right ids. -/
theorem getPage_filed_evicting (hread : ReadsById π δ) (h : Filed db) {c : ℕ} {pid : PageId}
    {e : Entry} (hc : c < db.cells.length) (hkey : e.key = .cell c)
    (hvictim : db.entries[db.order 0 % db.entries.length]? = some e)
    (hfull : db.numPages ≤ db.entries.length)
    (hmiss : { db with cells := db.cells.set c (some pid) }.find? pid = none) :
    Filed (stateOf (getPage (.cell c) { db with cells := db.cells.set c (some pid) })) := by
  let db₁ : KeyedDb π δ := { db with cells := db.cells.set c (some pid) }
  let db₂ : KeyedDb π δ := { db₁ with order := fun n => db.order (n + 1) }
  let i := db.order 0 % db.entries.length
  let db₃ : KeyedDb π δ := { db₂ with entries := db.entries.eraseIdx i }
  have hcell : db₁.idAt (.cell c) = some pid := by
    change (db.cells.set c (some pid))[c]?.join = _
    rw [List.getElem?_set_self hc]
    rfl
  -- no key dangles
  have hlive : ∀ q, ¬ db₁.Dangles q := by
    rintro q ⟨e', he', -, hnone⟩
    obtain ⟨q', hq', -⟩ := h.keyed e' he'
    cases hk : e'.key with
    | page r =>
      rw [hk] at hnone hq'
      exact absurd (hnone.symm.trans hq') nofun
    | cell c' =>
      rw [hk] at hnone hq'
      rcases eq_or_ne c c' with rfl | hne
      · rw [hcell] at hnone
        cases hnone
      · change (db.cells.set c (some pid))[c']?.join = none at hnone
        rw [List.getElem?_set_ne hne] at hnone
        exact absurd (hnone.symm.trans hq') nofun
  have hflush : flushPage e.key db₂ = .ok () db₂ := by
    have hread₂ : readKey (.cell c) db₂ = .ok pid db₂ := readKey_run hcell
    have hfind₂ : find pid db₂ = .ok none db₂ := by
      rw [find_run (show ¬ db₂.Dangles pid from hlive pid)]
      exact congrArg (EStateM.Result.ok · db₂) hmiss
    rw [hkey, flushPage, bind_ok hread₂, bind_ok hfind₂]
    rfl
  have hevict : evictIf (db₁.numPages ≤ db₁.entries.length) db₁ = .ok () db₃ := by
    have hat : db₁.entries[db₁.order 0 % db₁.entries.length]? = some e := hvictim
    rw [evictIf, if_pos hfull, evictPage, bind_ok (get_run db₁), hat]
    change (flushPage e.key >>= _) db₂ = _
    rw [bind_ok hflush]
    rfl
  -- no other entry has the changed id as its key
  have hfree : ∀ e' ∈ db.entries.eraseIdx i, e'.key ≠ .cell c := by
    intro e' he' hk
    obtain ⟨j, hj, hne, rfl⟩ := List.mem_eraseIdx_iff_getElem.mp he'
    obtain ⟨hi, rfl⟩ := List.getElem?_eq_some_iff.mp hvictim
    obtain ⟨q, hq, hpage, -⟩ := h.keyed _ (List.getElem_mem hi)
    obtain ⟨q', hq', hpage', -⟩ := h.keyed _ (List.getElem_mem hj)
    rw [hkey] at hq
    rw [hk, hq] at hq'
    have heq := h.kept.eq_of_id (List.getElem_mem hi) (List.getElem_mem hj)
      (by rw [hpage, hpage', hq'])
    exact hne ((List.Nodup.getElem_inj_iff (List.Nodup.of_map _ h.distinct)).mp heq.symm)
  have h₃ : Filed db₃ := by
    have herased : Filed { db with entries := db.entries.eraseIdx i, order := db₂.order } :=
      h.of_sublist (fun key _ hid => by cases key <;> exact hid) (List.eraseIdx_sublist _ _)
    exact setCell_filed herased hfree pid
  change Filed (stateOf (getPage (.cell c) db₁))
  have hmiss₁ : db₁.find? pid = none := hmiss
  rw [getPage, bind_ok (readKey_run hcell), bind_ok (find_run (hlive pid)), hmiss₁]
  simp only
  rw [bind_ok (get_run db₁), bind_ok hevict]
  exact (loadPage_filed hread h₃ (.cell c)).1

end KeyedPool

/-- Every cached page is filed under its own id: keys and page ids agree, no two pages have one
id, and `getPage` on the id of a resident page returns that page. -/
structure KeysRight (db : KeyedDb π δ) : Prop where
  keys : ∀ e ∈ db.entries, ∃ pid, db.idAt e.key = some pid ∧ db.idAt (.page e.page) = some pid
  distinct : db.entries.Pairwise fun e e' => db.idAt (.page e.page) ≠ db.idAt (.page e'.page)
  found : ∀ e ∈ db.entries, ∀ key pid, db.idAt key = some pid → db.idAt (.page e.page) = some pid →
    KeyedPool.getPage key db = .ok e.page db

theorem Filed.keysRight (h : Filed db) : KeysRight db where
  keys := by
    intro e he
    obtain ⟨pid, hkey, hpage, -⟩ := h.keyed e he
    exact ⟨pid, hkey, hpage⟩
  distinct := List.pairwise_map.mp h.distinct
  found := by
    intro e he key pid hkey hpage
    rw [KeyedPool.getPage, bind_ok (KeyedPool.readKey_run hkey),
      bind_ok (KeyedPool.find_run (h.not_dangles pid)), h.find_entry he hpage]
    rfl

end PagedDb
