import PagedDb.BTree.PageKinds

/-!
# Page numbers that are handed out again

`getEmptyPageNo` reads the root pointer page and header pages, and a page that
is read may push another one out of the pool and into the file. What it can ask
for, whatever is evicted, is read off the state before the call, and with it when
the page that `getEmptyPage` hands out shares its number with no other cached page.
-/

namespace PagedDb

open Exec

namespace BufferPool

variable {π δ : Type} [PageFile π δ] {db db₁ db' : Database π δ} {pid : PageId} {ref : Ref}

/-- Pages leave the pool, and a page that was marked dirty may have been written. -/
structure Thinned (db db' : Database π δ) : Prop where
  pageSize : db'.pageSize = db.pageSize
  numPages : db'.numPages = db.numPages
  pages : ∀ q r, db'.pages.lookup q = some r → db.pages.lookup q = some r
  objects : ∀ (r : Ref) (obj : PageObject π), db'.objects[r]? = some obj → ∃ old, db.objects[r]? = some old ∧
    obj.page = old.page ∧ (obj.dirty.isSome → obj = old)
  files : db'.files = db.files ∨ ∃ obj ∈ db.objects, obj.dirty.isSome ∧ ∃ tableId,
    PageFile.writePage db.files db.pageSize tableId obj.page = .ok db'.files

theorem Thinned.refl (db : Database π δ) : Thinned db db :=
  ⟨rfl, rfl, fun _ _ hl => hl, fun _ obj hobj => ⟨obj, hobj, rfl, fun _ => rfl⟩, .inl rfl⟩

theorem flushPage_thinned (hrun : flushPage pid db = .ok () db') : Thinned db db' := by
  rw [flushPage, bind_ok (get_run db)] at hrun
  cases hl : db.pages.lookup pid with
  | none =>
    rw [hl] at hrun
    cases hrun
    exact .refl db
  | some ref =>
    rw [hl] at hrun
    obtain ⟨obj, db₁, hderef, hrun⟩ := of_bind_ok hrun
    cases hobj : db.objects[ref]? with
    | none =>
      rw [deref, hobj] at hderef
      cases hderef
    | some old =>
      rw [deref_run hobj] at hderef
      cases hderef
      split at hrun
      · rename_i hdirty
        rw [bind_ok (markDirty_run hobj none)] at hrun
        obtain ⟨files, db₂, hlift, hend⟩ := of_bind_ok hrun
        obtain ⟨hwrite, rfl⟩ := of_lift_ok hlift
        cases hend
        refine ⟨rfl, rfl, fun _ _ h => h, ?_, .inr ⟨_, List.mem_of_getElem? hobj, hdirty, _, hwrite⟩⟩
        intro r o ho
        by_cases hr : ref = r
        · subst hr
          have hself := (Database.setObject_self hobj).symm.trans ho
          cases hself
          exact ⟨_, hobj, rfl, fun h => absurd h (by simp)⟩
        · exact ⟨o, (Database.setObject_ne hr).symm.trans ho, rfl, fun _ => rfl⟩
      · cases hrun
        exact .refl _

theorem evictPage_thinned (hrun : evictPage db = .ok () db') : Thinned db db' := by
  rw [evictPage, bind_ok (get_run db)] at hrun
  cases hvictim : db.pages.keys[db.order 0 % db.pages.keys.length]? with
  | none =>
    rw [hvictim] at hrun
    cases hrun
    exact .refl db
  | some v =>
    simp only [hvictim, bind_ok (modify_run _ db)] at hrun
    obtain ⟨⟨⟩, db₁, hflush, hend⟩ := of_bind_ok hrun
    cases hend
    have h := flushPage_thinned hflush
    refine ⟨h.pageSize, h.numPages, ?_, h.objects, h.files⟩
    intro q r hl
    by_cases hq : q = v
    · subst hq
      exact absurd ((AList.lookup_erase q db₁.pages).symm.trans hl) (by simp)
    · exact h.pages q r ((AList.lookup_erase_ne hq).symm.trans hl)

/-- A page that is not in the pool is read once there is room for it. -/
theorem getPage_loads (hl : db.pages.lookup pid = none) (hrun : getPage pid db = .ok ref db') :
    ∃ db₁ page, Thinned db db₁ ∧ (db.pages.keys.length < db.numPages → db₁ = db) ∧
      PageFile.readPage db₁.files db₁.pageSize pid ref = .ok page ∧ ref = db₁.objects.length ∧
      db' = { db₁ with
        objects := db₁.objects ++ [⟨page, none⟩], pages := db₁.pages.insert pid ref } := by
  rw [getPage, bind_ok (get_run db), hl] at hrun
  obtain ⟨⟨⟩, db₁, hevict, hload⟩ := of_bind_ok hrun
  have hthin : Thinned db db₁ ∧ (db.pages.keys.length < db.numPages → db₁ = db) := by
    unfold evictIf at hevict
    split at hevict
    · exact ⟨evictPage_thinned hevict, fun hroom => by omega⟩
    · cases hevict
      exact ⟨.refl db, fun _ => rfl⟩
  rw [loadPage, bind_ok (get_run db₁)] at hload
  obtain ⟨page, db₂, hlift, hnew⟩ := of_bind_ok hload
  obtain ⟨hread, rfl⟩ := of_lift_ok hlift
  cases hnew
  exact ⟨_, page, hthin.1, hthin.2, hread, rfl, rfl⟩

/-- `page` has been read into the new object `ref` and filed under `pid`; beside it there is only
what was there before. -/
structure Loaded (db db' : Database π δ) (pid : PageId) (ref : Ref) (page : π) : Prop where
  pageSize : db'.pageSize = db.pageSize
  numPages : db'.numPages = db.numPages
  new : db'.objects[ref]? = some ⟨page, none⟩
  objects : ∀ (r : Ref) (obj : PageObject π), db'.objects[r]? = some obj → r = ref ∧ obj = ⟨page, none⟩ ∨
    r ≠ ref ∧ ∃ old, db.objects[r]? = some old ∧ obj.page = old.page ∧ (obj.dirty.isSome → obj = old)
  pages : ∀ q r, db'.pages.lookup q = some r → q = pid ∧ r = ref ∨ db.pages.lookup q = some r
  files : ∃ db₁, Thinned db db₁ ∧ PageFile.readPage db₁.files db.pageSize pid ref = .ok page ∧
    db'.files = db₁.files
  stays : db.pages.keys.length < db.numPages → ∀ q, (db.pages.lookup q).isSome →
    (db'.pages.lookup q).isSome

theorem getPage_loaded (hl : db.pages.lookup pid = none) (hrun : getPage pid db = .ok ref db') :
    ∃ page, Loaded db db' pid ref page := by
  obtain ⟨db₁, page, hthin, hsame, hread, rfl, rfl⟩ := getPage_loads hl hrun
  rw [hthin.pageSize] at hread
  refine ⟨page, hthin.pageSize, hthin.numPages, List.getElem?_concat_length, ?_, ?_,
    ⟨db₁, hthin, hread, rfl⟩, ?_⟩
  · intro r obj hobj
    change (db₁.objects ++ [⟨page, none⟩])[r]? = some obj at hobj
    rcases Nat.lt_or_ge r db₁.objects.length with hlt | hge
    · rw [List.getElem?_append_left hlt] at hobj
      exact .inr ⟨hlt.ne, hthin.objects r obj hobj⟩
    · rw [List.getElem?_append_right hge] at hobj
      have hlt := (List.getElem?_eq_some_iff.mp hobj).1
      rw [List.length_singleton, Nat.lt_one_iff] at hlt
      rw [hlt] at hobj
      exact .inl ⟨Nat.le_antisymm (Nat.sub_eq_zero_iff_le.mp hlt) hge, (Option.some.inj hobj).symm⟩
  · intro q r hlookup
    by_cases hq : q = pid
    · subst hq
      exact .inl ⟨rfl, (Option.some.inj ((AList.lookup_insert _).symm.trans hlookup)).symm⟩
    · exact .inr (hthin.pages q r ((AList.lookup_insert_ne hq).symm.trans hlookup))
  · intro hroom q hsome
    change ((db₁.pages.insert pid db₁.objects.length).lookup q).isSome = true
    rw [hsame hroom]
    by_cases hq : q = pid
    · subst hq
      rw [AList.lookup_insert]
      rfl
    · rwa [AList.lookup_insert_ne hq]

end BufferPool

namespace PoolTree

open BTreeFile

variable {δ : Type} [BTreeDisk δ] {s s₁ s' t t' : PoolTree δ} {ref : Ref} {id : BTreePageId}
  {page : BTreeFilePage}

/-- The state after `getRootPtrPage` has looked at the size of the file. -/
def started (s : PoolTree δ) : PoolTree δ :=
  if BTreeDisk.isEmpty s.db.files then
    { s with db := { s.db with files := BTreeDisk.createFile s.db.files s.db.pageSize } }
  else s

/-- The files that evictions can leave: pages marked dirty are written, one after the other. -/
inductive Spilled (s : PoolTree δ) : δ → Prop
  | start : Spilled s (started s).db.files
  | write {files files' : δ} {obj : PageObject BTreeFilePage} (tableId : Int32) :
      Spilled s files → obj ∈ s.db.objects → obj.dirty.isSome →
      PageFile.writePage files s.db.pageSize tableId obj.page = .ok files' → Spilled s files'

/-- What `getPage` can find under an id: a cached page or, if `dirtypages` has none, one that is
read from the file. -/
inductive MayFind (s : PoolTree δ) (id : BTreePageId) : BTreeFilePage → Prop
  | cached {ref : Ref} {obj : PageObject BTreeFilePage} :
      Cached s (.btree id) ref → s.db.objects[ref]? = some obj → MayFind s id obj.page
  | read {files : δ} {ref : Ref} {page : BTreeFilePage} :
      s.dirtypages.lookup (.btree id) = none → Spilled s files →
      PageFile.readPage files s.db.pageSize (.btree id) ref = .ok page → MayFind s id page

/-- The page that `getEmptyPageNo` asks for after this one: the root pointer page leads to the first
header page, and a full header page to the next. -/
def following (pageSize : ℕ) : BTreeFilePage → Option BTreePageId
  | .rootPtr p => p.getHeaderId
  | .header p => if (p.getEmptySlot pageSize).isSome then none else p.getNextPageId
  | _ => none

def rootPtrPageId (s : PoolTree δ) : BTreePageId :=
  BTreeRootPtrPage.getId (BTreeDisk.tableid (started s).db.files)

/-- The pages that `getEmptyPageNo` can ask for. -/
inductive MayAsk (s : PoolTree δ) : BTreePageId → Prop
  | rootPtr : MayAsk s (rootPtrPageId s)
  | next {pid id : BTreePageId} {page : BTreeFilePage} : MayAsk s pid → MayFind s pid page →
      following s.db.pageSize page = some id → MayAsk s id

/-- The pool has room for the pages that can be asked for and for a new one, beside its own. -/
def Roomy (s : PoolTree δ) : Prop :=
  ∃ ids : Finset PageId, (∀ id, MayAsk s id → .btree id ∈ ids) ∧
    (s.db.pages.keys.toFinset ∪ ids).card < s.db.numPages

/-- From `s` on, only pages that `getEmptyPageNo` can ask for have been fetched. -/
structure Fetched (s t : PoolTree δ) : Prop where
  sound : Sound t
  pageSize : t.db.pageSize = s.db.pageSize
  numPages : t.db.numPages = s.db.numPages
  files : Spilled s t.db.files
  marked : ∀ obj ∈ t.db.objects, obj.dirty.isSome → obj ∈ s.db.objects
  found : ∀ id ref obj, Cached t (.btree id) ref → t.db.objects[ref]? = some obj →
    MayFind s id obj.page
  pool : ∀ pid, (t.db.pages.lookup pid).isSome →
    (s.db.pages.lookup pid).isSome ∨ ∃ id, MayAsk s id ∧ pid = .btree id
  listed : ∀ pid, (t.dirtypages.lookup pid).isSome →
    (s.dirtypages.lookup pid).isSome ∨ ∃ id, MayAsk s id ∧ pid = .btree id
  kept : ∀ pid, (s.dirtypages.lookup pid).isSome → (t.dirtypages.lookup pid).isSome
  stays : Roomy s → ∀ pid, (s.db.pages.lookup pid).isSome → (t.db.pages.lookup pid).isSome

def Finds (s t : PoolTree δ) (ref : Ref) (id : BTreePageId) : Prop :=
  ∃ obj, t.db.objects[ref]? = some obj ∧ obj.page.getId = id ∧ MayFind s id obj.page

theorem started_db (s : PoolTree δ) : (started s).db.pages = s.db.pages ∧
    (started s).db.objects = s.db.objects ∧ (started s).db.pageSize = s.db.pageSize ∧
    (started s).db.numPages = s.db.numPages ∧ (started s).dirtypages = s.dirtypages := by
  unfold started
  split <;> exact ⟨rfl, rfl, rfl, rfl, rfl⟩

theorem Fetched.start (h : Sound s) : Fetched s (started s) := by
  obtain ⟨hpages, hobjects, hsize, hnum, hdirty⟩ := started_db s
  constructor
  · constructor
    · intro pid ref hl
      rw [hpages] at hl
      rw [hobjects]
      exact h.filed pid ref hl
    · intro pid ref hl
      rw [hdirty] at hl
      rw [hobjects]
      exact h.listed pid ref hl
  · exact hsize
  · exact hnum
  · exact .start
  · intro obj hobj _
    rwa [hobjects] at hobj
  · intro id ref obj hc hobj
    rw [Cached, hpages, hdirty] at hc
    rw [hobjects] at hobj
    exact .cached hc hobj
  · intro pid hl
    rw [hpages] at hl
    exact .inl hl
  · intro pid hl
    rw [hdirty] at hl
    exact .inl hl
  · intro pid hl
    rwa [hdirty]
  · intro _ pid hl
    rwa [hpages]

/-- What `getPage` does: the page is in `dirtypages`, or the pool has it or loads it. -/
theorem getPage_cases {perm : Permissions} (hrun : TreeStore.getPage id perm t = .ok ref t') :
    (t.dirtypages.lookup (.btree id) = some ref ∧ t' = t) ∨
      t.dirtypages.lookup (.btree id) = none ∧
        ∃ db, BufferPool.getPage (.btree id) t.db = .ok ref db ∧ t' = ⟨db,
          if perm = .readWrite then t.dirtypages.insert (.btree id) ref else t.dirtypages⟩ := by
  change PoolTree.getPage id perm t = _ at hrun
  rw [PoolTree.getPage, bind_ok (get_run t)] at hrun
  cases hd : t.dirtypages.lookup (.btree id) with
  | some r =>
    rw [hd] at hrun
    cases hrun
    exact .inl ⟨rfl, rfl⟩
  | none =>
    rw [hd] at hrun
    obtain ⟨r, t₁, hload, hlist⟩ := of_bind_ok hrun
    cases hget : (BufferPool.getPage (.btree id) : DbM BTreeFilePage δ Ref) t.db with
    | error e db =>
      rw [onDb, zoom_error hget] at hload
      cases hload
    | ok r' db =>
      rw [onDb, zoom_ok hget] at hload
      cases hload
      cases perm with
      | readOnly =>
        cases hlist
        exact .inr ⟨rfl, db, rfl, rfl⟩
      | readWrite =>
        cases hlist
        exact .inr ⟨rfl, db, rfl, rfl⟩

/-- `dirtypages` takes a page up that has been fetched. -/
theorem Fetched.list (h : Fetched s t) (hask : MayAsk s id) {obj : PageObject BTreeFilePage}
    (hobj : t.db.objects[ref]? = some obj) (hid : PageFile.getId δ obj.page = .btree id)
    (hfind : MayFind s id obj.page) :
    Fetched s { t with dirtypages := t.dirtypages.insert (.btree id) ref } := by
  refine ⟨⟨h.sound.filed, ?_⟩, h.pageSize, h.numPages, h.files, h.marked, ?_, h.pool, ?_, ?_,
    h.stays⟩
  · intro q r hl
    change (t.dirtypages.insert (.btree id) ref).lookup q = some r at hl
    by_cases hq : q = .btree id
    · subst hq
      rw [AList.lookup_insert, Option.some.injEq] at hl
      subst hl
      exact ⟨obj, hobj, hid⟩
    · rw [AList.lookup_insert_ne hq] at hl
      exact h.sound.listed q r hl
  · intro i r o hc ho
    by_cases hi : PageId.btree i = .btree id
    · rcases hc with hl | hl
      · exact h.found i r o (.inl hl) ho
      · rw [hi] at hl
        change (t.dirtypages.insert (.btree id) ref).lookup (.btree id) = some r at hl
        rw [AList.lookup_insert, Option.some.injEq] at hl
        subst hl
        cases hobj.symm.trans ho
        rw [PageId.btree.inj hi]
        exact hfind
    · refine h.found i r o (hc.imp_right fun hl => ?_) ho
      exact (AList.lookup_insert_ne hi).symm.trans hl
  · intro q hl
    by_cases hq : q = .btree id
    · exact .inr ⟨id, hask, hq⟩
    · change ((t.dirtypages.insert (.btree id) ref).lookup q).isSome = true at hl
      rw [AList.lookup_insert_ne hq] at hl
      exact h.listed q hl
  · intro q hl
    change ((t.dirtypages.insert (.btree id) ref).lookup q).isSome = true
    by_cases hq : q = .btree id
    · subst hq
      rw [AList.lookup_insert]
      rfl
    · rw [AList.lookup_insert_ne hq]
      exact h.kept q hl

theorem Fetched.spilled (h : Fetched s t) {db : Database BTreeFilePage δ}
    (hthin : BufferPool.Thinned t.db db) : Spilled s db.files := by
  rcases hthin.files with hsame | ⟨obj, hmem, hdirty, tableId, hwrite⟩
  · rw [hsame]
    exact h.files
  · rw [h.pageSize] at hwrite
    exact .write tableId h.files (h.marked obj hmem hdirty) hdirty hwrite

theorem Fetched.room (h : Fetched s t) (hroomy : Roomy s) :
    t.db.pages.keys.length < t.db.numPages := by
  obtain ⟨ids, hids, hcard⟩ := hroomy
  have hsub : t.db.pages.keys.toFinset ⊆ s.db.pages.keys.toFinset ∪ ids := by
    intro pid hpid
    rw [List.mem_toFinset, ← AList.mem_keys, ← AList.lookup_isSome] at hpid
    rw [Finset.mem_union, List.mem_toFinset, ← AList.mem_keys, ← AList.lookup_isSome]
    refine (h.pool pid hpid).imp_right ?_
    rintro ⟨id, hask, rfl⟩
    exact hids id hask
  have hnodup : t.db.pages.keys.Nodup := t.db.pages.nodupKeys
  rw [h.numPages, ← List.toFinset_card_of_nodup hnodup]
  exact (Finset.card_le_card hsub).trans_lt hcard

variable [KeepsIds δ]

theorem Fetched.mayFind (h : Fetched s t) (hd : t.dirtypages.lookup (.btree id) = none) {files : δ}
    (hfiles : Spilled s files)
    (hread : PageFile.readPage files s.db.pageSize (.btree id) ref = .ok page) :
    MayFind s id page ∧ page.getId = id := by
  refine ⟨.read ?_ hfiles hread, ?_⟩
  · rw [← Option.not_isSome_iff_eq_none]
    intro hsome
    have hkept := h.kept _ hsome
    rw [hd] at hkept
    cases hkept
  · have hid := KeepsIds.readPage_id files s.db.pageSize (.btree id) ref page hread
    rw [KeepsIds.getId_eq] at hid
    exact PageId.btree.inj hid

theorem sound_load (h : Sound t) (hd : t.dirtypages.lookup (.btree id) = none)
    {db : Database BTreeFilePage δ} (hrun : BufferPool.getPage (.btree id) t.db = .ok ref db) :
    Sound { t with db } := by
  have hload : onDb (BufferPool.getPage (.btree id)) t = .ok ref { t with db } := zoom_ok hrun
  have hget : TreeStore.getPage id .readOnly t = .ok ref { t with db } := by
    change PoolTree.getPage id .readOnly t = _
    rw [PoolTree.getPage, bind_ok (get_run t), hd]
    dsimp only
    rw [bind_ok hload]
    rfl
  exact (keeps_sound_getPage id .readOnly).of_ok h hget

/-- The pool loads a page that `getEmptyPageNo` can ask for. -/
theorem Fetched.load (h : Fetched s t) (hask : MayAsk s id)
    (hd : t.dirtypages.lookup (.btree id) = none) (hp : t.db.pages.lookup (.btree id) = none)
    {db : Database BTreeFilePage δ} (hrun : BufferPool.getPage (.btree id) t.db = .ok ref db) :
    Fetched s { t with db } ∧ Finds s { t with db } ref id := by
  obtain ⟨page, hloaded⟩ := BufferPool.getPage_loaded hp hrun
  obtain ⟨db₁, hthin, hread, hfiles⟩ := hloaded.files
  have hspilled := h.spilled hthin
  rw [h.pageSize] at hread
  obtain ⟨hfind, hpageId⟩ := h.mayFind hd hspilled hread
  have hsound : Sound { t with db } := sound_load h.sound hd hrun
  refine ⟨⟨hsound, hloaded.pageSize.trans h.pageSize, hloaded.numPages.trans h.numPages,
    hfiles ▸ hspilled, ?_, ?_, ?_, h.listed, h.kept, ?_⟩, _, hloaded.new, hpageId, hfind⟩
  · intro obj hmem hdirty
    obtain ⟨r, hr⟩ := List.getElem?_of_mem hmem
    obtain ⟨-, rfl⟩ | ⟨-, old, hold, -, hsame⟩ := hloaded.objects r obj hr
    · cases hdirty
    · rw [hsame hdirty]
      rw [hsame hdirty] at hdirty
      exact h.marked old (List.mem_of_getElem? hold) hdirty
  · intro i r obj hc hobj
    obtain ⟨rfl, rfl⟩ | ⟨hne, old, hold, hpage, -⟩ := hloaded.objects r obj hobj
    · -- the new object shows its id
      obtain ⟨o, ho, hid⟩ := hsound.object hc
      cases ho.symm.trans hobj
      rw [KeepsIds.getId_eq, PageId.btree.injEq] at hid
      rw [← hid, hpageId]
      exact hfind
    · rw [hpage]
      refine h.found i r old ?_ hold
      rcases hc with hl | hl
      · exact .inl ((hloaded.pages _ r hl).resolve_left fun hnew => hne hnew.2)
      · exact .inr hl
  · intro q hl
    obtain ⟨r, hr⟩ := Option.isSome_iff_exists.mp hl
    obtain ⟨hq, -⟩ | hold := hloaded.pages q r hr
    · exact .inr ⟨id, hask, hq⟩
    · exact h.pool q (by rw [hold]; rfl)
  · intro hroomy q hl
    exact hloaded.stays (h.room hroomy) q (h.stays hroomy q hl)

theorem Fetched.finds (h : Fetched s t) (hc : Cached t (.btree id) ref) : Finds s t ref id := by
  obtain ⟨obj, hobj, hid⟩ := h.sound.object hc
  rw [KeepsIds.getId_eq, PageId.btree.injEq] at hid
  exact ⟨obj, hobj, hid, h.found id ref obj hc hobj⟩

theorem Fetched.getPage (h : Fetched s t) (hask : MayAsk s id) {perm : Permissions}
    (hrun : TreeStore.getPage id perm t = .ok ref t') : Fetched s t' ∧ Finds s t' ref id := by
  obtain ⟨hd, rfl⟩ | ⟨hd, db, hget, rfl⟩ := getPage_cases hrun
  · exact ⟨h, h.finds (.inr hd)⟩
  · have hpool : Fetched s { t with db } ∧ Finds s { t with db } ref id := by
      cases hp : t.db.pages.lookup (.btree id) with
      | none => exact h.load hask hd hp hget
      | some r =>
        rw [BufferPool.getPage, bind_ok (get_run t.db), hp] at hget
        cases hget
        exact ⟨h, h.finds (.inl hp)⟩
    obtain ⟨hfetched, obj, hobj, hid, hfind⟩ := hpool
    cases perm with
    | readOnly => exact ⟨hfetched, obj, hobj, hid, hfind⟩
    | readWrite =>
      have hgetId : PageFile.getId δ obj.page = .btree id := by rw [KeepsIds.getId_eq, hid]
      exact ⟨hfetched.list hask hobj hgetId hfind, obj, hobj, hid, hfind⟩

omit [KeepsIds δ] in
theorem headerAt_find {p : BTreeHeaderPage} (hfinds : Finds s t ref id)
    (hrun : headerAt ref t = .ok p t') : t' = t ∧ p.pid = id ∧ MayFind s id (.header p) := by
  obtain ⟨obj, hobj, hid, hfind⟩ := hfinds
  rw [headerAt, bind_ok (load_run hobj)] at hrun
  generalize obj.page = page at hid hfind hrun
  cases page with
  | header q =>
    cases hrun
    exact ⟨rfl, hid, hfind⟩
  | rootPtr q => cases hrun
  | internal q => cases hrun
  | leaf q => cases hrun

/-- Along the header pages only such pages are fetched. -/
theorem Fetched.findHeaderPage {fuel count : ℕ} {found : Option (BTreePageId × ℕ)}
    (h : Fetched s t) (hask : MayAsk s id) (hfinds : Finds s t ref id)
    (hrun : findHeaderPage fuel ref count t = .ok found t') :
    Fetched s t' ∧ ∀ f ∈ found, MayAsk s f.1 := by
  induction fuel generalizing t ref id count with
  | zero => cases hrun
  | succ fuel ih =>
    obtain ⟨p, t₁, hheader, hrest⟩ := of_bind_ok hrun
    obtain ⟨rfl, hpid, hfind⟩ := headerAt_find hfinds hheader
    rw [bind_ok (get_run t₁)] at hrest
    split at hrest
    · cases hrest
      refine ⟨h, ?_⟩
      rintro f ⟨⟩
      rw [hpid]
      exact hask
    · rename_i hfull
      rw [Bool.not_eq_true, Option.isSome_eq_false_iff, Option.isNone_iff_eq_none] at hfull
      cases hnext : p.getNextPageId with
      | none =>
        rw [hnext] at hrest
        cases hrest
        exact ⟨h, fun f hf => nomatch hf⟩
      | some next =>
        rw [hnext] at hrest
        obtain ⟨r, t₂, hget, hwalk⟩ := of_bind_ok hrest
        have hfull' : p.getEmptySlot s.db.pageSize = none := h.pageSize ▸ hfull
        have hnext' : MayAsk s next := .next hask hfind (by simp [following, hfull', hnext])
        obtain ⟨h', hfinds'⟩ := h.getPage hnext' hget
        exact ih h' hnext' hfinds' hwalk

theorem Fetched.findEmptyHeader {p : BTreeRootPtrPage} {found : Option (BTreePageId × ℕ)}
    (h : Fetched s t) (hask : MayAsk s id) (hfind : MayFind s id (.rootPtr p))
    (hrun : findEmptyHeader p t = .ok found t') :
    Fetched s t' ∧ ∀ f ∈ found, MayAsk s f.1 := by
  unfold BTreeFile.findEmptyHeader at hrun
  cases hfirst : p.getHeaderId with
  | none =>
    rw [hfirst] at hrun
    cases hrun
    exact ⟨h, fun f hf => nomatch hf⟩
  | some first =>
    rw [hfirst] at hrun
    obtain ⟨r, t₁, hget, hwalk⟩ := of_bind_ok hrun
    have hfirst' : MayAsk s first := .next hask hfind hfirst
    obtain ⟨h', hfinds⟩ := h.getPage hfirst' hget
    rw [bind_ok (get_run t₁)] at hwalk
    exact h'.findHeaderPage hfirst' hfinds hwalk

theorem getRootPtrPage_fetched (hs : Sound s) (hrun : getRootPtrPage s = .ok ref t) :
    ∃ id, MayAsk s id ∧ Fetched s t ∧ Finds s t ref id := by
  have hread : (rootPtrId >>= fun id => TreeStore.getPage id .readOnly) (started s) = .ok ref t := by
    rw [getRootPtrPage, bind_ok (get_run s)] at hrun
    split at hrun
    · have hempty : BTreeDisk.isEmpty s.db.files = true := ‹_›
      rw [started, if_pos hempty]
      exact hrun
    · have hfull : ¬ BTreeDisk.isEmpty s.db.files = true := ‹_›
      rw [started, if_neg hfull]
      exact hrun
  have hid : (rootPtrId : EStateM Fault (PoolTree δ) BTreePageId) (started s) =
      .ok (rootPtrPageId s) (started s) := rfl
  rw [bind_ok hid] at hread
  exact ⟨_, .rootPtr, (Fetched.start hs).getPage .rootPtr hread⟩

def SameCaches (s t : PoolTree δ) : Prop :=
  t.db.pages = s.db.pages ∧ t.dirtypages = s.dirtypages ∧ t.db.numPages = s.db.numPages

omit [KeepsIds δ] in
theorem store_caches (hrun : TreeStore.store ref page t = .ok () t') : SameCaches t t' := by
  change PoolTree.store ref page t = _ at hrun
  obtain ⟨obj, t₁, hderef, hset⟩ := of_bind_ok hrun
  cases hobj : t.db.objects[ref]? with
  | none =>
    have hfail : onDb (deref ref) t = .error .nullDeref t :=
      zoom_error (show deref ref t.db = .error .nullDeref t.db by rw [deref, hobj])
    rw [hfail] at hderef
    cases hderef
  | some old =>
    have hload : onDb (deref ref) t = .ok old t := zoom_ok (deref_run hobj)
    rw [hload] at hderef
    cases hderef
    cases hset
    exact ⟨rfl, rfl, rfl⟩

omit [KeepsIds δ] in
theorem markSlotUsed_caches {slot : Int} {value : Bool}
    (hrun : markSlotUsed ref slot value t = .ok () t') : SameCaches t t' := by
  rw [markSlotUsed, bind_ok (get_run t)] at hrun
  obtain ⟨p, t₁, hheader, hrest⟩ := of_bind_ok hrun
  obtain ⟨rfl, -⟩ := headerAt_ok hheader
  obtain ⟨q, t₂, hlift, hstore⟩ := of_bind_ok hrest
  obtain ⟨-, rfl⟩ := of_lift_ok hlift
  exact store_caches hstore

/-- To choose a number, only pages are fetched that can be told before. -/
theorem getEmptyPageNo_fetched {n : Int32} (hs : Sound s) (hrun : getEmptyPageNo s = .ok n s₁) :
    ∃ t, Fetched s t ∧ SameCaches t s₁ := by
  obtain ⟨rootPtr, t₁, hroot, hrest₁⟩ := of_bind_ok hrun
  obtain ⟨id, hask, h₁, obj, hobj, -, hfind⟩ := getRootPtrPage_fetched hs hroot
  obtain ⟨p, t₂, hp, hrest₂⟩ := of_bind_ok hrest₁
  rw [rootPtrAt, bind_ok (load_run hobj)] at hp
  generalize obj.page = page at hfind hp
  cases page with
  | header q => cases hp
  | internal q => cases hp
  | leaf q => cases hp
  | rootPtr q =>
    cases hp
    obtain ⟨found, t₃, hsearch, hrest₃⟩ := of_bind_ok hrest₂
    obtain ⟨h₃, hfound⟩ := h₁.findEmptyHeader hask hfind hsearch
    cases found with
    | none =>
      obtain ⟨⟨⟩, t₄, happend, hend⟩ := of_bind_ok hrest₃
      cases happend
      cases hend
      exact ⟨t₃, h₃, rfl, rfl, rfl⟩
    | some found =>
      obtain ⟨headerId, count⟩ := found
      obtain ⟨ref, t₄, hget, hrest₄⟩ := of_bind_ok hrest₃
      obtain ⟨h₄, hfinds⟩ := h₃.getPage (hfound _ rfl) hget
      obtain ⟨header, t₅, hheader, hrest₅⟩ := of_bind_ok hrest₄
      obtain ⟨rfl, -⟩ := headerAt_find hfinds hheader
      rw [bind_ok (get_run t₅)] at hrest₅
      cases hslot : header.getEmptySlot (TreeStore.pageSize t₅) with
      | none =>
        simp only [hslot] at hrest₅
        cases hrest₅
      | some slot =>
        simp only [hslot] at hrest₅
        obtain ⟨⟨⟩, t₆, hmark, hend⟩ := of_bind_ok hrest₅
        cases hend
        exact ⟨t₅, h₄, markSlotUsed_caches hmark⟩

/-- Neither cache has a page with the number of `id` and another kind, and to choose a number no
such page is asked for. -/
def Unshared (s : PoolTree δ) (id : BTreePageId) : Prop :=
  ∀ kind, kind ≠ id.type → s.dirtypages.lookup (asKind id kind) = none ∧
    s.db.pages.lookup (asKind id kind) = none ∧ ¬ MayAsk s { id with type := kind }

/-- Where the caches have no other page of the number that `getEmptyPage` hands out, and none is
asked for, they have one copy of the new page afterwards; where they have one in `dirtypages`, or in
a pool that need not evict it, they have two. -/
theorem getEmptyPage_soleCopy {type : BTreePageType} (hsound : Sound s)
    (hrun : getEmptyPage type s = .ok ref s') (hid : Shows ref id s'.db) :
    (Unshared s id → SoleCopy s' id) ∧
      (SoleCopy s' id → ∀ kind, kind ≠ id.type → s.dirtypages.lookup (asKind id kind) = none ∧
        (Roomy s → s.db.pages.lookup (asKind id kind) = none)) := by
  obtain ⟨n, s₁, hno, -⟩ := of_bind_ok hrun
  have hsound' : Sound s' := (keeps_sound_getEmptyPage type).of_ok hsound hrun
  have hnew : id = ⟨BTreeDisk.tableid s₁.db.files, n, type⟩ := by
    have hget := hrun
    rw [getEmptyPage_discarded hno] at hget
    obtain ⟨-, hdirty, -⟩ := getPage_discarded hget
    obtain ⟨obj, hobj, hobjId⟩ := hsound'.object (.inr ((hdirty _).trans (if_pos rfl)))
    obtain ⟨obj', hobj', rfl⟩ := hid
    cases hobj.symm.trans hobj'
    rw [KeepsIds.getId_eq] at hobjId
    exact PageId.btree.inj hobjId
  have hiff := soleCopy_iff_othersGone hsound hno hrun
  rw [← hnew] at hiff
  obtain ⟨t, ht, hpages, hdirty, hnum⟩ := getEmptyPageNo_fetched hsound hno
  rw [hiff]
  constructor
  · intro hun kind hkind
    obtain ⟨hd, hp, hask⟩ := hun kind hkind
    have hnot : ¬ ∃ i, MayAsk s i ∧ asKind id kind = .btree i := by
      rintro ⟨i, hi, heq⟩
      rw [← PageId.btree.inj heq] at hi
      exact hask hi
    rw [hdirty, hpages]
    constructor
    · rw [← Option.not_isSome_iff_eq_none]
      intro hsome
      have hold := (ht.listed _ hsome).resolve_right hnot
      rw [hd] at hold
      cases hold
    · left
      rw [← Option.not_isSome_iff_eq_none]
      intro hsome
      have hold := (ht.pool _ hsome).resolve_right hnot
      rw [hp] at hold
      cases hold
  · intro hgone kind hkind
    obtain ⟨hd, hp⟩ := hgone kind hkind
    rw [hdirty] at hd
    rw [hpages] at hp
    constructor
    · rw [← Option.not_isSome_iff_eq_none]
      intro hsome
      have hkept := ht.kept _ hsome
      rw [hd] at hkept
      cases hkept
    · intro hroomy
      rw [← Option.not_isSome_iff_eq_none]
      intro hsome
      have hstays := ht.stays hroomy _ hsome
      rcases hp with hnone | ⟨hfull, -⟩
      · rw [hnone] at hstays
        cases hstays
      · have hroom := ht.room hroomy
        have herase : (t.db.pages.erase (.btree id)).keys.length ≤ t.db.pages.keys.length := by
          rw [AList.keys_erase]
          exact List.length_erase_le
        change s₁.db.numPages ≤ (t.db.pages.erase (.btree id)).keys.length at hfull
        omega

section Example

/-- The pages of the list are in `dirtypages`, the pool has no other copies of them, and what
follows one of them is among them. -/
def listsAll (s : PoolTree δ) (ids : List BTreePageId) : Bool :=
  ids.contains (rootPtrPageId s) && ids.all fun id =>
    match s.dirtypages.lookup (.btree id) with
    | none => false
    | some ref => (s.db.pages.lookup (.btree id)).all (· = ref) &&
      match s.db.objects[ref]? with
      | none => false
      | some obj => (following s.db.pageSize obj.page).all (ids.contains ·)

omit [KeepsIds δ] in
theorem MayAsk.mem_of_listsAll {ids : List BTreePageId} (hall : listsAll s ids = true)
    (h : MayAsk s id) : id ∈ ids := by
  rw [listsAll, Bool.and_eq_true, List.all_eq_true] at hall
  obtain ⟨hroot, hids⟩ := hall
  induction h with
  | rootPtr => simpa using hroot
  | @next pid id page _ hfind hnext ih =>
    have hpid := hids pid ih
    split at hpid
    · cases hpid
    · rename_i ref hd
      rw [Bool.and_eq_true] at hpid
      obtain ⟨hsame, hobject⟩ := hpid
      cases hfind with
      | read hnone =>
        rw [hd] at hnone
        cases hnone
      | @cached r obj hc hobj =>
        have hr : r = ref := by
          rcases hc with hl | hl
          · rw [hl] at hsame
            simpa using hsame
          · exact Option.some.inj (hl.symm.trans hd)
        subst hr
        rw [hobj] at hobject
        dsimp only at hobject
        rw [hnext] at hobject
        simpa using hobject

def filesAll (db : Database BTreeFilePage δ) (pages : PagesMap) : Bool :=
  pages.entries.all fun e =>
    match db.objects[e.2]? with
    | none => false
    | some obj => PageFile.getId δ obj.page = e.1

omit [KeepsIds δ] in
theorem object_of_filesAll {db : Database BTreeFilePage δ} {pages : PagesMap} {pid : PageId}
    (hall : filesAll db pages = true) (hl : pages.lookup pid = some ref) :
    ∃ obj, db.objects[ref]? = some obj ∧ PageFile.getId δ obj.page = pid := by
  have hentry := List.all_eq_true.mp hall ⟨pid, ref⟩ (AList.mem_lookup_iff.mp hl)
  split at hentry
  · cases hentry
  · exact ⟨_, ‹_›, of_decide_eq_true hentry⟩

/-- A new file in which page 2 was handed out for a leaf and freed again. -/
def leafFreed : Option (PoolTree PositionalFile) :=
  match (getEmptyPage .leaf (opened intsFile 29 50 fun _ => 0) :
    EStateM.Result Fault (PoolTree PositionalFile) Ref) with
  | .error _ _ => none
  | .ok _ s =>
    match (setEmptyPage 2 s : EStateM.Result Fault (PoolTree PositionalFile) Unit) with
    | .error _ _ => none
    | .ok _ s => some s

/-- Its pages are where they belong, page 2 is cached as a leaf only, and its number is handed out
for a leaf again. -/
def leafAgain : Bool :=
  match leafFreed with
  | none => false
  | some s =>
    match (getEmptyPage .leaf s : EStateM.Result Fault (PoolTree PositionalFile) Ref) with
    | .error _ _ => false
    | .ok ref s' =>
      filesAll s.db s.db.pages && filesAll s.db s.dirtypages &&
        listsAll s [⟨7, 0, .rootPtr⟩, ⟨7, 3, .header⟩] &&
        (s.dirtypages.keys ++ s.db.pages.keys).all (fun pid => !sharesNumber ⟨7, 2, .leaf⟩ pid) &&
        (s.dirtypages.lookup (.btree ⟨7, 2, .leaf⟩)).isSome &&
        (s'.db.objects[ref]?).any fun obj => obj.page.getId = ⟨7, 2, .leaf⟩

theorem getEmptyPage_soleCopy_leafAgain : ∃ (s s' : PoolTree PositionalFile) (ref : Ref),
    leafFreed = some s ∧ (s.dirtypages.lookup (.btree ⟨7, 2, .leaf⟩)).isSome ∧
      getEmptyPage .leaf s = .ok ref s' ∧ Shows ref ⟨7, 2, .leaf⟩ s'.db ∧
      SoleCopy s' ⟨7, 2, .leaf⟩ := by
  have hagain : leafAgain = true := by decide +kernel
  unfold leafAgain at hagain
  split at hagain
  · cases hagain
  · rename_i s hfreed
    split at hagain
    · cases hagain
    · rename_i ref s' hrun
      simp only [Bool.and_eq_true, List.all_eq_true, List.mem_append, Bool.not_eq_true'] at hagain
      obtain ⟨⟨⟨⟨⟨hpool, hdirty⟩, hlists⟩, hsole⟩, hlisted⟩, hpage⟩ := hagain
      have hsound : Sound s :=
        ⟨fun _ _ => object_of_filesAll hpool, fun _ _ => object_of_filesAll hdirty⟩
      have hid : Shows ref ⟨7, 2, .leaf⟩ s'.db := by
        obtain ⟨obj, hobj, hobjId⟩ := (Option.any_eq_true _ _).mp hpage
        exact ⟨obj, hobj, of_decide_eq_true hobjId⟩
      have hunshared : Unshared s ⟨7, 2, .leaf⟩ := by
        intro kind hkind
        have hshares : sharesNumber ⟨7, 2, .leaf⟩ (asKind ⟨7, 2, .leaf⟩ kind) = true :=
          sharesNumber_iff.mpr ⟨kind, hkind, rfl⟩
        refine ⟨?_, ?_, ?_⟩
        · rw [AList.lookup_eq_none, AList.mem_keys]
          intro hmem
          rw [hsole _ (.inl hmem)] at hshares
          cases hshares
        · rw [AList.lookup_eq_none, AList.mem_keys]
          intro hmem
          rw [hsole _ (.inr hmem)] at hshares
          cases hshares
        · intro hask
          have hmem := hask.mem_of_listsAll hlists
          simp at hmem
      exact ⟨s, s', ref, hfreed, hlisted, hrun, hid,
        (getEmptyPage_soleCopy hsound hrun hid).1 hunshared⟩

end Example

end PoolTree

end PagedDb
