import PagedDb.Storage.FlushEffects

/-!
# What runs of flushes write

Only resident pages are written back, and flushing makes no page resident: in
any sequence of flush calls, failed ones included, every page that is written
was resident at the start.
-/

namespace PagedDb

open Exec

variable {π δ : Type} [PageFile π δ] {db : Database π δ}

theorem FiledById.erase (h : FiledById db) (pid : PageId) :
    FiledById { db with pages := db.pages.erase pid } := by
  intro q ref hl
  by_cases hq : q = pid
  · subst hq
    have hnone : (db.pages.erase q).lookup q = none := AList.lookup_erase q db.pages
    exact absurd (hnone.symm.trans hl) (by simp)
  · exact h q ref ((AList.lookup_erase_ne hq).symm.trans hl)

namespace BufferPool

/-- What a flush leaves, whether it succeeds or throws: nothing is done, or the mark of a resident
page is cleared, and its file is written or is not. -/
theorem flushPage_cases (pid : PageId) (db : Database π δ) :
    stateOf (flushPage pid db) = db ∨ ∃ ref obj files,
      db.pages.lookup pid = some ref ∧ db.objects[ref]? = some obj ∧
      stateOf (flushPage pid db) =
        { db.setObject ref { obj with dirty := none } with files } ∧
      (files = db.files ∨
        PageFile.writePage db.files db.pageSize pid.getTableId obj.page = .ok files) := by
  rw [flushPage, bind_ok (get_run db)]
  cases hl : db.pages.lookup pid with
  | none => exact .inl rfl
  | some ref =>
    dsimp only
    cases hobj : db.objects[ref]? with
    | none =>
      have hfail : deref ref db = .error .nullDeref db := by rw [deref, hobj]
      rw [bind_error hfail]
      exact .inl rfl
    | some obj =>
      rw [bind_ok (deref_run hobj)]
      split
      · right
        rw [bind_ok (markDirty_run hobj none)]
        cases hw : PageFile.writePage db.files db.pageSize pid.getTableId obj.page with
        | error e => exact ⟨ref, obj, db.files, rfl, hobj, rfl, .inl rfl⟩
        | ok files => exact ⟨ref, obj, files, rfl, hobj, rfl, .inr hw⟩
      · exact .inl rfl

theorem flushPage_frame (pid : PageId) (db : Database π δ) :
    (stateOf (flushPage pid db)).pages = db.pages ∧
      (stateOf (flushPage pid db)).objects.length = db.objects.length := by
  obtain heq | ⟨ref, obj, files, -, -, heq, -⟩ := flushPage_cases pid db
  · rw [heq]
    exact ⟨rfl, rfl⟩
  · rw [heq]
    exact ⟨rfl, List.length_set⟩

theorem keeps_filed_flushPage (pid : PageId) :
    Keeps FiledById (flushPage pid : DbM π δ Unit) := by
  intro db h
  obtain heq | ⟨ref, obj, files, hl, hobj, heq, -⟩ := flushPage_cases pid db
  · rw [heq]
    exact h
  · rw [heq]
    exact (h.setDirty hl hobj none).1

theorem keeps_filed_evictPage : Keeps FiledById (evictPage : DbM π δ Unit) := by
  apply Keeps.get
  intro db
  split
  · exact Keeps.pure ()
  · rename_i pid _
    refine Keeps.bind (Keeps.modify ?_) fun _ => (keeps_filed_flushPage pid).bind fun _ =>
      Keeps.modify ?_
    · exact fun _ h => h
    · exact fun _ h => FiledById.erase h pid

/-- An eviction takes the page at `begin()` out of the pool, and no other. -/
theorem evictPage_ok {db' : Database π δ} (h : evictPage db = .ok () db') :
    (∀ pid, db'.pages.lookup pid = if db.victim = some pid then none else db.pages.lookup pid) ∧
      db'.objects.length = db.objects.length := by
  rw [evictPage, bind_ok (get_run db)] at h
  cases hvictim : db.victim with
  | none =>
    simp only [show db.pages.keys[db.order 0 % db.pages.keys.length]? = none from hvictim] at h
    cases h
    simp
  | some v =>
    simp only [show db.pages.keys[db.order 0 % db.pages.keys.length]? = some v from hvictim,
      bind_ok (modify_run _ db)] at h
    obtain ⟨⟨⟩, db₁, hflush, hend⟩ := of_bind_ok h
    cases hend
    obtain ⟨hpages, hlength⟩ := flushPage_frame v { db with order := fun n => db.order (n + 1) }
    rw [hflush] at hpages hlength
    refine ⟨?_, hlength⟩
    intro pid
    change (db₁.pages.erase v).lookup pid = _
    rw [show db₁.pages = db.pages from hpages]
    by_cases hpid : pid = v
    · subst hpid
      rw [if_pos rfl]
      exact AList.lookup_erase pid db.pages
    · rw [AList.lookup_erase_ne hpid, if_neg (by simpa using Ne.symm hpid)]

end BufferPool

/-- The pool is full, and `pid` is the page that is evicted to make room. -/
def Database.Evicts (db : Database π δ) (pid : PageId) : Prop :=
  db.numPages ≤ db.pages.keys.length ∧ db.victim = some pid

instance (db : Database π δ) (pid : PageId) : Decidable (db.Evicts pid) :=
  inferInstanceAs (Decidable (_ ∧ _))

namespace BufferPool

variable {db' : Database π δ} {pid : PageId} {ref : Ref}

/-- `getPage` of a page that is not resident: it is filed in a new object, and no other page but
the one that makes room for it leaves the pool. -/
theorem getPage_absent (hl : db.pages.lookup pid = none) (hrun : getPage pid db = .ok ref db') :
    ref = db.objects.length ∧ ∀ q, db'.pages.lookup q =
      if q = pid then some ref else if db.Evicts q then none else db.pages.lookup q := by
  rw [getPage, bind_ok (get_run db), hl] at hrun
  obtain ⟨⟨⟩, db₁, hevict, hload⟩ := of_bind_ok hrun
  have hpages : (∀ q, db₁.pages.lookup q =
      if db.Evicts q then none else db.pages.lookup q) ∧
      db₁.objects.length = db.objects.length := by
    unfold evictIf at hevict
    split at hevict
    · rename_i hfull
      obtain ⟨hlookup, hlength⟩ := evictPage_ok hevict
      refine ⟨?_, hlength⟩
      intro q
      simp only [hlookup, Database.Evicts, hfull, true_and]
    · rename_i hroom
      cases hevict
      simp [Database.Evicts, hroom]
  obtain ⟨hlookup, hlength⟩ := hpages
  rw [loadPage, bind_ok (get_run db₁)] at hload
  obtain ⟨page, db₂, hread, hnew⟩ := of_bind_ok hload
  obtain ⟨-, rfl⟩ := of_lift_ok hread
  cases hnew
  refine ⟨hlength, ?_⟩
  intro q
  by_cases hq : q = pid
  · subst hq
    rw [if_pos rfl]
    exact AList.lookup_insert _
  · rw [if_neg hq, ← hlookup]
    exact AList.lookup_insert_ne hq

/-- Where reading a page gives a page with the id asked for, pages are filed under their ids. -/
theorem keeps_filed_getPage
    (hread : ∀ (files : δ) (pageSize : ℕ) (pid : PageId) (ref : Ref) (p : π),
      PageFile.readPage files pageSize pid ref = .ok p → PageFile.getId δ p = pid) (pid : PageId) :
    Keeps FiledById (getPage pid : DbM π δ Ref) := by
  apply Keeps.get
  intro db
  split
  · exact Keeps.pure _
  · refine (Keeps.ite keeps_filed_evictPage (Keeps.pure ())).bind fun _ => ?_
    intro db h
    rw [loadPage, bind_ok (get_run db)]
    cases hp : (PageFile.readPage db.files db.pageSize pid db.objects.length : Except Fault π) with
    | error e =>
      rw [bind_error (lift_error e db)]
      exact h
    | ok p =>
      rw [bind_ok (lift_run rfl db)]
      intro q r hl
      change (db.pages.insert pid db.objects.length).lookup q = some r at hl
      change ∃ obj, (db.objects ++ [⟨p, none⟩])[r]? = some obj ∧ _
      by_cases hq : q = pid
      · subst hq
        rw [AList.lookup_insert, Option.some.injEq] at hl
        subst hl
        exact ⟨⟨p, none⟩, List.getElem?_concat_length, hread _ _ _ _ _ hp⟩
      · rw [AList.lookup_insert_ne hq] at hl
        obtain ⟨obj, hobj, hid⟩ := h q r hl
        have hlt := (List.getElem?_eq_some_iff.mp hobj).1
        exact ⟨obj, (List.getElem?_append_left hlt).trans hobj, hid⟩

end BufferPool

def Database.logged (db : Database π δ) : Database π (Logged δ) :=
  { db with files := ⟨db.files, []⟩ }

/-- Pages only leave the pool, and what was written was resident in `pages`. -/
structure WritesOnly (pages : PagesMap) (db : Database π (Logged δ)) : Prop where
  filed : FiledById db
  entries : ∀ pid ref, db.pages.lookup pid = some ref → pages.lookup pid = some ref
  log : ∀ pid, .written pid ∈ db.files.log → (pages.lookup pid).isSome

namespace BufferPool

variable {pages : PagesMap}

theorem keeps_writesOnly_flushPage (pid : PageId) :
    Keeps (WritesOnly pages) (flushPage pid : DbM π (Logged δ) Unit) := by
  intro db h
  have hfiled := keeps_filed_flushPage pid db h.filed
  have hpages := (flushPage_frame pid db).1
  refine ⟨hfiled, by rw [hpages]; exact h.entries, ?_⟩
  obtain heq | ⟨ref, obj, files, hl, hobj, heq, hfiles⟩ := flushPage_cases pid db
  · rw [heq]
    exact h.log
  · rw [heq]
    rcases hfiles with rfl | hwrite
    · exact h.log
    · -- the page that is written is the one under `pid`
      obtain ⟨o, ho, hid⟩ := h.filed pid ref hl
      rw [hobj, Option.some.injEq] at ho
      subst ho
      obtain ⟨files', -, hfiles⟩ := of_except_bind hwrite
      cases hfiles
      intro q hq
      rcases List.mem_append.mp hq with hq | hq
      · exact h.log q hq
      · rw [List.mem_singleton, PageEvent.written.injEq] at hq
        rw [hq, show PageFile.getId δ obj.page = pid from hid, h.entries pid ref hl]
        rfl

theorem keeps_writesOnly_evictPage :
    Keeps (WritesOnly pages) (evictPage : DbM π (Logged δ) Unit) := by
  apply Keeps.get
  intro db
  split
  · exact Keeps.pure ()
  · rename_i pid _
    refine Keeps.bind (Keeps.modify ?_) fun _ => (keeps_writesOnly_flushPage pid).bind fun _ =>
      Keeps.modify ?_
    · exact fun _ h => ⟨h.filed, h.entries, h.log⟩
    · rintro db h
      refine ⟨h.filed.erase pid, ?_, h.log⟩
      intro q ref hl
      by_cases hq : q = pid
      · subst hq
        have hnone : (db.pages.erase q).lookup q = none := AList.lookup_erase q db.pages
        exact absurd (hnone.symm.trans hl) (by simp)
      · exact h.entries q ref ((AList.lookup_erase_ne hq).symm.trans hl)

end BufferPool

namespace FlushCall

open BufferPool

variable {pages : PagesMap}

theorem keeps_writesOnly (call : FlushCall) :
    Keeps (WritesOnly pages) (call.run : DbM π (Logged δ) Unit) := by
  cases call with
  | flushPage pid => exact keeps_writesOnly_flushPage pid
  | flushAllPages => exact Keeps.get fun db => Keeps.forM keeps_writesOnly_flushPage _
  | evictPage => exact keeps_writesOnly_evictPage
  | flushPages tid =>
    refine Keeps.get fun db => Keeps.forM ?_ _
    intro item
    refine Keeps.bind ?_ fun obj => Keeps.ite (keeps_writesOnly_flushPage _) (Keeps.pure _)
    intro db h
    unfold deref
    split <;> exact h

def runAll (calls : List FlushCall) (db : Database π δ) : Database π δ :=
  calls.foldl (fun db call => stateOf (call.run db)) db

theorem runAll_writesOnly (calls : List FlushCall) {db : Database π (Logged δ)}
    (h : WritesOnly pages db) : WritesOnly pages (runAll calls db) := by
  induction calls generalizing db with
  | nil => exact h
  | cons call calls ih => exact ih (keeps_writesOnly call db h)

theorem runAll_written (calls : List FlushCall) (h : FiledById db) {pid : PageId}
    (hw : .written pid ∈ (runAll calls db.logged).files.log) : (db.pages.lookup pid).isSome := by
  have hstart : WritesOnly db.pages db.logged := ⟨h, fun _ _ hl => hl, fun _ hmem => by cases hmem⟩
  exact (runAll_writesOnly calls hstart).log pid hw

theorem runAll_erase (calls : List FlushCall) (db : Database π (Logged δ)) :
    (runAll calls db).erase = runAll calls db.erase := by
  induction calls generalizing db with
  | nil => rfl
  | cons call calls ih =>
    have herase : Erases Database.erase (call.run : DbM π (Logged δ) Unit) call.run := by
      cases call with
      | flushPage pid => exact erases_flushPage pid
      | flushPages tid => exact erases_flushPages tid
      | flushAllPages => exact erases_flushAllPages
      | evictPage => exact erases_evictPage
    have hstep : (stateOf (call.run db)).erase = stateOf (call.run db.erase) := by
      rw [← herase db, stateOf_mapState]
    exact (ih _).trans (congrArg (runAll calls) hstep)

end FlushCall

end PagedDb
