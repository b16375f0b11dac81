import PagedDb.Foundation.Erasure
import PagedDb.Storage.BufferPool

/-!
# Files that log their writes

To say when a page was written, files are run with a log of what was done to
pages: which transaction modified which page, and which page was handed to
`writePage`. The pool over such files does what it does over the files alone.
-/

namespace PagedDb

open Exec

variable {π δ : Type}

/-- What is done to a page. -/
inductive PageEvent
  | modified (tid : TransactionId) (pid : PageId)
  | written (pid : PageId)
  deriving DecidableEq

/-- Files and the log, oldest event first. -/
structure Logged (δ : Type) where
  files : δ
  log : List PageEvent

instance [PageFile π δ] : PageFile π (Logged δ) where
  getId := PageFile.getId δ
  readPage f := PageFile.readPage f.files
  writePage f pageSize tableId page := do
    let files ← PageFile.writePage f.files pageSize tableId page
    pure ⟨files, f.log ++ [.written (PageFile.getId δ page)]⟩

def Database.erase (db : Database π (Logged δ)) : Database π δ :=
  { db with files := db.files.files }

/-- The transaction that modified a page last, unless the page was written since. -/
def owner (log : List PageEvent) (pid : PageId) : Option TransactionId :=
  log.foldl (fun last e =>
    match e with
    | .modified tid q => if q = pid then some tid else last
    | .written q => if q = pid then none else last) none

/-- A modification of the page by the transaction has no write of the page after it. -/
def Unwritten (log : List PageEvent) (tid : TransactionId) (pid : PageId) : Prop :=
  ∃ before after, log = before ++ .modified tid pid :: after ∧ .written pid ∉ after

/-- Every page the transaction modified was written at or after its last modification. -/
def Durable (log : List PageEvent) (tid : TransactionId) : Prop := ∀ pid, ¬ Unwritten log tid pid

variable {log : List PageEvent} {pid q : PageId} {tid : TransactionId}

@[simp] theorem owner_modified (log : List PageEvent) (tid : TransactionId) (q pid : PageId) :
    owner (log ++ [.modified tid q]) pid = if q = pid then some tid else owner log pid := by
  simp [owner]

@[simp] theorem owner_written (log : List PageEvent) (q pid : PageId) :
    owner (log ++ [.written q]) pid = if q = pid then none else owner log pid := by
  simp [owner]

theorem owner_append_written (log : List PageEvent) (writes : List PageId) (pid : PageId) :
    owner (log ++ writes.map .written) pid = if pid ∈ writes then none else owner log pid := by
  induction writes using List.reverseRecOn with
  | nil => simp
  | append_singleton writes q ih =>
    rw [List.map_append, ← List.append_assoc, List.map_singleton, owner_written, ih]
    by_cases hq : q = pid
    · simp [hq]
    · simp [hq, Ne.symm hq]

/-- A few writes later, the modification is unwritten if the page is not among them. -/
theorem unwritten_append_written (log : List PageEvent) (writes : List PageId)
    (tid : TransactionId) (pid : PageId) :
    Unwritten (log ++ writes.map .written) tid pid ↔ Unwritten log tid pid ∧ pid ∉ writes := by
  constructor
  · rintro ⟨before, after, heq, hafter⟩
    rcases List.append_eq_append_iff.mp heq with ⟨as, hbefore, hrest⟩ | ⟨as, hlog, hrest⟩
    · -- the modification is not one of the writes
      have hmem : PageEvent.modified tid pid ∈ writes.map PageEvent.written := by
        rw [hrest]
        simp
      simp at hmem
    · cases as with
      | nil =>
        have hmem : PageEvent.modified tid pid ∈ writes.map PageEvent.written := by
          rw [List.nil_append] at hrest
          simp [← hrest]
        simp at hmem
      | cons e as =>
        injection hrest with he hrest
        subst he hrest
        refine ⟨⟨before, as, hlog, ?_⟩, ?_⟩
        · exact fun h => hafter (List.mem_append_left _ h)
        · exact fun h => hafter (List.mem_append_right _ (List.mem_map_of_mem h))
  · rintro ⟨⟨before, after, rfl, hafter⟩, hwrites⟩
    refine ⟨before, after ++ writes.map .written, by simp, ?_⟩
    simp [hafter, hwrites]

namespace BufferPool

theorem erases_deref (ref : Ref) :
    Erases Database.erase (deref ref : DbM π (Logged δ) _) (deref ref) := by
  intro db
  have hobjects : db.erase.objects = db.objects := rfl
  unfold deref
  rw [hobjects]
  cases db.objects[ref]? <;> rfl

theorem erases_newObject (page : π) :
    Erases Database.erase (newObject page : DbM π (Logged δ) _) (newObject page) := fun _ => rfl

theorem erases_markDirty (ref : Ref) (tid : Option TransactionId) :
    Erases Database.erase (markDirty ref tid : DbM π (Logged δ) _) (markDirty ref tid) :=
  (erases_deref ref).bind fun _ => .modify fun _ => rfl

variable [PageFile π δ]

theorem erases_flushPage (pid : PageId) :
    Erases Database.erase (flushPage pid : DbM π (Logged δ) _) (flushPage pid) := by
  apply Erases.get
  intro db
  have herase : db.erase.pages.lookup pid = db.pages.lookup pid := rfl
  rw [herase]
  cases db.pages.lookup pid with
  | none => exact .pure _
  | some ref =>
    refine (erases_deref ref).bind fun obj => .ite Iff.rfl ?_ (.pure _)
    refine (erases_markDirty ref none).bind fun _ => ?_
    intro db'
    change mapState _ ((lift (PageFile.writePage db.files.files _ _ obj.page >>= _) >>= _) db') = _
    cases hw : PageFile.writePage db.files.files db.pageSize pid.getTableId obj.page with
    | error e =>
      rw [show PageFile.writePage db.erase.files db.erase.pageSize pid.getTableId obj.page = _ from hw]
      rfl
    | ok files =>
      rw [show PageFile.writePage db.erase.files db.erase.pageSize pid.getTableId obj.page = _ from hw]
      rfl

theorem erases_evictPage :
    Erases Database.erase (evictPage : DbM π (Logged δ) _) evictPage := by
  apply Erases.get
  intro db
  have herase : db.erase.pages.keys[db.erase.order 0 % db.erase.pages.keys.length]? =
      db.pages.keys[db.order 0 % db.pages.keys.length]? := rfl
  rw [herase]
  cases db.pages.keys[db.order 0 % db.pages.keys.length]? with
  | none => exact .pure _
  | some pid =>
    apply Erases.bind
    · exact .modify fun _ => rfl
    · exact fun _ => (erases_flushPage pid).bind fun _ => .modify fun _ => rfl

theorem erases_flushAllPages :
    Erases Database.erase (flushAllPages : DbM π (Logged δ) _) flushAllPages := by
  apply Erases.get
  intro db
  exact Erases.forM _ fun pid => erases_flushPage pid

theorem erases_flushPages (tid : TransactionId) :
    Erases Database.erase (flushPages tid : DbM π (Logged δ) _) (flushPages tid) := by
  apply Erases.get
  intro db
  apply Erases.forM
  intro item
  exact (erases_deref item.2).bind fun _ => .ite Iff.rfl (erases_flushPage item.1) (.pure _)

theorem erases_evictIf {c d : Prop} [Decidable c] [Decidable d] (h : c ↔ d) :
    Erases Database.erase (evictIf c : DbM π (Logged δ) _) (evictIf d) :=
  .ite h erases_evictPage (.pure _)

theorem erases_loadPage (pid : PageId) :
    Erases Database.erase (loadPage pid : DbM π (Logged δ) _) (loadPage pid) := by
  apply Erases.get
  intro db
  refine (Erases.lift _).bind fun page => (erases_newObject page).bind fun _ => ?_
  apply Erases.bind
  · exact .modify fun _ => rfl
  · exact fun _ => .pure _

theorem erases_getPage (pid : PageId) :
    Erases Database.erase (getPage pid : DbM π (Logged δ) _) (getPage pid) := by
  apply Erases.get
  intro db
  have herase : db.erase.pages.lookup pid = db.pages.lookup pid := rfl
  rw [herase]
  cases db.pages.lookup pid with
  | none => exact (erases_evictIf Iff.rfl).bind fun _ => erases_loadPage pid
  | some ref => exact .pure _

theorem erases_registerDirty (tid : TransactionId) (ref : Ref) :
    Erases Database.erase (registerDirty tid ref : DbM π (Logged δ) _) (registerDirty tid ref) := by
  refine (erases_markDirty ref (some tid)).bind fun _ => (erases_deref ref).bind fun obj => ?_
  apply Erases.get
  intro db
  exact (erases_evictIf Iff.rfl).bind fun _ => .modify fun _ => rfl

end BufferPool

end PagedDb
