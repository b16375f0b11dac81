import PagedDb.BTree.PageReuse
import PagedDb.Storage.FlushRuns

/-!
# One page number under several kinds

To the caches, ids of different kinds are different; in the file, pages with one
number are one place. `getEmptyPage` takes only the id it hands out from the
caches: what is cached under the same number and another kind stays there.
-/

namespace PagedDb

open Exec

/-- The pages of a file carry its ids, and reading one gives the id asked for. -/
class KeepsIds (δ : Type) [BTreeDisk δ] : Prop where
  getId_eq : ∀ page : BTreeFilePage, PageFile.getId δ page = .btree page.getId
  readPage_id : ∀ (files : δ) (pageSize : ℕ) (pid : PageId) (ref : Ref) (page : BTreeFilePage),
    PageFile.readPage files pageSize pid ref = .ok page → PageFile.getId δ page = pid

namespace BTreeFile

theorem readPage_getId {f : BTreeFile} {pageSize : ℕ} {id : BTreePageId} {ref : Ref}
    {page : BTreeFilePage} (h : f.readPage pageSize id ref = .ok page) : page.getId = id := by
  unfold readPage at h
  split at h
  · obtain ⟨-, -, h⟩ := of_except_bind h
    cases h
    rfl
  · obtain ⟨-, -, h⟩ := of_except_bind h
    dsimp only at h
    split at h
    · cases h
      rfl
    · split at h
      · cases h
        rfl
      · cases h
        rfl

theorem readPage_pid {f : BTreeFile} {pageSize : ℕ} {pid : PageId} {ref : Ref}
    {page : BTreeFilePage} (h : PageFile.readPage f pageSize pid ref = .ok page) :
    PageId.btree page.getId = pid := by
  change (if pid.getTableId ≠ f.tableid then _ else _) = _ at h
  split at h
  · cases h
  · cases pid with
    | heap id => cases h
    | btree id => exact congrArg PageId.btree (readPage_getId h)

end BTreeFile

instance : KeepsIds BTreeFile where
  getId_eq _ := rfl
  readPage_id _ _ _ _ _ h := BTreeFile.readPage_pid h

instance : KeepsIds PositionalFile where
  getId_eq _ := rfl
  readPage_id _ _ _ _ _ h := BTreeFile.readPage_pid h

namespace PoolTree

open BTreeFile

variable {δ : Type} [BTreeDisk δ] {s s₁ s' : PoolTree δ} {ref : Ref} {pid : PageId}

/-- The pool or `dirtypages` has the object under the id. -/
def Cached (s : PoolTree δ) (pid : PageId) (ref : Ref) : Prop :=
  s.db.pages.lookup pid = some ref ∨ s.dirtypages.lookup pid = some ref

/-- What is cached under an id is a page with that id. -/
structure Sound (s : PoolTree δ) : Prop where
  filed : FiledById s.db
  listed : ∀ pid ref, s.dirtypages.lookup pid = some ref →
    ∃ obj, s.db.objects[ref]? = some obj ∧ PageFile.getId δ obj.page = pid

theorem Sound.object (h : Sound s) (hc : Cached s pid ref) :
    ∃ obj, s.db.objects[ref]? = some obj ∧ PageFile.getId δ obj.page = pid :=
  hc.elim (h.filed pid ref) (h.listed pid ref)

theorem Sound.ref_lt (h : Sound s) (hc : Cached s pid ref) : ref < s.db.objects.length := by
  obtain ⟨obj, hobj, -⟩ := h.object hc
  exact (List.getElem?_eq_some_iff.mp hobj).1

section Invariant

variable [KeepsIds δ]

theorem Sound.onDb (h : Sound s) {db : Database BTreeFilePage δ} (hfiled : FiledById db)
    (hshows : ∀ ref id, Shows ref id s.db → Shows ref id db) : Sound { s with db } := by
  refine ⟨hfiled, ?_⟩
  intro pid ref hl
  obtain ⟨obj, hobj, rfl⟩ := h.listed pid ref hl
  obtain ⟨obj', hobj', hid⟩ := hshows ref obj.page.getId ⟨obj, hobj, rfl⟩
  exact ⟨obj', hobj', by rw [KeepsIds.getId_eq, KeepsIds.getId_eq, hid]⟩

theorem getPage_filed {db db' : Database BTreeFilePage δ} (h : FiledById db)
    (hrun : BufferPool.getPage pid db = .ok ref db') :
    ∃ obj, db'.objects[ref]? = some obj ∧ PageFile.getId δ obj.page = pid := by
  have hfiled : FiledById db' :=
    (BufferPool.keeps_filed_getPage KeepsIds.readPage_id pid).of_ok h hrun
  cases hl : db.pages.lookup pid with
  | some r =>
    rw [BufferPool.getPage, bind_ok (get_run db), hl] at hrun
    cases hrun
    exact h pid ref hl
  | none =>
    obtain ⟨-, hlookup⟩ := BufferPool.getPage_absent hl hrun
    exact hfiled pid ref (by simp [hlookup])

theorem keeps_sound_getPage (id : BTreePageId) (perm : Permissions) :
    Keeps Sound (TreeStore.getPage id perm : EStateM Fault (PoolTree δ) Ref) := by
  change Keeps Sound (PoolTree.getPage id perm)
  intro s h
  rw [PoolTree.getPage, bind_ok (get_run s)]
  cases hd : s.dirtypages.lookup (.btree id) with
  | some r => exact h
  | none =>
    have hfiled := BufferPool.keeps_filed_getPage KeepsIds.readPage_id (.btree id) s.db h.filed
    have hshows : ∀ ref i, Shows ref i s.db →
        Shows ref i (stateOf ((BufferPool.getPage (.btree id) : DbM BTreeFilePage δ Ref) s.db)) :=
      fun _ _ => PoolTree.keeps_getPage (.btree id) s.db
    dsimp only
    cases hget : (BufferPool.getPage (.btree id) : DbM BTreeFilePage δ Ref) s.db with
    | error e db =>
      simp only [hget, stateOf_error] at hfiled hshows
      have hload : onDb (BufferPool.getPage (.btree id)) s = .error e { s with db } :=
        zoom_error hget
      rw [bind_error hload]
      exact h.onDb hfiled hshows
    | ok r db =>
      have hobject := getPage_filed h.filed hget
      simp only [hget, stateOf_ok] at hfiled hshows
      have hsound := h.onDb hfiled hshows
      have hload : onDb (BufferPool.getPage (.btree id)) s = .ok r { s with db } := zoom_ok hget
      rw [bind_ok hload]
      cases perm with
      | readOnly => exact hsound
      | readWrite =>
        refine ⟨hfiled, ?_⟩
        intro q r' hl
        change (s.dirtypages.insert (.btree id) r).lookup q = some r' at hl
        by_cases hq : q = .btree id
        · subst hq
          rw [AList.lookup_insert, Option.some.injEq] at hl
          exact hl ▸ hobject
        · rw [AList.lookup_insert_ne hq] at hl
          exact hsound.listed q r' hl

theorem keeps_sound_store (ref : Ref) (page : BTreeFilePage) (hnamed : Named ref page.getId s)
    (h : Sound s) : Sound (stateOf (TreeStore.store ref page s)) := by
  obtain ⟨old, hold, hid⟩ := named_iff.mp hnamed
  have hderef : onDb (deref ref) s = .ok old s := zoom_ok (deref_run hold)
  have hshows : ∀ r i, Shows r i s.db → Shows r i (s.db.setObject ref { old with page }) :=
    fun r i hr => hr.setObject hold hid.symm
  change Sound (stateOf (PoolTree.store ref page s))
  rw [PoolTree.store, bind_ok hderef]
  refine h.onDb ?_ hshows
  intro pid r hl
  obtain ⟨obj, hobj, hpid⟩ := h.filed pid r hl
  obtain ⟨obj', hobj', hid'⟩ := hshows r obj.page.getId ⟨obj, hobj, rfl⟩
  exact ⟨obj', hobj', by rw [← hpid, KeepsIds.getId_eq, KeepsIds.getId_eq, hid']⟩

omit [KeepsIds δ] in
theorem keeps_sound_onFile (f : δ → ℕ → δ) : Keeps Sound (onFile f) :=
  fun _ h => ⟨h.filed, h.listed⟩

theorem keptByAllocation_sound : KeptByAllocation (Sound : PoolTree δ → Prop) where
  getPage := keeps_sound_getPage
  store ref page _ hnamed h := keeps_sound_store ref page hnamed h
  appendPage := keeps_sound_onFile _
  getRootPtrPage := by
    have hread : Keeps Sound (rootPtrId >>= fun id => TreeStore.getPage id .readOnly :
        EStateM Fault (PoolTree δ) Ref) := Keeps.get fun _ => keeps_sound_getPage _ .readOnly
    apply Keeps.get
    intro s
    split
    · exact (keeps_sound_onFile _).bind fun _ => hread
    · exact hread

end Invariant

section HandOut

def asKind (id : BTreePageId) (kind : BTreePageType) : PageId := .btree { id with type := kind }

/-- The caches have one object for the number of the page, and later flushes write no other page of
this number. -/
structure SoleCopy (s : PoolTree δ) (id : BTreePageId) : Prop where
  one : ∃! ref, ∃ kind, Cached s (asKind id kind) ref
  written : ∀ (calls : List FlushCall) (kind : BTreePageType),
    .written (asKind id kind) ∈ (FlushCall.runAll calls s.db.logged).files.log → kind = id.type

/-- Under another kind the number is not in `dirtypages`, and not in the pool unless it is the page
that is evicted for the new one. -/
def OthersGone (s : PoolTree δ) (id : BTreePageId) : Prop :=
  ∀ kind, kind ≠ id.type → s.dirtypages.lookup (asKind id kind) = none ∧
    (s.db.pages.lookup (asKind id kind) = none ∨
      Database.Evicts { s.db with pages := s.db.pages.erase (.btree id) } (asKind id kind))

/-- The id has the number of `id` and another kind. -/
def sharesNumber (id : BTreePageId) : PageId → Bool
  | .btree i => i.tableId = id.tableId && i.pgNo = id.pgNo && i.type ≠ id.type
  | .heap _ => false

theorem sharesNumber_iff {id : BTreePageId} {pid : PageId} :
    sharesNumber id pid = true ↔ ∃ kind, kind ≠ id.type ∧ pid = asKind id kind := by
  cases pid with
  | heap i => simp [sharesNumber, asKind]
  | btree i =>
    obtain ⟨tableId, pgNo, type⟩ := i
    obtain ⟨tableId', pgNo', type'⟩ := id
    simp only [sharesNumber, asKind, Bool.and_eq_true, decide_eq_true_eq, PageId.btree.injEq,
      BTreePageId.mk.injEq]
    constructor
    · rintro ⟨⟨rfl, rfl⟩, hne⟩
      exact ⟨type, hne, rfl, rfl, rfl⟩
    · rintro ⟨kind, hne, rfl, rfl, rfl⟩
      exact ⟨⟨rfl, rfl⟩, hne⟩

theorem asKind_self (id : BTreePageId) : asKind id id.type = .btree id := rfl

theorem asKind_ne {id : BTreePageId} {kind : BTreePageType} (h : kind ≠ id.type) :
    asKind id kind ≠ .btree id := by
  intro heq
  exact h (congrArg BTreePageId.type (PageId.btree.inj heq))

/-- The state in which `getEmptyPage` asks for the page it hands out. -/
def discarded (s : PoolTree δ) (id : BTreePageId) : PoolTree δ where
  db :=
    { s.db with
      files := BTreeDisk.clearPage s.db.files s.db.pageSize id.pgNo
      pages := s.db.pages.erase (.btree id) }
  dirtypages := s.dirtypages.erase (.btree id)

theorem Sound.discarded (h : Sound s) (id : BTreePageId) : Sound (discarded s id) := by
  refine ⟨h.filed.erase (.btree id), ?_⟩
  intro pid r hl
  by_cases hq : pid = .btree id
  · subst hq
    exact absurd ((AList.lookup_erase _ _).symm.trans hl) (by simp)
  · exact h.listed pid r ((AList.lookup_erase_ne hq).symm.trans hl)

theorem getEmptyPage_discarded {type : BTreePageType} {n : Int32}
    (hno : getEmptyPageNo s = .ok n s₁) :
    getEmptyPage type s = TreeStore.getPage ⟨BTreeDisk.tableid s₁.db.files, n, type⟩ .readWrite
      (discarded s₁ ⟨BTreeDisk.tableid s₁.db.files, n, type⟩) := by
  rw [getEmptyPage, bind_ok hno]
  rfl

/-- The page that is handed out is a new object in both caches; nothing else enters them, and of
the pool at most the evicted page leaves. -/
theorem getPage_discarded {id : BTreePageId}
    (hrun : TreeStore.getPage id .readWrite (discarded s id) = .ok ref s') :
    ref = s.db.objects.length ∧
      (∀ q, s'.dirtypages.lookup q = if q = .btree id then some ref else s.dirtypages.lookup q) ∧
      ∀ q, s'.db.pages.lookup q = if q = .btree id then some ref else
        if Database.Evicts { s.db with pages := s.db.pages.erase (.btree id) } q then none
        else s.db.pages.lookup q := by
  change PoolTree.getPage id .readWrite (discarded s id) = _ at hrun
  have hdirty : (discarded s id).dirtypages.lookup (.btree id) = none := AList.lookup_erase _ _
  have hpool : (discarded s id).db.pages.lookup (.btree id) = none := AList.lookup_erase _ _
  rw [PoolTree.getPage, bind_ok (get_run _), hdirty] at hrun
  obtain ⟨r, s₂, hload, hlist⟩ := of_bind_ok hrun
  cases hlist
  cases hget : (BufferPool.getPage (.btree id) : DbM BTreeFilePage δ Ref) (discarded s id).db with
  | error e db =>
    rw [onDb, zoom_error hget] at hload
    cases hload
  | ok r' db =>
    rw [onDb, zoom_ok hget] at hload
    cases hload
    obtain ⟨href, hlookup⟩ := BufferPool.getPage_absent hpool hget
    refine ⟨href, ?_, ?_⟩
    · intro q
      change ((s.dirtypages.erase (.btree id)).insert (.btree id) ref).lookup q = _
      by_cases hq : q = .btree id
      · subst hq
        rw [AList.lookup_insert, if_pos rfl]
      · rw [AList.lookup_insert_ne hq, AList.lookup_erase_ne hq, if_neg hq]
    · intro q
      rw [hlookup]
      by_cases hq : q = .btree id
      · simp [hq]
      · have hkeep : (discarded s id).db.pages.lookup q = s.db.pages.lookup q :=
          AList.lookup_erase_ne hq
        rw [if_neg hq, if_neg hq, hkeep]
        rfl

variable [KeepsIds δ]

theorem keeps_sound_getEmptyPage (type : BTreePageType) :
    Keeps Sound (getEmptyPage type : EStateM Fault (PoolTree δ) Ref) := by
  intro s hs
  have hnumber := keptByAllocation_sound.getEmptyPageNo s hs
  cases hno : (getEmptyPageNo : EStateM Fault (PoolTree δ) Int32) s with
  | error e s₁ =>
    rw [hno] at hnumber
    rw [getEmptyPage, bind_error hno]
    exact hnumber
  | ok n s₁ =>
    rw [hno] at hnumber
    rw [getEmptyPage_discarded hno]
    exact keeps_sound_getPage _ .readWrite _ (Sound.discarded hnumber _)

/-- `getEmptyPage` leaves one copy of the page it hands out exactly if, when its number has been
chosen, the caches hold no page of that number under another kind, up to the one that is evicted. -/
theorem soleCopy_iff_othersGone {type : BTreePageType} {n : Int32} (hsound : Sound s)
    (hno : getEmptyPageNo s = .ok n s₁) (hrun : getEmptyPage type s = .ok ref s') :
    SoleCopy s' ⟨BTreeDisk.tableid s₁.db.files, n, type⟩ ↔
      OthersGone s₁ ⟨BTreeDisk.tableid s₁.db.files, n, type⟩ := by
  have h₁ : Sound s₁ := keptByAllocation_sound.getEmptyPageNo.of_ok hsound hno
  have hsound' : Sound s' := (keeps_sound_getEmptyPage type).of_ok hsound hrun
  rw [getEmptyPage_discarded hno] at hrun
  generalize (⟨BTreeDisk.tableid s₁.db.files, n, type⟩ : BTreePageId) = id at hrun ⊢
  obtain ⟨href, hdirty, hpool⟩ := getPage_discarded hrun
  have hself : Cached s' (asKind id id.type) ref := .inl (by simp [hpool, asKind_self])
  -- an object under another kind is an old one
  have hother : ∀ kind r, kind ≠ id.type → Cached s' (asKind id kind) r → r ≠ ref := by
    intro kind r hkind hc
    have hold : Cached s₁ (asKind id kind) r := by
      rcases hc with hl | hl
      · rw [hpool, if_neg (asKind_ne hkind)] at hl
        split at hl
        · cases hl
        · exact .inl hl
      · rw [hdirty, if_neg (asKind_ne hkind)] at hl
        exact .inr hl
    rw [href]
    exact Nat.ne_of_lt (h₁.ref_lt hold)
  constructor
  · rintro ⟨⟨r, -, hunique⟩, -⟩ kind hkind
    have hnone : ∀ r', ¬ Cached s' (asKind id kind) r' := by
      intro r' hc
      have hr : r' = ref := (hunique r' ⟨kind, hc⟩).trans (hunique ref ⟨id.type, hself⟩).symm
      exact hother kind r' hkind hc hr
    have hd := hdirty (asKind id kind)
    have hp := hpool (asKind id kind)
    rw [if_neg (asKind_ne hkind)] at hd hp
    constructor
    · rw [← hd]
      exact Option.eq_none_iff_forall_ne_some.mpr fun r' hr => hnone r' (.inr hr)
    · by_contra hnot
      rw [not_or] at hnot
      rw [if_neg hnot.2] at hp
      obtain ⟨r', hr'⟩ := Option.ne_none_iff_exists'.mp hnot.1
      exact hnone r' (.inl (hp.trans hr'))
  · intro hgone
    have hkind : ∀ kind r, Cached s' (asKind id kind) r → kind = id.type := by
      intro kind r hc
      by_contra hne
      obtain ⟨hd, hp⟩ := hgone kind hne
      rcases hc with hl | hl
      · rw [hpool, if_neg (asKind_ne hne)] at hl
        split at hl
        · cases hl
        · rename_i hstays
          rw [hp.resolve_right hstays] at hl
          cases hl
      · rw [hdirty, if_neg (asKind_ne hne), hd] at hl
        cases hl
    refine ⟨⟨ref, ⟨id.type, hself⟩, ?_⟩, ?_⟩
    · rintro r ⟨kind, hc⟩
      obtain rfl := hkind kind r hc
      rcases hc with hl | hl
      · simpa [hpool, asKind_self] using hl.symm
      · simpa [hdirty, asKind_self] using hl.symm
    · intro calls kind hw
      obtain ⟨r, hr⟩ := Option.isSome_iff_exists.mp
        (FlushCall.runAll_written calls hsound'.filed hw)
      exact hkind kind r (.inl hr)

end HandOut

section Example

theorem opened_sound (file : δ) (pageSize numPages : ℕ) (order : ℕ → ℕ) :
    Sound (opened file pageSize numPages order) :=
  ⟨fun _ _ hl => (by cases hl), fun _ _ hl => by cases hl⟩

def handsOut (type : BTreePageType) (s : PoolTree PositionalFile) :
    Option (Int32 × PoolTree PositionalFile × Ref × PoolTree PositionalFile) :=
  match (getEmptyPageNo s : EStateM.Result Fault (PoolTree PositionalFile) Int32),
    (getEmptyPage type s : EStateM.Result Fault (PoolTree PositionalFile) Ref) with
  | .ok n s₁, .ok ref s' => some (n, s₁, ref, s')
  | _, _ => none

theorem of_handsOut {type : BTreePageType} {s s₁ s' : PoolTree PositionalFile} {n : Int32}
    {ref : Ref} (h : handsOut type s = some (n, s₁, ref, s')) :
    getEmptyPageNo s = .ok n s₁ ∧ getEmptyPage type s = .ok ref s' := by
  unfold handsOut at h
  split at h
  · cases h
    exact ⟨‹_›, ‹_›⟩
  · cases h

/-- A new leaf is freed and its number handed out for an internal page: `dirtypages` has both. -/
def leafReused : Bool :=
  match (getEmptyPage .leaf (opened intsFile 29 50 fun _ => 0) :
    EStateM.Result Fault (PoolTree PositionalFile) Ref) with
  | .error _ _ => false
  | .ok _ s =>
    match (setEmptyPage 2 s : EStateM.Result Fault (PoolTree PositionalFile) Unit) with
    | .error _ _ => false
    | .ok _ s₀ =>
      match handsOut .internal s₀ with
      | none => false
      | some (n, _, _, s') =>
        let old := s'.dirtypages.lookup (.btree ⟨7, n, .leaf⟩)
        let new := s'.dirtypages.lookup (.btree ⟨7, n, .internal⟩)
        decide (n = 2 ∧ old.isSome ∧ new.isSome ∧ old ≠ new)

/-- After a leaf was freed and its number handed out again for an internal page, the caches have
two pages of this number. -/
theorem leafReused_not_sole : ¬ ∀ (type : BTreePageType) (s s₀ s₁ s' : PoolTree PositionalFile)
    (n : Int32) (ref : Ref), Sound s → setEmptyPage n s = .ok () s₀ → getEmptyPageNo s₀ = .ok n s₁ →
    getEmptyPage type s₀ = .ok ref s' → SoleCopy s' ⟨7, n, type⟩ := by
  intro hclaim
  have hreused : leafReused = true := by decide +kernel
  unfold leafReused at hreused
  split at hreused
  · cases hreused
  · rename_i ref₀ s hleaf
    split at hreused
    · cases hreused
    · rename_i s₀ hfreed
      split at hreused
      · cases hreused
      · rename_i n s₁ ref s' hhands
        obtain ⟨hno, hrun⟩ := of_handsOut hhands
        obtain ⟨rfl, hold, hnew, hne⟩ := of_decide_eq_true hreused
        have hsound : Sound s := (keeps_sound_getEmptyPage .leaf).of_ok (opened_sound _ _ _ _) hleaf
        obtain ⟨⟨r, -, hunique⟩, -⟩ := hclaim .internal s s₀ s₁ s' 2 ref hsound hfreed hno hrun
        obtain ⟨old, hold⟩ := Option.isSome_iff_exists.mp hold
        obtain ⟨new, hnew⟩ := Option.isSome_iff_exists.mp hnew
        have hsame : old = new := (hunique old ⟨.leaf, .inr hold⟩).trans
          (hunique new ⟨.internal, .inr hnew⟩).symm
        exact hne (by rw [hold, hnew, hsame])

end Example

end PoolTree

end PagedDb
