import PagedDb.BTree.SplitInternal
import PagedDb.BTree.TreeDelete
import PagedDb.BTree.TreeSearch

/-!
# Deletions that end at an assertion

A merge, and every step of a rotation between internal pages, takes the entry
between the two pages out of their parent. That entry comes from the parent, so
its record id names it, and `deleteEntry` asserts that it does not. No merge and
no rotation completes, however the pages are reached.
-/

namespace PagedDb

open Exec

section Laws

variable {σ H : Type} [TreeStore σ H]

def Named (h : H) (id : BTreePageId) (s : σ) : Prop :=
  ∃ page, TreeStore.load h s = .ok page s ∧ page.getId = id

end Laws

/-- What the code takes for granted of page objects: looking at one changes nothing, and no access
to a page changes the id of another one. -/
class LawfulTreeStore (σ H : Type) [TreeStore σ H] : Prop where
  load_state : ∀ (h : H) (s : σ), stateOf (TreeStore.load h s) = s
  getPage_named : ∀ (h : H) (id pid : BTreePageId) (perm : Permissions),
    Keeps (Named h id) (TreeStore.getPage pid perm : EStateM Fault σ H)
  store_named : ∀ (h h' : H) (id : BTreePageId) (page : BTreeFilePage) (s : σ), Named h id s →
    Named h' page.getId s → Named h id (stateOf (TreeStore.store h' page s))

namespace LogicalTree

variable {t : LogicalTree} {n : Int32} {id : BTreePageId}

theorem named_iff : Named n id t ↔ ∃ page, t.pages n = some page ∧ page.getId = id := by
  constructor
  · rintro ⟨page, hload, hid⟩
    refine ⟨page, ?_, hid⟩
    change load n t = _ at hload
    unfold load at hload
    split at hload
    · cases hload
      assumption
    · cases hload
  · rintro ⟨page, hp, hid⟩
    exact ⟨page, load_run hp, hid⟩

instance : LawfulTreeStore LogicalTree Int32 where
  load_state n t := by
    change stateOf (load n t) = t
    unfold load
    split <;> rfl
  getPage_named n id pid perm := by
    intro t hn
    rw [named_iff] at hn ⊢
    obtain ⟨page, hp, hid⟩ := hn
    refine ⟨page, ?_, hid⟩
    change (stateOf (getPage pid t)).pages n = _
    unfold getPage
    split
    · split
      · split
        · exact hp
        · exact hp
      · rename_i hnone
        have hne : n ≠ pid.pgNo := by
          rintro rfl
          rw [hp] at hnone
          cases hnone
        exact (setPage_ne hne).trans hp
    · exact hp
  store_named n m id page t hn hm := by
    rw [named_iff] at hn hm ⊢
    obtain ⟨p, hp, hid⟩ := hn
    change ∃ p', (stateOf (store m page t)).pages n = some p' ∧ _
    obtain ⟨old, hold, hsame⟩ := hm
    have hrun : store m page t = .ok () (t.setPage m page) := store_run hold hsame
    rw [hrun]
    by_cases hnm : n = m
    · subst hnm
      rw [hp] at hold
      cases hold
      exact ⟨page, setPage_self, hsame.symm.trans hid⟩
    · exact ⟨p, (setPage_ne hnm).trans hp, hid⟩

end LogicalTree

namespace PoolTree

variable {δ : Type} {ref : Ref} {id : BTreePageId}

def Shows (ref : Ref) (id : BTreePageId) (db : Database BTreeFilePage δ) : Prop :=
  ∃ obj, db.objects[ref]? = some obj ∧ obj.page.getId = id

theorem Shows.setObject {db : Database BTreeFilePage δ} (h : Shows ref id db) {r : Ref}
    {old obj : PageObject BTreeFilePage} (hold : db.objects[r]? = some old)
    (hid : obj.page.getId = old.page.getId) : Shows ref id (db.setObject r obj) := by
  obtain ⟨o, ho, hoid⟩ := h
  by_cases hr : r = ref
  · subst hr
    rw [hold] at ho
    cases ho
    have hlt := (List.getElem?_eq_some_iff.mp hold).1
    exact ⟨obj, by rw [Database.setObject, List.getElem?_set_self hlt], hid.trans hoid⟩
  · exact ⟨o, by rw [Database.setObject, List.getElem?_set_ne hr, ho], hoid⟩

theorem keeps_deref (r : Ref) :
    Keeps (Shows ref id) (deref r : DbM BTreeFilePage δ (PageObject BTreeFilePage)) := by
  intro db h
  unfold deref
  split <;> exact h

theorem keeps_markDirty (r : Ref) (tid : Option TransactionId) :
    Keeps (Shows ref id) (markDirty r tid : DbM BTreeFilePage δ Unit) := by
  intro db h
  cases hobj : db.objects[r]? with
  | none =>
    have hfail : deref r db = .error .nullDeref db := by rw [deref, hobj]
    rw [markDirty, bind_error hfail]
    exact h
  | some obj =>
    rw [markDirty, bind_ok (deref_run hobj)]
    exact h.setObject hobj rfl

variable [BTreeDisk δ]

theorem named_iff {s : PoolTree δ} : Named ref id s ↔ Shows ref id s.db := by
  constructor
  · rintro ⟨page, hload, hid⟩
    obtain ⟨-, obj, hobj, rfl⟩ := of_load_ok hload
    exact ⟨obj, hobj, hid⟩
  · rintro ⟨obj, hobj, hid⟩
    exact ⟨obj.page, load_run hobj, hid⟩

theorem keeps_flushPage (pid : PageId) :
    Keeps (Shows ref id) (BufferPool.flushPage pid : DbM BTreeFilePage δ Unit) := by
  apply Keeps.get
  intro db
  split
  · exact Keeps.pure ()
  · rename_i r _
    refine (keeps_deref r).bind fun obj => Keeps.ite ?_ (Keeps.pure ())
    exact (keeps_markDirty r none).bind fun _ => (Keeps.lift _).bind fun _ =>
      Keeps.modify fun _ h => h

theorem keeps_evictPage : Keeps (Shows ref id) (BufferPool.evictPage : DbM BTreeFilePage δ Unit) := by
  apply Keeps.get
  intro db
  split
  · exact Keeps.pure ()
  · rename_i pid _
    refine Keeps.bind (Keeps.modify ?_) fun _ => (keeps_flushPage pid).bind fun _ =>
      Keeps.modify ?_
    · exact fun _ h => h
    · exact fun _ h => h

theorem keeps_loadPage (pid : PageId) :
    Keeps (Shows ref id) (BufferPool.loadPage pid : DbM BTreeFilePage δ Ref) := by
  apply Keeps.get
  intro db
  refine (Keeps.lift _).bind fun page => Keeps.bind ?_ fun r => Keeps.bind ?_ fun _ => Keeps.pure r
  · rintro db ⟨obj, hobj, hid⟩
    have hlt := (List.getElem?_eq_some_iff.mp hobj).1
    exact ⟨obj, (List.getElem?_append_left hlt).trans hobj, hid⟩
  · exact Keeps.modify fun _ h => h

theorem keeps_getPage (pid : PageId) :
    Keeps (Shows ref id) (BufferPool.getPage pid : DbM BTreeFilePage δ Ref) := by
  apply Keeps.get
  intro db
  split
  · exact Keeps.pure _
  · exact (Keeps.ite keeps_evictPage (Keeps.pure ())).bind fun _ => keeps_loadPage pid

instance : LawfulTreeStore (PoolTree δ) Ref where
  load_state ref s := by
    cases hrun : (TreeStore.load ref : EStateM Fault (PoolTree δ) BTreeFilePage) s with
    | ok page s' => exact (of_load_ok hrun).1
    | error e s' =>
      cases hobj : s.db.objects[ref]? with
      | none =>
        have hfail : onDb (deref ref) s = .error .nullDeref s :=
          zoom_error (show deref ref s.db = .error .nullDeref s.db by rw [deref, hobj])
        change (onDb (deref ref) >>= fun obj => pure obj.page) s = _ at hrun
        rw [bind_error hfail] at hrun
        cases hrun
        rfl
      | some obj =>
        rw [load_run hobj] at hrun
        cases hrun
  getPage_named ref id pid perm := by
    intro s hs
    rw [named_iff] at hs ⊢
    change Shows ref id (stateOf (getPage pid perm s)).db
    have hkeep : Keeps (fun s : PoolTree δ => Shows ref id s.db) (getPage pid perm) := by
      apply Keeps.get
      intro s
      split
      · exact Keeps.pure _
      · refine Keeps.bind ?_ fun r => ?_
        · intro s hs
          rw [onDb, stateOf_zoom]
          exact keeps_getPage _ _ hs
        · have hlist : Keeps (fun s : PoolTree δ => Shows ref id s.db)
              (modify fun s => { s with dirtypages := s.dirtypages.insert (.btree pid) r } :
                EStateM Fault (PoolTree δ) PUnit) := Keeps.modify fun _ h => h
          exact Keeps.ite (hlist.bind fun _ => Keeps.pure r) (Keeps.pure r)
    exact hkeep s hs
  store_named ref r id page s hs hr := by
    rw [named_iff] at hs hr ⊢
    obtain ⟨old, hold, hsame⟩ := hr
    have hderef : onDb (deref r) s = .ok old s := zoom_ok (deref_run hold)
    change Shows ref id (stateOf (store r page s)).db
    rw [store, bind_ok hderef]
    exact hs.setObject hold hsame.symm

end PoolTree

theorem BTreeInternalPage.get_rid {p : BTreeInternalPage} {it : BTreeInternalPageIterator}
    {e : BTreeEntry} (h : it.get p = .ok e) : ∃ slot, e.rid = some ⟨.btree p.pid, slot⟩ := by
  obtain ⟨key, -, heq⟩ := of_except_bind h
  cases heq
  exact ⟨_, rfl⟩

namespace BTreeFile

variable {σ H : Type} [TreeStore σ H] {s s' : σ} {h page : H} {id : BTreePageId}
  {q : BTreeInternalPage} {slot : ℕ}

theorem Named.unique {pid : BTreePageId} (h₁ : Named h id s) (h₂ : Named h pid s) : id = pid := by
  obtain ⟨p, hp, rfl⟩ := h₁
  obtain ⟨q, hq, rfl⟩ := h₂
  rw [hp] at hq
  cases hq
  rfl

variable [LawfulTreeStore σ H]

theorem keeps_load (h h' : H) (id : BTreePageId) :
    Keeps (Named h id) (TreeStore.load h' : EStateM Fault σ BTreeFilePage) := by
  intro s hs
  rw [LawfulTreeStore.load_state]
  exact hs

theorem load_ok {p : BTreeFilePage} (hload : TreeStore.load h s = .ok p s') : s' = s := by
  have hstate := LawfulTreeStore.load_state h s
  rw [hload] at hstate
  exact hstate

theorem leafAt_ok {p : BTreeLeafPage} (hrun : leafAt h s = .ok p s') :
    s' = s ∧ Named h p.pid s := by
  obtain ⟨q, s₁, hload, hrest⟩ := of_bind_ok hrun
  obtain rfl := load_ok hload
  cases q with
  | leaf q =>
    cases hrest
    exact ⟨rfl, _, hload, rfl⟩
  | rootPtr q => cases hrest
  | header q => cases hrest
  | internal q => cases hrest

theorem internalAt_ok {p : BTreeInternalPage} (hrun : internalAt h s = .ok p s') :
    s' = s ∧ Named h p.pid s := by
  obtain ⟨q, s₁, hload, hrest⟩ := of_bind_ok hrun
  obtain rfl := load_ok hload
  cases q with
  | internal q =>
    cases hrest
    exact ⟨rfl, _, hload, rfl⟩
  | rootPtr q => cases hrest
  | header q => cases hrest
  | leaf q => cases hrest

theorem keeps_leafAt (h h' : H) (id : BTreePageId) :
    Keeps (Named h id) (leafAt h' : EStateM Fault σ BTreeLeafPage) := by
  refine (keeps_load h h' id).bind fun p => ?_
  cases p with
  | leaf p => exact Keeps.pure p
  | rootPtr p => exact Keeps.throw _
  | header p => exact Keeps.throw _
  | internal p => exact Keeps.throw _

theorem keeps_storeLeaf {p q : BTreeLeafPage} (hid : q.pid = p.pid) (hpage : Named page p.pid s)
    (hs : Named h id s) : Named h id (stateOf (TreeStore.store page (.leaf q) s)) := by
  apply LawfulTreeStore.store_named h page id (.leaf q) s hs
  rw [show (BTreeFilePage.leaf q).getId = p.pid from hid]
  exact hpage

theorem keeps_modifyLeaf {f : BTreeLeafPage → Except Fault BTreeLeafPage}
    (hf : ∀ p q, f p = .ok q → q.pid = p.pid) (h page : H) (id : BTreePageId) :
    Keeps (Named h id) (modifyLeaf page f : EStateM Fault σ Unit) := by
  intro s hs
  cases hrun : leafAt page s with
  | error e s' =>
    have := keeps_leafAt h page id s hs
    rw [hrun] at this
    rw [modifyLeaf, bind_error hrun]
    exact this
  | ok p s' =>
    obtain ⟨rfl, hpage⟩ := leafAt_ok hrun
    rw [modifyLeaf, bind_ok hrun]
    cases hq : f p with
    | error e => exact hs
    | ok q => exact keeps_storeLeaf (hf p q hq) hpage hs

theorem insertTuple_pid {p q : BTreeLeafPage} {t u : Tuple} (hrun : p.insertTuple t = .ok (q, u)) :
    q.pid = p.pid := by
  unfold BTreeLeafPage.insertTuple at hrun
  split at hrun
  · obtain ⟨_, -, hrun⟩ := of_except_bind hrun
    obtain ⟨_, -, hrun⟩ := of_except_bind hrun
    obtain ⟨pos, -, hrun⟩ := of_except_bind hrun
    cases hrun
    exact (BTreeLeafPage.makeRoom_frame p _ pos).pid
  · cases hrun

theorem deleteTuple_pid {p q : BTreeLeafPage} {t u : Tuple} (hrun : p.deleteTuple t = .ok (q, u)) :
    q.pid = p.pid := by
  unfold BTreeLeafPage.deleteTuple at hrun
  split at hrun
  · cases hrun
  · split at hrun
    · cases hrun
      rfl
    · cases hrun

theorem keeps_moveTuple (h page rightPage : H) (id : BTreePageId) (tuple : Tuple) :
    Keeps (Named h id) (moveTuple page rightPage tuple : EStateM Fault σ Unit) := by
  have hinsert : ∀ u : Tuple, Keeps (Named h id)
      (modifyLeaf rightPage fun r => Prod.fst <$> r.insertTuple u : EStateM Fault σ Unit) := by
    intro u
    apply keeps_modifyLeaf
    intro p q hrun
    cases hu : p.insertTuple u with
    | error e =>
      rw [hu] at hrun
      cases hrun
    | ok r =>
      rw [hu] at hrun
      cases hrun
      exact insertTuple_pid hu
  intro s hs
  cases hrun : leafAt page s with
  | error e s' =>
    have := keeps_leafAt h page id s hs
    rw [hrun] at this
    rw [moveTuple, bind_error hrun]
    exact this
  | ok p s' =>
    obtain ⟨rfl, hpage⟩ := leafAt_ok hrun
    rw [moveTuple, bind_ok hrun]
    cases hdelete : p.deleteTuple tuple with
    | error e => exact hs
    | ok r =>
      obtain ⟨q, u⟩ := r
      change Named h id (stateOf ((TreeStore.store page (.leaf q) >>= fun _ =>
        modifyLeaf rightPage fun r => Prod.fst <$> r.insertTuple u) s'))
      exact Keeps.run (keeps_storeLeaf (deleteTuple_pid hdelete) hpage hs) fun _ => hinsert u

theorem keeps_mergeTuples (h leftPage rightPage : H) (id : BTreePageId) (fuel : ℕ)
    (it : BTreeLeafPageIterator) :
    Keeps (Named h id) (mergeTuples leftPage rightPage fuel it : EStateM Fault σ Unit) := by
  induction fuel generalizing it with
  | zero => exact Keeps.throw _
  | succ fuel ih =>
    refine (keeps_leafAt h rightPage id).bind fun r => Keeps.ite ?_ (Keeps.pure ())
    refine (Keeps.lift _).bind fun tuple => (keeps_moveTuple h rightPage leftPage id tuple).bind
      fun _ => (keeps_leafAt h rightPage id).bind fun r => ih _

theorem keeps_linkNext (h : H) (id : BTreePageId) (next : Option BTreePageId)
    (right : BTreePageId) :
    Keeps (Named h id) (linkNext (H := H) next right : EStateM Fault σ Unit) := by
  cases next with
  | none => exact Keeps.pure ()
  | some next =>
    refine (LawfulTreeStore.getPage_named h id next .readWrite).bind fun n => ?_
    apply keeps_modifyLeaf
    intro p q hrun
    obtain ⟨_, -, hq⟩ := of_except_bind hrun
    cases hq
    rfl

/-- No run goes on behind the deletion of an entry from the page it names. -/
theorem of_delete_own {parent : H} {entry : BTreeEntry} {α : Type}
    {f : BTreeInternalPage × BTreeEntry → EStateM Fault σ α} {a : α} (hparent : Named parent id s)
    (hrid : entry.rid = some ⟨.btree id, slot⟩) :
    (do
      let q ← internalAt parent
      let r ← lift (q.deleteKeyAndRightChild entry)
      f r) s ≠ .ok a s' := by
  intro hrun
  obtain ⟨q, s₁, hq, hrest⟩ := of_bind_ok hrun
  obtain ⟨rfl, hname⟩ := internalAt_ok hq
  obtain ⟨r, s₂, hdelete, -⟩ := of_bind_ok hrest
  obtain rfl := Named.unique hparent hname
  have hfail : q.deleteKeyAndRightChild entry = .error .assertion :=
    BTreeInternalPage.deleteEntry_own hrid true
  rw [hfail] at hdelete
  cases hdelete

theorem deleteParentEntry_not_ok {handleParent : H → EStateM Fault σ Unit} {leftPage parent : H}
    {entry e : BTreeEntry} (hparent : Named parent id s)
    (hrid : entry.rid = some ⟨.btree id, slot⟩) :
    deleteParentEntry handleParent leftPage parent entry s ≠ .ok e s' := by
  intro hrun
  exact of_delete_own hparent hrid hrun

/-- No merge completes that is given an entry of the parent. -/
theorem merge_not_ok {handleParent : H → EStateM Fault σ Unit} {left right parent : H}
    {entry : BTreeEntry} (hparent : Named parent id s)
    (hrid : entry.rid = some ⟨.btree id, slot⟩) :
    (∀ s', mergeLeafPages handleParent left right parent entry s ≠ .ok () s') ∧
      ∀ s', mergeInternalPages handleParent left right parent entry s ≠ .ok () s' := by
  constructor
  · intro s' hrun
    obtain ⟨r₁, s₁, hr₁, hmove⟩ := of_bind_ok hrun
    obtain ⟨rfl, -⟩ := leafAt_ok hr₁
    obtain ⟨⟨⟩, s₂, hmoved, hlink⟩ := of_bind_ok hmove
    obtain ⟨r, s₃, hr, hset⟩ := of_bind_ok hlink
    obtain ⟨rfl, -⟩ := leafAt_ok hr
    obtain ⟨⟨⟩, s₄, hright, hleft⟩ := of_bind_ok hset
    obtain ⟨l, s₅, hl, hnext'⟩ := of_bind_ok hleft
    obtain ⟨rfl, -⟩ := leafAt_ok hl
    obtain ⟨⟨⟩, s₆, hnext, hend⟩ := of_bind_ok hnext'
    obtain ⟨e, s₇, hdelete, -⟩ := of_bind_ok hend
    -- the moves and links leave the parent's id alone
    have hsetRight : ∀ (p q : BTreeLeafPage) (id : Option BTreePageId),
        p.setRightSiblingId id = .ok q → q.pid = p.pid := by
      intro p q id hq
      obtain ⟨_, -, hq⟩ := of_except_bind hq
      cases hq
      rfl
    have h₃ : Named parent id s₃ := (keeps_mergeTuples parent left right id _ _).of_ok hparent hmoved
    have h₅ : Named parent id s₅ :=
      (keeps_modifyLeaf (fun p q hq => hsetRight p q _ hq) parent left id).of_ok h₃ hright
    have h₆ := (keeps_linkNext parent id _ _).of_ok h₅ hnext
    exact deleteParentEntry_not_ok h₆ hrid hdelete
  · intro s' hrun
    obtain ⟨e, s₁, hdelete, -⟩ := of_bind_ok hrun
    exact deleteParentEntry_not_ok hparent hrid hdelete

/-- No merge completes: neither of leaves nor of internal pages, whatever is done for the parent
and whichever entry of the parent is between the pages. -/
theorem mergePages_not_ok {handleParent : H → EStateM Fault σ Unit} {left right parent : H}
    {it : BTreeInternalPageIterator} {entry : BTreeEntry} (hparent : Named parent q.pid s)
    (hentry : it.get q = .ok entry) :
    (∀ s', mergeLeafPages handleParent left right parent entry s ≠ .ok () s') ∧
      ∀ s', mergeInternalPages handleParent left right parent entry s ≠ .ok () s' := by
  obtain ⟨slot, hrid⟩ := BTreeInternalPage.get_rid hentry
  exact merge_not_ok hparent hrid

theorem stealLeft_not_ok {page left parent : H} {n : ℕ} {it : BTreeInternalPageReverseIterator}
    {rightEntry entry : BTreeEntry} (hparent : Named parent id s)
    (hrid : entry.rid = some ⟨.btree id, slot⟩) :
    stealLeft page left parent (n + 1) it rightEntry entry s ≠ .ok () s' := by
  intro hrun
  obtain ⟨l, s₁, hl, hget⟩ := of_bind_ok hrun
  obtain ⟨rfl, -⟩ := internalAt_ok hl
  obtain ⟨leftEntry, s₂, hentry, hdelete⟩ := of_bind_ok hget
  obtain ⟨-, rfl⟩ := of_lift_ok hentry
  exact of_delete_own hparent hrid hdelete

theorem stealRight_not_ok {page right parent : H} {n : ℕ} {it : BTreeInternalPageIterator}
    {leftEntry entry : BTreeEntry} (hparent : Named parent id s)
    (hrid : entry.rid = some ⟨.btree id, slot⟩) :
    stealRight page right parent (n + 1) it leftEntry entry s ≠ .ok () s' := by
  intro hrun
  obtain ⟨r, s₁, hr, hget⟩ := of_bind_ok hrun
  obtain ⟨rfl, -⟩ := internalAt_ok hr
  obtain ⟨rightEntry, s₂, hentry, hdelete⟩ := of_bind_ok hget
  obtain ⟨-, rfl⟩ := of_lift_ok hentry
  exact of_delete_own hparent hrid hdelete

/-- No rotation between internal pages completes that is given an entry of the parent. -/
theorem rotate_not_ok {page sibling parent : H} {entry : BTreeEntry}
    (hparent : Named parent id s) (hrid : entry.rid = some ⟨.btree id, slot⟩) :
    (∀ s', stealFromLeftInternalPage page sibling parent entry s ≠ .ok () s') ∧
      ∀ s', stealFromRightInternalPage page sibling parent entry s ≠ .ok () s' := by
  constructor
  · intro s' hrun
    obtain ⟨l, s₁, hl, hpage⟩ := of_bind_ok hrun
    obtain ⟨rfl, -⟩ := internalAt_ok hl
    obtain ⟨p, s₂, hp, hitems⟩ := of_bind_ok hpage
    obtain ⟨rfl, -⟩ := internalAt_ok hp
    dsimp only at hitems
    split at hitems
    · cases hitems
    · rename_i hpos
      obtain ⟨it, s₃, hit, hfirst⟩ := of_bind_ok hitems
      obtain ⟨-, rfl⟩ := of_lift_ok hit
      obtain ⟨first, s₄, hbegin, hget⟩ := of_bind_ok hfirst
      obtain ⟨-, rfl⟩ := of_lift_ok hbegin
      obtain ⟨rightEntry, s₅, hentry, hloop⟩ := of_bind_ok hget
      obtain ⟨-, rfl⟩ := of_lift_ok hentry
      obtain ⟨⟨⟩, s₆, hsteal, -⟩ := of_bind_ok hloop
      obtain ⟨n, hn⟩ : ∃ n, ((l.getNumEntries : Int) - p.getNumEntries).tdiv 2 = (n + 1 : ℕ) :=
        ⟨(((l.getNumEntries : Int) - p.getNumEntries).tdiv 2).toNat - 1, by omega⟩
      rw [hn, Int.toNat_natCast] at hsteal
      exact stealLeft_not_ok hparent hrid hsteal
  · intro s' hrun
    obtain ⟨r, s₁, hr, hpage⟩ := of_bind_ok hrun
    obtain ⟨rfl, -⟩ := internalAt_ok hr
    obtain ⟨p, s₂, hp, hitems⟩ := of_bind_ok hpage
    obtain ⟨rfl, -⟩ := internalAt_ok hp
    dsimp only at hitems
    split at hitems
    · cases hitems
    · rename_i hpos
      obtain ⟨it, s₃, hit, hlast⟩ := of_bind_ok hitems
      obtain ⟨-, rfl⟩ := of_lift_ok hit
      obtain ⟨last, s₄, hrbegin, hget⟩ := of_bind_ok hlast
      obtain ⟨-, rfl⟩ := of_lift_ok hrbegin
      obtain ⟨leftEntry, s₅, hentry, hloop⟩ := of_bind_ok hget
      obtain ⟨-, rfl⟩ := of_lift_ok hentry
      obtain ⟨⟨⟩, s₆, hsteal, -⟩ := of_bind_ok hloop
      obtain ⟨n, hn⟩ : ∃ n, ((r.getNumEntries : Int) - p.getNumEntries).tdiv 2 = (n + 1 : ℕ) :=
        ⟨(((r.getNumEntries : Int) - p.getNumEntries).tdiv 2).toNat - 1, by omega⟩
      rw [hn, Int.toNat_natCast] at hsteal
      exact stealRight_not_ok hparent hrid hsteal

/-- No rotation between internal pages completes, in neither direction and whichever entry of the
parent is between the pages. -/
theorem stealInternal_not_ok {page sibling parent : H} {it : BTreeInternalPageIterator}
    {entry : BTreeEntry} (hparent : Named parent q.pid s) (hentry : it.get q = .ok entry) :
    (∀ s', stealFromLeftInternalPage page sibling parent entry s ≠ .ok () s') ∧
      ∀ s', stealFromRightInternalPage page sibling parent entry s ≠ .ok () s' := by
  obtain ⟨slot, hrid⟩ := BTreeInternalPage.get_rid hentry
  exact rotate_not_ok hparent hrid

end BTreeFile

section Example

open BTreeFile LogicalTree

/-- What a merge of two leaves is given: the entry of their parent between them, and tuples that
fit in one page. -/
structure Mergeable (t : LogicalTree) (left right parent : Int32) (entry : BTreeEntry) : Prop where
  joined : ∃ (q : BTreeInternalPage) (it : BTreeInternalPageIterator),
    t.pages parent = some (.internal q) ∧ it.get q = .ok entry ∧
      entry.leftChild = some (q.childId left) ∧ entry.rightChild = some (q.childId right)
  fits : ∃ l r : BTreeLeafPage, t.pages left = some (.leaf l) ∧ t.pages right = some (.leaf r) ∧
    l.rows.length + r.rows.length ≤ l.numSlots

def twoLeavesEntry : BTreeEntry :=
  ⟨some (.int 5), some ⟨7, 2, .leaf⟩, some ⟨7, 3, .leaf⟩, some ⟨.btree ⟨7, 1, .internal⟩, 1⟩⟩

theorem twoLeaves_get : BTreeInternalPageIterator.get
    ⟨1, some ⟨7, 2, .leaf⟩, some ⟨7, 3, .leaf⟩⟩ twoChildren = .ok twoLeavesEntry := rfl

/-- The two leaves with one tuple each are not merged into one. -/
theorem twoLeaves_not_merged : ¬ ∀ (td : TupleDesc) (T : KeyTree Int32 Int) (rank : Int32 → ℕ)
    (root : BTreePageId) (leaves : List Int32) (t : LogicalTree) (left right parent : Int32)
    (entry : BTreeEntry), Legal td T rank root leaves t → Mergeable t left right parent entry →
    ∃ fuel t', mergeLeafPages (handleMinOccupancyPage fuel) left right parent entry t =
      .ok () t' := by
  intro h
  have hmerge : Mergeable twoLeaves 2 3 1 twoLeavesEntry :=
    ⟨⟨twoChildren, _, rfl, twoLeaves_get, rfl, rfl⟩, _, _, rfl, rfl, by decide⟩
  obtain ⟨fuel, t', hrun⟩ := h _ _ _ _ _ _ 2 3 1 twoLeavesEntry twoLeaves_legal hmerge
  have hparent : Named (1 : Int32) ⟨7, 1, .internal⟩ twoLeaves := named_iff.mpr ⟨_, rfl, rfl⟩
  exact (merge_not_ok hparent rfl).1 t' hrun

/-- The same for the entry and the pages of the tree with two leaves. -/
theorem twoLeaves_merge_fails :
    (∀ s', mergeLeafPages (handleMinOccupancyPage 1) (2 : Int32) 3 1 twoLeavesEntry twoLeaves ≠
      .ok () s') ∧
      ∀ s', mergeInternalPages (handleMinOccupancyPage 1) (2 : Int32) 3 1 twoLeavesEntry
        twoLeaves ≠ .ok () s' :=
  mergePages_not_ok (q := twoChildren) (named_iff.mpr ⟨_, rfl, rfl⟩) twoLeaves_get

/-- A leaf for two rows of three integers that has the row 5, 0, 0. -/
def fiveLeaf (n parent left right : Int32) : BTreeLeafPage :=
  let t : Tuple :=
    ⟨.ofInts 3, [.int 5, .int 0, .int 0], some ⟨.btree ⟨7, n, .leaf⟩, 0⟩, rfl⟩
  { pid := ⟨7, n, .leaf⟩
    td := .ofInts 3
    header := [1]
    tuples := [t, .empty]
    numSlots := 2
    header_bits := two_in_byte
    tuples_length := rfl
    stored := by
      intro i u hu hbit
      match i with
      | 0 =>
        cases hu
        exact ⟨rfl, rfl⟩
      | 1 => exact absurd hbit (by decide)
      | i + 2 => cases hu
    keyField := 0
    parent := parent
    leftSibling := left
    rightSibling := right }

/-- An internal page for four entries, with the key 5 in front of every child but the first. -/
def fivePage (n parent : Int32) (category : BTreePageType) (header : UInt8) (first : Int32)
    (others : List Int32) (h : others.length ≤ 4) : BTreeInternalPage where
  pid := ⟨7, n, .internal⟩
  td := .ofInts 3
  keyField := 0
  parent := parent
  childCategory := category
  header := [header]
  keys := none :: List.replicate 4 (some (.int 5))
  children := first :: others ++ List.replicate (4 - others.length) 0
  numSlots := 5
  header_bits := show 5 ≤ 8 * 1 by decide
  keys_length := rfl
  children_length := by
    simp only [List.cons_append, List.length_cons, List.length_append, List.length_replicate]
    omega

theorem fivePage_filled {n parent : Int32} {category : BTreePageType} {header : UInt8}
    {first : Int32} {others : List Int32} (h : others.length ≤ 4)
    (hheader : ∀ i < 5, Bitmap.get [header] i = decide (i ≤ others.length)) :
    (fivePage n parent category header first others h).Filled first
      (others.map fun c => (5, c)) := by
  constructor
  case slots =>
    rw [List.length_map]
    exact Nat.lt_succ_of_le h
  case used =>
    intro i hi
    rw [List.length_map]
    exact hheader i hi
  case first_child => rfl
  case entry =>
    intro i e he
    rw [List.getElem?_map, Option.map_eq_some_iff] at he
    obtain ⟨c, hc, rfl⟩ := he
    have hlt : i < others.length := (List.getElem?_eq_some_iff.mp hc).1
    constructor
    · have hkey : (List.replicate 4 (some (Field.int 5)))[i]? = some (some (.int 5)) :=
        List.getElem?_replicate_of_lt (hlt.trans_le h)
      change (none :: List.replicate 4 (some (Field.int 5))).getD (i + 1) none = _
      rw [List.getD_eq_getElem?_getD, List.getElem?_cons_succ, hkey]
      rfl
    · change (first :: (others ++ List.replicate (4 - others.length) 0)).getD (i + 1) 0 = _
      rw [List.getD_eq_getElem?_getD, List.getElem?_cons_succ, List.getElem?_append_left hlt, hc]
      rfl

/-- A root over two internal pages, one over four leaves and one over two. -/
def threeLevels : LogicalTree where
  tableid := 7
  keyField := 0
  pageSize := 45
  limit := ⊤
  clearGrowth := 0
  blank _ id := .leaf (fiveLeaf id.pgNo 0 0 0)
  reads := 0
  size := 414
  pages n :=
    [(1, .internal (fivePage 1 0 .internal 3 2 [3] (by decide))),
      (2, .internal (fivePage 2 1 .leaf 15 4 [5, 6, 7] (by decide))),
      (3, .internal (fivePage 3 1 .leaf 3 8 [9] (by decide))),
      (4, .leaf (fiveLeaf 4 2 0 5)), (5, .leaf (fiveLeaf 5 2 4 6)), (6, .leaf (fiveLeaf 6 2 5 7)),
      (7, .leaf (fiveLeaf 7 2 6 8)), (8, .leaf (fiveLeaf 8 3 7 9)),
      (9, .leaf (fiveLeaf 9 3 8 0))].lookup n

def threeLevelsTable : List (Int32 × Int32 × List (Int × Int32)) :=
  [(1, 2, [(5, 3)]), (2, 4, [(5, 5), (5, 6), (5, 7)]), (3, 8, [(5, 9)])]

def threeLevelsRank (n : Int32) : ℕ :=
  if n = 1 then 2 else if n = 2 ∨ n = 3 then 1 else 0

theorem threeLevels_hasNode {id : BTreePageId} {page : BTreeFilePage}
    (hpage : threeLevels.pages id.pgNo = some page) (hid : page.getId = id)
    (hkind : page.kind = id.type) (hnumber : Numbered 7 9 id)
    (hnode : id.type = .leaf ∨ id.type = .internal) : threeLevels.HasNode id :=
  ⟨⟨⟨by decide, le_top, hnumber⟩, page, hpage, hid, hkind⟩, hnode⟩

theorem threeLevels_leaf {n parent left right : Int32} :
    LegalLeaf (.ofInts 3) (KeyTree.ofTable threeLevelsTable) threeLevels n
      (fiveLeaf n parent left right) := by
  have hzero : (fiveLeaf n parent left right).row? 0 = some [.int 5, .int 0, .int 0] :=
    if_pos (show Bitmap.get [1] 0 = true by decide)
  have hone : (fiveLeaf n parent left right).row? 1 = none :=
    if_neg (show ¬ Bitmap.get [1] 1 = true by decide)
  have hrows : (fiveLeaf n parent left right).rows = [[.int 5, .int 0, .int 0]] := by
    change [0, 1].filterMap (fiveLeaf n parent left right).row? = _
    simp [hzero, hone]
  refine ⟨rfl, rfl, rfl, ?_, ?_⟩
  · rw [hrows]
    exact List.pairwise_singleton _ _
  · intro row hrow
    rw [hrows] at hrow
    rw [List.mem_singleton.mp hrow]
    have hkey : ∀ x ∈ threeLevelsTable, ∀ e ∈ x.2.2, e.1 = 5 := by
      simp only [threeLevelsTable, List.forall_mem_cons]
      simp
    exact KeyTree.inRange_ofTable hkey n

theorem threeLevels_internal {n first parent : Int32} {category : BTreePageType}
    (header : UInt8) (others : List Int32) (h : others.length ≤ 4)
    (hpage : threeLevels.pages n = some (.internal (fivePage n parent category header first
      others h)))
    (hheader : ∀ i < 5, Bitmap.get [header] i = decide (i ≤ others.length))
    (hnode : (KeyTree.ofTable threeLevelsTable).node n =
      some (first, others.map fun c => (5, c)))
    (hne : others ≠ [])
    (hchildren : ∀ c ∈ first :: others, threeLevels.HasNode ⟨7, c, category⟩)
    (hparents : ∀ c ∈ first :: others,
      ∃ page, threeLevels.pages c = some page ∧ page.parent? = some n) :
    ∃ p entries, (others.map fun c => ((5 : Int), c)) = intEntries entries ∧
      threeLevels.pages n = some (.internal p) ∧
      LegalInternal (.ofInts 3) (KeyTree.ofTable threeLevelsTable) threeLevels n p first
        entries := by
  have hentries : intEntries (others.map fun c => ((5 : Int32), c)) =
      others.map fun c => ((5 : Int), c) := by
    rw [intEntries, List.map_map]
    rfl
  have hlist : BTreeInternalPage.childList first (others.map fun c => ((5 : Int32), c)) =
      first :: others := by
    rw [BTreeInternalPage.childList, List.map_map]
    exact congrArg _ (List.map_id others)
  refine ⟨_, others.map fun c => (5, c), hentries.symm, hpage, ?_⟩
  constructor
  case schema => rfl
  case keyField => rfl
  case node => rw [hentries, hnode]
  case filled => exact fivePage_filled h hheader
  case ne_nil => simpa using hne
  case sorted => exact List.pairwise_map.mpr (List.pairwise_of_forall fun _ _ => le_rfl)
  case children => rwa [hlist]
  case parents => rwa [hlist]

theorem threeLevels_legal : Legal (.ofInts 3) (KeyTree.ofTable threeLevelsTable) threeLevelsRank
    ⟨7, 1, .internal⟩ [4, 5, 6, 7, 8, 9] threeLevels := by
  have hlinks : KeyTree.links threeLevelsTable =
      [(1, 2), (1, 3), (2, 4), (2, 5), (2, 6), (2, 7), (3, 8), (3, 9)] := rfl
  have hinner : ∀ c ∈ ([2, 3] : List Int32), threeLevels.HasNode ⟨7, c, .internal⟩ := by
    intro c hc
    simp only [List.mem_cons, List.not_mem_nil, or_false] at hc
    rcases hc with rfl | rfl <;> exact threeLevels_hasNode rfl rfl rfl (by decide) (.inr rfl)
  have hleaf : ∀ c ∈ ([4, 5, 6, 7, 8, 9] : List Int32), threeLevels.HasNode ⟨7, c, .leaf⟩ := by
    intro c hc
    simp only [List.mem_cons, List.not_mem_nil, or_false] at hc
    rcases hc with rfl | rfl | rfl | rfl | rfl | rfl <;>
      exact threeLevels_hasNode rfl rfl rfl (by decide) (.inl rfl)
  constructor
  case key => rfl
  case root_node => exact threeLevels_hasNode rfl rfl rfl (by decide) (.inr rfl)
  case root_parent => exact ⟨_, rfl, rfl⟩
  case root_mem => exact .inl rfl
  case root_top =>
    intro n h
    have := KeyTree.mem_linked h
    rw [hlinks] at this
    simp at this
  case top =>
    intro n hn
    have hmem : n ∈ ([1, 2, 3] : List Int32) ∨ n ∈ ([4, 5, 6, 7, 8, 9] : List Int32) := by
      refine hn.imp_left fun hnode => ?_
      obtain ⟨⟨first, es⟩, hx⟩ := Option.isSome_iff_exists.mp hnode
      exact List.mem_map_of_mem (f := Prod.fst) (KeyTree.mem_table hx)
    have hone : ∀ c ∈ ([2, 3] : List Int32), (KeyTree.ofTable threeLevelsTable).Child 1 c :=
      fun c hc => ⟨2, [(5, 3)], rfl, hc⟩
    have htwo : ∀ c ∈ ([4, 5, 6, 7] : List Int32), (KeyTree.ofTable threeLevelsTable).Child 2 c :=
      fun c hc => ⟨4, [(5, 5), (5, 6), (5, 7)], rfl, hc⟩
    have hthree : ∀ c ∈ ([8, 9] : List Int32), (KeyTree.ofTable threeLevelsTable).Child 3 c :=
      fun c hc => ⟨8, [(5, 9)], rfl, hc⟩
    rcases hmem with hmem | hmem
    · rcases List.mem_cons.mp hmem with rfl | hmem
      · exact .inl rfl
      · exact .inr ⟨1, hone n hmem⟩
    · rcases List.mem_append.mp (show n ∈ [4, 5, 6, 7] ++ [8, 9] from hmem) with hmem | hmem
      · exact .inr ⟨2, htwo n hmem⟩
      · exact .inr ⟨3, hthree n hmem⟩
  case balanced =>
    refine KeyTree.balanced_ofTable (by decide +kernel) (by decide +kernel) ?_
    intro n hn
    simp only [threeLevelsTable, List.map_cons, List.map_nil, List.mem_cons, List.not_mem_nil,
      or_false, not_or] at hn
    simp [threeLevelsRank, hn]
  case internal =>
    intro n first es hnode
    have hmem := KeyTree.mem_table hnode
    simp only [threeLevelsTable, List.mem_cons, List.not_mem_nil, or_false, Prod.mk.injEq] at hmem
    rcases hmem with ⟨rfl, rfl, rfl⟩ | ⟨rfl, rfl, rfl⟩ | ⟨rfl, rfl, rfl⟩
    · refine threeLevels_internal 3 [3] _ rfl (by decide) rfl (by decide) hinner ?_
      simp only [List.forall_mem_cons]
      exact ⟨⟨_, rfl, rfl⟩, ⟨_, rfl, rfl⟩, by simp⟩
    · refine threeLevels_internal 15 [5, 6, 7] _ rfl (by decide) rfl (by decide) ?_ ?_
      · exact fun c hc => hleaf c (List.mem_append_left [8, 9] hc)
      · simp only [List.forall_mem_cons]
        exact ⟨⟨_, rfl, rfl⟩, ⟨_, rfl, rfl⟩, ⟨_, rfl, rfl⟩, ⟨_, rfl, rfl⟩, by simp⟩
    · refine threeLevels_internal 3 [9] _ rfl (by decide) rfl (by decide) ?_ ?_
      · exact fun c hc => hleaf c (List.mem_append_right [4, 5, 6, 7] hc)
      · simp only [List.forall_mem_cons]
        exact ⟨⟨_, rfl, rfl⟩, ⟨_, rfl, rfl⟩, by simp⟩
  case child =>
    intro n c h
    have hmem := KeyTree.mem_linked h
    rw [hlinks] at hmem
    rcases List.mem_append.mp (show c ∈ [2, 3] ++ [4, 5, 6, 7, 8, 9] from hmem) with hmem | hmem
    · simp only [List.mem_cons, List.not_mem_nil, or_false] at hmem
      rcases hmem with rfl | rfl <;> exact .inl rfl
    · exact .inr hmem
  case leaf =>
    intro n hn
    simp only [List.mem_cons, List.not_mem_nil, or_false] at hn
    rcases hn with rfl | rfl | rfl | rfl | rfl | rfl <;> exact ⟨_, rfl, threeLevels_leaf⟩
  case linked =>
    exact ⟨⟨_, rfl, rfl, rfl⟩, ⟨_, rfl, rfl, rfl⟩, ⟨_, rfl, rfl, rfl⟩, ⟨_, rfl, rfl, rfl⟩,
      ⟨_, rfl, rfl, rfl⟩, ⟨_, rfl, rfl, rfl⟩, trivial⟩
  case nodup => decide +kernel
  case order =>
    have hfrontier : (KeyTree.ofTable threeLevelsTable).frontier 2 1 = [4, 5, 6, 7, 8, 9] := by
      decide +kernel
    exact hfrontier ▸ KeyTree.frontier_ordered 2 1

/-- What a rotation from a left sibling is given: the entry of their parent between the pages, and
two entries more in the sibling. -/
structure Rotatable (t : LogicalTree) (page left parent : Int32) (entry : BTreeEntry) : Prop where
  joined : ∃ (q : BTreeInternalPage) (it : BTreeInternalPageIterator),
    t.pages parent = some (.internal q) ∧ it.get q = .ok entry ∧
      entry.leftChild = some (q.childId left) ∧ entry.rightChild = some (q.childId page)
  more : ∃ p l : BTreeInternalPage, t.pages page = some (.internal p) ∧
    t.pages left = some (.internal l) ∧ p.getNumEntries + 2 ≤ l.getNumEntries

def threeLevelsEntry : BTreeEntry :=
  ⟨some (.int 5), some ⟨7, 2, .internal⟩, some ⟨7, 3, .internal⟩,
    some ⟨.btree ⟨7, 1, .internal⟩, 1⟩⟩

theorem threeLevels_get : BTreeInternalPageIterator.get
    ⟨1, some ⟨7, 2, .internal⟩, some ⟨7, 3, .internal⟩⟩
    (fivePage 1 0 .internal 3 2 [3] (by decide)) = .ok threeLevelsEntry := rfl

/-- The page with one entry gets none of the three of its left sibling. -/
theorem threeLevels_not_rotated : ¬ ∀ (td : TupleDesc) (T : KeyTree Int32 Int) (rank : Int32 → ℕ)
    (root : BTreePageId) (leaves : List Int32) (t : LogicalTree) (page left parent : Int32)
    (entry : BTreeEntry), Legal td T rank root leaves t → Rotatable t page left parent entry →
    ∃ t', stealFromLeftInternalPage page left parent entry t = .ok () t' := by
  intro h
  have hrotate : Rotatable threeLevels 3 2 1 threeLevelsEntry :=
    ⟨⟨_, _, rfl, threeLevels_get, rfl, rfl⟩, _, _, rfl, rfl, by decide⟩
  obtain ⟨t', hrun⟩ := h _ _ _ _ _ _ 3 2 1 threeLevelsEntry threeLevels_legal hrotate
  have hparent : Named (1 : Int32) ⟨7, 1, .internal⟩ threeLevels := named_iff.mpr ⟨_, rfl, rfl⟩
  exact (rotate_not_ok hparent rfl).1 t' hrun

/-- The same for the pages and the entry of the tree with three levels, and for the other
direction. -/
theorem threeLevels_rotate_fails :
    (∀ s', stealFromLeftInternalPage (3 : Int32) 2 1 threeLevelsEntry threeLevels ≠ .ok () s') ∧
      ∀ s', stealFromRightInternalPage (3 : Int32) 2 1 threeLevelsEntry threeLevels ≠ .ok () s' :=
  stealInternal_not_ok (q := fivePage 1 0 .internal 3 2 [3] (by decide))
    (named_iff.mpr ⟨_, rfl, rfl⟩) threeLevels_get

end Example

end PagedDb
