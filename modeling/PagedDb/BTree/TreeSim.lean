import PagedDb.Foundation.Relate
import PagedDb.BTree.LogicalTree

/-!
# The code of the tree on two stores

The functions of `BTreeFile` run over any way to reach the pages. A way that
follows the map of pages call by call follows it through every function. A page
asked for to write stays reachable through its pointer for the whole operation;
one asked for to read does so until the next page is asked for.
-/

namespace PagedDb

open Exec

/-- A way to reach pages that follows the map of pages. `Held` says that a pointer was asked for
to write and leads to a page number, `Seen` that it is the last one asked for. -/
structure TreeSim (σ H : Type) [TreeStore σ H] extends Coupling Fault σ LogicalTree where
  stuck_eq : stuck = LogicalTree.stuck
  Held : H → Int32 → σ → LogicalTree → Prop
  Seen : H → Int32 → σ → LogicalTree → Prop
  seen_of_held : ∀ {s t}, Inv s t → ∀ {h n}, Held h n s t → Seen h n s t
  held_evolves : ∀ {s t s' t' h n}, Evolves s t s' t' → Held h n s t → Held h n s' t'
  tableid : ∀ {s t}, Inv s t → TreeStore.tableid s = TreeStore.tableid t
  keyField : ∀ {s t}, Inv s t → TreeStore.keyField s = TreeStore.keyField t
  pageSize : ∀ {s t}, Inv s t → TreeStore.pageSize s = TreeStore.pageSize t
  isEmpty : ∀ {s t}, Inv s t → TreeStore.isEmpty s = TreeStore.isEmpty t
  getNumPages : ∀ {s t}, Inv s t → TreeStore.getNumPages s = TreeStore.getNumPages t
  readPage : ∀ {s t}, Inv s t → ∀ id, Agrees toCoupling s t Seen
    (TreeStore.getPage id .readOnly s) (TreeStore.getPage id .readOnly t)
  writePage : ∀ {s t}, Inv s t → ∀ id, Agrees toCoupling s t Held
    (TreeStore.getPage id .readWrite s) (TreeStore.getPage id .readWrite t)
  load : ∀ {s t}, Inv s t → ∀ {h n}, Seen h n s t →
    Agrees toCoupling s t (fun p q s' t' => p = q ∧ s' = s ∧ t' = t) (TreeStore.load h s)
      (TreeStore.load n t)
  store : ∀ {s t}, Inv s t → ∀ {h n}, Held h n s t → ∀ p,
    Agrees toCoupling s t (fun _ _ _ _ => True) (TreeStore.store h p s) (TreeStore.store n p t)
  createFile : ∀ {s t}, Inv s t → Agrees toCoupling s t (fun _ _ _ _ => True)
    ((TreeStore.createFile : EStateM Fault σ Unit) s) (TreeStore.createFile t)
  appendPage : ∀ {s t}, Inv s t → Agrees toCoupling s t (fun _ _ _ _ => True)
    ((TreeStore.appendPage : EStateM Fault σ Unit) s) (TreeStore.appendPage t)
  clearPage : ∀ {s t}, Inv s t → ∀ n, Agrees toCoupling s t (fun _ _ _ _ => True)
    ((TreeStore.clearPage n : EStateM Fault σ Unit) s) (TreeStore.clearPage n t)
  discardPage : ∀ {s t}, Inv s t → ∀ id, Agrees toCoupling s t (fun _ _ _ _ => True)
    ((TreeStore.discardPage id : EStateM Fault σ Unit) s) (TreeStore.discardPage id t)

namespace TreeSim

open BTreeFile

variable {σ H : Type} [TreeStore σ H] (S : TreeSim σ H) {s : σ} {t : LogicalTree} {h h' : H}
  {n n' : Int32}

section Pointers

theorem loadAs {α : Type} (hinv : S.Inv s t) (hs : S.Seen h n s t)
    {f : BTreeFilePage → EStateM Fault σ α} {g : BTreeFilePage → EStateM Fault LogicalTree α}
    (hfg : ∀ p, (∃ a, f p = pure a ∧ g p = pure a) ∨ ∃ e, f p = throw e ∧ g p = throw e) :
    Agrees S.toCoupling s t (fun a b s' t' => a = b ∧ s' = s ∧ t' = t)
      ((TreeStore.load h >>= f) s) ((TreeStore.load n >>= g) t) := by
  apply (S.load hinv hs).bind_same
  intro p
  obtain ⟨a, hf, hg⟩ | ⟨e, hf, hg⟩ := hfg p
  · rw [hf, hg]
    exact Agrees.pure hinv ⟨rfl, rfl, rfl⟩
  · rw [hf, hg]
    exact Agrees.throw e

theorem rootPtrAt (hinv : S.Inv s t) (hs : S.Seen h n s t) :
    Agrees S.toCoupling s t (fun a b s' t' => a = b ∧ s' = s ∧ t' = t)
      (BTreeFile.rootPtrAt h s) (BTreeFile.rootPtrAt n t) := by
  apply S.loadAs hinv hs
  intro p
  cases p with
  | rootPtr p => exact .inl ⟨p, rfl, rfl⟩
  | header p => exact .inr ⟨_, rfl, rfl⟩
  | internal p => exact .inr ⟨_, rfl, rfl⟩
  | leaf p => exact .inr ⟨_, rfl, rfl⟩

theorem headerAt (hinv : S.Inv s t) (hs : S.Seen h n s t) :
    Agrees S.toCoupling s t (fun a b s' t' => a = b ∧ s' = s ∧ t' = t)
      (BTreeFile.headerAt h s) (BTreeFile.headerAt n t) := by
  apply S.loadAs hinv hs
  intro p
  cases p with
  | rootPtr p => exact .inr ⟨_, rfl, rfl⟩
  | header p => exact .inl ⟨p, rfl, rfl⟩
  | internal p => exact .inr ⟨_, rfl, rfl⟩
  | leaf p => exact .inr ⟨_, rfl, rfl⟩

theorem internalAt (hinv : S.Inv s t) (hs : S.Seen h n s t) :
    Agrees S.toCoupling s t (fun a b s' t' => a = b ∧ s' = s ∧ t' = t)
      (BTreeFile.internalAt h s) (BTreeFile.internalAt n t) := by
  apply S.loadAs hinv hs
  intro p
  cases p with
  | rootPtr p => exact .inr ⟨_, rfl, rfl⟩
  | header p => exact .inr ⟨_, rfl, rfl⟩
  | internal p => exact .inl ⟨p, rfl, rfl⟩
  | leaf p => exact .inr ⟨_, rfl, rfl⟩

theorem leafAt (hinv : S.Inv s t) (hs : S.Seen h n s t) :
    Agrees S.toCoupling s t (fun a b s' t' => a = b ∧ s' = s ∧ t' = t)
      (BTreeFile.leafAt h s) (BTreeFile.leafAt n t) := by
  apply S.loadAs hinv hs
  intro p
  cases p with
  | rootPtr p => exact .inr ⟨_, rfl, rfl⟩
  | header p => exact .inr ⟨_, rfl, rfl⟩
  | internal p => exact .inr ⟨_, rfl, rfl⟩
  | leaf p => exact .inl ⟨p, rfl, rfl⟩

theorem getParentId (hinv : S.Inv s t) (hs : S.Seen h n s t) :
    Agrees S.toCoupling s t (fun a b s' t' => a = b ∧ s' = s ∧ t' = t)
      (BTreeFile.getParentId h s) (BTreeFile.getParentId n t) := by
  apply S.loadAs hinv hs
  intro p
  cases p with
  | rootPtr p => exact .inr ⟨_, rfl, rfl⟩
  | header p => exact .inr ⟨_, rfl, rfl⟩
  | internal p => exact .inl ⟨_, rfl, rfl⟩
  | leaf p => exact .inl ⟨_, rfl, rfl⟩

theorem modifyAs {α : Type} {at₁ : EStateM Fault σ α} {at₂ : EStateM Fault LogicalTree α}
    (hinv : S.Inv s t) (hh : S.Held h n s t)
    (hat : Agrees S.toCoupling s t (fun a b s' t' => a = b ∧ s' = s ∧ t' = t) (at₁ s) (at₂ t))
    (f : α → Except Fault α) (page : α → BTreeFilePage) :
    Agrees S.toCoupling s t (fun _ _ _ _ => True)
      ((do let p ← at₁; let p ← lift (f p); TreeStore.store h (page p)) s)
      ((do let p ← at₂; let p ← lift (f p); TreeStore.store n (page p)) t) := by
  apply hat.bind_same
  intro p
  apply Agrees.bind_lift
  intro q _
  exact S.store hinv hh (page q)

theorem modifyRootPtr (hinv : S.Inv s t) (hh : S.Held h n s t)
    (f : BTreeRootPtrPage → Except Fault BTreeRootPtrPage) :
    Agrees S.toCoupling s t (fun _ _ _ _ => True)
      (BTreeFile.modifyRootPtr h f s) (BTreeFile.modifyRootPtr n f t) :=
  S.modifyAs hinv hh (S.rootPtrAt hinv (S.seen_of_held hinv hh)) f .rootPtr

theorem modifyHeader (hinv : S.Inv s t) (hh : S.Held h n s t)
    (f : BTreeHeaderPage → Except Fault BTreeHeaderPage) :
    Agrees S.toCoupling s t (fun _ _ _ _ => True)
      (BTreeFile.modifyHeader h f s) (BTreeFile.modifyHeader n f t) :=
  S.modifyAs hinv hh (S.headerAt hinv (S.seen_of_held hinv hh)) f .header

theorem modifyInternal (hinv : S.Inv s t) (hh : S.Held h n s t)
    (f : BTreeInternalPage → Except Fault BTreeInternalPage) :
    Agrees S.toCoupling s t (fun _ _ _ _ => True)
      (BTreeFile.modifyInternal h f s) (BTreeFile.modifyInternal n f t) :=
  S.modifyAs hinv hh (S.internalAt hinv (S.seen_of_held hinv hh)) f .internal

theorem modifyLeaf (hinv : S.Inv s t) (hh : S.Held h n s t)
    (f : BTreeLeafPage → Except Fault BTreeLeafPage) :
    Agrees S.toCoupling s t (fun _ _ _ _ => True)
      (BTreeFile.modifyLeaf h f s) (BTreeFile.modifyLeaf n f t) :=
  S.modifyAs hinv hh (S.leafAt hinv (S.seen_of_held hinv hh)) f .leaf

theorem setParentId (hinv : S.Inv s t) (hh : S.Held h n s t) (id : BTreePageId) :
    Agrees S.toCoupling s t (fun _ _ _ _ => True)
      (BTreeFile.setParentId h id s) (BTreeFile.setParentId n id t) := by
  apply (S.load hinv (S.seen_of_held hinv hh)).bind_same
  intro p
  cases p with
  | rootPtr p => exact Agrees.throw _
  | header p => exact Agrees.throw _
  | internal p => exact Agrees.bind_lift fun q _ => S.store hinv hh _
  | leaf p => exact Agrees.bind_lift fun q _ => S.store hinv hh _

theorem rootPtrId (hinv : S.Inv s t) :
    Agrees S.toCoupling s t (fun a b s' t' => a = b ∧ s' = s ∧ t' = t)
      (BTreeFile.rootPtrId s) (BTreeFile.rootPtrId t) := by
  apply Agrees.get
  rw [S.tableid hinv]
  exact Agrees.pure hinv ⟨rfl, rfl, rfl⟩

end Pointers

theorem getRootPtrPage (hinv : S.Inv s t) :
    Agrees S.toCoupling s t S.Seen
      ((BTreeFile.getRootPtrPage : EStateM Fault σ H) s) (BTreeFile.getRootPtrPage t) := by
  have hread : ∀ s t, S.Inv s t → Agrees S.toCoupling s t S.Seen
      ((do TreeStore.getPage (← BTreeFile.rootPtrId) .readOnly : EStateM Fault σ H) s)
      ((do TreeStore.getPage (← BTreeFile.rootPtrId) .readOnly : EStateM Fault LogicalTree Int32) t) :=
    fun s t hinv => (S.rootPtrId hinv).bind_same fun id => S.readPage hinv id
  apply Agrees.get
  rw [S.isEmpty hinv]
  split
  · apply (S.createFile hinv).bind
    rintro _ _ s' t' hinv' - -
    exact hread s' t' hinv'
  · exact hread s t hinv

section Allocation

theorem findHeaderPage (fuel : ℕ) (hinv : S.Inv s t) (hs : S.Seen h n s t) (count : ℕ) :
    Agrees S.toCoupling s t (fun a b _ _ => a = b)
      (BTreeFile.findHeaderPage fuel h count s) (BTreeFile.findHeaderPage fuel n count t) := by
  induction fuel generalizing s t h n count with
  | zero => exact Agrees.throw _
  | succ fuel ih =>
    apply (S.headerAt hinv hs).bind_same
    intro p
    apply Agrees.get
    rw [S.pageSize hinv]
    split
    · exact Agrees.pure hinv rfl
    · cases hnext : p.getNextPageId with
      | none => exact Agrees.pure hinv rfl
      | some headerId =>
        apply (S.readPage hinv headerId).bind
        intro h' n' s' t' hinv' _ hs'
        exact ih hinv' hs' (count + 1)

theorem markSlotUsed (hinv : S.Inv s t) (hh : S.Held h n s t) (slot : Int) (value : Bool) :
    Agrees S.toCoupling s t (fun _ _ _ _ => True)
      (BTreeFile.markSlotUsed h slot value s) (BTreeFile.markSlotUsed n slot value t) := by
  apply Agrees.get
  rw [S.pageSize hinv]
  exact S.modifyHeader hinv hh _

theorem findEmptyHeader (hinv : S.Inv s t) (p : BTreeRootPtrPage) :
    Agrees S.toCoupling s t (fun a b _ _ => a = b)
      ((BTreeFile.findEmptyHeader p : EStateM Fault σ (Option (BTreePageId × ℕ))) s)
      (BTreeFile.findEmptyHeader p t) := by
  unfold BTreeFile.findEmptyHeader
  cases p.getHeaderId with
  | none => exact Agrees.pure hinv rfl
  | some headerId =>
    apply (S.readPage hinv headerId).bind
    intro h n s₁ t₁ hinv₁ _ hs
    apply Agrees.get
    rw [S.getNumPages hinv₁]
    exact S.findHeaderPage _ hinv₁ hs 0

theorem getEmptyPageNo (hinv : S.Inv s t) :
    Agrees S.toCoupling s t (fun a b _ _ => a = b)
      ((BTreeFile.getEmptyPageNo : EStateM Fault σ Int32) s) (BTreeFile.getEmptyPageNo t) := by
  apply (S.getRootPtrPage hinv).bind
  intro root root' s₁ t₁ hinv₁ _ hs
  apply (S.rootPtrAt hinv₁ hs).bind_same
  intro p
  apply (S.findEmptyHeader hinv₁ p).bind
  rintro found _ s₂ t₂ hinv₂ - rfl
  cases found with
  | none =>
    apply (S.appendPage hinv₂).bind
    rintro _ _ s₃ t₃ hinv₃ - -
    apply Agrees.get
    rw [S.getNumPages hinv₃]
    exact Agrees.pure hinv₃ rfl
  | some found =>
    obtain ⟨headerId, count⟩ := found
    apply (S.writePage hinv₂ headerId).bind
    intro h n s₃ t₃ hinv₃ _ hh
    apply (S.headerAt hinv₃ (S.seen_of_held hinv₃ hh)).bind_same
    intro q
    apply Agrees.get
    rw [S.pageSize hinv₃]
    cases q.getEmptySlot (TreeStore.pageSize t₃) with
    | none => exact Agrees.throw _
    | some slot =>
      apply (S.markSlotUsed hinv₃ hh slot true).bind
      rintro _ _ s₄ t₄ hinv₄ - -
      exact Agrees.pure hinv₄ rfl

theorem getEmptyPage (hinv : S.Inv s t) (type : BTreePageType) :
    Agrees S.toCoupling s t S.Held
      ((BTreeFile.getEmptyPage type : EStateM Fault σ H) s) (BTreeFile.getEmptyPage type t) := by
  apply (S.getEmptyPageNo hinv).bind
  rintro number _ s₁ t₁ hinv₁ - rfl
  apply Agrees.get
  rw [S.tableid hinv₁]
  apply (S.clearPage hinv₁ number).bind
  rintro _ _ s₂ t₂ hinv₂ - -
  apply (S.discardPage hinv₂ _).bind
  rintro _ _ s₃ t₃ hinv₃ - -
  exact S.writePage hinv₃ _

end Allocation

section Search

theorem findLeafPage (f : Option Field) (fuel : ℕ) (hinv : S.Inv s t) (pid : BTreePageId) :
    Agrees S.toCoupling s t S.Seen
      ((BTreeFile.findLeafPage .readOnly f fuel pid : EStateM Fault σ H) s)
      (BTreeFile.findLeafPage .readOnly f fuel pid t) := by
  induction fuel generalizing s t pid with
  | zero => exact Agrees.throw _
  | succ fuel ih =>
    unfold BTreeFile.findLeafPage
    split
    · exact S.readPage hinv pid
    · split
      · exact Agrees.throw _
      · apply (S.readPage hinv pid).bind
        intro h n s₁ t₁ hinv₁ _ hs
        apply (S.internalAt hinv₁ hs).bind_same
        intro p
        apply Agrees.bind_lift
        intro child _
        cases child with
        | none => exact Agrees.throw _
        | some child => exact ih hinv₁ child

end Search

section Parents

theorem updateParentPointer (hinv : S.Inv s t) (pid : BTreePageId) (child : Option BTreePageId) :
    Agrees S.toCoupling s t (fun _ _ _ _ => True)
      ((BTreeFile.updateParentPointer pid child : EStateM Fault σ Unit) s)
      (BTreeFile.updateParentPointer pid child t) := by
  cases child with
  | none => exact Agrees.throw _
  | some child =>
    apply (S.readPage hinv child).bind
    intro h n s₁ t₁ hinv₁ _ hs
    apply (S.getParentId hinv₁ hs).bind_same
    intro parent
    split
    · apply (S.writePage hinv₁ child).bind
      intro h n s₂ t₂ hinv₂ _ hh
      exact S.setParentId hinv₂ hh pid
    · exact Agrees.pure hinv₁ trivial

theorem updateChildren (hinv : S.Inv s t) (hh : S.Held h n s t) (pid : BTreePageId) (k : ℕ)
    (it : BTreeInternalPageIterator) (e : Option BTreeEntry) :
    Agrees S.toCoupling s t (fun a b _ _ => a = b)
      (BTreeFile.updateChildren h pid k it e s) (BTreeFile.updateChildren n pid k it e t) := by
  induction k generalizing s t it e with
  | zero => exact Agrees.pure hinv rfl
  | succ k ih =>
    apply (S.internalAt hinv (S.seen_of_held hinv hh)).bind_same
    intro p
    split
    · apply Agrees.bind_lift
      intro item _
      apply (S.updateParentPointer hinv pid item.leftChild).bind
      rintro _ _ s₁ t₁ hinv₁ hev -
      have hh₁ := S.held_evolves hev hh
      apply (S.internalAt hinv₁ (S.seen_of_held hinv₁ hh₁)).bind_same
      intro q
      apply Agrees.bind_lift
      intro it' _
      exact ih hinv₁ hh₁ it' (some item)
    · exact Agrees.pure hinv rfl

theorem updateParentPointers (hinv : S.Inv s t) (hh : S.Held h n s t) :
    Agrees S.toCoupling s t (fun _ _ _ _ => True)
      (BTreeFile.updateParentPointers h s) (BTreeFile.updateParentPointers n t) := by
  apply (S.internalAt hinv (S.seen_of_held hinv hh)).bind_same
  intro p
  apply Agrees.bind_lift
  intro it _
  apply (S.updateChildren hinv hh p.pid p.numSlots it none).bind
  rintro e _ s₁ t₁ hinv₁ - rfl
  cases e with
  | none => exact Agrees.pure hinv₁ trivial
  | some e => exact S.updateParentPointer hinv₁ p.pid e.rightChild

end Parents

section Split

theorem makeRoot (hinv : S.Inv s t) :
    Agrees S.toCoupling s t S.Held ((BTreeFile.makeRoot : EStateM Fault σ H) s)
      (BTreeFile.makeRoot t) := by
  apply (S.getEmptyPage hinv .internal).bind
  intro parent parent' s₁ t₁ hinv₁ _ hparent
  apply (S.rootPtrId hinv₁).bind_same
  intro id
  apply (S.writePage hinv₁ id).bind
  intro root root' s₂ t₂ hinv₂ hev₂ hroot
  have hparent₂ := S.held_evolves hev₂ hparent
  apply (S.rootPtrAt hinv₂ (S.seen_of_held hinv₂ hroot)).bind_same
  intro p
  apply (S.internalAt hinv₂ (S.seen_of_held hinv₂ hparent₂)).bind_same
  intro q
  apply (S.modifyRootPtr hinv₂ hroot _).bind
  rintro _ _ s₃ t₃ hinv₃ hev₃ -
  cases p.getRootId with
  | none => exact Agrees.throw _
  | some prevRootId =>
    apply (S.writePage hinv₃ prevRootId).bind
    intro prev prev' s₄ t₄ hinv₄ hev₄ hprev
    apply (S.setParentId hinv₄ hprev q.pid).bind
    rintro _ _ s₅ t₅ hinv₅ hev₅ -
    exact Agrees.pure hinv₅
      (S.held_evolves hev₅ (S.held_evolves hev₄ (S.held_evolves hev₃ hparent₂)))

theorem moveEntries (hinv : S.Inv s t) (hh : S.Held h n s t) (hh' : S.Held h' n' s t) (k : ℕ)
    (it : BTreeInternalPageReverseIterator) :
    Agrees S.toCoupling s t (fun a b _ _ => a = b)
      (BTreeFile.moveEntries h h' k it s) (BTreeFile.moveEntries n n' k it t) := by
  induction k generalizing s t it with
  | zero => exact Agrees.pure hinv rfl
  | succ k ih =>
    apply (S.internalAt hinv (S.seen_of_held hinv hh)).bind_same
    intro p
    apply Agrees.bind_lift
    intro entry _
    apply Agrees.bind_lift
    rintro ⟨q, entry'⟩ _
    apply (S.store hinv hh (.internal q)).bind
    rintro _ _ s₁ t₁ hinv₁ hev₁ -
    apply (S.modifyInternal hinv₁ (S.held_evolves hev₁ hh') _).bind
    rintro _ _ s₂ t₂ hinv₂ hev₂ -
    have hh₂ := S.held_evolves hev₂ (S.held_evolves hev₁ hh)
    apply (S.internalAt hinv₂ (S.seen_of_held hinv₂ hh₂)).bind_same
    intro r
    apply Agrees.bind_lift
    intro it' _
    exact ih hinv₂ hh₂ (S.held_evolves hev₂ (S.held_evolves hev₁ hh')) it'

theorem enterSplit (hinv : S.Inv s t) (hh : S.Held h n s t) (index : Option Field)
    (left right : BTreePageId) :
    Agrees S.toCoupling s t (fun _ _ _ _ => True)
      (BTreeFile.enterSplit h index left right s) (BTreeFile.enterSplit n index left right t) := by
  apply (S.modifyInternal hinv hh _).bind
  rintro _ _ s₁ t₁ hinv₁ hev₁ -
  exact S.updateParentPointers hinv₁ (S.held_evolves hev₁ hh)

theorem chooseHalf {r : H} {m : Int32} (hinv : S.Inv s t) (hh : S.Held h n s t)
    (hr : S.Held r m s t) (x : Except Fault Bool) :
    Agrees S.toCoupling s t S.Held
      ((do if ← lift x then pure h else pure r : EStateM Fault σ H) s)
      ((do if ← lift x then pure n else pure m : EStateM Fault LogicalTree Int32) t) := by
  apply Agrees.bind_lift
  intro b _
  cases b with
  | true => exact Agrees.pure hinv hh
  | false => exact Agrees.pure hinv hr

theorem splitInternalWith {getParent : BTreePageId → Option Field → EStateM Fault σ H}
    {getParent' : BTreePageId → Option Field → EStateM Fault LogicalTree Int32}
    (hparent : ∀ {s t}, S.Inv s t → ∀ id f,
      Agrees S.toCoupling s t S.Held (getParent id f s) (getParent' id f t))
    (hinv : S.Inv s t) (hh : S.Held h n s t) (field : Option Field) :
    Agrees S.toCoupling s t S.Held (BTreeFile.splitInternalWith getParent h field s)
      (BTreeFile.splitInternalWith getParent' n field t) := by
  apply (S.getEmptyPage hinv .internal).bind
  intro r m s₁ t₁ hinv₁ hev₁ hr₁
  have hh₁ := S.held_evolves hev₁ hh
  apply (S.internalAt hinv₁ (S.seen_of_held hinv₁ hh₁)).bind_same
  intro p
  apply Agrees.bind_lift
  intro it _
  apply (S.moveEntries hinv₁ hh₁ hr₁ _ it).bind
  rintro it' _ s₂ t₂ hinv₂ hev₂ rfl
  have hh₂ := S.held_evolves hev₂ hh₁
  have hr₂ := S.held_evolves hev₂ hr₁
  apply (S.internalAt hinv₂ (S.seen_of_held hinv₂ hh₂)).bind_same
  intro p₂
  apply Agrees.bind_lift
  intro entry _
  apply (S.modifyInternal hinv₂ hh₂ _).bind
  rintro _ _ s₃ t₃ hinv₃ hev₃ -
  have hh₃ := S.held_evolves hev₃ hh₂
  have hr₃ := S.held_evolves hev₃ hr₂
  apply (S.updateParentPointers hinv₃ hr₃).bind
  rintro _ _ s₄ t₄ hinv₄ hev₄ -
  have hh₄ := S.held_evolves hev₄ hh₃
  have hr₄ := S.held_evolves hev₄ hr₃
  apply (S.internalAt hinv₄ (S.seen_of_held hinv₄ hh₄)).bind_same
  intro p₄
  apply (S.internalAt hinv₄ (S.seen_of_held hinv₄ hr₄)).bind_same
  intro right
  apply (hparent hinv₄ p₄.getParentId entry.key).bind
  intro q q' s₅ t₅ hinv₅ hev₅ hq
  apply (S.enterSplit hinv₅ hq entry.key p₄.pid right.pid).bind
  rintro _ _ s₆ t₆ hinv₆ hev₆ -
  cases field with
  | none => exact Agrees.throw _
  | some field =>
    have hh₆ := S.held_evolves hev₆ (S.held_evolves hev₅ hh₄)
    have hr₆ := S.held_evolves hev₆ (S.held_evolves hev₅ hr₄)
    exact S.chooseHalf hinv₆ hh₆ hr₆ _

theorem parentPage (hinv : S.Inv s t) (id : BTreePageId) :
    Agrees S.toCoupling s t S.Held ((BTreeFile.parentPage id : EStateM Fault σ H) s)
      (BTreeFile.parentPage id t) := by
  unfold BTreeFile.parentPage
  split
  · exact S.makeRoot hinv
  · exact S.writePage hinv id

theorem getParentWithEmptySlots (fuel : ℕ) (hinv : S.Inv s t) (id : BTreePageId)
    (field : Option Field) :
    Agrees S.toCoupling s t S.Held
      ((BTreeFile.getParentWithEmptySlots fuel id field : EStateM Fault σ H) s)
      (BTreeFile.getParentWithEmptySlots fuel id field t) := by
  induction fuel generalizing s t id field with
  | zero => exact Agrees.throw _
  | succ fuel ih =>
    apply (S.parentPage hinv id).bind
    intro h n s₁ t₁ hinv₁ _ hh
    apply (S.internalAt hinv₁ (S.seen_of_held hinv₁ hh)).bind_same
    intro q
    split
    · exact S.splitInternalWith (fun hinv id f => ih hinv id f) hinv₁ hh field
    · exact Agrees.pure hinv₁ hh

theorem moveTuple (hinv : S.Inv s t) (hh : S.Held h n s t) (hh' : S.Held h' n' s t)
    (tuple : Tuple) :
    Agrees S.toCoupling s t (fun _ _ _ _ => True)
      (BTreeFile.moveTuple h h' tuple s) (BTreeFile.moveTuple n n' tuple t) := by
  apply (S.leafAt hinv (S.seen_of_held hinv hh)).bind_same
  intro p
  apply Agrees.bind_lift
  rintro ⟨q, tuple'⟩ _
  apply (S.store hinv hh (.leaf q)).bind
  rintro _ _ s₁ t₁ hinv₁ hev₁ -
  exact S.modifyLeaf hinv₁ (S.held_evolves hev₁ hh') _

theorem moveTuples (hinv : S.Inv s t) (hh : S.Held h n s t) (hh' : S.Held h' n' s t) (k : ℕ)
    (it : BTreeLeafPageIterator) :
    Agrees S.toCoupling s t (fun a b _ _ => a = b)
      (BTreeFile.moveTuples h h' k it s) (BTreeFile.moveTuples n n' k it t) := by
  induction k generalizing s t it with
  | zero => exact Agrees.pure hinv rfl
  | succ k ih =>
    apply (S.leafAt hinv (S.seen_of_held hinv hh)).bind_same
    intro p
    apply Agrees.bind_lift
    intro tuple _
    apply (S.moveTuple hinv hh hh' tuple).bind
    rintro _ _ s₁ t₁ hinv₁ hev₁ -
    have hh₁ := S.held_evolves hev₁ hh
    apply (S.leafAt hinv₁ (S.seen_of_held hinv₁ hh₁)).bind_same
    intro q
    exact ih hinv₁ hh₁ (S.held_evolves hev₁ hh') _

theorem linkNext (hinv : S.Inv s t) (next : Option BTreePageId) (right : BTreePageId) :
    Agrees S.toCoupling s t (fun _ _ _ _ => True)
      ((BTreeFile.linkNext next right : EStateM Fault σ Unit) s)
      (BTreeFile.linkNext next right t) := by
  cases next with
  | none => exact Agrees.pure hinv trivial
  | some next =>
    apply (S.writePage hinv next).bind
    intro h n s₁ t₁ hinv₁ _ hh
    exact S.modifyLeaf hinv₁ hh _

theorem linkRight (hinv : S.Inv s t) (hh : S.Held h n s t) (hh' : S.Held h' n' s t) :
    Agrees S.toCoupling s t (fun _ _ _ _ => True)
      (BTreeFile.linkRight h h' s) (BTreeFile.linkRight n n' t) := by
  apply (S.leafAt hinv (S.seen_of_held hinv hh)).bind_same
  intro p
  apply (S.leafAt hinv (S.seen_of_held hinv hh')).bind_same
  intro right
  apply (S.linkNext hinv p.getRightSiblingId right.pid).bind
  rintro _ _ s₁ t₁ hinv₁ hev₁ -
  have hh'₁ := S.held_evolves hev₁ hh'
  apply (S.modifyLeaf hinv₁ hh'₁ _).bind
  rintro _ _ s₂ t₂ hinv₂ hev₂ -
  apply (S.modifyLeaf hinv₂ (S.held_evolves hev₂ hh'₁) _).bind
  rintro _ _ s₃ t₃ hinv₃ hev₃ -
  exact S.modifyLeaf hinv₃ (S.held_evolves hev₃ (S.held_evolves hev₂ (S.held_evolves hev₁ hh))) _

theorem splitLeafPage (fuel : ℕ) (hinv : S.Inv s t) (hh : S.Held h n s t) (field : Field) :
    Agrees S.toCoupling s t S.Held
      (BTreeFile.splitLeafPage fuel h field s) (BTreeFile.splitLeafPage fuel n field t) := by
  apply (S.getEmptyPage hinv .leaf).bind
  intro r m s₁ t₁ hinv₁ hev₁ hr₁
  have hh₁ := S.held_evolves hev₁ hh
  apply (S.linkRight hinv₁ hh₁ hr₁).bind
  rintro _ _ s₂ t₂ hinv₂ hev₂ -
  have hh₂ := S.held_evolves hev₂ hh₁
  have hr₂ := S.held_evolves hev₂ hr₁
  apply (S.leafAt hinv₂ (S.seen_of_held hinv₂ hh₂)).bind_same
  intro p
  apply (S.moveTuples hinv₂ hh₂ hr₂ _ _).bind
  rintro it _ s₃ t₃ hinv₃ hev₃ rfl
  have hh₃ := S.held_evolves hev₃ hh₂
  have hr₃ := S.held_evolves hev₃ hr₂
  apply (S.leafAt hinv₃ (S.seen_of_held hinv₃ hh₃)).bind_same
  intro p₃
  apply Agrees.bind_lift
  intro tuple _
  apply Agrees.get
  rw [S.keyField hinv₃]
  apply Agrees.bind_lift
  intro index _
  apply (S.moveTuple hinv₃ hh₃ hr₃ tuple).bind
  rintro _ _ s₄ t₄ hinv₄ hev₄ -
  have hh₄ := S.held_evolves hev₄ hh₃
  have hr₄ := S.held_evolves hev₄ hr₃
  apply (S.leafAt hinv₄ (S.seen_of_held hinv₄ hh₄)).bind_same
  intro p₄
  apply (S.leafAt hinv₄ (S.seen_of_held hinv₄ hr₄)).bind_same
  intro right
  apply (S.getParentWithEmptySlots fuel hinv₄ p₄.getParentId (some index)).bind
  intro q q' s₅ t₅ hinv₅ hev₅ hq
  apply (S.enterSplit hinv₅ hq (some index) p₄.pid right.pid).bind
  rintro _ _ s₆ t₆ hinv₆ hev₆ -
  have hh₆ := S.held_evolves hev₆ (S.held_evolves hev₅ hh₄)
  have hr₆ := S.held_evolves hev₆ (S.held_evolves hev₅ hr₄)
  exact S.chooseHalf hinv₆ hh₆ hr₆ _

end Split

section Insertion

theorem getRoot (hinv : S.Inv s t) :
    Agrees S.toCoupling s t (fun a b _ _ => a = b)
      ((BTreeFile.getRoot : EStateM Fault σ BTreePageId) s) (BTreeFile.getRoot t) := by
  apply (S.getRootPtrPage hinv).bind
  intro root root' s₁ t₁ hinv₁ _ hs
  apply (S.rootPtrAt hinv₁ hs).bind_same
  intro p
  cases p.getRootId with
  | some rootId => exact Agrees.pure hinv₁ rfl
  | none =>
    apply Agrees.get
    rw [S.tableid hinv₁, S.getNumPages hinv₁]
    apply (S.rootPtrId hinv₁).bind_same
    intro id
    apply (S.writePage hinv₁ id).bind
    intro h n s₂ t₂ hinv₂ _ hh
    apply (S.modifyRootPtr hinv₂ hh _).bind
    rintro _ _ s₃ t₃ hinv₃ - -
    exact Agrees.pure hinv₃ rfl

theorem leafWithRoom (fuel : ℕ) (hinv : S.Inv s t) (hh : S.Held h n s t) (key : Field) :
    Agrees S.toCoupling s t S.Held
      (BTreeFile.leafWithRoom fuel h key s) (BTreeFile.leafWithRoom fuel n key t) := by
  apply (S.leafAt hinv (S.seen_of_held hinv hh)).bind_same
  intro l
  split
  · exact S.splitLeafPage fuel hinv hh key
  · exact Agrees.pure hinv hh

theorem insertTuple (hinv : S.Inv s t) (tuple : Tuple) :
    Agrees S.toCoupling s t (fun a b _ _ => a = b)
      ((BTreeFile.insertTuple tuple : EStateM Fault σ Tuple) s) (BTreeFile.insertTuple tuple t) := by
  apply (S.getRoot hinv).bind
  rintro rootId _ s₁ t₁ hinv₁ - rfl
  apply Agrees.get
  rw [S.getNumPages hinv₁, S.keyField hinv₁]
  apply Agrees.bind_lift
  intro key _
  apply (S.findLeafPage (some key) _ hinv₁ rootId).bind
  intro h n s₂ t₂ hinv₂ _ hs
  apply (S.leafAt hinv₂ hs).bind_same
  intro l
  apply (S.writePage hinv₂ l.pid).bind
  intro h n s₃ t₃ hinv₃ _ hh
  apply (S.leafWithRoom _ hinv₃ hh key).bind
  intro h n s₄ t₄ hinv₄ _ hh
  apply (S.leafAt hinv₄ (S.seen_of_held hinv₄ hh)).bind_same
  intro l
  apply Agrees.bind_lift
  rintro ⟨l', tuple'⟩ _
  apply (S.store hinv₄ hh (.leaf l')).bind
  rintro _ _ s₅ t₅ hinv₅ - -
  exact Agrees.pure hinv₅ rfl

end Insertion

end TreeSim

end PagedDb
