import PagedDb.BTree.PageAllocator
import PagedDb.BTree.StealLeaf

/-!
# Deletion in every store that follows the map of pages

The functions that refill or merge a page end alike in both, for every function
that is called for the parent, and so does a deletion. What is shown of it for
the map of pages holds for the pool.
-/

namespace PagedDb

open Exec

namespace DeleteSim

variable {σ H ι : Type} [TreeStore σ H]

/-- One round of `stealFromLeftInternalPage` or `stealFromRightInternalPage`: the parent's entry goes
down to the page, and the sibling's entry up to the parent. -/
def rotate (page sibling parent : H) (get : ι → BTreeInternalPage → Except Fault BTreeEntry)
    (delete : BTreeInternalPage → BTreeEntry → Except Fault (BTreeInternalPage × BTreeEntry))
    (down : BTreeEntry → BTreeEntry → BTreeEntry → BTreeEntry)
    (up : BTreeEntry → BTreeInternalPage → BTreeInternalPage → BTreeEntry)
    (next : ι → BTreeInternalPage → Except Fault ι)
    (rest : ι → BTreeEntry → BTreeEntry → EStateM Fault σ Unit) (it : ι)
    (pageEntry parentEntry : BTreeEntry) : EStateM Fault σ Unit := do
  let x ← BTreeFile.internalAt sibling
  let entry ← lift (get it x)
  let q ← BTreeFile.internalAt parent
  let (q, parentEntry) ← lift (q.deleteKeyAndRightChild parentEntry)
  TreeStore.store parent (.internal q)
  let parentEntry := down parentEntry entry pageEntry
  BTreeFile.modifyInternal page fun p => p.insertEntry parentEntry
  let x ← BTreeFile.internalAt sibling
  let (x, entry) ← lift (delete x entry)
  TreeStore.store sibling (.internal x)
  let p ← BTreeFile.internalAt page
  let entry := up entry x p
  BTreeFile.modifyInternal parent fun q => q.insertEntry entry
  let x ← BTreeFile.internalAt sibling
  let it ← lift (next it x)
  rest it parentEntry entry

/-- Both functions, given the ends at which they start and the loop. -/
def stealInternal {κ : Type} (page sibling parent : H)
    (start : BTreeInternalPage → Except Fault ι) (opposite : BTreeInternalPage → Except Fault κ)
    (get : κ → BTreeInternalPage → Except Fault BTreeEntry)
    (loop : H → H → H → ℕ → ι → BTreeEntry → BTreeEntry → EStateM Fault σ Unit)
    (parentEntry : BTreeEntry) : EStateM Fault σ Unit := do
  let x ← BTreeFile.internalAt sibling
  let p ← BTreeFile.internalAt page
  let itemsToMove := ((x.getNumEntries : Int) - p.getNumEntries).tdiv 2
  if itemsToMove ≤ 0 then throw (.runtimeError "Nothing to steal.")
  else
    let it ← lift (start x)
    let other ← lift (opposite p)
    let pageEntry ← lift (get other p)
    loop page sibling parent itemsToMove.toNat it pageEntry parentEntry
    BTreeFile.updateParentPointers page

/-- `handleMinOccupancyLeafPage` and `handleMinOccupancyInternalPage`, given how a page is read, when
it has few enough entries to be merged, and what is called then or otherwise. -/
def handleMinOccupancy {β : Type} (load : H → EStateM Fault σ β) (few : β → β → Prop)
    [∀ p, DecidablePred (few p)]
    (merge stealLeft stealRight : H → H → H → BTreeEntry → EStateM Fault σ Unit) (page : H)
    (parent : Option H) (leftEntry rightEntry : Option BTreeEntry) : EStateM Fault σ Unit := do
  let p ← load page
  match parent, leftEntry, rightEntry with
  | some parent, some ⟨key, some left, right, rid⟩, _ =>
    let sibling ← TreeStore.getPage left .readWrite
    let x ← load sibling
    if few p x then merge sibling page parent ⟨key, some left, right, rid⟩
    else stealLeft page sibling parent ⟨key, some left, right, rid⟩
  | some parent, _, some ⟨key, left, some right, rid⟩ =>
    let sibling ← TreeStore.getPage right .readWrite
    let x ← load sibling
    if few p x then merge page sibling parent ⟨key, left, some right, rid⟩
    else stealRight page sibling parent ⟨key, left, some right, rid⟩
  | _, _, _ => pure ()

end DeleteSim

namespace TreeSim

variable {σ H : Type} [TreeStore σ H] (S : TreeSim σ H) {s : σ} {t : LogicalTree}
  {h h' h'' : H} {n n' n'' : Int32}

section Steal

theorem rotate {ι : Type} (hinv : S.Inv s t) (hh : S.Held h n s t) (hh' : S.Held h' n' s t)
    (hh'' : S.Held h'' n'' s t) (get : ι → BTreeInternalPage → Except Fault BTreeEntry)
    (delete : BTreeInternalPage → BTreeEntry → Except Fault (BTreeInternalPage × BTreeEntry))
    (down : BTreeEntry → BTreeEntry → BTreeEntry → BTreeEntry)
    (up : BTreeEntry → BTreeInternalPage → BTreeInternalPage → BTreeEntry)
    (next : ι → BTreeInternalPage → Except Fault ι)
    {rest : ι → BTreeEntry → BTreeEntry → EStateM Fault σ Unit}
    {rest' : ι → BTreeEntry → BTreeEntry → EStateM Fault LogicalTree Unit}
    (hrest : ∀ {s t}, S.Inv s t → S.Held h n s t → S.Held h' n' s t → S.Held h'' n'' s t →
      ∀ it pageEntry parentEntry, Agrees S.toCoupling s t (fun _ _ _ _ => True)
        (rest it pageEntry parentEntry s) (rest' it pageEntry parentEntry t))
    (it : ι) (pageEntry parentEntry : BTreeEntry) :
    Agrees S.toCoupling s t (fun _ _ _ _ => True)
      (DeleteSim.rotate h h' h'' get delete down up next rest it pageEntry parentEntry s)
      (DeleteSim.rotate n n' n'' get delete down up next rest' it pageEntry parentEntry t) := by
  apply (S.internalAt hinv (S.seen_of_held hinv hh')).bind_same
  intro x
  apply Agrees.bind_lift
  intro entry _
  apply (S.internalAt hinv (S.seen_of_held hinv hh'')).bind_same
  intro q
  apply Agrees.bind_lift
  rintro ⟨q, parentEntry⟩ _
  apply (S.store hinv hh'' (.internal q)).bind
  rintro _ _ s₁ t₁ hinv₁ hev₁ -
  have hh₁ := S.held_evolves hev₁ hh
  have hh'₁ := S.held_evolves hev₁ hh'
  have hh''₁ := S.held_evolves hev₁ hh''
  apply (S.modifyInternal hinv₁ hh₁ _).bind
  rintro _ _ s₂ t₂ hinv₂ hev₂ -
  have hh₂ := S.held_evolves hev₂ hh₁
  have hh'₂ := S.held_evolves hev₂ hh'₁
  have hh''₂ := S.held_evolves hev₂ hh''₁
  apply (S.internalAt hinv₂ (S.seen_of_held hinv₂ hh'₂)).bind_same
  intro x
  apply Agrees.bind_lift
  rintro ⟨x, entry⟩ _
  apply (S.store hinv₂ hh'₂ (.internal x)).bind
  rintro _ _ s₃ t₃ hinv₃ hev₃ -
  have hh₃ := S.held_evolves hev₃ hh₂
  have hh'₃ := S.held_evolves hev₃ hh'₂
  have hh''₃ := S.held_evolves hev₃ hh''₂
  apply (S.internalAt hinv₃ (S.seen_of_held hinv₃ hh₃)).bind_same
  intro p
  apply (S.modifyInternal hinv₃ hh''₃ _).bind
  rintro _ _ s₄ t₄ hinv₄ hev₄ -
  have hh'₄ := S.held_evolves hev₄ hh'₃
  apply (S.internalAt hinv₄ (S.seen_of_held hinv₄ hh'₄)).bind_same
  intro x
  apply Agrees.bind_lift
  intro it _
  exact hrest hinv₄ (S.held_evolves hev₄ hh₃) hh'₄ (S.held_evolves hev₄ hh''₃) it _ _

theorem stealLeft (hinv : S.Inv s t) (hh : S.Held h n s t) (hh' : S.Held h' n' s t)
    (hh'' : S.Held h'' n'' s t) (k : ℕ) (it : BTreeInternalPageReverseIterator)
    (rightEntry parentEntry : BTreeEntry) :
    Agrees S.toCoupling s t (fun _ _ _ _ => True)
      (BTreeFile.stealLeft h h' h'' k it rightEntry parentEntry s)
      (BTreeFile.stealLeft n n' n'' k it rightEntry parentEntry t) := by
  induction k generalizing s t it rightEntry parentEntry with
  | zero => exact Agrees.pure hinv trivial
  | succ k ih =>
    exact S.rotate hinv hh hh' hh'' (fun it x => it.get x) (fun x e => x.deleteKeyAndRightChild e)
      (fun parentEntry leftEntry rightEntry =>
        { parentEntry with leftChild := leftEntry.rightChild, rightChild := rightEntry.leftChild })
      (fun leftEntry l p => { leftEntry with leftChild := some l.pid, rightChild := some p.pid })
      (fun it x => it.next x) ih it rightEntry parentEntry

theorem stealRight (hinv : S.Inv s t) (hh : S.Held h n s t) (hh' : S.Held h' n' s t)
    (hh'' : S.Held h'' n'' s t) (k : ℕ) (it : BTreeInternalPageIterator)
    (leftEntry parentEntry : BTreeEntry) :
    Agrees S.toCoupling s t (fun _ _ _ _ => True)
      (BTreeFile.stealRight h h' h'' k it leftEntry parentEntry s)
      (BTreeFile.stealRight n n' n'' k it leftEntry parentEntry t) := by
  induction k generalizing s t it leftEntry parentEntry with
  | zero => exact Agrees.pure hinv trivial
  | succ k ih =>
    exact S.rotate hinv hh hh' hh'' (fun it x => it.get x) (fun x e => x.deleteKeyAndLeftChild e)
      (fun parentEntry rightEntry leftEntry =>
        { parentEntry with leftChild := leftEntry.rightChild, rightChild := rightEntry.leftChild })
      (fun rightEntry r p => { rightEntry with leftChild := some p.pid, rightChild := some r.pid })
      (fun it x => it.next x) ih it leftEntry parentEntry

theorem stealInternal {ι κ : Type} (hinv : S.Inv s t) (hh : S.Held h n s t)
    (hh' : S.Held h' n' s t)
    (start : BTreeInternalPage → Except Fault ι) (opposite : BTreeInternalPage → Except Fault κ)
    (get : κ → BTreeInternalPage → Except Fault BTreeEntry)
    {loop : H → H → H → ℕ → ι → BTreeEntry → BTreeEntry → EStateM Fault σ Unit}
    {loop' : Int32 → Int32 → Int32 → ℕ → ι → BTreeEntry → BTreeEntry →
      EStateM Fault LogicalTree Unit}
    (hloop : ∀ k it pageEntry parentEntry, Agrees S.toCoupling s t (fun _ _ _ _ => True)
      (loop h h' h'' k it pageEntry parentEntry s)
      (loop' n n' n'' k it pageEntry parentEntry t)) (parentEntry : BTreeEntry) :
    Agrees S.toCoupling s t (fun _ _ _ _ => True)
      (DeleteSim.stealInternal h h' h'' start opposite get loop parentEntry s)
      (DeleteSim.stealInternal n n' n'' start opposite get loop' parentEntry t) := by
  apply (S.internalAt hinv (S.seen_of_held hinv hh')).bind_same
  intro x
  apply (S.internalAt hinv (S.seen_of_held hinv hh)).bind_same
  intro p
  generalize ((x.getNumEntries : Int) - p.getNumEntries).tdiv 2 = itemsToMove
  by_cases hle : itemsToMove ≤ 0
  · rw [if_pos hle, if_pos hle]
    exact Agrees.throw _
  · rw [if_neg hle, if_neg hle]
    apply Agrees.bind_lift
    intro it _
    apply Agrees.bind_lift
    intro other _
    apply Agrees.bind_lift
    intro pageEntry _
    apply (hloop _ it pageEntry parentEntry).bind
    rintro _ _ s₁ t₁ hinv₁ hev₁ -
    exact S.updateParentPointers hinv₁ (S.held_evolves hev₁ hh)

theorem stealFromLeftInternalPage (hinv : S.Inv s t) (hh : S.Held h n s t)
    (hh' : S.Held h' n' s t) (hh'' : S.Held h'' n'' s t) (entry : BTreeEntry) :
    Agrees S.toCoupling s t (fun _ _ _ _ => True)
      (BTreeFile.stealFromLeftInternalPage h h' h'' entry s)
      (BTreeFile.stealFromLeftInternalPage n n' n'' entry t) :=
  S.stealInternal hinv hh hh' (·.rbegin) (·.begin) (fun it p => it.get p)
    (S.stealLeft hinv hh hh' hh'') entry

theorem stealFromRightInternalPage (hinv : S.Inv s t) (hh : S.Held h n s t)
    (hh' : S.Held h' n' s t) (hh'' : S.Held h'' n'' s t) (entry : BTreeEntry) :
    Agrees S.toCoupling s t (fun _ _ _ _ => True)
      (BTreeFile.stealFromRightInternalPage h h' h'' entry s)
      (BTreeFile.stealFromRightInternalPage n n' n'' entry t) :=
  S.stealInternal hinv hh hh' (·.begin) (·.rbegin) (fun it p => it.get p)
    (S.stealRight hinv hh hh' hh'') entry

end Steal

section Merge

theorem pageIdAt (hinv : S.Inv s t) (hs : S.Seen h n s t) :
    Agrees S.toCoupling s t (fun a b s' t' => a = b ∧ s' = s ∧ t' = t)
      (BTreeFile.pageIdAt h s) (BTreeFile.pageIdAt n t) := by
  apply S.loadAs hinv hs
  intro p
  cases p with
  | rootPtr p => exact .inr ⟨_, rfl, rfl⟩
  | header p => exact .inr ⟨_, rfl, rfl⟩
  | internal p => exact .inl ⟨p.pid, rfl, rfl⟩
  | leaf p => exact .inl ⟨p.pid, rfl, rfl⟩

variable {handle : H → EStateM Fault σ Unit} {handle' : Int32 → EStateM Fault LogicalTree Unit}

def Handles (handle : H → EStateM Fault σ Unit)
    (handle' : Int32 → EStateM Fault LogicalTree Unit) : Prop :=
  ∀ {s t h n}, S.Inv s t → S.Held h n s t →
    Agrees S.toCoupling s t (fun _ _ _ _ => True) (handle h s) (handle' n t)

variable {S}

theorem deleteParentEntry (hparent : S.Handles handle handle') (hinv : S.Inv s t)
    (hh : S.Held h n s t) (hh' : S.Held h' n' s t) (entry : BTreeEntry) :
    Agrees S.toCoupling s t (fun a b _ _ => a = b)
      (BTreeFile.deleteParentEntry handle h h' entry s)
      (BTreeFile.deleteParentEntry handle' n n' entry t) := by
  apply (S.internalAt hinv (S.seen_of_held hinv hh')).bind_same
  intro q
  apply Agrees.bind_lift
  rintro ⟨q, entry⟩ _
  apply (S.store hinv hh' (.internal q)).bind
  rintro _ _ s₁ t₁ hinv₁ hev₁ -
  have hh₁ := S.held_evolves hev₁ hh
  have hh'₁ := S.held_evolves hev₁ hh'
  split
  · apply Agrees.bind_lift
    intro _ _
    apply (S.writePage hinv₁ q.getParentId).bind
    intro r m s₂ t₂ hinv₂ hev₂ hr
    have hh₂ := S.held_evolves hev₂ hh₁
    apply (S.setParentId hinv₂ hh₂ q.getParentId).bind
    rintro _ _ s₃ t₃ hinv₃ hev₃ -
    apply (S.pageIdAt hinv₃ (S.seen_of_held hinv₃ (S.held_evolves hev₃ hh₂))).bind_same
    intro leftId
    apply (S.modifyRootPtr hinv₃ (S.held_evolves hev₃ hr) _).bind
    rintro _ _ s₄ t₄ hinv₄ - -
    apply (S.setEmptyPage hinv₄ q.pid.pgNo).bind
    rintro _ _ s₅ t₅ hinv₅ - -
    exact Agrees.pure hinv₅ rfl
  · split
    · apply (hparent hinv₁ hh'₁).bind
      rintro _ _ s₂ t₂ hinv₂ - -
      exact Agrees.pure hinv₂ rfl
    · exact Agrees.pure hinv₁ rfl

theorem mergeTuples (hinv : S.Inv s t) (hh : S.Held h n s t) (hh' : S.Held h' n' s t) (fuel : ℕ)
    (it : BTreeLeafPageIterator) :
    Agrees S.toCoupling s t (fun _ _ _ _ => True)
      (BTreeFile.mergeTuples h h' fuel it s) (BTreeFile.mergeTuples n n' fuel it t) := by
  induction fuel generalizing s t it with
  | zero => exact Agrees.throw _
  | succ fuel ih =>
    apply (S.leafAt hinv (S.seen_of_held hinv hh')).bind_same
    intro r
    split
    · apply Agrees.bind_lift
      intro tuple _
      apply (S.moveTuple hinv hh' hh tuple).bind
      rintro _ _ s₁ t₁ hinv₁ hev₁ -
      have hh'₁ := S.held_evolves hev₁ hh'
      apply (S.leafAt hinv₁ (S.seen_of_held hinv₁ hh'₁)).bind_same
      intro r
      exact ih hinv₁ (S.held_evolves hev₁ hh) hh'₁ _
    · exact Agrees.pure hinv trivial

theorem mergeLeafPages (hparent : S.Handles handle handle') (hinv : S.Inv s t)
    (hh : S.Held h n s t) (hh' : S.Held h' n' s t) (hh'' : S.Held h'' n'' s t)
    (entry : BTreeEntry) :
    Agrees S.toCoupling s t (fun _ _ _ _ => True)
      (BTreeFile.mergeLeafPages handle h h' h'' entry s)
      (BTreeFile.mergeLeafPages handle' n n' n'' entry t) := by
  apply (S.leafAt hinv (S.seen_of_held hinv hh')).bind_same
  intro r
  apply (mergeTuples hinv hh hh' _ _).bind
  rintro _ _ s₁ t₁ hinv₁ hev₁ -
  have hh₁ := S.held_evolves hev₁ hh
  have hh'₁ := S.held_evolves hev₁ hh'
  have hh''₁ := S.held_evolves hev₁ hh''
  apply (S.leafAt hinv₁ (S.seen_of_held hinv₁ hh'₁)).bind_same
  intro r
  apply (S.modifyLeaf hinv₁ hh₁ _).bind
  rintro _ _ s₂ t₂ hinv₂ hev₂ -
  have hh₂ := S.held_evolves hev₂ hh₁
  have hh'₂ := S.held_evolves hev₂ hh'₁
  have hh''₂ := S.held_evolves hev₂ hh''₁
  apply (S.leafAt hinv₂ (S.seen_of_held hinv₂ hh₂)).bind_same
  intro l
  apply (S.linkNext hinv₂ r.getRightSiblingId l.pid).bind
  rintro _ _ s₃ t₃ hinv₃ hev₃ -
  have hh'₃ := S.held_evolves hev₃ hh'₂
  apply (deleteParentEntry hparent hinv₃ (S.held_evolves hev₃ hh₂) (S.held_evolves hev₃ hh''₂)
    entry).bind
  rintro _ _ s₄ t₄ hinv₄ hev₄ -
  apply (S.leafAt hinv₄ (S.seen_of_held hinv₄ (S.held_evolves hev₄ hh'₃))).bind_same
  intro r
  exact S.setEmptyPage hinv₄ r.pid.pgNo

theorem mergeEntries (hinv : S.Inv s t) (hh : S.Held h n s t) (hh' : S.Held h' n' s t) (fuel : ℕ)
    (it : BTreeInternalPageIterator) :
    Agrees S.toCoupling s t (fun _ _ _ _ => True)
      (BTreeFile.mergeEntries h h' fuel it s) (BTreeFile.mergeEntries n n' fuel it t) := by
  induction fuel generalizing s t it with
  | zero => exact Agrees.throw _
  | succ fuel ih =>
    apply (S.internalAt hinv (S.seen_of_held hinv hh')).bind_same
    intro r
    split
    · apply Agrees.bind_lift
      intro entry _
      apply Agrees.bind_lift
      rintro ⟨r, entry⟩ _
      apply (S.store hinv hh' (.internal r)).bind
      rintro _ _ s₁ t₁ hinv₁ hev₁ -
      have hh₁ := S.held_evolves hev₁ hh
      apply (S.modifyInternal hinv₁ hh₁ _).bind
      rintro _ _ s₂ t₂ hinv₂ hev₂ -
      have hh'₂ := S.held_evolves hev₂ (S.held_evolves hev₁ hh')
      apply (S.internalAt hinv₂ (S.seen_of_held hinv₂ hh'₂)).bind_same
      intro r
      apply Agrees.bind_lift
      intro it _
      exact ih hinv₂ (S.held_evolves hev₂ hh₁) hh'₂ it
    · exact Agrees.pure hinv trivial

theorem mergeInternalPages (hparent : S.Handles handle handle') (hinv : S.Inv s t)
    (hh : S.Held h n s t) (hh' : S.Held h' n' s t) (hh'' : S.Held h'' n'' s t)
    (entry : BTreeEntry) :
    Agrees S.toCoupling s t (fun _ _ _ _ => True)
      (BTreeFile.mergeInternalPages handle h h' h'' entry s)
      (BTreeFile.mergeInternalPages handle' n n' n'' entry t) := by
  apply (deleteParentEntry hparent hinv hh hh'' entry).bind
  rintro entry _ s₁ t₁ hinv₁ hev₁ rfl
  have hh₁ := S.held_evolves hev₁ hh
  have hh'₁ := S.held_evolves hev₁ hh'
  apply (S.internalAt hinv₁ (S.seen_of_held hinv₁ hh'₁)).bind_same
  intro r
  apply Agrees.bind_lift
  intro first _
  apply Agrees.bind_lift
  intro rightEntry _
  apply (S.internalAt hinv₁ (S.seen_of_held hinv₁ hh₁)).bind_same
  intro l
  apply Agrees.bind_lift
  intro last _
  apply Agrees.bind_lift
  intro leftEntry _
  apply (S.modifyInternal hinv₁ hh₁ _).bind
  rintro _ _ s₂ t₂ hinv₂ hev₂ -
  have hh₂ := S.held_evolves hev₂ hh₁
  have hh'₂ := S.held_evolves hev₂ hh'₁
  apply (S.internalAt hinv₂ (S.seen_of_held hinv₂ hh'₂)).bind_same
  intro r
  apply Agrees.bind_lift
  intro it _
  apply (mergeEntries hinv₂ hh₂ hh'₂ _ it).bind
  rintro _ _ s₃ t₃ hinv₃ hev₃ -
  have hh'₃ := S.held_evolves hev₃ hh'₂
  apply (S.updateParentPointers hinv₃ (S.held_evolves hev₃ hh₂)).bind
  rintro _ _ s₄ t₄ hinv₄ hev₄ -
  apply (S.internalAt hinv₄ (S.seen_of_held hinv₄ (S.held_evolves hev₄ hh'₃))).bind_same
  intro r
  exact S.setEmptyPage hinv₄ r.pid.pgNo

end Merge

section MinOccupancy

variable {handle : H → EStateM Fault σ Unit} {handle' : Int32 → EStateM Fault LogicalTree Unit}

def HeldParent (s : σ) (t : LogicalTree) : Option H → Option Int32 → Prop
  | none, none => True
  | some h, some n => S.Held h n s t
  | _, _ => False

variable {S}

/-- A page is merged with its sibling or takes something from it, by what the sibling holds. -/
theorem fromSibling {β : Type} (hinv : S.Inv s t) (id : BTreePageId)
    {load : H → EStateM Fault σ β} {load' : Int32 → EStateM Fault LogicalTree β}
    (hload : ∀ {s t h n}, S.Inv s t → S.Seen h n s t → Agrees S.toCoupling s t
      (fun a b s' t' => a = b ∧ s' = s ∧ t' = t) (load h s) (load' n t))
    {few : β → Prop} [DecidablePred few] {merge steal : H → EStateM Fault σ Unit}
    {merge' steal' : Int32 → EStateM Fault LogicalTree Unit}
    (hmerge : ∀ {s' t' h n}, S.Inv s' t' → S.Evolves s t s' t' → S.Held h n s' t' →
      Agrees S.toCoupling s' t' (fun _ _ _ _ => True) (merge h s') (merge' n t'))
    (hsteal : ∀ {s' t' h n}, S.Inv s' t' → S.Evolves s t s' t' → S.Held h n s' t' →
      Agrees S.toCoupling s' t' (fun _ _ _ _ => True) (steal h s') (steal' n t')) :
    Agrees S.toCoupling s t (fun _ _ _ _ => True)
      ((do
        let sibling ← TreeStore.getPage id .readWrite
        let x ← load sibling
        if few x then merge sibling else steal sibling) s)
      ((do
        let sibling ← TreeStore.getPage id .readWrite
        let x ← load' sibling
        if few x then merge' sibling else steal' sibling) t) := by
  apply (S.writePage hinv id).bind
  intro h n s₁ t₁ hinv₁ hev₁ hh
  apply (hload hinv₁ (S.seen_of_held hinv₁ hh)).bind_same
  intro x
  split
  · exact hmerge hinv₁ hev₁ hh
  · exact hsteal hinv₁ hev₁ hh

variable (S) in
def OnThree (call : H → H → H → BTreeEntry → EStateM Fault σ Unit)
    (call' : Int32 → Int32 → Int32 → BTreeEntry → EStateM Fault LogicalTree Unit) : Prop :=
  ∀ {s t h n h' n' h'' n''}, S.Inv s t → S.Held h n s t → S.Held h' n' s t → S.Held h'' n'' s t →
    ∀ entry, Agrees S.toCoupling s t (fun _ _ _ _ => True) (call h h' h'' entry s)
      (call' n n' n'' entry t)

theorem handleMinOccupancy {β : Type} {load : H → EStateM Fault σ β}
    {load' : Int32 → EStateM Fault LogicalTree β}
    (hload : ∀ {s t h n}, S.Inv s t → S.Seen h n s t → Agrees S.toCoupling s t
      (fun a b s' t' => a = b ∧ s' = s ∧ t' = t) (load h s) (load' n t))
    (few : β → β → Prop) [∀ p, DecidablePred (few p)]
    {merge stealLeft stealRight : H → H → H → BTreeEntry → EStateM Fault σ Unit}
    {merge' stealLeft' stealRight' :
      Int32 → Int32 → Int32 → BTreeEntry → EStateM Fault LogicalTree Unit}
    (hmerge : S.OnThree merge merge') (hleft : S.OnThree stealLeft stealLeft')
    (hright : S.OnThree stealRight stealRight') (hinv : S.Inv s t) (hh : S.Held h n s t)
    {parent : Option H} {parent' : Option Int32} (hh' : S.HeldParent s t parent parent')
    (leftEntry rightEntry : Option BTreeEntry) :
    Agrees S.toCoupling s t (fun _ _ _ _ => True)
      (DeleteSim.handleMinOccupancy load few merge stealLeft stealRight h parent leftEntry
        rightEntry s)
      (DeleteSim.handleMinOccupancy load' few merge' stealLeft' stealRight' n parent' leftEntry
        rightEntry t) := by
  apply (hload hinv (S.seen_of_held hinv hh)).bind_same
  intro p
  rcases parent with _ | q
  · rcases parent' with _ | m
    · exact Agrees.pure hinv trivial
    · exact hh'.elim
  rcases parent' with _ | m
  · exact hh'.elim
  have hheld : ∀ {s' t'}, S.Evolves s t s' t' → S.Held h n s' t' := fun hev => S.held_evolves hev hh
  have hq : ∀ {s' t'}, S.Evolves s t s' t' → S.Held q m s' t' := fun hev => S.held_evolves hev hh'
  rcases leftEntry with _ | ⟨lkey, _ | left, lright, lrid⟩
  · rcases rightEntry with _ | ⟨key, left, _ | right, rid⟩
    · exact Agrees.pure hinv trivial
    · exact Agrees.pure hinv trivial
    · exact fromSibling hinv right hload (fun h₁ h₂ h₃ => hmerge h₁ (hheld h₂) h₃ (hq h₂) _)
        fun h₁ h₂ h₃ => hright h₁ (hheld h₂) h₃ (hq h₂) _
  · rcases rightEntry with _ | ⟨key, left, _ | right, rid⟩
    · exact Agrees.pure hinv trivial
    · exact Agrees.pure hinv trivial
    · exact fromSibling hinv right hload (fun h₁ h₂ h₃ => hmerge h₁ (hheld h₂) h₃ (hq h₂) _)
        fun h₁ h₂ h₃ => hright h₁ (hheld h₂) h₃ (hq h₂) _
  · exact fromSibling hinv left hload (fun h₁ h₂ h₃ => hmerge h₁ h₃ (hheld h₂) (hq h₂) _)
      fun h₁ h₂ h₃ => hleft h₁ (hheld h₂) h₃ (hq h₂) _

theorem handleMinOccupancyLeafPage (hparent : S.Handles handle handle') (hinv : S.Inv s t)
    (hh : S.Held h n s t) {parent : Option H} {parent' : Option Int32}
    (hh' : S.HeldParent s t parent parent') (leftEntry rightEntry : Option BTreeEntry) :
    Agrees S.toCoupling s t (fun _ _ _ _ => True)
      (BTreeFile.handleMinOccupancyLeafPage handle h parent leftEntry rightEntry s)
      (BTreeFile.handleMinOccupancyLeafPage handle' n parent' leftEntry rightEntry t) :=
  handleMinOccupancy S.leafAt
    (fun p x => BTreeFile.maxEmptySlots p.numSlots ≤ x.getNumEmptySlots)
    (fun hinv hh hh' hh'' e => mergeLeafPages hparent hinv hh hh' hh'' e)
    (fun hinv hh hh' hh'' e => S.stealFromLeafPage hinv hh hh' hh'' e false)
    (fun hinv hh hh' hh'' e => S.stealFromLeafPage hinv hh hh' hh'' e true) hinv hh hh' leftEntry
    rightEntry

theorem handleMinOccupancyInternalPage (hparent : S.Handles handle handle') (hinv : S.Inv s t)
    (hh : S.Held h n s t) {parent : Option H} {parent' : Option Int32}
    (hh' : S.HeldParent s t parent parent') (leftEntry rightEntry : Option BTreeEntry) :
    Agrees S.toCoupling s t (fun _ _ _ _ => True)
      (BTreeFile.handleMinOccupancyInternalPage handle h parent leftEntry rightEntry s)
      (BTreeFile.handleMinOccupancyInternalPage handle' n parent' leftEntry rightEntry t) :=
  handleMinOccupancy S.internalAt
    (fun p x => BTreeFile.maxEmptySlots p.getMaxEntries ≤ x.getNumEmptySlots)
    (fun hinv hh hh' hh'' e => mergeInternalPages hparent hinv hh hh' hh'' e)
    (fun hinv hh hh' hh'' e => S.stealFromLeftInternalPage hinv hh hh' hh'' e)
    (fun hinv hh hh' hh'' e => S.stealFromRightInternalPage hinv hh hh' hh'' e) hinv hh hh' leftEntry
    rightEntry

theorem handlePage (hparent : S.Handles handle handle') (hinv : S.Inv s t)
    (hh : S.Held h n s t) :
    Agrees S.toCoupling s t (fun _ _ _ _ => True) (BTreeFile.handlePage handle h s)
      (BTreeFile.handlePage handle' n t) := by
  apply (S.pageIdAt hinv (S.seen_of_held hinv hh)).bind_same
  intro id
  apply (S.getParentId hinv (S.seen_of_held hinv hh)).bind_same
  intro parentId
  split
  · apply (S.writePage hinv parentId).bind
    intro q m s₁ t₁ hinv₁ hev₁ hq
    have hh₁ := S.held_evolves hev₁ hh
    apply (S.internalAt hinv₁ (S.seen_of_held hinv₁ hq)).bind_same
    intro p
    apply Agrees.bind_lift
    intro it _
    apply Agrees.bind_lift
    rintro ⟨leftEntry, rightEntry⟩ _
    have hq : S.HeldParent s₁ t₁ (some q) (some m) := hq
    split
    · exact handleMinOccupancyLeafPage hparent hinv₁ hh₁ hq leftEntry rightEntry
    · exact handleMinOccupancyInternalPage hparent hinv₁ hh₁ hq leftEntry rightEntry
  · have hnone : S.HeldParent s t none none := trivial
    split
    · exact handleMinOccupancyLeafPage hparent hinv hh hnone none none
    · exact handleMinOccupancyInternalPage hparent hinv hh hnone none none

variable (S)

theorem handleMinOccupancyPage (fuel : ℕ) :
    S.Handles (BTreeFile.handleMinOccupancyPage fuel) (BTreeFile.handleMinOccupancyPage fuel) := by
  induction fuel with
  | zero => exact fun _ _ => Agrees.throw _
  | succ fuel ih => exact fun hinv hh => handlePage ih hinv hh

end MinOccupancy

theorem deleteTuple (hinv : S.Inv s t) (tuple : Tuple) :
    Agrees S.toCoupling s t (fun a b _ _ => a = b)
      ((BTreeFile.deleteTuple tuple : EStateM Fault σ Tuple) s) (BTreeFile.deleteTuple tuple t) := by
  unfold BTreeFile.deleteTuple
  cases tuple.rid with
  | none => exact Agrees.throw _
  | some rid =>
    apply Agrees.get
    rw [S.tableid hinv, S.getNumPages hinv]
    apply (S.writePage hinv _).bind
    intro h n s₁ t₁ hinv₁ _ hh
    apply (S.leafAt hinv₁ (S.seen_of_held hinv₁ hh)).bind_same
    intro p
    apply Agrees.bind_lift
    rintro ⟨q, u⟩ _
    apply (S.store hinv₁ hh (.leaf q)).bind
    rintro _ _ s₂ t₂ hinv₂ hev₂ -
    have hh₂ := S.held_evolves hev₂ hh
    split
    · apply (S.handleMinOccupancyPage _ hinv₂ hh₂).bind
      rintro _ _ s₃ t₃ hinv₃ - -
      exact Agrees.pure hinv₃ rfl
    · exact Agrees.pure hinv₂ rfl

end TreeSim

end PagedDb
