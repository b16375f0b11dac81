import PagedDb.BTree.PoolSim
import PagedDb.BTree.SplitLegal
import PagedDb.BTree.TreeSearch

/-!
# Index scans

An index scan goes down to a leaf and from there along the chain to its end. The
predicate only says where it starts: every tuple from that leaf on is given,
whether it satisfies the predicate or not.
-/

namespace PagedDb

open Exec

/-- `IndexPredicate`. -/
structure IndexPredicate where
  op : Op
  fvalue : Field

/-- `BTreeFileIterator`: the current leaf and the place in it; `none` stands for the null pointer,
under which there is no place. -/
abbrev BTreeFileIterator (H : Type) := Option (H × BTreeLeafPageIterator)

namespace BTreeFile

variable {σ H : Type} [TreeStore σ H]

/-- The key that the constructor of `BTreeFileIterator` searches for. -/
def startKey : Option IndexPredicate → Option Field
  | none => none
  | some pred =>
    if pred.op = .equals ∨ pred.op = .greaterThan ∨ pred.op = .greaterThanOrEq then
      some pred.fvalue
    else none

/-- `begin`: the constructor of `BTreeFileIterator`. -/
def begin (pred : Option IndexPredicate) : EStateM Fault σ (BTreeFileIterator H) := do
  let rootPtr ← TreeStore.getPage (← rootPtrId) .readOnly
  let p ← rootPtrAt rootPtr
  match p.getRootId with
  | none => throw .nullDeref
  | some root =>
    let s ← get
    let leaf ← findLeafPage .readOnly (startKey pred) (TreeStore.getNumPages s + 1) root
    let l ← leafAt leaf
    pure (some (leaf, l.begin))

/-- `operator*`. -/
def iterGet : BTreeFileIterator H → EStateM Fault σ Tuple
  | none => throw .nullDeref
  | some (leaf, it) => do
    let l ← leafAt leaf
    lift (it.get l)

/-- The part of `operator++` behind the last tuple of a leaf: go to the next leaf. -/
def nextLeaf (l : BTreeLeafPage) : EStateM Fault σ (BTreeFileIterator H) := do
  match l.getRightSiblingId with
  | none => pure none
  | some nextId =>
    let leaf ← TreeStore.getPage nextId .readOnly
    let l ← leafAt leaf
    pure (some (leaf, l.begin))

/-- `operator++`. -/
def iterNext : BTreeFileIterator H → EStateM Fault σ (BTreeFileIterator H)
  | none => throw .nullDeref
  | some (leaf, it) => do
    let l ← leafAt leaf
    if it.ne l.ending ∧ (it.next l).ne l.ending then pure (some (leaf, it.next l))
    else nextLeaf l

/-- The loop from `begin()` to `end()`, at most `fuel` rounds; `operator!=` compares the leaves, and
that of `end()` is null. -/
def scanFrom : ℕ → BTreeFileIterator H → EStateM Fault σ (List Tuple)
  | 0, _ => throw .outOfFuel
  | fuel + 1, iter =>
    if iter.isNone then pure []
    else do
      let t ← iterGet iter
      let iter ← iterNext iter
      let rest ← scanFrom fuel iter
      pure (t :: rest)

/-- `for (auto &t : file.iterable(tid, pred))`. -/
def scan (pred : Option IndexPredicate) (fuel : ℕ) : EStateM Fault σ (List Tuple) := do
  let iter ← begin pred
  scanFrom fuel iter

end BTreeFile

namespace TreeSim

variable {σ H : Type} [TreeStore σ H] (S : TreeSim σ H) {s : σ} {t : LogicalTree} {h : H}
  {n : Int32}

def SameIter (iter : BTreeFileIterator H) (iter' : BTreeFileIterator Int32) (s : σ)
    (t : LogicalTree) : Prop :=
  (iter = none ∧ iter' = none) ∨
    ∃ h n it, iter = some (h, it) ∧ iter' = some (n, it) ∧ S.Seen h n s t

theorem firstOf (hinv : S.Inv s t) (hs : S.Seen h n s t) :
    Agrees S.toCoupling s t S.SameIter
      ((do let l ← BTreeFile.leafAt h; pure (some (h, l.begin))) s)
      ((do let l ← BTreeFile.leafAt n; pure (some (n, l.begin))) t) := by
  apply (S.leafAt hinv hs).bind_same
  intro l
  exact Agrees.pure hinv (.inr ⟨h, n, l.begin, rfl, rfl, hs⟩)

theorem begin (hinv : S.Inv s t) (pred : Option IndexPredicate) :
    Agrees S.toCoupling s t S.SameIter (BTreeFile.begin pred s) (BTreeFile.begin pred t) := by
  apply (S.rootPtrId hinv).bind_same
  intro id
  apply (S.readPage hinv id).bind
  intro h n s₁ t₁ hinv₁ _ hs
  apply (S.rootPtrAt hinv₁ hs).bind_same
  intro p
  cases p.getRootId with
  | none => exact Agrees.throw _
  | some root =>
    apply Agrees.get
    rw [S.getNumPages hinv₁]
    apply (S.findLeafPage (BTreeFile.startKey pred) _ hinv₁ root).bind
    intro leaf n s₂ t₂ hinv₂ _ hs₂
    exact S.firstOf hinv₂ hs₂

theorem iterGet (hinv : S.Inv s t) {iter : BTreeFileIterator H} {iter' : BTreeFileIterator Int32}
    (hsame : S.SameIter iter iter' s t) :
    Agrees S.toCoupling s t (fun a b s' t' => a = b ∧ s' = s ∧ t' = t)
      (BTreeFile.iterGet iter s) (BTreeFile.iterGet iter' t) := by
  obtain ⟨rfl, rfl⟩ | ⟨h, n, it, rfl, rfl, hs⟩ := hsame
  · exact Agrees.throw _
  · apply (S.leafAt hinv hs).bind_same
    intro l
    cases it.get l with
    | error e => exact Agrees.throw e
    | ok u => exact Agrees.pure hinv ⟨rfl, rfl, rfl⟩

theorem iterNext (hinv : S.Inv s t) {iter : BTreeFileIterator H} {iter' : BTreeFileIterator Int32}
    (hsame : S.SameIter iter iter' s t) :
    Agrees S.toCoupling s t S.SameIter (BTreeFile.iterNext iter s) (BTreeFile.iterNext iter' t) := by
  obtain ⟨rfl, rfl⟩ | ⟨h, n, it, rfl, rfl, hs⟩ := hsame
  · exact Agrees.throw _
  · apply (S.leafAt hinv hs).bind_same
    intro l
    split
    · exact Agrees.pure hinv (.inr ⟨h, n, it.next l, rfl, rfl, hs⟩)
    · unfold BTreeFile.nextLeaf
      cases l.getRightSiblingId with
      | none => exact Agrees.pure hinv (.inl ⟨rfl, rfl⟩)
      | some nextId =>
        apply (S.readPage hinv nextId).bind
        intro leaf m s₁ t₁ hinv₁ _ hs₁
        exact S.firstOf hinv₁ hs₁

theorem scanFrom (fuel : ℕ) (hinv : S.Inv s t) {iter : BTreeFileIterator H}
    {iter' : BTreeFileIterator Int32} (hsame : S.SameIter iter iter' s t) :
    Agrees S.toCoupling s t (fun a b _ _ => a = b)
      (BTreeFile.scanFrom fuel iter s) (BTreeFile.scanFrom fuel iter' t) := by
  induction fuel generalizing s t iter iter' with
  | zero => exact Agrees.throw _
  | succ fuel ih =>
    have hnone : iter.isNone = iter'.isNone := by
      obtain ⟨rfl, rfl⟩ | ⟨h, n, it, rfl, rfl, -⟩ := hsame
      · rfl
      · rfl
    rw [BTreeFile.scanFrom, BTreeFile.scanFrom, hnone]
    split
    · exact Agrees.pure hinv rfl
    · apply (S.iterGet hinv hsame).bind_same
      intro u
      apply (S.iterNext hinv hsame).bind
      intro iter₁ iter₁' s₁ t₁ hinv₁ _ hsame₁
      apply (ih hinv₁ hsame₁).bind
      rintro us _ s₂ t₂ hinv₂ - rfl
      exact Agrees.pure hinv₂ rfl

theorem scan (fuel : ℕ) (hinv : S.Inv s t) (pred : Option IndexPredicate) :
    Agrees S.toCoupling s t (fun a b _ _ => a = b)
      (BTreeFile.scan pred fuel s) (BTreeFile.scan pred fuel t) := by
  apply (S.begin hinv pred).bind
  intro iter iter' s₁ t₁ hinv₁ _ hsame
  exact S.scanFrom fuel hinv₁ hsame

end TreeSim

def LogicalTree.leafTuples (t : LogicalTree) (leaves : List Int32) : List Tuple :=
  leaves.flatMap fun n =>
    match t.pages n with
    | some (.leaf p) => p.storedTuples
    | _ => []

open LogicalTree BTreeFile

theorem leafTuples_fields (t : LogicalTree) (leaves : List Int32) :
    (t.leafTuples leaves).map Tuple.fields = t.leafRows leaves := by
  rw [leafTuples, leafRows, List.map_flatMap]
  congr 1
  funext n
  cases t.pages n with
  | none => rfl
  | some page =>
    cases page with
    | leaf p => exact p.storedTuples_fields
    | _ => rfl

theorem leafTuples_cons {t : LogicalTree} {n : Int32} {p : BTreeLeafPage}
    (hp : t.pages n = some (.leaf p)) (ns : List Int32) :
    t.leafTuples (n :: ns) = p.storedTuples ++ t.leafTuples ns := by
  rw [leafTuples, List.flatMap_cons, hp]
  rfl

section Run

variable {t : LogicalTree} {n left : Int32} {ns : List Int32} {p : BTreeLeafPage} {i : ℕ}

theorem begin_used (hne : p.storedTuples ≠ []) :
    ∃ i : ℕ, p.begin = ⟨i, false⟩ ∧ i < p.numSlots ∧ p.isSlotUsed i = true ∧
      p.storedTuples = Slots.segment p.tuple? i p.numSlots := by
  obtain ⟨-, hle, hused, hskip⟩ := p.search_used (Nat.zero_le _) rfl
  have hlt : Slots.search p.isSlotUsed (p.numSlots - 0) 0 < p.numSlots := by
    refine lt_of_le_of_ne hle fun heq => hne ?_
    rw [TuplePage.storedTuples, hskip, heq, Slots.segment_of_le _ (Nat.le_refl _)]
  exact ⟨_, rfl, hlt, hused hlt, hskip⟩

/-- Behind the last tuple of a leaf the scan goes on with the first one of the next leaf. -/
theorem nextLeaf_run (hlinked : Linked t left (n :: ns)) (hp : t.pages n = some (.leaf p))
    (hpid : p.pid.tableId = t.tableid) (hhas : ∀ m ∈ ns, t.HasNode ⟨t.tableid, m, .leaf⟩) :
    (ns = [] ∧ nextLeaf (H := Int32) p t = .ok none t) ∨
      ∃ m ms q, ns = m :: ms ∧ t.pages m = some (.leaf q) ∧
        nextLeaf p t = .ok (some (m, q.begin)) t := by
  obtain ⟨⟨p', hp', -, hright⟩, hrest⟩ := hlinked
  rw [hp] at hp'
  cases hp'
  cases ns with
  | nil =>
    have hzero : p.rightSibling = 0 := hright
    refine .inl ⟨rfl, ?_⟩
    rw [nextLeaf, BTreeLeafPage.getRightSiblingId, hzero]
    rfl
  | cons m ms =>
    obtain ⟨⟨q, hq, -⟩, -⟩ := hrest
    have hm : p.rightSibling = m := hright
    have hnode := hhas m List.mem_cons_self
    have hid : p.getRightSiblingId = some ⟨t.tableid, m, .leaf⟩ := by
      rw [BTreeLeafPage.getRightSiblingId, hm, BTreeLeafPage.siblingId, if_neg hnode.ne_zero, hpid]
    have hget : TreeStore.getPage ⟨t.tableid, m, .leaf⟩ .readOnly t = .ok m t :=
      hnode.has.getPage .readOnly
    refine .inr ⟨m, ms, q, rfl, hq, ?_⟩
    rw [nextLeaf, hid]
    exact (bind_ok hget).trans (bind_ok (leafAt_run hq))

/-- From a used slot on, the loop gives the rest of the leaf and then the leaves behind it. -/
theorem scanFrom_run (hlinked : Linked t left (n :: ns)) (hp : t.pages n = some (.leaf p))
    (hpids : ∀ m ∈ n :: ns, t.HasNode ⟨t.tableid, m, .leaf⟩)
    (hne : ∀ m ∈ ns, ∀ q, t.pages m = some (.leaf q) → q.storedTuples ≠ []) (hi : i < p.numSlots)
    (hused : p.isSlotUsed i = true) {fuel : ℕ}
    (hfuel : (Slots.segment p.tuple? i p.numSlots ++ t.leafTuples ns).length < fuel) :
    scanFrom fuel (some (n, ⟨i, false⟩)) t =
      .ok (Slots.segment p.tuple? i p.numSlots ++ t.leafTuples ns) t := by
  induction fuel generalizing left n ns p i with
  | zero => omega
  | succ fuel ih =>
    obtain ⟨u, hu, hsegment⟩ := p.segment_used hi hused
    obtain ⟨-, hle, hused', hskip⟩ := p.search_used (Nat.succ_le_of_lt hi) rfl
    set j := Slots.search p.isSlotUsed (p.numSlots - (i + 1)) (i + 1)
    have hpid : p.pid.tableId = t.tableid := by
      obtain ⟨⟨-, page, hpage, hid, -⟩, -⟩ := hpids n List.mem_cons_self
      rw [show t.pages n = some page from hpage] at hp
      cases hp
      exact congrArg BTreePageId.tableId hid
    have hget : iterGet (some (n, ⟨i, false⟩)) t = .ok u t := by
      rw [iterGet, bind_ok (leafAt_run hp)]
      apply lift_run
      simp [BTreeLeafPageIterator.get, BTreeLeafPage.getTuple, hi, hu]
    have hnext : (⟨i, false⟩ : BTreeLeafPageIterator).next p = ⟨j, false⟩ := rfl
    have hne₁ : (⟨i, false⟩ : BTreeLeafPageIterator).ne p.ending = true := by
      simp [BTreeLeafPageIterator.ne, BTreeLeafPage.ending, Nat.ne_of_lt hi]
    rw [hsegment, hskip] at hfuel ⊢
    rcases Nat.lt_or_ge j p.numSlots with hlt | hge
    · have hne₂ : (⟨j, false⟩ : BTreeLeafPageIterator).ne p.ending = true := by
        simp [BTreeLeafPageIterator.ne, BTreeLeafPage.ending, Nat.ne_of_lt hlt]
      have hstep : iterNext (some (n, ⟨i, false⟩)) t = .ok (some (n, ⟨j, false⟩)) t := by
        rw [iterNext, bind_ok (leafAt_run hp), hnext, if_pos ⟨hne₁, hne₂⟩]
        rfl
      have hrest := ih hlinked hp hpids hne hlt (hused' hlt)
        (by simpa using hfuel)
      rw [scanFrom, if_neg (by simp), bind_ok hget, bind_ok hstep, bind_ok hrest]
      rfl
    · have hnil : Slots.segment p.tuple? j p.numSlots = [] := Slots.segment_of_le _ hge
      have hne₂ : ¬ (⟨j, false⟩ : BTreeLeafPageIterator).ne p.ending = true := by
        simp [BTreeLeafPageIterator.ne, BTreeLeafPage.ending, Nat.le_antisymm hle hge]
      have hstep : iterNext (some (n, ⟨i, false⟩)) t = nextLeaf p t := by
        rw [iterNext, bind_ok (leafAt_run hp), hnext, if_neg fun h => hne₂ h.2]
      rw [hnil, List.cons_append, List.nil_append] at hfuel ⊢
      obtain ⟨rfl, hlast⟩ | ⟨m, ms, q, rfl, hq, hleaf⟩ := nextLeaf_run hlinked hp hpid
        fun m hm => hpids m (List.mem_cons_of_mem n hm)
      · cases fuel with
        | zero => simp at hfuel
        | succ fuel =>
          rw [scanFrom, if_neg (by simp), bind_ok hget, bind_ok (hstep.trans hlast), scanFrom]
          rfl
      · obtain ⟨k, hbegin, hk, hkused, hstored⟩ := begin_used (hne m List.mem_cons_self q hq)
        have htuples := leafTuples_cons hq ms
        rw [hstored] at htuples
        rw [hbegin] at hleaf
        have hrest := ih hlinked.2 hq (fun m hm => hpids m (List.mem_cons_of_mem n hm))
          (fun m hm => hne m (List.mem_cons_of_mem _ hm)) hk hkused
          (by rw [htuples] at hfuel; simpa using hfuel)
        rw [scanFrom, if_neg (by simp), bind_ok hget, bind_ok (hstep.trans hleaf), bind_ok hrest,
          htuples]
        rfl

theorem begin_run {root : BTreePageId} (hrooted : t.Rooted root)
    {pred : Option IndexPredicate} {L : Int32} {p : BTreeLeafPage} (hp : t.pages L = some (.leaf p))
    (hfind : findLeafPage .readOnly (startKey pred) (t.getNumPages + 1) root t = .ok L t) :
    BTreeFile.begin pred t = .ok (some (L, p.begin)) t := by
  obtain ⟨r, hr, -, hroot⟩ := hrooted.page
  have hget : TreeStore.getPage (BTreeRootPtrPage.getId t.tableid) .readOnly t = .ok 0 t :=
    hrooted.has.getPage .readOnly
  rw [BTreeFile.begin, bind_ok rootPtrId_run, bind_ok hget, bind_ok (rootPtrAt_run hr), hroot]
  exact (bind_ok (get_run t)).trans ((bind_ok hfind).trans (bind_ok (leafAt_run hp)))

end Run

/-- Whether a stored tuple satisfies the predicate. -/
def IndexPredicate.admits (pred : IndexPredicate) (keyField : ℕ) (u : Tuple) : Bool :=
  match u.getField keyField with
  | .error _ => false
  | .ok f =>
    match f.compare pred.op pred.fvalue with
    | .error _ => false
    | .ok b => b

/-- The loop ends, with the stored tuples that satisfy the predicate, in key order. -/
def HonoursPredicate (pred : IndexPredicate) (t : LogicalTree) (leaves : List Int32) : Prop :=
  ∃ us rounds, (∀ fuel, rounds ≤ fuel → scan (some pred) fuel t = .ok us t) ∧
    us.Perm ((t.leafTuples leaves).filter (pred.admits t.keyField)) ∧
    KeyOrdered t.keyField (us.map Tuple.fields)

/-- A leaf is not left of where the scan starts: the separators behind it are not smaller than the
key the scan searches for. -/
def InScan (T : KeyTree Int32 Int) (pred : IndexPredicate) (n : Int32) : Prop :=
  ∀ v, startKey (some pred) = some (.int v) → ∀ k m, T.Separates k n m → v.toInt ≤ k

namespace Legal

variable {td : TupleDesc} {T : KeyTree Int32 Int} {rank : Int32 → ℕ} {root : BTreePageId}
  {leaves : List Int32} {t : LogicalTree} {n : Int32}

theorem mem_leafTuples (h : Legal td T rank root leaves t) (hn : n ∈ leaves) {u : Tuple}
    (hu : u ∈ t.leafTuples [n]) : ∃ p, t.pages n = some (.leaf p) ∧ u ∈ p.storedTuples := by
  obtain ⟨p, hp, -⟩ := h.leaf n hn
  rw [leafTuples_cons hp] at hu
  exact ⟨p, hp, by simpa [leafTuples] using hu⟩

theorem stored_key (h : Legal td T rank root leaves t) (hn : n ∈ leaves) {u : Tuple}
    (hu : u ∈ t.leafTuples [n]) :
    ∃ v : Int32, u.getField t.keyField = .ok (.int v) ∧ T.InRange n v.toInt := by
  obtain ⟨p, hp, hstored⟩ := h.mem_leafTuples hn hu
  have hleaf := h.legalLeaf hn hp
  have hint : p.IntKeyed := by
    rw [BTreeLeafPage.IntKeyed, hleaf.schema, hleaf.keyField]
    exact h.key
  obtain ⟨i, -, -, hi⟩ := Slots.mem_segment.mp hstored
  obtain ⟨v, hv, hkey⟩ := BTreeLeafPage.getField_int (p.of_tuple? hi).1 hint
  have hrow : u.fields ∈ p.rows := by
    rw [← p.storedTuples_fields]
    exact List.mem_map_of_mem hstored
  exact ⟨v, hleaf.keyField ▸ hv, hkey ▸ hleaf.range _ hrow⟩

theorem scan_run (h : Legal td T rank root leaves t) (hrooted : t.Rooted root)
    (hne : ∀ n ∈ leaves, ∀ q, t.pages n = some (.leaf q) → q.storedTuples ≠ [])
    {pred : Option IndexPredicate} {pre post : List Int32} {L : Int32}
    (hsplit : leaves = pre ++ L :: post)
    (hfind : findLeafPage .readOnly (startKey pred) (t.getNumPages + 1) root t = .ok L t) {fuel : ℕ}
    (hfuel : (t.leafTuples (L :: post)).length < fuel) :
    scan pred fuel t = .ok (t.leafTuples (L :: post)) t := by
  have hmem : ∀ n ∈ L :: post, n ∈ leaves := fun n hn => hsplit ▸ List.mem_append_right pre hn
  obtain ⟨p, hp, -⟩ := h.leaf L (hmem L List.mem_cons_self)
  obtain ⟨i, hbegin, hi, hused, hstored⟩ := begin_used (hne L (hmem L List.mem_cons_self) p hp)
  obtain ⟨left, hlinked⟩ := (hsplit ▸ h.linked).suffix
  have hstart := begin_run hrooted hp hfind
  rw [hbegin] at hstart
  rw [leafTuples_cons hp, hstored] at hfuel ⊢
  rw [scan, bind_ok hstart]
  exact scanFrom_run hlinked hp (fun n hn => h.leaf_has (hmem n hn))
    (fun n hn => hne n (hmem n (List.mem_cons_of_mem L hn))) hi hused hfuel

/-- Where a scan starts: the leaves from there on are those in the scan, and no tuple before it
satisfies the predicate. -/
theorem scan_start (h : Legal td T rank root leaves t)
    (hne : ∀ n ∈ leaves, ∀ q, t.pages n = some (.leaf q) → q.storedTuples ≠ [])
    {pred : IndexPredicate} {v : Int32} (hv : pred.fvalue = .int v) :
    ∃ pre L post, leaves = pre ++ L :: post ∧
      findLeafPage .readOnly (startKey (some pred)) (t.getNumPages + 1) root t = .ok L t ∧
      (∀ n ∈ leaves, InScan T pred n ↔ n ∈ L :: post) ∧
      ∀ u ∈ t.leafTuples pre, pred.admits t.keyField u = false := by
  by_cases hstart : pred.op = .equals ∨ pred.op = .greaterThan ∨ pred.op = .greaterThanOrEq
  · have hkey : startKey (some pred) = some (.int v) := by rw [startKey, if_pos hstart, hv]
    obtain ⟨pre, L, post, rfl, hfind, hleft⟩ := h.findLeafPage_key .readOnly h.rank_lt v
    have hbefore : ∀ n ∈ pre, ∃ k, T.Separates k n L ∧ k < v.toInt := by
      intro n hn
      obtain ⟨k, hk⟩ := h.before_of_chain.1 hn
      exact ⟨k, hk, (hleft k n).2 hk⟩
    refine ⟨pre, L, post, rfl, hkey ▸ hfind, ?_, ?_⟩
    · intro n hn
      constructor
      · intro hscan
        refine (List.mem_append.mp hn).resolve_left fun hpre => ?_
        obtain ⟨k, hk, hlt⟩ := hbefore n hpre
        have := hscan v hkey k L hk
        omega
      · intro hmem w hw k m hk
        obtain rfl : v = w := by
          rw [hkey] at hw
          cases hw
          rfl
        rcases List.mem_cons.mp hmem with rfl | hpost
        · exact (hleft k m).1 hk
        · -- a tuple of the leaf is between the separators on both sides
          obtain ⟨k', hk'⟩ := h.before_of_chain.2 hpost
          obtain ⟨p, hp, -⟩ := h.leaf n hn
          obtain ⟨u, hu⟩ := List.exists_mem_of_ne_nil _ (hne n hn p hp)
          obtain ⟨w, -, hrange⟩ := h.stored_key hn (u := u) (by simp [leafTuples, hp, hu])
          exact ((hleft k' n).1 hk').trans (((hrange k' L).2 hk').trans ((hrange k m).1 hk))
    · intro u hu
      obtain ⟨n, hn, hu⟩ := List.mem_flatMap.mp hu
      have hmem : n ∈ pre ++ L :: post := List.mem_append_left _ hn
      obtain ⟨w, hw, hrange⟩ := h.stored_key hmem (u := u) (by simpa [leafTuples] using hu)
      obtain ⟨k, hk, hlt⟩ := hbefore n hn
      have hle := (hrange k L).1 hk
      simp only [IndexPredicate.admits, hw, hv, Field.compare]
      rcases hstart with hop | hop | hop <;> rw [hop] <;> simp [Field.compareInt] <;> omega
  · have hkey : startKey (some pred) = none := if_neg hstart
    obtain ⟨L, post, rfl, hfind⟩ := h.findLeafPage_none .readOnly h.rank_lt
    refine ⟨[], L, post, rfl, hkey ▸ hfind, fun n hn => ⟨fun _ => hn, fun _ w hw => ?_⟩, ?_⟩
    · rw [hkey] at hw
      cases hw
    · intro u hu
      cases hu

/-- An index scan gives the tuples that satisfy its predicate exactly when no other tuple is in the
leaves from where it starts. -/
theorem scan_honours_iff (h : Legal td T rank root leaves t) (hrooted : t.Rooted root)
    (hne : ∀ n ∈ leaves, ∀ q, t.pages n = some (.leaf q) → q.storedTuples ≠ [])
    (pred : IndexPredicate) {v : Int32} (hv : pred.fvalue = .int v) :
    HonoursPredicate pred t leaves ↔
      ∀ n ∈ leaves, InScan T pred n → ∀ u ∈ t.leafTuples [n], pred.admits t.keyField u = true := by
  obtain ⟨pre, L, post, hsplit, hfind, hscan, hbefore⟩ := h.scan_start hne hv
  have hrun : ∀ fuel, (t.leafTuples (L :: post)).length < fuel →
      scan (some pred) fuel t = .ok (t.leafTuples (L :: post)) t :=
    fun fuel hfuel => h.scan_run hrooted hne hsplit hfind hfuel
  have hall : t.leafTuples leaves = t.leafTuples pre ++ t.leafTuples (L :: post) := by
    rw [hsplit]
    exact List.flatMap_append
  have hfilter : (t.leafTuples leaves).filter (pred.admits t.keyField) =
      (t.leafTuples (L :: post)).filter (pred.admits t.keyField) := by
    rw [hall, List.filter_append, List.filter_eq_nil_iff.mpr fun u hu => by simp [hbefore u hu],
      List.nil_append]
  constructor
  · rintro ⟨us, rounds, hus, hperm, -⟩ n hn hin u hu
    obtain rfl : us = t.leafTuples (L :: post) := by
      have h₁ := hus (max rounds ((t.leafTuples (L :: post)).length + 1)) (le_max_left _ _)
      have h₂ := hrun _ (Nat.lt_of_succ_le
        (le_max_right rounds ((t.leafTuples (L :: post)).length + 1)))
      rw [h₁] at h₂
      cases h₂
      rfl
    have hmem : u ∈ t.leafTuples (L :: post) := by
      obtain ⟨m, hm, hum⟩ := List.mem_flatMap.mp hu
      obtain rfl := List.mem_singleton.mp hm
      exact List.mem_flatMap.mpr ⟨m, (hscan m hn).mp hin, hum⟩
    exact (List.mem_filter.mp (hperm.mem_iff.mp hmem)).2
  · intro hadmits
    refine ⟨t.leafTuples (L :: post), _, fun fuel hfuel => hrun fuel (Nat.lt_of_succ_le hfuel), ?_,
      ?_⟩
    · rw [hfilter, List.filter_eq_self.mpr]
      intro u hu
      obtain ⟨n, hn, hu⟩ := List.mem_flatMap.mp hu
      have hmem : n ∈ leaves := hsplit ▸ List.mem_append_right pre hn
      exact hadmits n hmem ((hscan n hmem).mpr hn) u
        (List.mem_flatMap.mpr ⟨n, List.mem_singleton_self n, hu⟩)
    · have hsorted := h.leafRows_sorted
      rw [← leafTuples_fields, hall, List.map_append] at hsorted
      exact (List.pairwise_append.mp hsorted).2.1

/-- The scan for the key 5 in a leaf that has it twice. -/
theorem fullRoot_equals : HonoursPredicate ⟨.equals, .int 5⟩ fullRoot [1] := by
  have hne : ∀ n ∈ [1], ∀ q, fullRoot.pages n = some (.leaf q) → q.storedTuples ≠ [] := by
    intro n hn q hq
    obtain rfl := List.mem_singleton.mp hn
    cases hq
    decide
  refine (scan_honours_iff fullRoot_legal fullRoot_rooted hne ⟨.equals, .int 5⟩ rfl).mpr ?_
  intro n hn _
  obtain rfl := List.mem_singleton.mp hn
  decide

/-- The scan for greater keys gives the key 5 twice. -/
theorem fullRoot_greater : ¬ HonoursPredicate ⟨.greaterThan, .int 5⟩ fullRoot [1] := by
  rintro ⟨us, rounds, hus, hperm, -⟩
  have hne : ∀ n ∈ [1], ∀ q, fullRoot.pages n = some (.leaf q) → q.storedTuples ≠ [] := by
    intro n hn q hq
    obtain rfl := List.mem_singleton.mp hn
    cases hq
    decide
  have hnone : (fullRoot.leafTuples [1]).filter
      ((⟨.greaterThan, .int 5⟩ : IndexPredicate).admits fullRoot.keyField) = [] := by decide
  have hlength : (fullRoot.leafTuples [1]).length < max rounds 3 :=
    lt_of_lt_of_le (by decide) (le_max_right rounds 3)
  have hrun := fullRoot_legal.scan_run fullRoot_rooted hne (List.nil_append [1]).symm
    (findLeafPage_leaf .readOnly (startKey (some ⟨.greaterThan, .int 5⟩)) _ fullRoot_hasNode.has)
    hlength
  rw [hus _ (le_max_left _ _)] at hrun
  rw [hnone] at hperm
  rw [hperm.eq_nil] at hrun
  have hempty := (EStateM.Result.ok.inj hrun).1
  exact absurd hempty (by decide)

end Legal

end PagedDb
