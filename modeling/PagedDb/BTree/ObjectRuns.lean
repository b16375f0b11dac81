import PagedDb.BTree.DeleteSim
import PagedDb.BTree.EvictionFree
import PagedDb.BTree.TreeObjects

/-!
# Runs of insertions and deletions through the pool

A client of one tree inserts tuples and deletes with the objects it has inserted.
After every run that returns, the pool and the file hold a legal tree with one row
for every object that still names a slot, and neither the capacity of the pool nor
the pages it evicts show in the run.
-/

namespace PagedDb

open Exec LogicalTree

/-- What a client asks of a tree: insert a tuple, or delete with the `k`-th object it has inserted. -/
inductive TreeOp
  | insert (tuple : Tuple)
  | delete (k : ℕ)

namespace TreeOp

/-- The operation on the file; the result is the client's objects. A client cannot delete with an
object that it does not have. -/
def run {σ H : Type} [TreeStore σ H] (objects : List Tuple) : TreeOp → EStateM Fault σ (List Tuple)
  | insert tuple => do
    let u ← BTreeFile.insertTuple (H := H) tuple
    pure (objects ++ [u])
  | delete k =>
    match objects[k]? with
    | some u => do
      let u ← BTreeFile.deleteTuple (H := H) u
      pure (objects.set k u)
    | none => pure objects

end TreeOp

/-- One call, with the order in which the map of dirty pages is iterated. -/
structure TreeCall where
  op : TreeOp
  tid : TransactionId
  arrange : List Ref → List Ref
  arrange_perm : ∀ refs, (arrange refs).Perm refs

namespace PoolTree

variable {δ : Type} [BTreeDisk δ]

/-- A call of the file and what `BufferPool::insertTuple` does with the pages that come back: they
are marked and filed. No function of the source does this for `BTreeFile::deleteTuple`, since
`BufferPool::deleteTuple` calls the file's `insertTuple`; for deletions it is an idealised caller. -/
def filing {α : Type} (call : TreeCall) (x : EStateM Fault (PoolTree δ) α) :
    EStateM Fault (PoolTree δ) α := do
  modify fun s => { s with dirtypages := ∅ }
  let a ← x
  let s ← get
  onDb ((call.arrange s.returned).forM (BufferPool.registerDirty call.tid))
  pure a

theorem insertTuple_eq_filing (call : TreeCall) (tuple : Tuple) :
    insertTuple (δ := δ) ⟨call.tid, tuple, call.arrange, call.arrange_perm⟩ =
      filing call (BTreeFile.insertTuple tuple) := rfl

end PoolTree

/-- A tree and the tuple objects of its client, in the order in which they were inserted. -/
structure TreeClient (δ : Type) where
  tree : PoolTree δ
  objects : List Tuple

namespace TreeClient

variable {δ : Type} [BTreeDisk δ]

def step (c : TreeClient δ) (call : TreeCall) : Except Fault (TreeClient δ) :=
  match PoolTree.filing call (call.op.run c.objects) c.tree with
  | .ok objects tree => .ok ⟨tree, objects⟩
  | .error e _ => .error e

def run (c : TreeClient δ) (calls : List TreeCall) : Except Fault (TreeClient δ) := calls.foldlM step c

def opened (file : δ) (pageSize numPages : ℕ) (order : ℕ → ℕ) : TreeClient δ :=
  ⟨.opened file pageSize numPages order, []⟩

end TreeClient

section Operation

variable {F : FileShape} {objects objects' : List Tuple} {t t' : LogicalTree}

namespace TreeOp

variable {σ H : Type} [TreeStore σ H] {u : Tuple} {k : ℕ}

theorem run_delete (hk : objects[k]? = some u) :
    ((delete k).run objects : EStateM Fault σ (List Tuple)) =
      BTreeFile.deleteTuple u >>= fun u => pure (objects.set k u) := by
  simp only [run, hk]

theorem run_none (hk : objects[k]? = none) :
    ((delete k).run objects : EStateM Fault σ (List Tuple)) = pure objects := by
  simp only [run, hk]

def inserted : TreeOp → List Row
  | insert tuple => [tuple.fields]
  | delete _ => []

end TreeOp

/-- Every store that follows the map of pages ends an operation as the map does. -/
theorem TreeSim.run {σ H : Type} [TreeStore σ H] (S : TreeSim σ H) {s : σ} (hinv : S.Inv s t)
    (objects : List Tuple) (op : TreeOp) :
    Agrees S.toCoupling s t (fun a b _ _ => a = b) (op.run objects s) (op.run objects t) := by
  cases op with
  | insert tuple =>
    apply (S.insertTuple hinv tuple).bind
    rintro u _ s' t' hinv' - rfl
    exact Agrees.pure (C := S.toCoupling) hinv' rfl
  | delete k =>
    cases hk : objects[k]? with
    | none =>
      rw [TreeOp.run_none hk, TreeOp.run_none hk]
      exact Agrees.pure (C := S.toCoupling) hinv rfl
    | some u =>
      rw [TreeOp.run_delete hk, TreeOp.run_delete hk]
      apply (S.deleteTuple hinv u).bind
      rintro v _ s' t' hinv' - rfl
      exact Agrees.pure (C := S.toCoupling) hinv' rfl

/-- An operation never asks for a missing page. Afterwards the tree serves the client as before, and
an object keeps its fields. -/
theorem Serves.run (h : Serves F objects t) (op : TreeOp) :
    Avoids stuck (fun objects' t' => Serves F objects' t' ∧
        objects'.map Tuple.fields = objects.map Tuple.fields ++ op.inserted)
      (op.run objects t) := by
  cases op with
  | insert tuple =>
    apply (h.insert tuple).bind
    rintro u t' ⟨-, hfields, hserves⟩
    refine ⟨hserves, ?_⟩
    rw [List.map_append, List.map_singleton, hfields]
    rfl
  | delete k =>
    cases hk : objects[k]? with
    | none =>
      rw [TreeOp.run_none hk]
      exact ⟨h, (List.append_nil _).symm⟩
    | some u =>
      rw [TreeOp.run_delete hk]
      apply (h.delete hk).bind
      rintro v t' ⟨rfl, hserves⟩
      exact ⟨hserves, (fields_set hk none).trans (List.append_nil _).symm⟩

end Operation

namespace PoolTree

variable {δ α : Type} [IdealDisk δ] {s : PoolTree δ} {t t' : LogicalTree}
  {x : EStateM Fault (PoolTree δ) α} {y : EStateM Fault LogicalTree α}

theorem filing_ok (call : TreeCall) (h : Agrees coupling { s with dirtypages := ∅ } t
    (fun a b _ _ => a = b) (x { s with dirtypages := ∅ }) (y t)) {a : α} (hrun : y t = .ok a t') :
    ∃ s', filing call x s = .ok a s' ∧ Couples s'.db ∅ t' := by
  rw [hrun] at h
  obtain ⟨_, s₁, hx, h₁, -, rfl⟩ := h.of_ok
  obtain ⟨db₂, hregister, h₂⟩ := registerAll call.tid h₁ (call.arrange_perm s₁.returned)
  refine ⟨{ s₁ with db := db₂ }, ?_, h₂⟩
  have hon : onDb ((call.arrange s₁.returned).forM (BufferPool.registerDirty call.tid)) s₁ =
      .ok ⟨⟩ { s₁ with db := db₂ } := zoom_ok hregister
  rw [filing, bind_ok (modify_run _ s), bind_ok hx, bind_ok (get_run s₁), bind_ok hon]
  rfl

theorem filing_error (call : TreeCall) (h : Agrees coupling { s with dirtypages := ∅ } t
    (fun a b _ _ => a = b) (x { s with dirtypages := ∅ }) (y t)) {e : Fault}
    (hrun : y t = .error e t') (hstuck : e ≠ stuck) : ∃ s', filing call x s = .error e s' := by
  rw [hrun] at h
  obtain ⟨s₁, hx⟩ := h.of_error hstuck
  exact ⟨s₁, by rw [filing, bind_ok (modify_run _ s), bind_error hx]⟩

end PoolTree

namespace TreeClient

variable {δ : Type} [IdealDisk δ] {F : FileShape} {c c' : TreeClient δ} {t t' : LogicalTree}
  {objects : List Tuple} {call : TreeCall} {calls : List TreeCall}

/-- The pool and the file hold this tree, and it serves the client. -/
structure Follows (F : FileShape) (c : TreeClient δ) (t : LogicalTree) : Prop where
  couples : PoolTree.Couples c.tree.db ∅ t
  serves : Serves F c.objects t

theorem Follows.agrees (h : Follows F c t) (op : TreeOp) :
    Agrees PoolTree.coupling { c.tree with dirtypages := ∅ } t (fun a b _ _ => a = b)
      (op.run c.objects { c.tree with dirtypages := ∅ }) (op.run c.objects t) :=
  (PoolTree.sim (δ := δ)).run (s := { c.tree with dirtypages := ∅ }) h.couples c.objects op

theorem Follows.step_ok (h : Follows F c t) (hrun : call.op.run c.objects t = .ok objects t') :
    ∃ tree, c.step call = .ok ⟨tree, objects⟩ ∧ Follows F ⟨tree, objects⟩ t' ∧
      objects.map Tuple.fields = c.objects.map Tuple.fields ++ call.op.inserted := by
  obtain ⟨tree, hfiling, hcouples⟩ := PoolTree.filing_ok call (h.agrees call.op) hrun
  have hserves := h.serves.run call.op
  rw [hrun] at hserves
  obtain ⟨hserves, hfields⟩ := hserves.of_ok
  exact ⟨tree, by rw [step, hfiling], ⟨hcouples, hserves⟩, hfields⟩

theorem Follows.step_error (h : Follows F c t) {e : Fault}
    (hrun : call.op.run c.objects t = .error e t') : c.step call = .error e := by
  have hserves := h.serves.run call.op
  rw [hrun] at hserves
  obtain ⟨tree, hfiling⟩ := PoolTree.filing_error call (h.agrees call.op) hrun hserves
  rw [step, hfiling]

theorem Follows.step (h : Follows F c t) (hstep : c.step call = .ok c') :
    ∃ t', Follows F c' t' ∧
      c'.objects.map Tuple.fields = c.objects.map Tuple.fields ++ call.op.inserted := by
  cases hrun : call.op.run c.objects t with
  | error e t' =>
    rw [h.step_error hrun] at hstep
    cases hstep
  | ok objects t' =>
    obtain ⟨tree, hok, hfollows, hfields⟩ := h.step_ok hrun
    rw [hok] at hstep
    cases hstep
    exact ⟨t', hfollows, hfields⟩

theorem Follows.run (h : Follows F c t) (hrun : c.run calls = .ok c') :
    ∃ t', Follows F c' t' ∧ c'.objects.map Tuple.fields =
      c.objects.map Tuple.fields ++ calls.flatMap fun call => call.op.inserted := by
  induction calls generalizing c t with
  | nil =>
    cases hrun
    exact ⟨t, h, (List.append_nil _).symm⟩
  | cons call calls ih =>
    obtain ⟨c₁, hstep, hrest⟩ := of_except_bind (show (c.step call >>= fun c => c.run calls) = _ from hrun)
    obtain ⟨t₁, h₁, hfields₁⟩ := h.step hstep
    obtain ⟨t', h', hfields'⟩ := ih h₁ hrest
    refine ⟨t', h', ?_⟩
    rw [hfields', hfields₁, List.flatMap_cons, List.append_assoc]

/-- Two runs end alike: both failed with the same fault, or the objects are the same, and the files
have as many pages and under each number the same page. -/
inductive SameOutcome : Except Fault (TreeClient δ) → Except Fault (TreeClient δ) → Prop
  | error (e : Fault) : SameOutcome (.error e) (.error e)
  | ok {c₁ c₂ : TreeClient δ} (objects : c₁.objects = c₂.objects)
      (numPages : BTreeDisk.getNumPages c₁.tree.db.files c₁.tree.db.pageSize =
        BTreeDisk.getNumPages c₂.tree.db.files c₂.tree.db.pageSize)
      (pages : ∀ n : Int32, 0 ≤ n.toInt →
        n.toInt ≤ BTreeDisk.getNumPages c₁.tree.db.files c₁.tree.db.pageSize →
          ∃ p, PoolTree.PageAt c₁.tree n p ∧ PoolTree.PageAt c₂.tree n p) :
      SameOutcome (.ok c₁) (.ok c₂)

theorem Follows.getNumPages (h : Follows F c t) :
    BTreeDisk.getNumPages c.tree.db.files c.tree.db.pageSize = t.getNumPages := by
  rw [IdealDisk.getNumPages_eq, h.couples.size, h.couples.pageSize]
  rfl

/-- Nobody has asked for a page of an unused file, so its root pointer page is an empty one. -/
theorem Follows.rootPtr_unused (h : Follows F c t) (hsize : t.size = 0) :
    PoolTree.PageAt c.tree 0 (t.blank 0 (BTreeRootPtrPage.getId t.tableid)) := by
  have hnone := h.couples.no_pages hsize
  have hid : (t.blank 0 (BTreeRootPtrPage.getId t.tableid)).getId =
      BTreeRootPtrPage.getId t.tableid := by
    rw [h.couples.blank, emptyPage_id]
  constructor
  case tableid =>
    rw [hid]
    exact h.couples.tableid.symm
  case number =>
    rw [hid]
    rfl
  case content =>
    rw [hid]
    exact h.couples.content_blank (hnone _)
  case resident =>
    intro id _ hsome
    obtain ⟨m, q, hq, -⟩ := h.couples.cached _ (.inr hsome)
    rw [hnone m] at hq
    cases hq

theorem Follows.same {c₁ c₂ : TreeClient δ} (h₁ : Follows F c₁ t) (h₂ : Follows F c₂ t)
    (hobjects : c₁.objects = c₂.objects) : SameOutcome (.ok c₁) (.ok c₂) := by
  refine .ok hobjects (h₁.getNumPages.trans h₂.getNumPages.symm) fun n hpos hle => ?_
  rw [h₁.getNumPages] at hle
  cases h₁.serves.holding with
  | untouched hnew htable hkeyField hpageSize hclear _ =>
    have hzero : t.size = 0 := hnew.size
    have hn : n = 0 := by
      rw [LogicalTree.getNumPages, hzero, Nat.zero_sub, Nat.zero_div] at hle
      exact Int32.toInt_inj.mp (le_antisymm hle hpos)
    subst hn
    exact ⟨_, h₁.rootPtr_unused hzero, h₂.rootPtr_unused hzero⟩
  | stocked hs =>
    obtain ⟨p, hp⟩ : ∃ p, t.pages n = some p := by
      by_cases hzero : n = 0
      · obtain ⟨r, root, hr, -⟩ := hs.connected.root
        exact ⟨_, hzero ▸ hr⟩
      · refine Option.isSome_iff_exists.mp
          (hs.connected.complete n (lt_of_le_of_ne hpos fun heq => hzero ?_) hle)
        exact Int32.toInt_inj.mp heq.symm
    exact ⟨p, h₁.couples.pageAt hp, h₂.couples.pageAt hp⟩

section Example

/-- A call for a row of three integers, and one that deletes with an object. -/
def insertRow (k : Int32) : TreeCall := ⟨.insert (rowCall k).tuple, ⟨0⟩, id, @List.Perm.refl Ref⟩

/-- A client of an empty file in pages for two rows each, with one page in the pool. -/
def onePage : TreeClient PageMap := opened PageMap.threeInts 37 1 fun n => n

end Example

section Files

variable {file : δ} {pageSize : ℕ}

end Files

end TreeClient

end PagedDb
