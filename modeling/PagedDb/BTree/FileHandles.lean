import PagedDb.BTree.FileScans
import PagedDb.BTree.TupleHandles

/-!
# Tuple objects of a file as handles for deletion

Objects that were handed to insertions, through a pool that keeps the pages of the
file. While keys come in order and fit on one leaf, the deletion with any of the
objects takes out the row with the object's own fields.
-/

namespace PagedDb

open Exec LogicalTree BTreeFile

def FileCall.runAll {δ : Type} [BTreeDisk δ] : List FileCall → EStateM Fault (PoolTree δ) (List Tuple)
  | [] => pure []
  | call :: calls => do
    let u ← call.run
    let us ← runAll calls
    pure (u :: us)

namespace OneLeaf

variable {td : TupleDesc} {us : List Tuple} {tuples : List Tuple} {p : BTreeLeafPage}
  {t : LogicalTree} {s : PoolTree BTreeFile} {tuple u : Tuple} {calls : List FileCall}

/-- A tuple of the schema with no smaller key is inserted, where there is a slot left. -/
theorem insertTuple_ok (h : OneLeaf td us p t) (hroom : us.length < p.numSlots)
    (htd : tuple.td = td)
    (hle : ∀ v ∈ us, intKey t.keyField v.fields ≤ intKey t.keyField tuple.fields) :
    ∃ u q, BTreeFile.insertTuple tuple t = .ok u (t.setPage 1 (.leaf q)) ∧
      u.fields = tuple.fields ∧ OneLeaf td (us ++ [u]) q (t.setPage 1 (.leaf q)) ∧
      q.numSlots = p.numSlots := by
  have hschema : tuple.td = p.td := htd.trans h.schema.symm
  obtain ⟨key, hkey, -⟩ := BTreeLeafPage.getField_int hschema h.intKeyed
  rw [h.keyField] at hkey
  obtain ⟨q, slot, hinsert, hframe, -⟩ := p.insertTuple_spec hschema h.intKeyed (h.hasSlot hroom)
  obtain ⟨hfields, hone⟩ := h.insertLeaf hroom hle hinsert
  refine ⟨_, q, ?_, hfields, hone, hframe.numSlots⟩
  have hid : (BTreeFilePage.leaf p).getId = (BTreeFilePage.leaf q).getId := hframe.pid.symm
  rw [h.insertTuple_eq hkey, insertAt, bind_ok (get_run t), bind_ok (h.leafWithRoom_run hroom _),
    bind_ok (leafAt_run h.page), bind_ok (lift_run hinsert t)]
  exact bind_ok (store_run h.page hid)

/-- Insertions in key order, as long as the leaf has slots for them. -/
theorem runAll (h : OneLeaf td us p t) (hs : PoolTree.Resident s.db s.dirtypages t)
    (hcalls : calls.map FileCall.inserted = tuples.map some) (htd : ∀ tuple ∈ tuples, tuple.td = td)
    (horder : KeyOrdered t.keyField (us.map Tuple.fields ++ tuples.map Tuple.fields))
    (hfits : us.length + tuples.length ≤ p.numSlots) :
    ∃ vs s' t' q, FileCall.runAll calls s = .ok vs s' ∧
      PoolTree.Resident s'.db s'.dirtypages t' ∧ OneLeaf td (us ++ vs) q t' ∧
      vs.map Tuple.fields = tuples.map Tuple.fields := by
  induction calls generalizing us p t s tuples with
  | nil =>
    obtain rfl := List.map_eq_nil_iff.mp hcalls.symm
    exact ⟨[], s, t, p, rfl, hs, by rwa [List.append_nil], rfl⟩
  | cons call calls ih =>
    obtain ⟨tuple, tuples, rfl, hcall, hrest⟩ := List.map_eq_cons_iff.mp hcalls.symm
    rw [List.length_cons] at hfits
    have hle : ∀ v ∈ us, intKey t.keyField v.fields ≤ intKey t.keyField tuple.fields := fun v hv =>
      (List.pairwise_append.mp horder).2.2 _ (List.mem_map_of_mem hv) _ List.mem_cons_self
    obtain ⟨u, q, hrun, hfields, hone, hslots⟩ :=
      h.insertTuple_ok (by omega) (htd tuple List.mem_cons_self) hle
    obtain ⟨s₁, hok, hs₁⟩ := FileCall.run_inserted hs hcall.symm hrun
    obtain ⟨vs, s', t', q', hruns, hs', hone', hrows⟩ :=
      ih hone hs₁ hrest.symm (fun v hv => htd v (List.mem_cons_of_mem tuple hv))
        (by simpa [hfields] using horder)
        (by rw [List.length_append, List.length_singleton, hslots]; omega)
    refine ⟨u :: vs, s', t', q', ?_, hs', by simpa using hone', by simp [hfields, hrows]⟩
    rw [FileCall.runAll, bind_ok hok, bind_ok hruns]
    rfl

end OneLeaf

def FileCall.insertRow (k : Int32) : FileCall := .insert (rowCall k).tuple

end PagedDb
