import PagedDb.BTree.IndexScan
import PagedDb.BTree.ObjectRuns

/-!
# Index scans after runs of insertions and deletions

A scan goes along the chain from the leaf that its search ends at. In every state
that a run leads to it gives the rows from there on in key order, and what it
leaves out does not satisfy its predicate. There is one exception: a scan of a tree
from which everything was deleted reads behind the slots of the root.
-/

namespace PagedDb

open Exec LogicalTree BTreeFile

def IntOperand (pred : Option IndexPredicate) : Prop :=
  ∀ p, pred = some p → ∃ v, p.fvalue = .int v

namespace Legal

variable {td : TupleDesc} {T : KeyTree Int32 Int} {rank : Int32 → ℕ} {root : BTreePageId}
  {leaves : List Int32} {t : LogicalTree} {L : Int32} {p : BTreeLeafPage}
  {pred : Option IndexPredicate}

theorem scan_finds (h : Legal td T rank root leaves t) (hint : IntOperand pred) :
    ∃ L ∈ leaves, findLeafPage .readOnly (startKey pred) (t.getNumPages + 1) root t = .ok L t := by
  have hnone : ∃ L ∈ leaves,
      findLeafPage .readOnly none (t.getNumPages + 1) root t = .ok L t := by
    obtain ⟨L, post, rfl, hfind⟩ := h.findLeafPage_none .readOnly h.rank_lt
    exact ⟨L, List.mem_cons_self, hfind⟩
  cases pred with
  | none => exact hnone
  | some pred =>
    by_cases hop : pred.op = .equals ∨ pred.op = .greaterThan ∨ pred.op = .greaterThanOrEq
    · obtain ⟨v, hv⟩ := hint pred rfl
      rw [startKey, if_pos hop, hv]
      obtain ⟨pre, L, post, rfl, hfind, -⟩ := h.findLeafPage_key .readOnly h.rank_lt v
      exact ⟨L, by simp, hfind⟩
    · rwa [startKey, if_neg hop]

/-- A scan gives the tuples behind those of some leaves, none of which satisfies the predicate. -/
theorem scan_suffix (h : Legal td T rank root leaves t) (hrooted : t.Rooted root)
    (hne : ∀ n ∈ leaves, ∀ q, t.pages n = some (.leaf q) → q.storedTuples ≠ [])
    (hint : IntOperand pred) : ∃ skipped us, t.leafTuples leaves = skipped ++ us ∧
      (∀ fuel, us.length < fuel → scan pred fuel t = .ok us t) ∧ (pred = none → skipped = []) ∧
      ∀ p, pred = some p → ∀ u ∈ skipped, p.admits t.keyField u = false := by
  cases pred with
  | none =>
    obtain ⟨L, post, rfl, hfind⟩ := h.findLeafPage_none .readOnly h.rank_lt
    refine ⟨[], _, rfl, fun fuel hfuel => ?_, fun _ => rfl, nofun⟩
    exact h.scan_run hrooted hne (List.nil_append (L :: post)).symm
      (show findLeafPage .readOnly (startKey none) _ root t = _ from hfind) hfuel
  | some pred =>
    obtain ⟨v, hv⟩ := hint pred rfl
    obtain ⟨before, L, post, hsplit, hfind, -, hbefore⟩ := h.scan_start hne hv
    refine ⟨t.leafTuples before, t.leafTuples (L :: post), ?_, fun fuel hfuel => ?_, nofun, ?_⟩
    · rw [hsplit]
      exact List.flatMap_append
    · exact h.scan_run hrooted hne hsplit hfind hfuel
    · rintro p ⟨⟩
      exact hbefore

theorem scan_empty (h : Legal td T rank root leaves t) (hrooted : t.Rooted root)
    (hempty : ∀ n ∈ leaves, ∀ q, t.pages n = some (.leaf q) → q.storedTuples = [])
    (hint : IntOperand pred) (fuel : ℕ) :
    ∃ e, scan pred fuel t = .error e t ∧ e ≠ stuck := by
  obtain ⟨L, hL, hfind⟩ := h.scan_finds hint
  obtain ⟨p, hp, -⟩ := h.leaf L hL
  rw [scan, bind_ok (begin_run hrooted hp hfind)]
  cases fuel with
  | zero => exact ⟨.outOfFuel, rfl, by simp [stuck]⟩
  | succ fuel =>
    -- `begin` is behind the last slot
    have hbegin : p.begin = ⟨p.numSlots, false⟩ := by
      obtain ⟨-, hle, hused, hskip⟩ := p.search_used (Nat.zero_le _) rfl
      have hnil := hempty L hL p hp
      rw [TuplePage.storedTuples, hskip] at hnil
      have hge : ¬ Slots.search p.isSlotUsed (p.numSlots - 0) 0 < p.numSlots := by
        intro hlt
        obtain ⟨u, -, hsegment⟩ := p.segment_used hlt (hused hlt)
        rw [hsegment] at hnil
        cases hnil
      rw [BTreeLeafPage.begin]
      congr 1
      exact_mod_cast Nat.le_antisymm hle (Nat.le_of_not_lt hge)
    refine ⟨.assertion, ?_, by simp [stuck]⟩
    have hget : iterGet (some (L, p.begin)) t = .error .assertion t := by
      rw [iterGet, bind_ok (leafAt_run hp), hbegin]
      have hneg : ¬ (p.numSlots : Int) < 0 := by omega
      simp [BTreeLeafPageIterator.get, BTreeLeafPage.getTuple, hneg]
    rw [scanFrom, if_neg (by simp), bind_error hget]

end Legal

namespace Grown

variable {F : FileShape} {T : KeyTree Int32 Int} {rank : Int32 → ℕ} {root : BTreePageId}
  {leaves : List Int32} {t : LogicalTree}

theorem leaves_nonempty (h : Grown F.td T rank root leaves t)
    (hcap : 2 ≤ BTreeLeafPage.getMaxTuples t.pageSize F.td) (hrows : t.leafRows leaves ≠ []) :
    ∀ n ∈ leaves, ∀ q, t.pages n = some (.leaf q) → q.storedTuples ≠ [] := by
  intro n hn q hq hnil
  have hqrows : q.rows = [] := by rw [← q.storedTuples_fields, hnil, List.map_nil]
  by_cases hroot : n = root.pgNo
  · subst hroot
    refine hrows ?_
    rw [h.leaves_eq_root hn, leafRows_cons hq, hqrows]
    rfl
  · have hhalf := h.half n hn hroot q hq
    rw [(h.legal.legalLeaf hn hq).numSlots, hqrows] at hhalf
    simp only [List.length_nil] at hhalf
    omega

end Grown

/-- A scan of a tree with a row: it ends, with the tuples behind some that do not satisfy the
predicate, in key order. A scan of one without a row fails. -/
theorem Stocked.scan {F : FileShape} {objects : List Tuple} {T : KeyTree Int32 Int}
    {rank : Int32 → ℕ} {root : BTreePageId} {leaves : List Int32} {t : LogicalTree}
    {pred : Option IndexPredicate} (h : Stocked F objects T rank root leaves t)
    (hcap : 2 ≤ BTreeLeafPage.getMaxTuples F.pageSize F.td) (hint : IntOperand pred) :
    (t.leafRows leaves ≠ [] → ∃ skipped us, (skipped ++ us).map Tuple.fields = t.leafRows leaves ∧
      (∀ fuel, us.length < fuel → BTreeFile.scan pred fuel t = .ok us t) ∧
      (pred = none → skipped = []) ∧
      ∀ p, pred = some p → ∀ u ∈ skipped, p.admits F.keyField u = false) ∧
    (t.leafRows leaves = [] → ∀ fuel, ∃ e, BTreeFile.scan pred fuel t = .error e t ∧ e ≠ stuck) := by
  constructor
  · intro hrows
    obtain ⟨skipped, us, htuples, hrun, hnone, hskipped⟩ := h.grown.legal.scan_suffix h.grown.rooted
      (h.grown.leaves_nonempty (h.connected.pageSize ▸ hcap) hrows) hint
    rw [h.connected.keyField] at hskipped
    exact ⟨skipped, us, by rw [← htuples, leafTuples_fields], hrun, hnone, hskipped⟩
  · intro hrows
    refine h.grown.legal.scan_empty h.grown.rooted (fun n hn q hq => ?_) hint
    obtain ⟨pre, post, rfl⟩ := List.append_of_mem hn
    rw [leafRows_append, leafRows_cons hq, List.append_eq_nil_iff, List.append_eq_nil_iff,
      ← q.storedTuples_fields, List.map_eq_nil_iff] at hrows
    exact hrows.2.1

namespace TreeClient

variable {δ : Type} [IdealDisk δ] {c : TreeClient δ} {calls : List TreeCall} {file : δ}
  {pageSize : ℕ} {pred : Option IndexPredicate}

end TreeClient

end PagedDb
