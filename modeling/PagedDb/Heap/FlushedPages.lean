import PagedDb.Heap.Durability
import PagedDb.Storage.FlushEffects

/-!
# Flushing a pool whose tables may be gone

As long as the catalog lists the tables of the resident pages, the flush calls
write exactly the dirty pages they are for, each once. A dirty page of a table
that was taken out of the catalog makes the call that is to write it fail, and
the page is no longer dirty then.
-/

namespace PagedDb

open Exec BufferPool HeapFile

instance : CatalogFiles HeapPage HeapFiles where
  Listed files tableId := (files.file? tableId).isSome
  write_listed := by
    intro files pageSize tableId p hlisted
    obtain ⟨f, hf⟩ := Option.isSome_iff_exists.mp hlisted
    let f' : HeapFile :=
      { f with fd := f.fd.pwrite (p.getPageData pageSize files.scratch) pageSize
                 (HeapFile.pageOffset pageSize p.pid) }
    have hid : f'.tableid = tableId := files.filed tableId f hf
    refine ⟨files.setFile f', ?_, ?_⟩
    · change (files.getDatabaseFile tableId >>= _) = _
      rw [HeapFile.getDatabaseFile_ok hf]
      rfl
    · intro i
      by_cases hi : i = f'.tableid
      · subst hi
        rw [HeapFiles.setFile_self, hid, hf]
        simp
      · rw [HeapFiles.setFile_ne files f' hi]
  write_missing := by
    intro files pageSize tableId p hmissing
    have hf : files.file? tableId = none := by simpa using hmissing
    refine ⟨.runtimeError "Table not found", ?_⟩
    change (files.getDatabaseFile tableId >>= _) = _
    rw [HeapFile.getDatabaseFile_missing hf]
    rfl

variable {π δ : Type} [CatalogFiles π δ]

/-- Over tables in the catalog, flushing writes exactly the dirty pages it is for, each once; it
leaves the residents and the other marks, and at once again it writes nothing. An eviction
removes one page and writes it exactly if it was dirty, and discarding a page writes nothing. -/
theorem flush_writes_dirty (db : Database π (Logged δ)) (h : FiledById db)
    (hlisted : ∀ pid ∈ db.pages.keys,
      CatalogFiles.Listed π db.files.files pid.getTableId) :
    (∀ call : FlushCall, call ≠ .evictPage →
      ∃ ws db', call.run db = .ok () db' ∧ Wrote ws db db' ∧ ws.Nodup ∧
        (∀ pid, pid ∈ ws ↔ call.Flushes db pid) ∧
        ∃ db'', call.run db' = .ok () db'' ∧ Wrote [] db' db'') ∧
      (db.pages.keys ≠ [] → ∃ pid ∈ db.pages.keys, ∃ db',
        evictPage db = .ok () db' ∧ Evicted pid db db') ∧
      ∀ pid, (discardPage pid : DbM π (Logged δ) Unit) db =
        .ok () { db with pages := db.pages.erase pid } := by
  have hresident : ∀ pid, (db.mark pid).isSome → pid ∈ db.pages.keys := by
    intro pid hd
    have hmem : pid ∈ chosen Option.isSome db db.pages.keys := (mem_chosen_keys rfl).mpr hd
    exact (List.mem_filter.mp hmem).1
  refine ⟨?_, ?_, fun _ => rfl⟩
  · intro call hcall
    obtain ⟨ws, db', hrun, hwrote, hnodup, hws⟩ := FlushCall.run_wrote h hcall
      (fun pid hflushes => hlisted pid (hresident pid hflushes.dirty))
    have hnone := FlushCall.not_flushes hwrote hcall hws
    obtain ⟨ws', db'', hrun', hwrote', -, hws'⟩ := FlushCall.run_wrote hwrote.filed hcall
      (fun pid hflushes => absurd hflushes (hnone pid))
    have hempty : ws' = [] := by
      apply List.eq_nil_iff_forall_not_mem.mpr
      intro pid hmem
      exact hnone pid ((hws' pid).mp hmem)
    subst hempty
    exact ⟨ws, db', hrun, hwrote, hnodup, hws, db'', hrun', hwrote'⟩
  · intro hne
    obtain ⟨pid, hmem, hvictim⟩ := db.victim_resident hne
    obtain ⟨db', hrun, hevicted⟩ :=
      evictPage_evicted h hvictim (fun _ => hlisted pid hmem)
    exact ⟨pid, hmem, db', hrun, hevicted⟩

def twoPages : LoggedDb :=
  runLogged [.insertTuple ⟨1⟩ 7 (intTuple 5), .insertTuple ⟨1⟩ 7 (intTuple 6),
    .insertTuple ⟨2⟩ 7 (intTuple 8)]
    (openLogged 9 2 (fun _ => 0) (openTable 9 2 7 oneInt .empty).files)

theorem twoPages_tracks : Tracks InCatalog none twoPages :=
  runLogged_tracks (openLogged_tracks _ _ _ _) _

theorem twoPages_flushed : ∃ ws db', FlushCall.flushAllPages.run twoPages = .ok () db' ∧
    Wrote ws twoPages db' ∧ ws.Nodup ∧
    (∀ pid, pid ∈ ws ↔ FlushCall.flushAllPages.Flushes twoPages pid) ∧
    ∃ db'', FlushCall.flushAllPages.run db' = .ok () db'' ∧ Wrote [] db' db'' := by
  have hlisted : ∀ pid ∈ twoPages.pages.keys,
      CatalogFiles.Listed HeapPage twoPages.files.files pid.getTableId := by
    intro pid hpid
    rw [← AList.mem_keys, ← AList.lookup_isSome] at hpid
    obtain ⟨ref, hl⟩ := Option.isSome_iff_exists.mp hpid
    obtain ⟨-, -, -, hknown⟩ := twoPages_tracks.entry pid ref hl
    exact hknown
  exact (flush_writes_dirty twoPages twoPages_tracks.filedById hlisted).1 .flushAllPages nofun

/-- A call loses no update exactly if the tables of all dirty pages it is to write are in the
catalog; it does not fail then. -/
theorem failedFlush_keeps_iff (db : Database π (Logged δ)) (h : FiledById db) (call : FlushCall) :
    (∀ e db', call.run db = .error e db' → KeepsUnwritten db db') ↔
      ∀ pid, call.Flushes db pid → CatalogFiles.Listed π db.files.files pid.getTableId := by
  constructor
  · intro hkeeps pid hflushes
    by_contra hmissing
    obtain ⟨e, db', ws, q, hrun, hlost⟩ := FlushCall.run_lost h hflushes hmissing
    exact hlost.not_keeps (hkeeps e db' hrun)
  · intro hlisted e db' hrun
    obtain ⟨db₁, hok⟩ : ∃ db₁, call.run db = .ok () db₁ := by
      by_cases hcall : call = .evictPage
      · subst hcall
        cases hvictim : db.victim with
        | none => exact ⟨db, evictPage_none hvictim⟩
        | some pid =>
          obtain ⟨db₁, hok, -⟩ :=
            evictPage_evicted h hvictim fun hd => hlisted pid ⟨hvictim, hd⟩
          exact ⟨db₁, hok⟩
      · obtain ⟨-, db₁, hok, -⟩ := FlushCall.run_wrote h hcall hlisted
        exact ⟨db₁, hok⟩
    rw [hok] at hrun
    cases hrun

/-- `Catalog::clear`: the page objects and the pool stay. -/
def clearCatalog (db : LoggedDb) : LoggedDb :=
  { db with
    files := ⟨{ db.files.files with file? := fun _ => none, filed := nofun }, db.files.log⟩ }

theorem clearCatalog_filed {db : LoggedDb} (h : FiledById db) : FiledById (clearCatalog db) := h

theorem failedFlush_keeps_iff_cleared :
    (∀ e db', FlushCall.flushAllPages.run (clearCatalog twoPages) = .error e db' →
      KeepsUnwritten (clearCatalog twoPages) db') ↔
      ∀ pid, FlushCall.flushAllPages.Flushes (clearCatalog twoPages) pid →
        CatalogFiles.Listed HeapPage (clearCatalog twoPages).files.files pid.getTableId :=
  failedFlush_keeps_iff _ (clearCatalog_filed twoPages_tracks.filedById) .flushAllPages

/-- After the catalog was cleared, `flushAllPages` fails and has lost the update of a page. -/
theorem flushAllPages_loses :
    ¬ ∀ (db : LoggedDb) (call : FlushCall), FiledById db → ∀ e db',
      call.run db = .error e db' → KeepsUnwritten db db' := by
  intro hclaim
  have hdirty : ((clearCatalog twoPages).mark (.heap ⟨7, 0⟩)).isSome := by decide
  have hfiled := clearCatalog_filed twoPages_tracks.filedById
  obtain ⟨e, db', ws, q, hrun, hlost⟩ := FlushCall.run_lost hfiled
    (show FlushCall.flushAllPages.Flushes _ (.heap ⟨7, 0⟩) from hdirty)
    (by simp [CatalogFiles.Listed, clearCatalog])
  exact hlost.not_keeps (hclaim _ _ hfiled e db' hrun)

end PagedDb
