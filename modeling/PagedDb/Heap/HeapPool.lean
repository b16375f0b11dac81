import PagedDb.Heap.HeapFile
import PagedDb.Storage.PoolCoherence

/-!
# Heap files behind the buffer pool

Heap files back the pool: a page is read as it was last written and writing it
disturbs no other page, as long as page offsets stay in `int`. How much of a
page survives the round trip depends on the schema, so the backing is built for
any view of pages that does: the rows of integer tables, the bitmap of all.
-/

namespace PagedDb

open Memory Exec WriteBack

namespace HeapFiles

/-- What page traffic leaves alone: the schema and the number of pages of every table. -/
def schema (files : HeapFiles) (tableid : Int32) : Option (TupleDesc × ℕ) :=
  (files.file? tableid).map fun f => (f.td, f.numPages)

end HeapFiles

namespace HeapPage

/-- A part of a page's content that its bytes determine and its encoding keeps. -/
structure View (γ : Type) where
  content : HeapPage → γ
  Schema : TupleDesc → Prop
  congr : ∀ {pageSize td id data data' stack stack'}, Schema td →
    (∀ j < pageSize, data j = data' j) →
    content (ofData pageSize td id data stack) = content (ofData pageSize td id data' stack')
  reload : ∀ {pageSize data fresh stack} {p : HeapPage}, Schema p.td → p.Fits pageSize →
    (∀ j < pageSize, data j = p.getPageData pageSize fresh j) →
    content (ofData pageSize p.td p.pid data stack) = content p

def rowView : View (ℕ → Option Row) where
  content := TuplePage.row?
  Schema := TupleDesc.IntOnly
  congr := fun hint h => congrArg TuplePage.row? (ofData_congr hint h)
  reload := fun hint hfit hdata => ofData_getPageData hfit (roundTrips_of_intOnly hint) hdata

def headerView : View (List UInt8) where
  content := TuplePage.header
  Schema := fun _ => True
  congr := fun _ h => read_header_congr h
  reload := fun _ hfit hdata => ofData_getPageData_header hfit hdata

end HeapPage

namespace HeapFile

/-- The page's number is an index and the page ends below `2 ^ 31`. -/
def InRange (pageSize : ℕ) (id : HeapPageId) : Prop :=
  0 ≤ id.pgNo.toInt ∧ (id.pgNo.toInt + 1) * pageSize ≤ 2147483648

instance (pageSize : ℕ) (id : HeapPageId) : Decidable (InRange pageSize id) :=
  inferInstanceAs (Decidable (_ ∧ _))

theorem pageOffset_eq {pageSize : ℕ} {id : HeapPageId} (h : InRange pageSize id) :
    pageOffset pageSize id = (id.pgNo.toInt.toNat * pageSize : ℕ) := by
  obtain ⟨h₀, hlt⟩ := h
  obtain ⟨n, hn⟩ := Int.eq_ofNat_of_zero_le h₀
  have hbound : n * pageSize + pageSize ≤ 2147483648 := by
    rw [hn, Int.add_mul, Int.one_mul] at hlt
    exact_mod_cast hlt
  have hsize : Int32.size = 2 ^ 32 := rfl
  rw [pageOffset, Int32.toInt_mul, Int32.toInt_ofNat', hn, Int.toNat_natCast, hsize,
    Int.mul_bmod_bmod, ← Int.natCast_mul]
  rcases Nat.eq_zero_or_pos pageSize with rfl | hpos
  · simp
  · exact Int.bmod_eq_of_le_mul_two (by omega) (by omega)

theorem disjoint_pages {pageSize m n i : ℕ} (hmn : m ≠ n) (hi : i < pageSize) :
    m * pageSize + i < n * pageSize ∨ n * pageSize + pageSize ≤ m * pageSize + i := by
  rcases Nat.lt_or_gt_of_ne hmn with hlt | hlt
  · left
    have := Nat.mul_le_mul_right pageSize hlt
    rw [Nat.succ_mul] at this
    omega
  · right
    have := Nat.mul_le_mul_right pageSize hlt
    rw [Nat.succ_mul] at this
    omega

theorem schema_eq_some {files : HeapFiles} {id : Int32} {td : TupleDesc} {n : ℕ}
    (h : files.schema id = some (td, n)) :
    ∃ f, files.file? id = some f ∧ f.tableid = id ∧ f.td = td ∧ f.numPages = n := by
  obtain ⟨f, hf, heq⟩ := Option.map_eq_some_iff.mp h
  cases heq
  exact ⟨f, hf, files.filed id f hf, rfl, rfl⟩

theorem getDatabaseFile_ok {files : HeapFiles} {id : Int32} {f : HeapFile}
    (h : files.file? id = some f) : files.getDatabaseFile id = .ok f := by
  rw [HeapFiles.getDatabaseFile, h]

section Backing

variable {γ : Type} (V : HeapPage.View γ) (pageSize : ℕ)

/-- What the file holds for a page; `none` where the file does not reach that far. -/
def stored (files : HeapFiles) : PageId → Option γ
  | .btree _ => none
  | .heap id =>
    match files.file? id.tableId with
    | none => none
    | some f =>
      let off := id.pgNo.toInt.toNat * pageSize
      if InRange pageSize id ∧ off + pageSize ≤ f.fd.size then
        some (V.content (HeapPage.ofData pageSize f.td id (fun j => f.fd.byte (off + j)) fun _ => 0))
      else none

/-- A page of its table's schema and of the page size in use. -/
structure GoodPage (schema : Int32 → Option (TupleDesc × ℕ)) (p : HeapPage) : Prop where
  schema : ∃ n, schema p.pid.tableId = some (p.td, n)
  viewed : V.Schema p.td
  fits : p.Fits pageSize

def KnownPage (schema : Int32 → Option (TupleDesc × ℕ)) : PageId → Prop
  | .btree _ => False
  | .heap id => ∃ td n, schema id.tableId = some (td, n) ∧ V.Schema td

def WritablePage : PageId → Prop
  | .btree _ => False
  | .heap id => InRange pageSize id

variable {V pageSize} {files : HeapFiles}

theorem readPage_ok (pageSize : ℕ) {pid : PageId} (ref : Ref)
    (hknown : KnownPage V files.schema pid) :
    ∃ p, readPage files pageSize pid ref = .ok p ∧ .heap p.pid = pid ∧
      GoodPage V pageSize files.schema p ∧
      ∀ c, stored V pageSize files pid = some c → V.content p = c := by
  cases pid with
  | btree id => exact hknown.elim
  | heap id =>
    obtain ⟨td, n, hschema, hview⟩ := hknown
    obtain ⟨f, hf, hid, rfl, rfl⟩ := schema_eq_some hschema
    let data := f.fd.pread (files.heap ref) pageSize (pageOffset pageSize id)
    refine ⟨HeapPage.ofData pageSize f.td id data (files.stack ref), ?_, rfl, ⟨⟨_, hschema⟩, hview,
      HeapPage.ofData_fits _ _ _ _ _⟩, ?_⟩
    · change (files.getDatabaseFile id.tableId >>= _) = _
      rw [getDatabaseFile_ok hf]
      rfl
    · intro c hc
      simp only [stored, hf] at hc
      split at hc
      · rename_i hin
        cases hc
        apply V.congr hview
        intro j hj
        change f.fd.pread _ _ (pageOffset pageSize id) j = _
        rw [pageOffset_eq hin.1]
        exact File.pread_eq hj hin.2
      · cases hc

/-- Writing a page stores its content and leaves what the files hold for other pages alone. -/
theorem writePage_ok {p : HeapPage} (hgood : GoodPage V pageSize files.schema p)
    (hin : InRange pageSize p.pid) :
    ∃ files', writePage files pageSize p.pid.tableId p = .ok files' ∧
      files'.schema = files.schema ∧ stored V pageSize files' (.heap p.pid) = some (V.content p) ∧
      ∀ j, j ≠ .heap p.pid → ∀ d, stored V pageSize files j = some d →
        stored V pageSize files' j = some d := by
  obtain ⟨n, hschema⟩ := hgood.schema
  obtain ⟨f, hf, hid, htd, rfl⟩ := schema_eq_some hschema
  let off := p.pid.pgNo.toInt.toNat * pageSize
  let data := p.getPageData pageSize files.scratch
  let f' : HeapFile := { f with fd := f.fd.put data pageSize off }
  have hf' : (files.setFile f').file? p.pid.tableId = some f' := by
    rw [← hid]
    exact HeapFiles.setFile_self files f'
  have hother : ∀ id, id ≠ p.pid.tableId → (files.setFile f').file? id = files.file? id := by
    intro id hne
    exact HeapFiles.setFile_ne files f' (by rwa [hid])
  refine ⟨files.setFile f', ?_, ?_, ?_, ?_⟩
  · change (files.getDatabaseFile p.pid.tableId >>= _) = _
    rw [getDatabaseFile_ok hf]
    change Except.ok (files.setFile { f with fd := f.fd.pwrite data pageSize _ }) = _
    rw [pageOffset_eq hin, File.pwrite, if_neg (by omega)]
    rfl
  · funext id
    unfold HeapFiles.schema
    rcases eq_or_ne id p.pid.tableId with rfl | hne
    · rw [hf', hf]
      rfl
    · rw [hother id hne]
  · have hsize : off + pageSize ≤ f'.fd.size := Nat.le_max_right _ _
    simp only [stored, hf']
    rw [if_pos ⟨hin, hsize⟩, show f'.td = p.td from htd]
    congr 1
    have hdata : ∀ j < pageSize, f'.fd.byte (off + j) = p.getPageData pageSize files.scratch j :=
      fun j hj => File.put_byte_inside hj
    exact V.reload hgood.viewed hgood.fits hdata
  · intro j hj d hd
    cases j with
    | btree id => exact absurd hd (by simp [stored])
    | heap id =>
      rcases eq_or_ne id.tableId p.pid.tableId with htable | hne
      · -- another page of the same file: the write lies before or after it
        have hpg : id.pgNo.toInt ≠ p.pid.pgNo.toInt := by
          intro heq
          apply hj
          obtain ⟨t, n⟩ := id
          obtain rfl := Int32.toInt_inj.mp heq
          obtain rfl := htable
          rfl
        simp only [stored, htable, hf] at hd
        simp only [stored, htable, hf']
        split at hd
        · rename_i h
          have hnum : id.pgNo.toInt.toNat ≠ p.pid.pgNo.toInt.toNat := by
            have := h.1.1
            have := hin.1
            omega
          rw [if_pos ⟨h.1, le_trans h.2 (Nat.le_max_left _ _)⟩, ← hd]
          congr 1
          apply V.congr (htd ▸ hgood.viewed)
          intro i hi
          exact File.put_byte_outside (disjoint_pages hnum hi)
        · cases hd
      · simp only [stored, hother _ hne]
        exact hd

/-- Heap files back the pool. -/
def backing (V : HeapPage.View γ) (pageSize : ℕ) :
    Backing HeapPage HeapFiles γ (Int32 → Option (TupleDesc × ℕ)) where
  pageSize := pageSize
  content := V.content
  info := HeapFiles.schema
  disk := stored V pageSize
  Good := GoodPage V pageSize
  Known := KnownPage V
  Writable := fun _ => WritablePage pageSize
  read_ok := fun _ _ ref hknown => readPage_ok pageSize ref hknown
  write_ok := fun _ _ hgood hw => writePage_ok hgood hw

end Backing

end HeapFile

end PagedDb
