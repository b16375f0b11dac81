import PagedDb.Foundation.WriteBack
import PagedDb.Storage.BufferPool

/-!
# The buffer pool is a write-back cache

Seen through what pages contain, the pool over its files is a write-back store.
`Backing` lists what the pool relies on in the files; from it, getting, flushing
and evicting pages keep the pool serving and never change what a reader sees.
-/

namespace PagedDb

open Exec WriteBack

variable {π δ γ μ : Type}

/-- What the pool relies on: `info` is the part of the files that page traffic leaves alone,
and `disk` is the content the files hold for a page id. -/
structure Backing (π δ γ μ : Type) [PageFile π δ] where
  pageSize : ℕ
  content : π → γ
  info : δ → μ
  disk : δ → PageId → Option γ
  Good : μ → π → Prop
  Known : μ → PageId → Prop
  Writable : μ → PageId → Prop
  read_ok : ∀ files pid ref, Known (info files) pid →
    ∃ p, PageFile.readPage files pageSize pid ref = .ok p ∧ PageFile.getId δ p = pid ∧
      Good (info files) p ∧ ∀ c, disk files pid = some c → content p = c
  write_ok : ∀ files p, Good (info files) p → Writable (info files) (PageFile.getId δ p) →
    ∃ files', PageFile.writePage files pageSize (PageFile.getId δ p).getTableId p = .ok files' ∧
      info files' = info files ∧ disk files' (PageFile.getId δ p) = some (content p) ∧
      ∀ j, j ≠ PageFile.getId δ p → ∀ d, disk files j = some d → disk files' j = some d

variable [PageFile π δ]

def Database.store (B : Backing π δ γ μ) (db : Database π δ) : Store PageId γ where
  cache pid := (db.object? pid).map fun obj => (B.content obj.page, obj.dirty.isSome)
  disk := B.disk db.files

/-- The pool is in order: every entry leads to a good page filed under its own id, there is
room for the entries, and reading and writing back are coherent on the live pages. -/
structure Serving (B : Backing π δ γ μ) (live : Set PageId) (db : Database π δ) : Prop where
  pageSize : db.pageSize = B.pageSize
  entry : ∀ pid ref, db.pages.lookup pid = some ref → ∃ obj, db.objects[ref]? = some obj ∧
    PageFile.getId δ obj.page = pid ∧ B.Good (B.info db.files) obj.page
  capacity : db.pages.keys.length ≤ db.numPages
  coherent : Coherent live (db.store B)
  writable : ∀ pid ∈ live, B.Writable (B.info db.files) pid

/-- Page traffic that a reader does not notice. Page objects keep their page, those that are
not resident keep all they have, and no old object becomes resident. -/
structure Quiet (B : Backing π δ γ μ) (live : Set PageId) (db db' : Database π δ) : Prop where
  view : SameView live (db.store B) (db'.store B)
  info : B.info db'.files = B.info db.files
  numPages : db'.numPages = db.numPages
  objects : ∀ (ref : Ref) (obj : PageObject π), db.objects[ref]? = some obj →
    ∃ obj' : PageObject π, db'.objects[ref]? = some obj' ∧ obj'.page = obj.page ∧
      ((∃ pid, db.pages.lookup pid = some ref) ∨ obj' = obj)
  entries : ∀ pid ref, db'.pages.lookup pid = some ref → ref < db.objects.length →
    db.pages.lookup pid = some ref

variable {B : Backing π δ γ μ} {live : Set PageId} {db db' db'' : Database π δ}

theorem Quiet.refl (B : Backing π δ γ μ) (live : Set PageId) (db : Database π δ) :
    Quiet B live db db :=
  ⟨SameView.refl _ _, rfl, rfl, fun _ obj h => ⟨obj, h, rfl, .inr rfl⟩, fun _ _ h _ => h⟩

theorem Quiet.length_le (h : Quiet B live db db') : db.objects.length ≤ db'.objects.length := by
  by_contra hlt
  have hlast := List.getElem?_eq_getElem (Nat.lt_of_not_le hlt)
  obtain ⟨obj', hobj', -⟩ := h.objects _ _ hlast
  exact absurd (List.getElem?_eq_some_iff.mp hobj').1 (lt_irrefl _)

theorem Quiet.trans (h : Quiet B live db db') (h' : Quiet B live db' db'') :
    Quiet B live db db'' where
  view := h.view.trans h'.view
  info := h'.info.trans h.info
  numPages := h'.numPages.trans h.numPages
  objects := by
    intro ref obj hobj
    obtain ⟨obj', hobj', hpage, hstray⟩ := h.objects ref obj hobj
    obtain ⟨obj'', hobj'', hpage', hstray'⟩ := h'.objects ref obj' hobj'
    refine ⟨obj'', hobj'', hpage'.trans hpage, ?_⟩
    rcases hstray' with ⟨pid, hpid⟩ | rfl
    · exact .inl ⟨pid, h.entries pid ref hpid (List.getElem?_eq_some_iff.mp hobj).1⟩
    · exact hstray
  entries := by
    intro pid ref hl hlt
    exact h.entries pid ref (h'.entries pid ref hl (lt_of_lt_of_le hlt h.length_le)) hlt

theorem Serving.ref_inj (h : Serving B live db) {pid pid' : PageId} {ref : Ref}
    (hl : db.pages.lookup pid = some ref) (hl' : db.pages.lookup pid' = some ref) : pid = pid' := by
  obtain ⟨obj, hobj, hid, -⟩ := h.entry pid ref hl
  obtain ⟨obj', hobj', hid', -⟩ := h.entry pid' ref hl'
  obtain rfl : obj = obj' := Option.some.inj (hobj.symm.trans hobj')
  exact hid.symm.trans hid'

theorem Serving.object (h : Serving B live db) {pid : PageId} {ref : Ref}
    (hl : db.pages.lookup pid = some ref) :
    ∃ obj, db.objects[ref]? = some obj ∧ db.object? pid = some obj ∧
      PageFile.getId δ obj.page = pid ∧ B.Good (B.info db.files) obj.page := by
  obtain ⟨obj, hobj, hid, hgood⟩ := h.entry pid ref hl
  exact ⟨obj, hobj, Database.object?_of_lookup hl hobj, hid, hgood⟩

namespace BufferPool

/-- Write-back of a dirty page: the page is clean afterwards and on disk. -/
theorem flushPage_dirty (h : Serving B live db) {pid : PageId} {ref : Ref} {obj : PageObject π}
    (hl : db.pages.lookup pid = some ref) (hobj : db.objects[ref]? = some obj)
    (hd : obj.dirty.isSome = true) :
    ∃ db', flushPage pid db = .ok () db' ∧ Serving B live db' ∧ Quiet B live db db' ∧
      db'.pages = db.pages ∧ (db'.store B).cache pid = some (B.content obj.page, false) ∧
      ∀ j, j ≠ pid → (db'.store B).cache j = (db.store B).cache j := by
  obtain ⟨obj', hobj', hobj?, hid, hgood⟩ := h.object hl
  obtain rfl : obj = obj' := Option.some.inj (hobj.symm.trans hobj')
  have hcache : (db.store B).cache pid = some (B.content obj.page, true) := by
    simp [Database.store, hobj?, hd]
  have hlive := h.coherent.live_of_dirty hcache
  obtain ⟨files', hwrite, hinfo, hdisk, hframe⟩ :=
    B.write_ok db.files obj.page hgood (hid ▸ h.writable pid hlive)
  rw [hid, ← h.pageSize] at hwrite
  rw [hid] at hdisk hframe
  let db₁ := db.setObject ref { obj with dirty := none }
  let db₂ : Database π δ := { db₁ with files := files' }
  have hrun : flushPage pid db = .ok () db₂ := by
    rw [flushPage, bind_ok (get_run db), hl]
    simp only
    rw [bind_ok (deref_run hobj), if_pos hd, bind_ok (markDirty_run hobj none),
      bind_ok (lift_run hwrite _)]
    rfl
  have hself : (db₂.store B).cache pid = some (B.content obj.page, false) := by
    have : db₂.object? pid = some { obj with dirty := none } :=
      Database.object?_of_lookup hl (Database.setObject_self hobj)
    simp [Database.store, this]
  have hother : ∀ j, j ≠ pid → (db₂.store B).cache j = (db.store B).cache j := by
    intro j hj
    have : db₂.object? j = db.object? j := by
      unfold Database.object?
      change (db.pages.lookup j).bind _ = _
      cases hlj : db.pages.lookup j with
      | none => rfl
      | some ref' =>
        have hne : ref ≠ ref' := by
          rintro rfl
          exact hj (h.ref_inj hlj hl)
        exact Database.setObject_ne hne
    simp [Database.store, this]
  obtain ⟨hcoh, hview⟩ := h.coherent.flush (t := db₂.store B) hcache hother hself hdisk
    fun j _ hj => hframe j hj
  refine ⟨db₂, hrun, ⟨h.pageSize, ?_, h.capacity, hcoh, ?_⟩,
    ⟨hview, hinfo, rfl, ?_, fun _ _ hl _ => hl⟩, rfl, hself, hother⟩
  · intro j ref' hlj
    obtain ⟨o, ho, hoid, hogood⟩ := h.entry j ref' hlj
    rw [← hinfo] at hogood
    rcases eq_or_ne ref ref' with rfl | hne
    · obtain rfl : obj = o := Option.some.inj (hobj.symm.trans ho)
      exact ⟨_, Database.setObject_self hobj, hoid, hogood⟩
    · exact ⟨o, (Database.setObject_ne hne).trans ho, hoid, hogood⟩
  · intro j hj
    change B.Writable (B.info files') j
    rw [hinfo]
    exact h.writable j hj
  · intro ref' o ho
    rcases eq_or_ne ref ref' with rfl | hne
    · obtain rfl : obj = o := Option.some.inj (hobj.symm.trans ho)
      exact ⟨_, Database.setObject_self hobj, rfl, .inl ⟨pid, hl⟩⟩
    · exact ⟨o, (Database.setObject_ne hne).trans ho, rfl, .inr rfl⟩

/-- `flushPage` on any id: nothing changes for a reader, and the page ends clean. -/
theorem flushPage_spec (h : Serving B live db) (pid : PageId) :
    ∃ db', flushPage pid db = .ok () db' ∧ Serving B live db' ∧ Quiet B live db db' ∧
      db'.pages = db.pages ∧
      ∀ j c, (db'.store B).cache j = some (c, true) →
        j ≠ pid ∧ (db.store B).cache j = some (c, true) := by
  cases hl : db.pages.lookup pid with
  | none =>
    refine ⟨db, ?_, h, Quiet.refl B live db, rfl, ?_⟩
    · rw [flushPage, bind_ok (get_run db), hl]
      rfl
    · rintro j c hj
      refine ⟨?_, hj⟩
      rintro rfl
      simp [Database.store, Database.object?_eq_none hl] at hj
  | some ref =>
    obtain ⟨obj, hobj, hobj?, -, -⟩ := h.object hl
    cases hd : obj.dirty.isSome with
    | false =>
      refine ⟨db, ?_, h, Quiet.refl B live db, rfl, ?_⟩
      · rw [flushPage, bind_ok (get_run db), hl]
        simp only
        rw [bind_ok (deref_run hobj), if_neg (by simp [hd])]
        rfl
      · rintro j c hj
        refine ⟨?_, hj⟩
        rintro rfl
        simp [Database.store, hobj?, hd] at hj
    | true =>
      obtain ⟨db', hrun, hserving, hquiet, hpages, hself, hother⟩ := flushPage_dirty h hl hobj hd
      refine ⟨db', hrun, hserving, hquiet, hpages, ?_⟩
      intro j c hj
      have hne : j ≠ pid := by
        rintro rfl
        rw [hself] at hj
        cases hj
      exact ⟨hne, by rw [← hother j hne, hj]⟩

theorem flushList_spec (h : Serving B live db) (ks : List PageId) :
    ∃ db', ks.forM flushPage db = .ok ⟨⟩ db' ∧ Serving B live db' ∧ Quiet B live db db' ∧
      db'.pages = db.pages ∧
      ∀ j c, (db'.store B).cache j = some (c, true) →
        j ∉ ks ∧ (db.store B).cache j = some (c, true) := by
  induction ks generalizing db with
  | nil => exact ⟨db, rfl, h, Quiet.refl B live db, rfl, fun j c hj => ⟨List.not_mem_nil, hj⟩⟩
  | cons k ks ih =>
    obtain ⟨db₁, hrun₁, h₁, hquiet₁, hpages₁, hclean₁⟩ := flushPage_spec h k
    obtain ⟨db₂, hrun₂, h₂, hquiet₂, hpages₂, hclean₂⟩ := ih h₁
    refine ⟨db₂, ?_, h₂, hquiet₁.trans hquiet₂, hpages₂.trans hpages₁, ?_⟩
    · change (flushPage k >>= fun _ => ks.forM flushPage) db = _
      rw [bind_ok hrun₁]
      exact hrun₂
    · intro j c hj
      obtain ⟨hks, hj₁⟩ := hclean₂ j c hj
      obtain ⟨hk, hj₀⟩ := hclean₁ j c hj₁
      exact ⟨List.not_mem_cons_of_ne_of_not_mem hk hks, hj₀⟩

/-- After `flushAllPages` nothing is dirty, so the files alone show every live page. -/
theorem flushAllPages_spec (h : Serving B live db) :
    ∃ db', flushAllPages db = .ok () db' ∧ Serving B live db' ∧ Quiet B live db db' ∧
      db'.pages = db.pages ∧ ∀ j c, (db'.store B).cache j ≠ some (c, true) := by
  obtain ⟨db', hrun, h', hquiet, hpages, hclean⟩ := flushList_spec h db.pages.keys
  refine ⟨db', ?_, h', hquiet, hpages, ?_⟩
  · rw [flushAllPages, bind_ok (get_run db)]
    exact hrun
  · intro j c hj
    obtain ⟨hkeys, hcache⟩ := hclean j c hj
    apply hkeys
    rw [← AList.mem_keys, ← AList.lookup_isSome]
    cases hl : db.pages.lookup j with
    | none => simp [Database.store, Database.object?_eq_none hl] at hcache
    | some ref => rfl

theorem flushPages_spec (h : Serving B live db) (tid : TransactionId) :
    ∃ db', flushPages tid db = .ok ⟨⟩ db' ∧ Serving B live db' ∧ Quiet B live db db' ∧
      db'.pages = db.pages := by
  have hstep : ∀ item ∈ db.pages.entries, ∀ s,
      (Serving B live s ∧ Quiet B live db s ∧ s.pages = db.pages) →
      ∃ s', (do
          let obj ← deref item.2
          if obj.dirty = some tid then flushPage item.1 else pure ()) s = .ok ⟨⟩ s' ∧
        (Serving B live s' ∧ Quiet B live db s' ∧ s'.pages = db.pages) := by
    rintro ⟨pid, ref⟩ hitem s ⟨hs, hquiet, hpages⟩
    have hl : s.pages.lookup pid = some ref := by
      rw [hpages]
      exact AList.mem_lookup_iff.mpr hitem
    obtain ⟨obj, hobj, -⟩ := hs.entry pid ref hl
    rw [bind_ok (deref_run hobj)]
    split
    · obtain ⟨s', hrun, hs', hquiet', hpages', -⟩ := flushPage_spec hs pid
      exact ⟨s', hrun, hs', hquiet.trans hquiet', hpages'.trans hpages⟩
    · exact ⟨s, rfl, hs, hquiet, hpages⟩
  obtain ⟨db', hrun, h'⟩ := forM_invariant hstep ⟨h, Quiet.refl B live db, rfl⟩
  refine ⟨db', ?_, h'⟩
  rw [flushPages, bind_ok (get_run db)]
  exact hrun

/-- Evicting from a non-empty pool frees one entry, whichever the map's order offers. -/
theorem evictPage_spec (h : Serving B live db) (hne : db.pages.keys ≠ []) :
    ∃ db' victim, evictPage db = .ok () db' ∧ Serving B live db' ∧ Quiet B live db db' ∧
      victim ∈ db.pages.keys ∧ db'.pages = db.pages.erase victim := by
  have hpos : 0 < db.pages.keys.length := List.length_pos_iff.mpr hne
  have hidx : db.order 0 % db.pages.keys.length < db.pages.keys.length := Nat.mod_lt _ hpos
  let victim := db.pages.keys[db.order 0 % db.pages.keys.length]
  let db₀ : Database π δ := { db with order := fun n => db.order (n + 1) }
  have h₀ : Serving B live db₀ := ⟨h.pageSize, h.entry, h.capacity, h.coherent, h.writable⟩
  obtain ⟨db₁, hrun, h₁, hquiet, hpages, hclean⟩ := flushPage_spec h₀ victim
  let db₂ : Database π δ := { db₁ with pages := db₁.pages.erase victim }
  have hother : ∀ j, j ≠ victim → (db₂.store B).cache j = (db₁.store B).cache j := by
    intro j hj
    have : db₂.pages.lookup j = db₁.pages.lookup j := AList.lookup_erase_ne hj
    simp only [Database.store, Database.object?, this]
    rfl
  have hself : (db₂.store B).cache victim = none := by
    have : db₂.pages.lookup victim = none := AList.lookup_erase victim db₁.pages
    simp [Database.store, Database.object?_eq_none this]
  obtain ⟨hcoh, hview⟩ := h₁.coherent.drop (t := db₂.store B)
    (fun c hc => (hclean victim c hc).1 rfl) hother rfl hself
  refine ⟨db₂, victim, ?_, ⟨h₁.pageSize, ?_, ?_, hcoh, h₁.writable⟩,
    ⟨hquiet.view.trans hview, hquiet.info, hquiet.numPages, hquiet.objects, ?_⟩, ?_, ?_⟩
  · rw [evictPage, bind_ok (get_run db), List.getElem?_eq_getElem hidx]
    simp only
    rw [bind_ok (modify_run _ db), bind_ok hrun]
    rfl
  · intro pid ref hl
    rcases eq_or_ne pid victim with rfl | hpid
    · rw [AList.lookup_erase] at hl
      cases hl
    · rw [AList.lookup_erase_ne hpid] at hl
      exact h₁.entry pid ref hl
  · change (db₁.pages.erase victim).keys.length ≤ db₁.numPages
    rw [AList.keys_erase]
    exact le_trans (List.length_erase_le) h₁.capacity
  · intro pid ref hl hlt
    rcases eq_or_ne pid victim with rfl | hpid
    · rw [AList.lookup_erase] at hl
      cases hl
    · rw [AList.lookup_erase_ne hpid] at hl
      exact hquiet.entries pid ref hl hlt
  · exact List.getElem_mem hidx
  · change db₁.pages.erase victim = _
    rw [hpages]

theorem erase_length {pages : PagesMap} {victim : PageId} (h : victim ∈ pages.keys) :
    (pages.erase victim).keys.length + 1 = pages.keys.length := by
  have hpos := List.length_pos_of_mem h
  rw [AList.keys_erase, List.length_erase_of_mem h]
  omega

theorem getPage_resident {pid : PageId} {ref : Ref} (hl : db.pages.lookup pid = some ref) :
    getPage pid db = .ok ref db := by
  rw [getPage, bind_ok (get_run db), hl]
  rfl

theorem evictIf_spec (h : Serving B live db) (hcap : 1 ≤ db.numPages) {pid : PageId}
    (hl : db.pages.lookup pid = none) {full : Prop} [Decidable full]
    (hfull : full ↔ db.numPages ≤ db.pages.keys.length) :
    ∃ db', evictIf full db = .ok () db' ∧ Serving B live db' ∧ Quiet B live db db' ∧
      db'.pages.lookup pid = none ∧ db'.pages.keys.length < db'.numPages := by
  unfold evictIf
  split
  · rename_i hf
    have hlen := hfull.mp hf
    have hne : db.pages.keys ≠ [] := by
      intro hnil
      rw [hnil] at hlen
      exact absurd (le_trans hcap hlen) (by simp)
    obtain ⟨db', victim, hrun, h', hquiet, hmem, hpages⟩ := evictPage_spec h hne
    have hroom := erase_length hmem
    have hle := h.capacity
    refine ⟨db', hrun, h', hquiet, ?_, by rw [hpages, hquiet.numPages]; omega⟩
    have hpid : pid ≠ victim := by
      rintro rfl
      rw [← AList.mem_keys, ← AList.lookup_isSome, hl] at hmem
      cases hmem
    rw [hpages, AList.lookup_erase_ne hpid, hl]
  · rename_i hf
    exact ⟨db, rfl, h, Quiet.refl B live db, hl, Nat.lt_of_not_le fun hle => hf (hfull.mpr hle)⟩

theorem loadPage_spec (h : Serving B live db) {pid : PageId} (hl : db.pages.lookup pid = none)
    (hroom : db.pages.keys.length < db.numPages) (hknown : B.Known (B.info db.files) pid) :
    ∃ db' ref, loadPage pid db = .ok ref db' ∧ Serving B live db' ∧ Quiet B live db db' ∧
      db'.pages.lookup pid = some ref := by
  obtain ⟨p, hread, hid, hgood, hcontent⟩ := B.read_ok db.files pid db.objects.length hknown
  rw [← h.pageSize] at hread
  let ref := db.objects.length
  let db' : Database π δ :=
    { db with objects := db.objects ++ [⟨p, none⟩], pages := db.pages.insert pid ref }
  have hnew : db'.objects[ref]? = some ⟨p, none⟩ := List.getElem?_concat_length
  have hold : ∀ (r : Ref) o, db.objects[r]? = some o → db'.objects[r]? = some o := by
    intro r o ho
    exact (List.getElem?_append_left (List.getElem?_eq_some_iff.mp ho).1).trans ho
  have hl' : db'.pages.lookup pid = some ref := AList.lookup_insert db.pages
  have hl_ne : ∀ j, j ≠ pid → db'.pages.lookup j = db.pages.lookup j :=
    fun j hj => AList.lookup_insert_ne hj
  have hother : ∀ j, j ≠ pid → (db'.store B).cache j = (db.store B).cache j := by
    intro j hj
    cases hr : db.pages.lookup j with
    | none =>
      have hr' := (hl_ne j hj).trans hr
      simp [Database.store, Database.object?_eq_none hr', Database.object?_eq_none hr]
    | some r =>
      have hr' := (hl_ne j hj).trans hr
      obtain ⟨o, ho, ho?, -⟩ := h.object hr
      simp [Database.store, Database.object?_of_lookup hr' (hold r o ho), ho?]
  have hself : (db'.store B).cache pid = some (B.content p, false) := by
    simp [Database.store, Database.object?_of_lookup hl' hnew]
  have habsent : (db.store B).cache pid = none := by
    simp [Database.store, Database.object?_eq_none hl]
  have hstored : pid ∈ live → (db.store B).disk pid = some (B.content p) := by
    intro hpid
    obtain ⟨c, hc⟩ := h.coherent.view_isSome hpid
    rw [h.coherent.view_eq_disk hpid fun c => by simp [habsent]] at hc
    rw [hcontent c hc, hc]
  obtain ⟨hcoh, hview⟩ := h.coherent.load (t := db'.store B) habsent hother rfl hself hstored
  refine ⟨db', ref, ?_, ⟨h.pageSize, ?_, ?_, hcoh, h.writable⟩,
    ⟨hview, rfl, rfl, fun r o ho => ⟨o, hold r o ho, rfl, .inr rfl⟩, ?_⟩, hl'⟩
  · rw [loadPage, bind_ok (get_run db), bind_ok (lift_run hread db)]
    rfl
  · intro j r hlj
    rcases eq_or_ne j pid with rfl | hj
    · obtain rfl : ref = r := Option.some.inj (hl'.symm.trans hlj)
      exact ⟨_, hnew, hid, hgood⟩
    · rw [hl_ne j hj] at hlj
      obtain ⟨o, ho, hoid, hogood⟩ := h.entry j r hlj
      exact ⟨o, hold r o ho, hoid, hogood⟩
  · change (db.pages.insert pid ref).keys.length ≤ db.numPages
    have hnot : pid ∉ db.pages.keys := by
      rw [← AList.mem_keys, ← AList.lookup_isSome, hl]
      simp
    rw [AList.keys_insert, List.length_cons, List.erase_of_not_mem hnot]
    exact hroom
  · intro j r hlj hlt
    rcases eq_or_ne j pid with rfl | hj
    · obtain rfl : ref = r := Option.some.inj (hl'.symm.trans hlj)
      exact absurd hlt (lt_irrefl _)
    · rwa [hl_ne j hj] at hlj

/-- `getPage` delivers the object of the page asked for, and no reader notices. -/
theorem getPage_spec (h : Serving B live db) (hcap : 1 ≤ db.numPages) {pid : PageId}
    (hknown : B.Known (B.info db.files) pid) :
    ∃ db' ref, getPage pid db = .ok ref db' ∧ Serving B live db' ∧ Quiet B live db db' ∧
      db'.pages.lookup pid = some ref := by
  cases hl : db.pages.lookup pid with
  | some ref =>
    exact ⟨db, ref, getPage_resident hl, h, Quiet.refl B live db, hl⟩
  | none =>
    obtain ⟨db₁, hrun₁, h₁, hquiet₁, hl₁, hroom⟩ := evictIf_spec h hcap hl Iff.rfl
    obtain ⟨db₂, ref, hrun₂, h₂, hquiet₂, hl₂⟩ :=
      loadPage_spec h₁ hl₁ hroom (by rwa [hquiet₁.info])
    refine ⟨db₂, ref, ?_, h₂, hquiet₁.trans hquiet₂, hl₂⟩
    rw [getPage, bind_ok (get_run db), hl]
    simp only
    rw [bind_ok hrun₁, hrun₂]

/-- What `insertTuple` does with a page it has changed: the object `obj` under `ref`, marked
dirty, is filed under the page's id, which is live from then on. -/
theorem install_spec (h : Serving B live db) {pid : PageId} {ref : Ref} {obj : PageObject π}
    {objects : List (PageObject π)} (hobj : objects[ref]? = some obj)
    (hframe : ∀ (r : Ref) o, r ≠ ref → db.objects[r]? = some o → objects[r]? = some o)
    (hown : ∀ j, db.pages.lookup j = some ref → j = pid) (hdirty : obj.dirty.isSome = true)
    (hid : PageFile.getId δ obj.page = pid) (hgood : B.Good (B.info db.files) obj.page)
    (hroom : (∃ r, db.pages.lookup pid = some r) ∨ db.pages.keys.length < db.numPages)
    {db' : Database π δ} (hdb' : db' = { db with objects, pages := db.pages.insert pid ref }) :
    (B.Writable (B.info db.files) pid → Serving B (insert pid live) db') ∧
      (db'.store B).view pid = some (B.content obj.page) ∧
      (∀ j ∈ live, j ≠ pid → (db'.store B).view j = (db.store B).view j) ∧
      db'.object? pid = some obj := by
  subst hdb'
  set db' : Database π δ := { db with objects, pages := db.pages.insert pid ref }
  have hl' : db'.pages.lookup pid = some ref := AList.lookup_insert db.pages
  have hl_ne : ∀ j, j ≠ pid → db'.pages.lookup j = db.pages.lookup j :=
    fun j hj => AList.lookup_insert_ne hj
  have hobj' : db'.object? pid = some obj := Database.object?_of_lookup hl' hobj
  have hold : ∀ j r, j ≠ pid → db.pages.lookup j = some r →
      ∃ o, objects[r]? = some o ∧ db.objects[r]? = some o ∧ db.object? j = some o ∧
        PageFile.getId δ o.page = j ∧ B.Good (B.info db.files) o.page := by
    intro j r hj hr
    obtain ⟨o, ho, ho?, hoid, hogood⟩ := h.object hr
    have hne : r ≠ ref := by
      rintro rfl
      exact hj (hown j hr)
    exact ⟨o, hframe r o hne ho, ho, ho?, hoid, hogood⟩
  have hother : ∀ j, j ≠ pid → (db'.store B).cache j = (db.store B).cache j := by
    intro j hj
    cases hr : db.pages.lookup j with
    | none =>
      have hr' := (hl_ne j hj).trans hr
      simp [Database.store, Database.object?_eq_none hr', Database.object?_eq_none hr]
    | some r =>
      have hr' := (hl_ne j hj).trans hr
      obtain ⟨o, ho, -, ho?, -⟩ := hold j r hj hr
      simp [Database.store, Database.object?_of_lookup hr' ho, ho?]
  have hself : (db'.store B).cache pid = some (B.content obj.page, true) := by
    simp [Database.store, hobj', hdirty]
  obtain ⟨hcoh, hview, hviews⟩ := h.coherent.write (t := db'.store B) hother rfl hself
  refine ⟨fun hwritable => ⟨h.pageSize, ?_, ?_, hcoh, ?_⟩, hview, hviews, hobj'⟩
  · intro j r hlj
    rcases eq_or_ne j pid with rfl | hj
    · obtain rfl : ref = r := Option.some.inj (hl'.symm.trans hlj)
      exact ⟨obj, hobj, hid, hgood⟩
    · rw [hl_ne j hj] at hlj
      obtain ⟨o, ho, -, -, hoid, hogood⟩ := hold j r hj hlj
      exact ⟨o, ho, hoid, hogood⟩
  · change (db.pages.insert pid ref).keys.length ≤ db.numPages
    rw [AList.keys_insert, List.length_cons]
    rcases hroom with ⟨r, hr⟩ | hlt
    · have hmem : pid ∈ db.pages.keys := by
        rw [← AList.mem_keys, ← AList.lookup_isSome, hr]
        rfl
      have hcap := h.capacity
      have hpos := List.length_pos_of_mem hmem
      rw [List.length_erase_of_mem hmem]
      omega
    · exact lt_of_le_of_lt List.length_erase_le hlt
  · intro j hj
    rcases hj with rfl | hj
    · exact hwritable
    · exact h.writable j hj

theorem registerDirty_run {ref : Ref} {obj : PageObject π} {tid : TransactionId}
    (hobj : db.objects[ref]? = some obj)
    (hevict : evictIf (db.numPages ≤ db.pages.keys.length ∧
        db.pages.lookup (PageFile.getId δ obj.page) = none)
      (db.setObject ref { obj with dirty := some tid }) = .ok () db') :
    registerDirty tid ref db =
      .ok () { db' with pages := db'.pages.insert (PageFile.getId δ obj.page) ref } := by
  rw [registerDirty, bind_ok (markDirty_run hobj (some tid)),
    bind_ok (deref_run (Database.setObject_self hobj)), bind_ok (get_run _)]
  change (evictIf (db.numPages ≤ db.pages.keys.length ∧
    db.pages.lookup (PageFile.getId δ obj.page) = none) >>= _) _ = _
  rw [bind_ok hevict]
  rfl

/-- An object no id leads to can change without anyone noticing. -/
theorem setObject_stray (h : Serving B live db) {ref : Ref}
    (hstray : ∀ pid, db.pages.lookup pid ≠ some ref) (obj : PageObject π) :
    Serving B live (db.setObject ref obj) ∧ (db.setObject ref obj).store B = db.store B := by
  have hsame : ∀ pid r, db.pages.lookup pid = some r →
      (db.setObject ref obj).objects[r]? = db.objects[r]? := by
    intro pid r hr
    apply Database.setObject_ne
    rintro rfl
    exact hstray pid hr
  have hstore : (db.setObject ref obj).store B = db.store B := by
    have hcache : ∀ pid, (db.setObject ref obj).object? pid = db.object? pid := by
      intro pid
      unfold Database.object?
      change (db.pages.lookup pid).bind _ = _
      cases hr : db.pages.lookup pid with
      | none => rfl
      | some r => exact hsame pid r hr
    unfold Database.store
    simp only [hcache]
    rfl
  refine ⟨⟨h.pageSize, ?_, h.capacity, ?_, h.writable⟩, hstore⟩
  · intro pid r hr
    obtain ⟨o, ho, hrest⟩ := h.entry pid r hr
    exact ⟨o, (hsame pid r hr).trans ho, hrest⟩
  · rw [hstore]
    exact h.coherent

/-- Registering a page object that is not resident: room is made, then it is filed. -/
theorem registerDirty_stray (h : Serving B live db) (hcap : 1 ≤ db.numPages) {ref : Ref}
    {obj : PageObject π} {pid : PageId} (hobj : db.objects[ref]? = some obj)
    (hid : PageFile.getId δ obj.page = pid) (hstray : ∀ j, db.pages.lookup j ≠ some ref)
    (hgood : B.Good (B.info db.files) obj.page) (tid : TransactionId) :
    ∃ db', registerDirty tid ref db = .ok () db' ∧
      (B.Writable (B.info db.files) pid → Serving B (insert pid live) db') ∧
      B.info db'.files = B.info db.files ∧ db'.numPages = db.numPages ∧
      db'.pageSize = db.pageSize ∧ (db'.store B).view pid = some (B.content obj.page) ∧
      (∀ j ∈ live, j ≠ pid → (db'.store B).view j = (db.store B).view j) ∧
      db'.object? pid = some { obj with dirty := some tid } := by
  subst hid
  obtain ⟨h₁, hstore₁⟩ := setObject_stray h hstray { obj with dirty := some tid }
  let db₁ := db.setObject ref { obj with dirty := some tid }
  have hobj₁ : db₁.objects[ref]? = some { obj with dirty := some tid } :=
    Database.setObject_self hobj
  obtain ⟨db₂, hevict, h₂, hquiet, hroom⟩ : ∃ db₂,
      evictIf (db.numPages ≤ db.pages.keys.length ∧
        db.pages.lookup (PageFile.getId δ obj.page) = none) db₁ = .ok () db₂ ∧
      Serving B live db₂ ∧ Quiet B live db₁ db₂ ∧
      ((∃ r, db₂.pages.lookup (PageFile.getId δ obj.page) = some r) ∨
        db₂.pages.keys.length < db₂.numPages) := by
    cases hl : db.pages.lookup (PageFile.getId δ obj.page) with
    | none =>
      have hfull : db.numPages ≤ db.pages.keys.length ∧ (none : Option Ref) = none ↔
          db₁.numPages ≤ db₁.pages.keys.length := and_iff_left rfl
      obtain ⟨db₂, hrun, h₂, hquiet, -, hroom⟩ := evictIf_spec h₁ hcap hl hfull
      exact ⟨db₂, hrun, h₂, hquiet, .inr hroom⟩
    | some r =>
      refine ⟨db₁, ?_, h₁, Quiet.refl B live db₁, .inl ⟨r, hl⟩⟩
      rw [evictIf, if_neg (by simp)]
      rfl
  obtain ⟨obj₂, hobj₂, -, hkeep⟩ := hquiet.objects ref _ hobj₁
  have hstray₂ : obj₂ = { obj with dirty := some tid } :=
    hkeep.resolve_left fun ⟨j, hj⟩ => hstray j hj
  subst hstray₂
  have hown : ∀ j, db₂.pages.lookup j = some ref → j = PageFile.getId δ obj.page := by
    intro j hj
    exact absurd (hquiet.entries j ref hj (List.getElem?_eq_some_iff.mp hobj₁).1) (hstray j)
  have hinfo : B.info db₂.files = B.info db.files := hquiet.info
  obtain ⟨hserving, hview, hviews, hobject⟩ := install_spec h₂ hobj₂ (fun _ _ _ ho => ho) hown rfl
    rfl (by rw [hinfo]; exact hgood) hroom rfl
  refine ⟨_, registerDirty_run hobj hevict, ?_, hinfo, hquiet.numPages,
    h₂.pageSize.trans h.pageSize.symm, hview, ?_, hobject⟩
  · intro hw
    exact hserving (by rwa [hinfo])
  · intro j hj hne
    rw [hviews j hj hne, hquiet.view j hj, hstore₁]

end BufferPool

end PagedDb
