import PagedDb.Storage.PoolCoherence
import PagedDb.Storage.WriteLog

/-!
# The dirty mark is the owner the log says

A page carries one dirty mark, so the pool remembers of all modifications since
the last write only who made the last one. `Tracks` says that the mark is what
the log of the files says it should be. Page traffic keeps this, and `flushPages`
writes exactly the pages whose owner is the transaction.
-/

namespace PagedDb

open Exec

variable {π δ : Type}

def Database.mark (db : Database π δ) (pid : PageId) : Option TransactionId :=
  (db.object? pid).bind PageObject.dirty

theorem Database.mark_of_lookup {db : Database π δ} {pid : PageId} {ref : Ref} {obj : PageObject π}
    (hl : db.pages.lookup pid = some ref) (hobj : db.objects[ref]? = some obj) :
    db.mark pid = obj.dirty := by
  simp [Database.mark, Database.object?_of_lookup hl hobj]

theorem Database.mark_of_none {db : Database π δ} {pid : PageId} (hl : db.pages.lookup pid = none) :
    db.mark pid = none := by
  simp [Database.mark, Database.object?_eq_none hl]

/-- Page traffic: page objects keep their pages, known tables stay known, and the log grows by
writes only. -/
structure Traffic (Known : δ → PageId → Prop) (db db' : Database π (Logged δ)) : Prop where
  objects : ∀ (ref : Ref) (obj : PageObject π), db.objects[ref]? = some obj →
    ∃ obj' : PageObject π, db'.objects[ref]? = some obj' ∧ obj'.page = obj.page
  known : ∀ pid, Known db.files.files pid → Known db'.files.files pid
  log : ∃ writes : List PageId, db'.files.log = db.files.log ++ writes.map .written

variable {Known : δ → PageId → Prop} {skip : Option PageId} {db db' db'' : Database π (Logged δ)}

theorem Traffic.refl (Known : δ → PageId → Prop) (db : Database π (Logged δ)) :
    Traffic Known db db :=
  ⟨fun _ obj h => ⟨obj, h, rfl⟩, fun _ h => h, [], by simp⟩

theorem Traffic.trans (h : Traffic Known db db') (h' : Traffic Known db' db'') :
    Traffic Known db db'' where
  objects := by
    intro ref obj hobj
    obtain ⟨obj', hobj', hpage⟩ := h.objects ref obj hobj
    obtain ⟨obj'', hobj'', hpage'⟩ := h'.objects ref obj' hobj'
    exact ⟨obj'', hobj'', hpage'.trans hpage⟩
  known := fun pid hk => h'.known pid (h.known pid hk)
  log := by
    obtain ⟨ws, hws⟩ := h.log
    obtain ⟨ws', hws'⟩ := h'.log
    exact ⟨ws ++ ws', by simp [hws', hws]⟩

variable [PageFile π δ]

/-- What the pool relies on to write its pages back: the pages of a known table are written
without an error, and what is read is the page asked for. -/
structure Steady (π : Type) {δ : Type} [PageFile π δ] (Known : δ → PageId → Prop) : Prop where
  read_ok : ∀ {files : δ} {pageSize pid ref} {p : π},
    PageFile.readPage files pageSize pid ref = .ok p → PageFile.getId δ p = pid ∧ Known files pid
  write_ok : ∀ (files : δ) (pageSize : ℕ) (p : π), Known files (PageFile.getId δ p) →
    ∃ files', PageFile.writePage files pageSize (PageFile.getId δ p).getTableId p = .ok files' ∧
      ∀ q, Known files q → Known files' q

/-- Every entry leads to a page of a known table under its own id, and every dirty mark, except
the one of the page `skip`, is the owner the log says. -/
structure Tracks (Known : δ → PageId → Prop) (skip : Option PageId)
    (db : Database π (Logged δ)) : Prop where
  entry : ∀ pid ref, db.pages.lookup pid = some ref → ∃ obj, db.objects[ref]? = some obj ∧
    PageFile.getId δ obj.page = pid ∧ Known db.files.files pid
  mark : ∀ pid, some pid ≠ skip → db.mark pid = owner db.files.log pid

theorem Tracks.ref_inj (h : Tracks Known skip db) {pid pid' : PageId} {ref : Ref}
    (hl : db.pages.lookup pid = some ref) (hl' : db.pages.lookup pid' = some ref) :
    pid = pid' := by
  obtain ⟨obj, hobj, hid, -⟩ := h.entry pid ref hl
  obtain ⟨obj', hobj', hid', -⟩ := h.entry pid' ref hl'
  obtain rfl : obj = obj' := Option.some.inj (hobj.symm.trans hobj')
  exact hid.symm.trans hid'

/-- New objects and other files make no difference to the marks. -/
theorem Tracks.extend (h : Tracks Known skip db) (hpages : db'.pages = db.pages)
    (hobjects : ∀ (r : Ref) obj, db.objects[r]? = some obj → db'.objects[r]? = some obj)
    (hknown : ∀ pid, Known db.files.files pid → Known db'.files.files pid)
    (hlog : db'.files.log = db.files.log) : Tracks Known skip db' := by
  refine ⟨?_, ?_⟩
  · intro j r hl
    rw [hpages] at hl
    obtain ⟨o, ho, hoid, hk⟩ := h.entry j r hl
    exact ⟨o, hobjects r o ho, hoid, hknown j hk⟩
  · intro j hj
    rw [hlog, ← h.mark j hj]
    cases hl : db.pages.lookup j with
    | none => rw [Database.mark_of_none hl, Database.mark_of_none (hpages ▸ hl)]
    | some r =>
      obtain ⟨o, ho, -⟩ := h.entry j r hl
      rw [Database.mark_of_lookup hl ho, Database.mark_of_lookup (hpages ▸ hl) (hobjects r o ho)]

/-- A transaction changes the page of an object and logs it: only the mark of that page may now
differ from the owner. -/
theorem Tracks.modify (h : Tracks Known none db) {ref : Ref} {obj : PageObject π} {p : π}
    {pid : PageId} (hobj : db.objects[ref]? = some obj) (hid : PageFile.getId δ obj.page = pid)
    (hid' : PageFile.getId δ p = pid) (tid : TransactionId) :
    Tracks Known (some pid)
      { db.setObject ref { obj with page := p } with
        files := { db.files with log := db.files.log ++ [.modified tid pid] } } := by
  let db' : Database π (Logged δ) :=
    { db.setObject ref { obj with page := p } with
      files := { db.files with log := db.files.log ++ [.modified tid pid] } }
  have hself : db'.objects[ref]? = some { obj with page := p } := Database.setObject_self hobj
  have hother : ∀ r, r ≠ ref → db'.objects[r]? = db.objects[r]? := fun r hr =>
    Database.setObject_ne (Ne.symm hr)
  change Tracks Known (some pid) db'
  refine ⟨?_, ?_⟩
  · intro j r hl
    obtain ⟨o, ho, hoid, hknown⟩ := h.entry j r hl
    by_cases hr : r = ref
    · subst hr
      obtain rfl : obj = o := Option.some.inj (hobj.symm.trans ho)
      exact ⟨_, hself, hid'.trans (hid.symm.trans hoid), hknown⟩
    · exact ⟨o, (hother r hr).trans ho, hoid, hknown⟩
  · intro j hj
    have hne : pid ≠ j := fun heq => hj (congrArg some heq.symm)
    have howner : owner db'.files.log j = db.mark j := by
      simp [db', hne, h.mark j]
    rw [howner]
    cases hl : db.pages.lookup j with
    | none =>
      have hmark : db'.mark j = none := Database.mark_of_none hl
      rw [hmark, Database.mark_of_none hl]
    | some r =>
      obtain ⟨o, ho, hoid, -⟩ := h.entry j r hl
      have hr : r ≠ ref := by
        rintro rfl
        obtain rfl : obj = o := Option.some.inj (hobj.symm.trans ho)
        exact hne (hid.symm.trans hoid)
      have hmark : db'.mark j = o.dirty := Database.mark_of_lookup hl ((hother r hr).trans ho)
      rw [hmark, Database.mark_of_lookup hl ho]

namespace BufferPool

/-- Flushing a page writes it if it is marked dirty and clears the mark. -/
theorem flushPage_tracks (hs : Steady π Known) (h : Tracks Known skip db) (pid : PageId) :
    ∃ db', flushPage pid db = .ok () db' ∧ Tracks Known skip db' ∧ Traffic Known db db' ∧
      db'.pages = db.pages ∧
      (∀ r, db.pages.lookup pid ≠ some r → db'.objects[r]? = db.objects[r]?) ∧
      db'.files.log = db.files.log ++ if (db.mark pid).isSome then [.written pid] else [] := by
  cases hl : db.pages.lookup pid with
  | none =>
    have hmark : db.mark pid = none := Database.mark_of_none hl
    refine ⟨db, ?_, h, Traffic.refl Known db, rfl, fun _ _ => rfl, by simp [hmark]⟩
    rw [flushPage, bind_ok (get_run db), hl]
    rfl
  | some ref =>
    obtain ⟨obj, hobj, hid, hknown⟩ := h.entry pid ref hl
    have hmark : db.mark pid = obj.dirty := Database.mark_of_lookup hl hobj
    cases hd : obj.dirty.isSome with
    | false =>
      refine ⟨db, ?_, h, Traffic.refl Known db, rfl, fun _ _ => rfl, by simp [hmark, hd]⟩
      rw [flushPage, bind_ok (get_run db), hl]
      simp only
      rw [bind_ok (deref_run hobj), if_neg (by simp [hd])]
      rfl
    | true =>
      obtain ⟨files', hwrite, hkeep⟩ := hs.write_ok db.files.files db.pageSize obj.page (hid ▸ hknown)
      rw [hid] at hwrite
      let obj' : PageObject π := { obj with dirty := none }
      let db' : Database π (Logged δ) :=
        { db.setObject ref obj' with files := ⟨files', db.files.log ++ [.written pid]⟩ }
      have hself : db'.objects[ref]? = some obj' := Database.setObject_self hobj
      have hother : ∀ r, r ≠ ref → db'.objects[r]? = db.objects[r]? := fun r hr =>
        Database.setObject_ne (Ne.symm hr)
      have hwrite' : PageFile.writePage db.files db.pageSize pid.getTableId obj.page =
          .ok db'.files := by
        change (PageFile.writePage db.files.files db.pageSize pid.getTableId obj.page >>= _) = _
        rw [hwrite]
        change Except.ok (Logged.mk files' (db.files.log ++ [.written (PageFile.getId δ obj.page)])) = _
        rw [hid]
      refine ⟨db', ?_, ⟨?_, ?_⟩, ⟨?_, hkeep, [pid], rfl⟩, rfl, ?_, by simp [hmark, hd, db']⟩
      · rw [flushPage, bind_ok (get_run db), hl]
        simp only
        rw [bind_ok (deref_run hobj), if_pos hd, bind_ok (markDirty_run hobj none),
          bind_ok (lift_run hwrite' _)]
        rfl
      · intro j r hlj
        obtain ⟨o, ho, hoid, hok⟩ := h.entry j r hlj
        rcases eq_or_ne r ref with rfl | hr
        · obtain rfl : obj = o := Option.some.inj (hobj.symm.trans ho)
          exact ⟨obj', hself, hoid, hkeep j hok⟩
        · exact ⟨o, (hother r hr).trans ho, hoid, hkeep j hok⟩
      · intro j hj
        simp only [db', owner_written]
        split
        · rename_i heq
          subst heq
          have hl' : db'.pages.lookup pid = some ref := hl
          exact Database.mark_of_lookup hl' hself
        · rename_i hne
          rw [← h.mark j hj]
          cases hlj : db.pages.lookup j with
          | none =>
            have hmark' : db'.mark j = none := Database.mark_of_none hlj
            rw [Database.mark_of_none hlj, hmark']
          | some r =>
            obtain ⟨o, ho, -⟩ := h.entry j r hlj
            have hr : r ≠ ref := by
              rintro rfl
              exact hne (h.ref_inj hl hlj)
            have hmark' : db'.mark j = o.dirty :=
              Database.mark_of_lookup hlj ((hother r hr).trans ho)
            rw [Database.mark_of_lookup hlj ho, hmark']
      · intro r o ho
        rcases eq_or_ne r ref with rfl | hr
        · obtain rfl : obj = o := Option.some.inj (hobj.symm.trans ho)
          exact ⟨obj', hself, rfl⟩
        · exact ⟨o, (hother r hr).trans ho, rfl⟩
      · intro r hr
        exact hother r fun heq => hr (congrArg some heq.symm)

theorem flushList_tracks (hs : Steady π Known) (h : Tracks Known skip db)
    (ks : List PageId) :
    ∃ db', ks.forM flushPage db = .ok ⟨⟩ db' ∧ Tracks Known skip db' ∧ Traffic Known db db' := by
  induction ks generalizing db with
  | nil => exact ⟨db, rfl, h, Traffic.refl Known db⟩
  | cons k ks ih =>
    obtain ⟨db₁, hrun₁, h₁, htraffic₁, -⟩ := flushPage_tracks hs h k
    obtain ⟨db₂, hrun₂, h₂, htraffic₂⟩ := ih h₁
    refine ⟨db₂, ?_, h₂, htraffic₁.trans htraffic₂⟩
    change (flushPage k >>= fun _ => ks.forM flushPage) db = _
    rw [bind_ok hrun₁]
    exact hrun₂

theorem flushAllPages_tracks (hs : Steady π Known) (h : Tracks Known skip db) :
    ∃ db', flushAllPages db = .ok () db' ∧ Tracks Known skip db' ∧ Traffic Known db db' := by
  obtain ⟨db', hrun, h'⟩ := flushList_tracks hs h db.pages.keys
  refine ⟨db', ?_, h'⟩
  rw [flushAllPages, bind_ok (get_run db)]
  exact hrun

/-- The body of the loop of `flushPages`. -/
def flushOwned (tid : TransactionId) (item : Sigma fun _ : PageId => Ref) :
    DbM π (Logged δ) Unit := do
  let obj ← deref item.2
  if obj.dirty = some tid then flushPage item.1 else pure ()

/-- The loop of `flushPages` writes the pages of the list that the transaction owns. Each page is
in the list once, so what the loop does to one page does not change the next one's owner. -/
theorem flushOwned_tracks (hs : Steady π Known) (h : Tracks Known none db)
    (tid : TransactionId) (items : List (Sigma fun _ : PageId => Ref))
    (hitems : ∀ item ∈ items, db.pages.lookup item.1 = some item.2)
    (hnodup : (items.map Sigma.fst).Nodup) :
    ∃ db', ∃ writes : List PageId, items.forM (flushOwned tid) db = .ok ⟨⟩ db' ∧
      Tracks Known none db' ∧ Traffic Known db db' ∧
      db'.files.log = db.files.log ++ writes.map .written ∧
      ∀ pid, pid ∈ writes ↔ pid ∈ items.map Sigma.fst ∧ owner db.files.log pid = some tid := by
  induction items generalizing db with
  | nil => exact ⟨db, [], rfl, h, Traffic.refl Known db, by simp, by simp⟩
  | cons item items ih =>
    obtain ⟨pid, ref⟩ := item
    have hl := hitems _ List.mem_cons_self
    obtain ⟨obj, hobj, -⟩ := h.entry pid ref hl
    have howner : obj.dirty = owner db.files.log pid := by
      rw [← h.mark pid (by simp), Database.mark_of_lookup hl hobj]
    simp only [List.map_cons, List.nodup_cons] at hnodup
    -- the body of the loop at this item
    obtain ⟨db₁, writes₁, hrun₁, h₁, htraffic₁, hpages₁, hlog₁, hwrites₁⟩ :
        ∃ db₁, ∃ writes₁ : List PageId, flushOwned tid ⟨pid, ref⟩ db = .ok () db₁ ∧
          Tracks Known none db₁ ∧ Traffic Known db db₁ ∧ db₁.pages = db.pages ∧
          db₁.files.log = db.files.log ++ writes₁.map .written ∧
          ∀ q, q ∈ writes₁ ↔ q = pid ∧ owner db.files.log q = some tid := by
      rw [flushOwned, bind_ok (deref_run hobj)]
      by_cases hd : obj.dirty = some tid
      · obtain ⟨db₁, hrun, h₁, htraffic, hpages, -, hlog⟩ := flushPage_tracks hs h pid
        refine ⟨db₁, [pid], ?_, h₁, htraffic, hpages, ?_, ?_⟩
        · rw [if_pos hd]
          exact hrun
        · simp [hlog, Database.mark_of_lookup hl hobj, hd]
        · intro q
          simp only [List.mem_singleton]
          refine ⟨?_, And.left⟩
          rintro rfl
          exact ⟨rfl, howner ▸ hd⟩
      · refine ⟨db, [], ?_, h, Traffic.refl Known db, rfl, by simp, ?_⟩
        · rw [if_neg hd]
          rfl
        · intro q
          simp only [List.not_mem_nil, false_iff]
          rintro ⟨rfl, hq⟩
          exact hd (howner ▸ hq)
    have hsame : ∀ q, q ≠ pid → owner db₁.files.log q = owner db.files.log q := by
      intro q hq
      have hnot : q ∉ writes₁ := fun hmem => hq ((hwrites₁ q).mp hmem).1
      rw [hlog₁, owner_append_written, if_neg hnot]
    obtain ⟨db₂, writes₂, hrun₂, h₂, htraffic₂, hlog₂, hwrites₂⟩ := ih h₁
      (fun item hitem => by rw [hpages₁]; exact hitems item (List.mem_cons_of_mem _ hitem)) hnodup.2
    refine ⟨db₂, writes₁ ++ writes₂, ?_, h₂, htraffic₁.trans htraffic₂, ?_, ?_⟩
    · change (flushOwned tid ⟨pid, ref⟩ >>= fun _ => items.forM (flushOwned tid)) db = _
      rw [bind_ok hrun₁]
      exact hrun₂
    · simp [hlog₂, hlog₁]
    · intro q
      simp only [List.mem_append, hwrites₁, hwrites₂, List.map_cons, List.mem_cons]
      constructor
      · rintro (⟨rfl, hq⟩ | ⟨hmem, hq⟩)
        · exact ⟨.inl rfl, hq⟩
        · have hne : q ≠ pid := by
            rintro rfl
            exact hnodup.1 hmem
          exact ⟨.inr hmem, hsame q hne ▸ hq⟩
      · rintro ⟨rfl | hmem, hq⟩
        · exact .inl ⟨rfl, hq⟩
        · have hne : q ≠ pid := by
            rintro rfl
            exact hnodup.1 hmem
          exact .inr ⟨hmem, (hsame q hne).symm ▸ hq⟩

/-- `flushPages` writes exactly the pages the transaction owns. -/
theorem flushPages_tracks (hs : Steady π Known) (h : Tracks Known none db)
    (tid : TransactionId) :
    ∃ db', ∃ writes : List PageId, flushPages tid db = .ok ⟨⟩ db' ∧ Tracks Known none db' ∧
      Traffic Known db db' ∧ db'.files.log = db.files.log ++ writes.map .written ∧
      ∀ pid, pid ∈ writes ↔ owner db.files.log pid = some tid := by
  obtain ⟨db', writes, hrun, h', htraffic, hlog, hwrites⟩ :=
    flushOwned_tracks hs h tid db.pages.entries (fun _ hitem => AList.mem_lookup_iff.mpr hitem)
      db.pages.nodupKeys
  refine ⟨db', writes, ?_, h', htraffic, hlog, ?_⟩
  · rw [flushPages, bind_ok (get_run db)]
    exact hrun
  · intro pid
    rw [hwrites]
    refine ⟨And.right, fun howner => ⟨?_, howner⟩⟩
    rw [← h.mark pid (by simp)] at howner
    change pid ∈ db.pages.keys
    rw [← AList.mem_keys, ← AList.lookup_isSome]
    cases hl : db.pages.lookup pid with
    | none => simp [Database.mark_of_none hl] at howner
    | some ref => rfl

/-- The part of a database that an eviction leaves alone: objects and owners of pages that are
not resident. -/
structure KeepsStrays (db db' : Database π (Logged δ)) : Prop where
  entries : ∀ pid ref, db'.pages.lookup pid = some ref → db.pages.lookup pid = some ref
  objects : ∀ ref, (∀ pid, db.pages.lookup pid ≠ some ref) → db'.objects[ref]? = db.objects[ref]?
  owner : ∀ pid, db.pages.lookup pid = none →
    PagedDb.owner db'.files.log pid = PagedDb.owner db.files.log pid

theorem evictPage_tracks (hs : Steady π Known) (h : Tracks Known skip db) :
    ∃ db', evictPage db = .ok () db' ∧ Tracks Known skip db' ∧ Traffic Known db db' ∧
      KeepsStrays db db' := by
  cases hvictim : db.pages.keys[db.order 0 % db.pages.keys.length]? with
  | none =>
    refine ⟨db, ?_, h, Traffic.refl Known db, fun _ _ hl => hl, fun _ _ => rfl, fun _ _ => rfl⟩
    rw [evictPage, bind_ok (get_run db), hvictim]
    rfl
  | some victim =>
    have hmem : victim ∈ db.pages.keys := List.mem_of_getElem? hvictim
    let db₀ : Database π (Logged δ) := { db with order := fun n => db.order (n + 1) }
    have h₀ : Tracks Known skip db₀ := ⟨h.entry, h.mark⟩
    obtain ⟨db₁, hrun, h₁, htraffic, hpages, hobjects, hlog⟩ := flushPage_tracks hs h₀ victim
    let db₂ : Database π (Logged δ) := { db₁ with pages := db₁.pages.erase victim }
    have hentries : ∀ j r, db₂.pages.lookup j = some r → db₁.pages.lookup j = some r := by
      intro j r hl
      have hne : j ≠ victim := by
        rintro rfl
        rw [AList.lookup_erase] at hl
        cases hl
      rwa [AList.lookup_erase_ne hne] at hl
    refine ⟨db₂, ?_, ⟨?_, ?_⟩, ⟨htraffic.objects, htraffic.known, htraffic.log⟩, ?_, ?_, ?_⟩
    · rw [evictPage, bind_ok (get_run db), hvictim]
      simp only
      rw [bind_ok (modify_run _ db), bind_ok hrun]
      rfl
    · exact fun j r hl => h₁.entry j r (hentries j r hl)
    · intro j hj
      rcases eq_or_ne j victim with rfl | hne
      · have hnone : db₂.mark j = none := Database.mark_of_none (AList.lookup_erase j _)
        -- a dirty victim was written, a clean one has no owner
        rw [hnone]
        change none = owner db₁.files.log j
        rw [hlog]
        cases hd : db₀.mark j with
        | none => simpa [hd] using h₀.mark j hj
        | some t => simp
      · rw [← h₁.mark j hj]
        have hl : db₂.pages.lookup j = db₁.pages.lookup j := AList.lookup_erase_ne hne
        change ((db₂.pages.lookup j).bind _).bind _ = _
        rw [hl]
        rfl
    · intro j r hl
      have := hentries j r hl
      rwa [hpages] at this
    · exact fun r hr => hobjects r (hr victim)
    · intro j hl
      have hne : victim ≠ j := by
        rintro rfl
        rw [← AList.mem_keys, ← AList.lookup_isSome, hl] at hmem
        cases hmem
      change owner db₁.files.log j = _
      rw [hlog]
      cases db₀.mark victim with
      | none => simp [db₀]
      | some t => simp [db₀, hne]

theorem evictIf_tracks (hs : Steady π Known) (h : Tracks Known skip db) (full : Prop)
    [Decidable full] :
    ∃ db', evictIf full db = .ok () db' ∧ Tracks Known skip db' ∧ Traffic Known db db' ∧
      (full → KeepsStrays db db') ∧ (¬ full → db' = db) := by
  by_cases hf : full
  · obtain ⟨db', hrun, h', htraffic, hkeeps⟩ := evictPage_tracks hs h
    exact ⟨db', by rw [evictIf, if_pos hf, hrun], h', htraffic, fun _ => hkeeps, fun hn => absurd hf hn⟩
  · exact ⟨db, by rw [evictIf, if_neg hf]; rfl, h, Traffic.refl Known db, fun hf' => absurd hf' hf,
      fun _ => rfl⟩

/-- `getPage` may fail to read; what it does to the pool until then is tracked. -/
theorem getPage_tracks (hs : Steady π Known) (h : Tracks Known none db) (pid : PageId) :
    Tracks Known none (stateOf (getPage pid db)) ∧ Traffic Known db (stateOf (getPage pid db)) ∧
      ∀ ref db', getPage pid db = .ok ref db' → db'.pages.lookup pid = some ref := by
  cases hl : db.pages.lookup pid with
  | some ref =>
    have hrun : getPage pid db = .ok ref db := by
      rw [getPage, bind_ok (get_run db), hl]
      rfl
    rw [hrun]
    refine ⟨h, Traffic.refl Known db, ?_⟩
    rintro ref' db' heq
    cases heq
    exact hl
  | none =>
    obtain ⟨db₁, hevict, h₁, htraffic₁, hkeeps, hsame⟩ :=
      evictIf_tracks hs h (db.numPages ≤ db.pages.keys.length)
    have hl₁ : db₁.pages.lookup pid = none := by
      by_cases hf : db.numPages ≤ db.pages.keys.length
      · by_contra hne
        obtain ⟨r, hr⟩ := Option.ne_none_iff_exists'.mp hne
        rw [(hkeeps hf).entries pid r hr] at hl
        cases hl
      · rwa [hsame hf]
    have hstart : getPage pid db = loadPage pid db₁ := by
      rw [getPage, bind_ok (get_run db), hl]
      exact bind_ok hevict
    rw [hstart]
    cases hread : (PageFile.readPage db₁.files db₁.pageSize pid db₁.objects.length : Except Fault π)
      with
    | error e =>
      have hrun : loadPage pid db₁ = .error e db₁ := by
        rw [loadPage, bind_ok (get_run db₁)]
        exact bind_error (by rw [hread]; rfl)
      rw [hrun]
      exact ⟨h₁, htraffic₁, fun _ _ heq => by cases heq⟩
    | ok p =>
      obtain ⟨hid, hknown⟩ := hs.read_ok hread
      let db₂ : Database π (Logged δ) :=
        { db₁ with
          objects := db₁.objects ++ [⟨p, none⟩]
          pages := db₁.pages.insert pid db₁.objects.length }
      have hrun : loadPage pid db₁ = .ok db₁.objects.length db₂ := by
        rw [loadPage, bind_ok (get_run db₁), bind_ok (lift_run hread db₁)]
        rfl
      have hnew : db₂.objects[db₁.objects.length]? = some ⟨p, none⟩ := List.getElem?_concat_length
      have hold : ∀ (r : Ref) o, db₁.objects[r]? = some o → db₂.objects[r]? = some o := by
        intro r o ho
        exact (List.getElem?_append_left (List.getElem?_eq_some_iff.mp ho).1).trans ho
      have hl₂ : db₂.pages.lookup pid = some db₁.objects.length := AList.lookup_insert db₁.pages
      have hother : ∀ j, j ≠ pid → db₂.pages.lookup j = db₁.pages.lookup j :=
        fun j hj => AList.lookup_insert_ne hj
      rw [hrun, stateOf_ok]
      refine ⟨⟨?_, ?_⟩, htraffic₁.trans ⟨fun r o ho => ⟨o, hold r o ho, rfl⟩, fun _ hk => hk, [],
        by simp [db₂]⟩, ?_⟩
      · intro j r hj
        rcases eq_or_ne j pid with rfl | hne
        · obtain rfl : db₁.objects.length = r := Option.some.inj (hl₂.symm.trans hj)
          exact ⟨_, hnew, hid, hknown⟩
        · rw [hother j hne] at hj
          obtain ⟨o, ho, hrest⟩ := h₁.entry j r hj
          exact ⟨o, hold r o ho, hrest⟩
      · intro j hj
        rcases eq_or_ne j pid with rfl | hne
        · rw [Database.mark_of_lookup hl₂ hnew]
          change none = owner db₁.files.log j
          rw [← h₁.mark j hj, Database.mark_of_none hl₁]
        · change _ = owner db₁.files.log j
          rw [← h₁.mark j hj]
          cases hr : db₁.pages.lookup j with
          | none =>
            rw [Database.mark_of_none hr, Database.mark_of_none ((hother j hne).trans hr)]
          | some r =>
            obtain ⟨o, ho, -⟩ := h₁.entry j r hr
            rw [Database.mark_of_lookup hr ho,
              Database.mark_of_lookup ((hother j hne).trans hr) (hold r o ho)]
      · rintro ref db' heq
        cases heq
        exact hl₂

/-- Registering a page that its transaction has just modified makes the marks right again. -/
theorem registerDirty_tracks (hs : Steady π Known) {pid : PageId}
    (h : Tracks Known (some pid) db) {tid : TransactionId} {ref : Ref} {obj : PageObject π}
    (hobj : db.objects[ref]? = some obj) (hid : PageFile.getId δ obj.page = pid)
    (hknown : Known db.files.files pid) (howner : owner db.files.log pid = some tid) :
    ∃ db', registerDirty tid ref db = .ok () db' ∧ Tracks Known none db' := by
  let obj₁ : PageObject π := { obj with dirty := some tid }
  let db₁ := db.setObject ref obj₁
  have hobj₁ : db₁.objects[ref]? = some obj₁ := Database.setObject_self hobj
  have hother₁ : ∀ r, r ≠ ref → db₁.objects[r]? = db.objects[r]? := fun r hr =>
    Database.setObject_ne (Ne.symm hr)
  have hne_ref : ∀ j r, j ≠ pid → db.pages.lookup j = some r → r ≠ ref := by
    rintro j r hj hl rfl
    obtain ⟨o, ho, hoid, -⟩ := h.entry j r hl
    obtain rfl : obj = o := Option.some.inj (hobj.symm.trans ho)
    exact hj (hoid.symm.trans hid)
  have h₁ : Tracks Known (some pid) db₁ := by
    refine ⟨?_, ?_⟩
    · intro j r hl
      obtain ⟨o, ho, hoid, hok⟩ := h.entry j r hl
      rcases eq_or_ne r ref with rfl | hr
      · obtain rfl : obj = o := Option.some.inj (hobj.symm.trans ho)
        exact ⟨obj₁, hobj₁, hoid, hok⟩
      · exact ⟨o, (hother₁ r hr).trans ho, hoid, hok⟩
    · intro j hj
      have hne : j ≠ pid := fun heq => hj (congrArg some heq)
      change _ = owner db.files.log j
      rw [← h.mark j hj]
      cases hl : db.pages.lookup j with
      | none =>
        have hmark₁ : db₁.mark j = none := Database.mark_of_none hl
        rw [Database.mark_of_none hl, hmark₁]
      | some r =>
        obtain ⟨o, ho, -⟩ := h.entry j r hl
        have ho₁ := (hother₁ r (hne_ref j r hne hl)).trans ho
        have hmark₁ : db₁.mark j = o.dirty := Database.mark_of_lookup hl ho₁
        rw [Database.mark_of_lookup hl ho, hmark₁]
  obtain ⟨db₂, hevict, h₂, htraffic₂, hkeeps, hsame⟩ :=
    evictIf_tracks hs h₁ (db₁.numPages ≤ db₁.pages.keys.length ∧ db₁.pages.lookup pid = none)
  -- if a page is evicted then it is another one, so the new mark and its owner stay
  obtain ⟨hobj₂, howner₂⟩ :
      db₂.objects[ref]? = some obj₁ ∧ owner db₂.files.log pid = some tid := by
    by_cases hf : db₁.numPages ≤ db₁.pages.keys.length ∧ db₁.pages.lookup pid = none
    · obtain ⟨-, hobjects, howners⟩ := hkeeps hf
      refine ⟨?_, (howners pid hf.2).trans howner⟩
      rw [hobjects, hobj₁]
      intro j hj
      rcases eq_or_ne j pid with rfl | hne
      · rw [hf.2] at hj
        cases hj
      · exact hne_ref j ref hne hj rfl
    · rw [hsame hf]
      exact ⟨hobj₁, howner⟩
  let db₃ : Database π (Logged δ) := { db₂ with pages := db₂.pages.insert pid ref }
  have hl₃ : db₃.pages.lookup pid = some ref := AList.lookup_insert db₂.pages
  have hother₃ : ∀ j, j ≠ pid → db₃.pages.lookup j = db₂.pages.lookup j :=
    fun j hj => AList.lookup_insert_ne hj
  refine ⟨db₃, ?_, ?_, ?_⟩
  · subst hid
    exact registerDirty_run hobj hevict
  · intro j r hl
    rcases eq_or_ne j pid with rfl | hne
    · obtain rfl : ref = r := Option.some.inj (hl₃.symm.trans hl)
      exact ⟨obj₁, hobj₂, hid, htraffic₂.known _ hknown⟩
    · rw [hother₃ j hne] at hl
      exact h₂.entry j r hl
  · intro j _
    rcases eq_or_ne j pid with rfl | hne
    · rw [Database.mark_of_lookup hl₃ hobj₂]
      exact howner₂.symm
    · change ((db₃.pages.lookup j).bind _).bind _ = _
      rw [hother₃ j hne]
      exact h₂.mark j fun heq => hne (Option.some.inj heq)

end BufferPool

end PagedDb
