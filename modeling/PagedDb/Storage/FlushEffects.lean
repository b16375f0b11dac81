import PagedDb.Storage.DirtyOwner

/-!
# What a flush writes

All four calls that write pages back come down to `flushPage`, which clears the
dirty mark before it asks the catalog for the file. So a page of a listed table
is written and clean afterwards, and a page of a table that the catalog no
longer lists is clean without having been written.
-/

namespace PagedDb

open Exec

/-- Files behind the catalog: a page can be written if its table is listed, and writing pages
lists no table and drops none. -/
class CatalogFiles (π δ : Type) extends PageFile π δ where
  Listed : δ → Int32 → Prop
  write_listed : ∀ (files : δ) (pageSize : ℕ) (tableId : Int32) (p : π), Listed files tableId →
    ∃ files', writePage files pageSize tableId p = .ok files' ∧
      ∀ i, Listed files' i ↔ Listed files i
  write_missing : ∀ (files : δ) (pageSize : ℕ) (tableId : Int32) (p : π), ¬ Listed files tableId →
    ∃ e, writePage files pageSize tableId p = .error e

variable {π δ : Type}

/-- The calls of the pool that write pages back. -/
inductive FlushCall
  | flushPage (pid : PageId)
  | flushPages (tid : TransactionId)
  | flushAllPages
  | evictPage

/-- The page `evictPage` finds at `pages.begin()`. -/
def Database.victim (db : Database π δ) : Option PageId :=
  db.pages.keys[db.order 0 % db.pages.keys.length]?

namespace FlushCall

def run [PageFile π δ] : FlushCall → DbM π δ Unit
  | .flushPage pid => BufferPool.flushPage pid
  | .flushPages tid => BufferPool.flushPages tid
  | .flushAllPages => BufferPool.flushAllPages
  | .evictPage => BufferPool.evictPage

def Flushes (db : Database π δ) : FlushCall → PageId → Prop
  | .flushPage pid, q => q = pid ∧ (db.mark q).isSome
  | .flushPages tid, q => db.mark q = some tid
  | .flushAllPages, q => (db.mark q).isSome
  | .evictPage, q => db.victim = some q ∧ (db.mark q).isSome

theorem Flushes.dirty {db : Database π δ} {call : FlushCall} {pid : PageId}
    (h : call.Flushes db pid) : (db.mark pid).isSome := by
  cases call with
  | flushPage q => exact h.2
  | flushPages tid => exact Option.isSome_of_eq_some h
  | flushAllPages => exact h
  | evictPage => exact h.2

end FlushCall

def FiledById [PageFile π δ] (db : Database π δ) : Prop :=
  ∀ pid ref, db.pages.lookup pid = some ref →
    ∃ obj, db.objects[ref]? = some obj ∧ PageFile.getId δ obj.page = pid

section FiledById

variable [PageFile π δ] {db db' : Database π δ}

theorem FiledById.ref_inj (h : FiledById db) {pid pid' : PageId} {ref : Ref}
    (hl : db.pages.lookup pid = some ref) (hl' : db.pages.lookup pid' = some ref) :
    pid = pid' := by
  obtain ⟨obj, hobj, hid⟩ := h pid ref hl
  obtain ⟨obj', hobj', hid'⟩ := h pid' ref hl'
  rw [hobj, Option.some.injEq] at hobj'
  rw [← hid, ← hid', hobj']

theorem FiledById.dirty (h : FiledById db) {pid : PageId} {ref : Ref}
    (hl : db.pages.lookup pid = some ref) :
    ∃ obj, db.objects[ref]? = some obj ∧ PageFile.getId δ obj.page = pid ∧
      db.mark pid = obj.dirty := by
  obtain ⟨obj, hobj, hid⟩ := h pid ref hl
  exact ⟨obj, hobj, hid, Database.mark_of_lookup hl hobj⟩

theorem Tracks.filedById {Known : δ → PageId → Prop} {skip : Option PageId}
    {db : Database π (Logged δ)} (h : Tracks Known skip db) : FiledById db := by
  intro pid ref hl
  obtain ⟨obj, hobj, hid, -⟩ := h.entry pid ref hl
  exact ⟨obj, hobj, hid⟩

/-- Marking one resident page changes the mark of that page only. -/
theorem FiledById.setDirty (h : FiledById db) {pid : PageId} {ref : Ref} {obj : PageObject π}
    (hl : db.pages.lookup pid = some ref) (hobj : db.objects[ref]? = some obj)
    (d : Option TransactionId) :
    FiledById (db.setObject ref { obj with dirty := d }) ∧
      (∀ q, (db.setObject ref { obj with dirty := d }).mark q =
        if q = pid then d else db.mark q) ∧
      ∀ q, (db.setObject ref { obj with dirty := d }).page? q = db.page? q := by
  let db' := db.setObject ref { obj with dirty := d }
  have hself : db'.objects[ref]? = some { obj with dirty := d } := Database.setObject_self hobj
  have hother : ∀ r, r ≠ ref → db'.objects[r]? = db.objects[r]? := fun r hr =>
    Database.setObject_ne (Ne.symm hr)
  have hobject : ∀ q, q ≠ pid → db'.object? q = db.object? q := by
    intro q hq
    cases hlq : db.pages.lookup q with
    | none =>
      have hlq' : db'.pages.lookup q = none := hlq
      rw [Database.object?_eq_none hlq, Database.object?_eq_none hlq']
    | some r =>
      have hr : r ≠ ref := by
        rintro rfl
        exact hq (h.ref_inj hlq hl)
      simp only [Database.object?, hlq, Option.bind_some, hother r hr,
        show db'.pages.lookup q = some r from hlq]
  have hl' : db'.pages.lookup pid = some ref := hl
  have hpid : db'.object? pid = some { obj with dirty := d } :=
    Database.object?_of_lookup hl' hself
  refine ⟨?_, ?_, ?_⟩
  · intro q r hlq
    obtain ⟨o, ho, hid⟩ := h q r hlq
    by_cases hr : r = ref
    · subst hr
      rw [hobj, Option.some.injEq] at ho
      exact ⟨_, hself, ho ▸ hid⟩
    · exact ⟨o, (hother r hr).trans ho, hid⟩
  · intro q
    by_cases hq : q = pid
    · subst hq
      simp only [if_true]
      exact congrArg (Option.bind · PageObject.dirty) hpid
    · simp only [hq, if_false]
      exact congrArg (Option.bind · PageObject.dirty) (hobject q hq)
  · intro q
    by_cases hq : q = pid
    · subst hq
      have hold : db.object? q = some obj := Database.object?_of_lookup hl hobj
      have hnew : db'.page? q = some obj.page := congrArg (Option.map PageObject.page) hpid
      simp only [Database.page?, hold]
      exact hnew
    · exact congrArg (Option.map PageObject.page) (hobject q hq)

end FiledById

/-- A page that was dirty and has not been written since is still resident and dirty for the
same transaction. -/
def KeepsUnwritten (db db' : Database π (Logged δ)) : Prop :=
  ∀ pid tid, db.mark pid = some tid → .written pid ∉ db'.files.log.drop db.files.log.length →
    db'.mark pid = some tid

/-- A call failed at the dirty page `pid` after it had written `ws`. -/
structure LostAt (ws : List PageId) (pid : PageId) (db db' : Database π (Logged δ)) : Prop where
  dirty : (db.mark pid).isSome
  unwritten : pid ∉ ws
  log : db'.files.log = db.files.log ++ ws.map .written
  clean : db'.mark pid = none

variable {db db' db'' : Database π (Logged δ)} {ws ws' : List PageId} {pid : PageId}

theorem LostAt.not_keeps (h : LostAt ws pid db db') : ¬ KeepsUnwritten db db' := by
  intro hkeeps
  obtain ⟨tid, htid⟩ := Option.isSome_iff_exists.mp h.dirty
  have hmark := hkeeps pid tid htid (by simp [h.log, h.unwritten])
  rw [h.clean] at hmark
  cases hmark

variable [CatalogFiles π δ]

/-- The pages `ws` were written one after the other and are clean; residents, their content,
the other marks and the catalog are as before. -/
structure Wrote (ws : List PageId) (db db' : Database π (Logged δ)) : Prop where
  pages : db'.pages = db.pages
  page? : ∀ pid, db'.page? pid = db.page? pid
  mark : ∀ pid, db'.mark pid = if pid ∈ ws then none else db.mark pid
  log : db'.files.log = db.files.log ++ ws.map .written
  listed : ∀ i, CatalogFiles.Listed π db'.files.files i ↔ CatalogFiles.Listed π db.files.files i
  filed : FiledById db'

theorem Wrote.refl (h : FiledById db) : Wrote [] db db :=
  ⟨rfl, fun _ => rfl, by simp, by simp, fun _ => Iff.rfl, h⟩

theorem Wrote.trans (h : Wrote ws db db') (h' : Wrote ws' db' db'') :
    Wrote (ws ++ ws') db db'' where
  pages := h'.pages.trans h.pages
  page? := fun pid => (h'.page? pid).trans (h.page? pid)
  mark := by
    intro pid
    rw [h'.mark, h.mark]
    by_cases hw : pid ∈ ws <;> simp [hw]
  log := by simp [h'.log, h.log]
  listed := fun i => (h'.listed i).trans (h.listed i)
  filed := h'.filed

theorem Wrote.lostAt (h : Wrote ws db db') (h' : LostAt ws' pid db' db'') :
    LostAt (ws ++ ws') pid db db'' := by
  have hmark := h.mark pid
  have hdirty := h'.dirty
  have hnot : pid ∉ ws := by
    intro hmem
    simp [hmark, hmem] at hdirty
  simp only [hnot, if_false] at hmark
  exact ⟨hmark ▸ hdirty, by simp [hnot, h'.unwritten], by simp [h'.log, h.log], h'.clean⟩

namespace BufferPool

theorem flushPage_clean (h : FiledById db) (hclean : db.mark pid = none) :
    flushPage pid db = .ok () db := by
  rw [flushPage, bind_ok (get_run db)]
  cases hl : db.pages.lookup pid with
  | none => rfl
  | some ref =>
    obtain ⟨obj, hobj, -, hmark⟩ := h.dirty hl
    have hd : obj.dirty.isSome = false := by simp [← hmark, hclean]
    simp only [bind_ok (deref_run hobj), hd]
    rfl

/-- What `flushPage` comes down to on a dirty page: the mark goes, then the page is written. -/
theorem flushPage_dirty_run {ref : Ref} {obj : PageObject π}
    (hl : db.pages.lookup pid = some ref) (hobj : db.objects[ref]? = some obj)
    (hd : obj.dirty.isSome) :
    flushPage pid db =
      (lift (PageFile.writePage db.files db.pageSize pid.getTableId obj.page) >>= fun files =>
        modify fun db => { db with files }) (db.setObject ref { obj with dirty := none }) := by
  rw [flushPage, bind_ok (get_run db), hl]
  simp only [bind_ok (deref_run hobj), hd, if_true, bind_ok (markDirty_run hobj none)]

theorem flushPage_wrote (h : FiledById db) (hdirty : (db.mark pid).isSome)
    (hlisted : CatalogFiles.Listed π db.files.files pid.getTableId) :
    ∃ db', flushPage pid db = .ok () db' ∧ Wrote [pid] db db' := by
  cases hl : db.pages.lookup pid with
  | none => simp [Database.mark_of_none hl] at hdirty
  | some ref =>
    obtain ⟨obj, hobj, hid, hmark⟩ := h.dirty hl
    obtain ⟨files', hwrite, hsame⟩ := CatalogFiles.write_listed (π := π) db.files.files
      db.pageSize pid.getTableId obj.page hlisted
    obtain ⟨hfiled, hmarks, hpages⟩ := h.setDirty hl hobj none
    have hlogged : PageFile.writePage db.files db.pageSize pid.getTableId obj.page =
        .ok (Logged.mk files' (db.files.log ++ [.written pid])) := by
      change (PageFile.writePage db.files.files db.pageSize pid.getTableId obj.page >>= _) = _
      rw [hwrite]
      exact congrArg (fun q => Except.ok (Logged.mk files' (db.files.log ++ [.written q]))) hid
    refine ⟨{ db.setObject ref { obj with dirty := none } with
        files := ⟨files', db.files.log ++ [.written pid]⟩ }, ?_, rfl, hpages, ?_, rfl, hsame, hfiled⟩
    · rw [flushPage_dirty_run hl hobj (hmark ▸ hdirty), bind_ok (lift_run hlogged _)]
      rfl
    · intro q
      simp only [List.mem_singleton]
      exact hmarks q

theorem flushPage_lost (h : FiledById db) (hdirty : (db.mark pid).isSome)
    (hmissing : ¬ CatalogFiles.Listed π db.files.files pid.getTableId) :
    ∃ e db', flushPage pid db = .error e db' ∧ LostAt [] pid db db' := by
  cases hl : db.pages.lookup pid with
  | none => simp [Database.mark_of_none hl] at hdirty
  | some ref =>
    obtain ⟨obj, hobj, -, hmark⟩ := h.dirty hl
    obtain ⟨e, hwrite⟩ := CatalogFiles.write_missing (π := π) db.files.files
      db.pageSize pid.getTableId obj.page hmissing
    obtain ⟨-, hmarks, -⟩ := h.setDirty hl hobj none
    have hlogged : PageFile.writePage db.files db.pageSize pid.getTableId obj.page =
        (.error e : Except Fault (Logged δ)) := by
      change (PageFile.writePage db.files.files db.pageSize pid.getTableId obj.page >>= _) = _
      rw [hwrite]
      rfl
    refine ⟨e, db.setObject ref { obj with dirty := none }, ?_, hdirty, by simp, ?_, ?_⟩
    · rw [flushPage_dirty_run hl hobj (hmark ▸ hdirty)]
      exact bind_error (by rw [hlogged]; rfl)
    · exact (List.append_nil _).symm
    · simp [hmarks]

section Loop

variable {β : Type} {key : β → PageId} {sel : Option TransactionId → Bool}
  {body : β → DbM π (Logged δ) PUnit} {pages : PagesMap}

def chosen (sel : Option TransactionId → Bool) (db : Database π (Logged δ))
    (pids : List PageId) : List PageId :=
  pids.filter fun pid => sel (db.mark pid)

/-- The body of a loop flushes the pages with certain marks and passes over the others. -/
def FlushBody (key : β → PageId) (sel : Option TransactionId → Bool) (pages : PagesMap)
    (body : β → DbM π (Logged δ) PUnit) (items : List β) : Prop :=
  ∀ b ∈ items, ∀ db : Database π (Logged δ), FiledById db → db.pages = pages →
    body b db = if sel (db.mark (key b)) then flushPage (key b) db else .ok ⟨⟩ db

theorem chosen_wrote (sel : Option TransactionId → Bool) {pids : List PageId} (h : Wrote [pid] db db') (hpid : pid ∉ pids) :
    chosen sel db' pids = chosen sel db pids := by
  apply List.filter_congr
  intro q hq
  have hne : q ≠ pid := by
    rintro rfl
    exact hpid hq
  simp [h.mark, hne]

theorem flushLoop_wrote (hsel : sel none = false) (items : List β)
    (hbody : FlushBody key sel pages body items) (hnodup : (items.map key).Nodup)
    (h : FiledById db) (hpages : db.pages = pages)
    (hlisted : ∀ pid ∈ chosen sel db (items.map key),
      CatalogFiles.Listed π db.files.files pid.getTableId) :
    ∃ db', items.forM body db = .ok ⟨⟩ db' ∧ Wrote (chosen sel db (items.map key)) db db' := by
  induction items generalizing db with
  | nil => exact ⟨db, rfl, Wrote.refl h⟩
  | cons b items ih =>
    have hrest : FlushBody key sel pages body items := fun c hc =>
      hbody c (List.mem_cons_of_mem b hc)
    have hstep := hbody b List.mem_cons_self db h hpages
    simp only [List.map_cons, List.nodup_cons] at hnodup
    cases hb : sel (db.mark (key b)) with
    | true =>
      simp only [chosen, List.map_cons, hb, List.filter_cons_of_pos, List.mem_cons,
        forall_eq_or_imp] at hlisted ⊢
      have hdirty : (db.mark (key b)).isSome := by
        cases hm : db.mark (key b) with
        | none => simp [hm, hsel] at hb
        | some tid => rfl
      obtain ⟨db₁, hflush, hwrote⟩ := flushPage_wrote h hdirty hlisted.1
      have hsame := chosen_wrote sel hwrote hnodup.1
      obtain ⟨db₂, hrun, hwrote'⟩ := ih hrest hnodup.2 hwrote.filed
        (hwrote.pages.trans hpages) (fun pid hpid => (hwrote.listed _).mpr
          (hlisted.2 pid (by rw [hsame] at hpid; exact hpid)))
      refine ⟨db₂, ?_, ?_⟩
      · change (body b >>= fun _ => items.forM body) db = _
        simp only [hb, if_true] at hstep
        rw [bind_ok (hstep.trans hflush), hrun]
      · rw [hsame] at hwrote'
        exact hwrote.trans hwrote'
    | false =>
      have hskip : chosen sel db ((b :: items).map key) = chosen sel db (items.map key) := by
        simp [chosen, hb]
      rw [hskip] at hlisted ⊢
      obtain ⟨db₁, hrun, hwrote⟩ := ih hrest hnodup.2 h hpages hlisted
      refine ⟨db₁, ?_, hwrote⟩
      change (body b >>= fun _ => items.forM body) db = _
      simp only [hb, Bool.false_eq_true, if_false] at hstep
      rw [bind_ok hstep, hrun]

theorem flushLoop_lost (hsel : sel none = false) (items : List β)
    (hbody : FlushBody key sel pages body items) (hnodup : (items.map key).Nodup)
    (h : FiledById db) (hpages : db.pages = pages)
    (hmissing : ∃ pid ∈ chosen sel db (items.map key),
      ¬ CatalogFiles.Listed π db.files.files pid.getTableId) :
    ∃ e db' ws pid, items.forM body db = .error e db' ∧ LostAt ws pid db db' := by
  induction items generalizing db with
  | nil => simp [chosen] at hmissing
  | cons b items ih =>
    have hrest : FlushBody key sel pages body items := fun c hc =>
      hbody c (List.mem_cons_of_mem b hc)
    have hstep := hbody b List.mem_cons_self db h hpages
    simp only [List.map_cons, List.nodup_cons] at hnodup
    cases hb : sel (db.mark (key b)) with
    | true =>
      have hdirty : (db.mark (key b)).isSome := by
        cases hm : db.mark (key b) with
        | none => simp [hm, hsel] at hb
        | some tid => rfl
      simp only [hb, if_true] at hstep
      by_cases hlisted : CatalogFiles.Listed π db.files.files (key b).getTableId
      · -- the first page goes through, so the one that fails is a later one
        obtain ⟨db₁, hflush, hwrote⟩ := flushPage_wrote h hdirty hlisted
        have hsame := chosen_wrote sel hwrote hnodup.1
        simp only [chosen, List.map_cons, hb, List.filter_cons_of_pos, List.mem_cons,
          exists_eq_or_imp, hlisted, not_true_eq_false, false_or] at hmissing
        obtain ⟨q, hq, hmiss⟩ := hmissing
        obtain ⟨e, db₂, ws, pid, hrun, hlost⟩ := ih hrest hnodup.2 hwrote.filed
          (hwrote.pages.trans hpages)
          ⟨q, by rw [hsame]; exact hq, fun hl => hmiss ((hwrote.listed _).mp hl)⟩
        refine ⟨e, db₂, [key b] ++ ws, pid, ?_, hwrote.lostAt hlost⟩
        change (body b >>= fun _ => items.forM body) db = _
        rw [bind_ok (hstep.trans hflush), hrun]
      · obtain ⟨e, db₁, hflush, hlost⟩ := flushPage_lost h hdirty hlisted
        refine ⟨e, db₁, [], key b, ?_, hlost⟩
        change (body b >>= fun _ => items.forM body) db = _
        exact bind_error (hstep.trans hflush)
    | false =>
      have hskip : chosen sel db ((b :: items).map key) = chosen sel db (items.map key) := by
        simp [chosen, hb]
      rw [hskip] at hmissing
      obtain ⟨e, db₁, ws, pid, hrun, hlost⟩ := ih hrest hnodup.2 h hpages hmissing
      refine ⟨e, db₁, ws, pid, ?_, hlost⟩
      change (body b >>= fun _ => items.forM body) db = _
      simp only [hb, Bool.false_eq_true, if_false] at hstep
      rw [bind_ok hstep, hrun]

end Loop

theorem flushPage_body (pages : PagesMap) (pids : List PageId) :
    FlushBody id Option.isSome pages (flushPage : PageId → DbM π (Logged δ) Unit) pids := by
  intro pid _ db h _
  cases hm : db.mark pid with
  | none => simpa [hm] using flushPage_clean h hm
  | some tid => simp [hm]

theorem flushOwned_body (pages : PagesMap) (tid : TransactionId) :
    FlushBody Sigma.fst (fun m => m = some tid) pages
      (flushOwned tid : _ → DbM π (Logged δ) Unit) pages.entries := by
  intro item hitem db h hpages
  have hl : db.pages.lookup item.1 = some item.2 := by
    rw [hpages]
    exact AList.mem_lookup_iff.mpr hitem
  obtain ⟨obj, hobj, -, hmark⟩ := h.dirty hl
  simp only [flushOwned, bind_ok (deref_run hobj), hmark, decide_eq_true_eq]
  split <;> rfl

omit [CatalogFiles π δ] in
theorem mem_chosen_keys {sel : Option TransactionId → Bool} (hsel : sel none = false) :
    pid ∈ chosen sel db db.pages.keys ↔ sel (db.mark pid) = true := by
  simp only [chosen, List.mem_filter, and_iff_right_iff_imp]
  intro hmark
  cases hl : db.pages.lookup pid with
  | none => simp [Database.mark_of_none hl, hsel] at hmark
  | some ref =>
    rw [← AList.mem_keys, ← AList.lookup_isSome, hl]
    rfl

end BufferPool

/-- What an eviction of the page `pid` does. -/
structure Evicted (pid : PageId) (db db' : Database π (Logged δ)) : Prop where
  pages : db'.pages = db.pages.erase pid
  page? : ∀ q, q ≠ pid → db'.page? q = db.page? q
  mark : ∀ q, q ≠ pid → db'.mark q = db.mark q
  log : db'.files.log = db.files.log ++ if (db.mark pid).isSome then [.written pid] else []

omit [CatalogFiles π δ] in
theorem Database.victim_resident (db : Database π δ) (h : db.pages.keys ≠ []) :
    ∃ pid ∈ db.pages.keys, db.victim = some pid := by
  have hlt := Nat.mod_lt (db.order 0) (List.length_pos_iff.mpr h)
  exact ⟨_, List.getElem_mem hlt, List.getElem?_eq_getElem hlt⟩

namespace FlushCall

open BufferPool

/-- A call that finds the tables of all pages it is to write writes these pages, each once. -/
theorem run_wrote (h : FiledById db) {call : FlushCall} (hcall : call ≠ .evictPage)
    (hlisted : ∀ pid, call.Flushes db pid →
      CatalogFiles.Listed π db.files.files pid.getTableId) :
    ∃ ws db', call.run db = .ok () db' ∧ Wrote ws db db' ∧ ws.Nodup ∧
      ∀ pid, pid ∈ ws ↔ call.Flushes db pid := by
  cases call with
  | flushPage pid =>
    cases hd : (db.mark pid).isSome with
    | true =>
      obtain ⟨db', hrun, hwrote⟩ := flushPage_wrote h hd (hlisted pid ⟨rfl, hd⟩)
      refine ⟨[pid], db', hrun, hwrote, List.nodup_singleton pid, ?_⟩
      intro q
      simp only [List.mem_singleton, Flushes, iff_self_and]
      rintro rfl
      exact hd
    | false =>
      have hclean : db.mark pid = none := by simpa using hd
      refine ⟨[], db, flushPage_clean h hclean, Wrote.refl h, List.nodup_nil, ?_⟩
      intro q
      simp only [List.not_mem_nil, Flushes, false_iff, not_and]
      rintro rfl
      simp [hd]
  | flushPages tid =>
    have hmem : ∀ pid, pid ∈ chosen (fun m => m = some tid) db db.pages.keys ↔
        db.mark pid = some tid := by
      intro pid
      simp [mem_chosen_keys]
    obtain ⟨db', hrun, hwrote⟩ := flushLoop_wrote (by simp) db.pages.entries
      (flushOwned_body db.pages tid) db.pages.nodupKeys h rfl
      (fun pid hpid => hlisted pid ((hmem pid).mp hpid))
    exact ⟨_, db', hrun, hwrote, db.pages.nodupKeys.filter _, hmem⟩
  | flushAllPages =>
    obtain ⟨db', hrun, hwrote⟩ := flushLoop_wrote (by simp) db.pages.keys
      (flushPage_body db.pages _) (by rw [List.map_id]; exact db.pages.nodupKeys) h rfl
      (fun pid hpid => hlisted pid ((mem_chosen_keys rfl).mp (by simpa using hpid)))
    simp only [List.map_id] at hwrote
    exact ⟨_, db', hrun, hwrote, db.pages.nodupKeys.filter _, fun pid => mem_chosen_keys rfl⟩
  | evictPage => exact absurd rfl hcall

theorem not_flushes (hwrote : Wrote ws db db') {call : FlushCall} (hcall : call ≠ .evictPage)
    (hws : ∀ pid, pid ∈ ws ↔ call.Flushes db pid) (pid : PageId) : ¬ call.Flushes db' pid := by
  have hmark := hwrote.mark pid
  intro hflushes
  by_cases hmem : pid ∈ ws
  · have hdirty := hflushes.dirty
    simp [hmark, hmem] at hdirty
  · simp only [hmem, if_false] at hmark
    apply hmem
    rw [hws]
    cases call with
    | evictPage => exact absurd rfl hcall
    | _ => simpa only [Flushes, hmark] using hflushes

end FlushCall

namespace BufferPool

theorem evictPage_none (hvictim : db.victim = none) : evictPage db = .ok () db := by
  rw [evictPage, bind_ok (get_run db)]
  simp only [show db.pages.keys[db.order 0 % db.pages.keys.length]? = none from hvictim]
  rfl

theorem evictPage_evicted (h : FiledById db) (hvictim : db.victim = some pid)
    (hlisted : (db.mark pid).isSome → CatalogFiles.Listed π db.files.files pid.getTableId) :
    ∃ db', evictPage db = .ok () db' ∧ Evicted pid db db' := by
  let db₀ : Database π (Logged δ) := { db with order := fun n => db.order (n + 1) }
  have h₀ : FiledById db₀ := h
  obtain ⟨ws, db₁, hrun, hwrote, hlog⟩ : ∃ ws db₁, flushPage pid db₀ = .ok () db₁ ∧
      Wrote ws db₀ db₁ ∧ ws = if (db.mark pid).isSome then [pid] else [] := by
    cases hd : (db.mark pid).isSome with
    | true =>
      obtain ⟨db₁, hrun, hwrote⟩ := flushPage_wrote h₀ hd (hlisted hd)
      exact ⟨[pid], db₁, hrun, hwrote, rfl⟩
    | false =>
      have hclean : db.mark pid = none := by simpa using hd
      exact ⟨[], db₀, flushPage_clean h₀ hclean, Wrote.refl h₀, rfl⟩
  let db₂ : Database π (Logged δ) := { db₁ with pages := db₁.pages.erase pid }
  have hobject : ∀ q, q ≠ pid → db₂.object? q = db₁.object? q := by
    intro q hq
    simp only [Database.object?, db₂, AList.lookup_erase_ne hq]
  have hws : ∀ q, q ≠ pid → q ∉ ws := by
    intro q hq
    rw [hlog]
    split <;> simp [hq]
  refine ⟨db₂, ?_, ?_, ?_, ?_, ?_⟩
  · rw [evictPage, bind_ok (get_run db)]
    simp only [show db.pages.keys[db.order 0 % db.pages.keys.length]? = some pid from hvictim]
    rw [bind_ok (modify_run _ db), bind_ok hrun]
    rfl
  · exact congrArg (AList.erase pid) hwrote.pages
  · intro q hq
    simp only [Database.page?, hobject q hq]
    exact hwrote.page? q
  · intro q hq
    simp only [Database.mark, hobject q hq]
    have hmark := hwrote.mark q
    simp only [hws q hq, if_false] at hmark
    exact hmark
  · have hlog₁ := hwrote.log
    rw [hlog] at hlog₁
    rw [show db₂.files.log = db₁.files.log from rfl, hlog₁]
    split <;> rfl

end BufferPool

namespace FlushCall

open BufferPool

/-- A call that meets a dirty page of a missing table fails, and the page loses its update. -/
theorem run_lost (h : FiledById db) {call : FlushCall} {pid : PageId}
    (hflushes : call.Flushes db pid)
    (hmissing : ¬ CatalogFiles.Listed π db.files.files pid.getTableId) :
    ∃ e db' ws q, call.run db = .error e db' ∧ LostAt ws q db db' := by
  cases call with
  | flushPage q =>
    obtain ⟨rfl, hd⟩ := hflushes
    obtain ⟨e, db', hrun, hlost⟩ := flushPage_lost h hd hmissing
    exact ⟨e, db', [], pid, hrun, hlost⟩
  | flushPages tid =>
    have hmem : pid ∈ chosen (fun m => m = some tid) db (db.pages.entries.map Sigma.fst) :=
      (mem_chosen_keys (by simp)).mpr (decide_eq_true hflushes)
    exact flushLoop_lost (by simp) db.pages.entries (flushOwned_body db.pages tid)
      db.pages.nodupKeys h rfl ⟨pid, hmem, hmissing⟩
  | flushAllPages =>
    have hmem : pid ∈ chosen Option.isSome db db.pages.keys := (mem_chosen_keys rfl).mpr hflushes
    exact flushLoop_lost (by simp) db.pages.keys (flushPage_body db.pages _)
      (by rw [List.map_id]; exact db.pages.nodupKeys) h rfl ⟨pid, by simpa using hmem, hmissing⟩
  | evictPage =>
    obtain ⟨hvictim, hd⟩ := hflushes
    let db₀ : Database π (Logged δ) := { db with order := fun n => db.order (n + 1) }
    have h₀ : FiledById db₀ := h
    obtain ⟨e, db', hrun, hlost⟩ := flushPage_lost h₀ hd hmissing
    refine ⟨e, db', [], pid, ?_, hlost.dirty, hlost.unwritten, hlost.log, hlost.clean⟩
    change BufferPool.evictPage db = _
    rw [BufferPool.evictPage, bind_ok (get_run db)]
    simp only [show db.pages.keys[db.order 0 % db.pages.keys.length]? = some pid from hvictim]
    rw [bind_ok (modify_run _ db)]
    exact bind_error hrun

end FlushCall

end PagedDb
