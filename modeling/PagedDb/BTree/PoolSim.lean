import PagedDb.BTree.PoolPages

/-!
# The pool over a file follows the map of pages

Every way the code of a tree reaches the pool does to the map of pages what the
map itself does, so an insertion through the pool ends as one on the map, with
any number of pages in the pool and any choice of evicted pages.
-/

namespace PagedDb

open Exec

namespace PoolTree

variable {δ : Type} [IdealDisk δ] {db db' : Database BTreeFilePage δ} {dirtypages : PagesMap}
  {t : LogicalTree} {pid pid' : PageId} {ref : Ref}

/-- A page that goes into `dirtypages` is what the pool's object holds. -/
theorem Couples.take (h : Couples db dirtypages t) {n : Int32} {p : BTreeFilePage}
    (hp : t.pages n = some p) (hd : dirtypages.lookup (.btree p.getId) = none)
    (hl : db.pages.lookup (.btree p.getId) = some ref) :
    Couples db (dirtypages.insert (.btree p.getId) ref) t := by
  have hdne : ∀ j, j ≠ .btree p.getId →
      (dirtypages.insert (.btree p.getId) ref).lookup j = dirtypages.lookup j :=
    fun j hj => AList.lookup_insert_ne hj
  refine ⟨h.tableid, h.keyField, h.pageSize, h.limit, h.clearGrowth, h.blank, h.size, h.known, ?_,
    ?_, ?_, h.fresh⟩
  · intro m q hq r hr
    by_cases hid : q.getId = p.getId
    · obtain rfl : n = m := by rw [← (h.known n p hp).1, ← (h.known m q hq).1, hid]
      obtain rfl : p = q := Option.some.inj (hp.symm.trans hq)
      rw [AList.lookup_insert] at hr
      cases hr
      obtain ⟨_, _, obj, -, heq, hobj, rfl⟩ := h.owner (.inr hl)
      have hrest := h.rests n p hp hd
      rw [Rests, hl] at hrest
      obtain ⟨o, ho, hpage, -⟩ := hrest
      exact ⟨⟨o, ho, hpage⟩, fun r' hr' => Option.some.inj (hr'.symm.trans hl)⟩
    · rw [hdne _ fun heq => hid (PageId.btree.inj heq)] at hr
      exact h.inUse m q hq r hr
  · intro m q hq hr
    have hne : PageId.btree q.getId ≠ .btree p.getId := by
      intro heq
      rw [heq, AList.lookup_insert] at hr
      cases hr
    rw [hdne _ hne] at hr
    exact h.rests m q hq hr
  · intro j hsome
    by_cases hid : j = .btree p.getId
    · exact ⟨n, p, hp, hid⟩
    · rw [hdne j hid] at hsome
      exact h.cached j hsome

variable {s s' : PoolTree δ}

/-- `BTreeFile::getPage`. -/
theorem getPage_couples (h : Couples s.db s.dirtypages t) {n : Int32} {p : BTreeFilePage}
    (hp : t.pages n = some p) (perm : Permissions) :
    ∃ ref s', getPage p.getId perm s = .ok ref s' ∧ Couples s'.db s'.dirtypages t ∧
      (∀ pid ref, s.dirtypages.lookup pid = some ref → s'.dirtypages.lookup pid = some ref) ∧
      (perm = .readWrite → s'.dirtypages.lookup (.btree p.getId) = some ref) ∧
      ∃ obj, s'.db.objects[ref]? = some obj ∧ obj.page = p := by
  rw [getPage, bind_ok (get_run s)]
  cases hd : s.dirtypages.lookup (.btree p.getId) with
  | some ref => exact ⟨ref, s, rfl, h, fun _ _ hl => hl, fun _ => hd, (h.inUse n p hp ref hd).1⟩
  | none =>
    obtain ⟨db', ref, hget, h', hl⟩ := h.getPage hp hd
    have hobj : ∃ obj, db'.objects[ref]? = some obj ∧ obj.page = p := by
      have hrest := h'.rests n p hp hd
      rw [Rests, hl] at hrest
      obtain ⟨o, ho, hpage, -⟩ := hrest
      exact ⟨o, ho, hpage⟩
    have hon : onDb (BufferPool.getPage (.btree p.getId)) s = .ok ref { s with db := db' } :=
      zoom_ok hget
    simp only [bind_ok hon]
    cases perm with
    | readOnly =>
      exact ⟨ref, _, rfl, h', fun _ _ hl => hl, fun hperm => absurd hperm (by simp), hobj⟩
    | readWrite =>
      refine ⟨ref, _, rfl, h'.take hp hd hl, ?_, fun _ => AList.lookup_insert _, hobj⟩
      intro pid r hr
      have hne : pid ≠ .btree p.getId := by
        rintro rfl
        rw [hd] at hr
        cases hr
      exact (AList.lookup_insert_ne hne).trans hr

/-- How the pages can go on: nothing leaves `dirtypages`, no page disappears, and a page that is
not what it was, or not empty if it is new, is in `dirtypages`. -/
structure Advances (s : PoolTree δ) (t : LogicalTree) (s' : PoolTree δ) (t' : LogicalTree) :
    Prop where
  dirty : ∀ pid ref, s.dirtypages.lookup pid = some ref → s'.dirtypages.lookup pid = some ref
  page : ∀ n p, t.pages n = some p → ∃ p', t'.pages n = some p' ∧ p'.getId = p.getId
  blank : t'.blank = t.blank
  changed : ∀ n p, t'.pages n = some p → (t.pages n).getD (t.blank 0 p.getId) = p ∨
    (s'.dirtypages.lookup (.btree p.getId)).isSome

omit [IdealDisk δ] in
theorem Advances.samePages {s s' : PoolTree δ} {t t' : LogicalTree} (hpages : t'.pages = t.pages)
    (hblank : t'.blank = t.blank)
    (hdirty : ∀ pid ref, s.dirtypages.lookup pid = some ref → s'.dirtypages.lookup pid = some ref) :
    Advances s t s' t' where
  dirty := hdirty
  page n p hp := ⟨p, by rw [hpages, hp], rfl⟩
  blank := hblank
  changed n p hp := by
    rw [hpages] at hp
    exact .inl (by rw [hp]; rfl)

/-- The pool follows the map of pages. -/
def coupling : Coupling Fault (PoolTree δ) LogicalTree where
  stuck := LogicalTree.stuck
  Inv s t := Couples s.db s.dirtypages t
  Evolves := Advances
  refl _ _ := .samePages rfl rfl fun _ _ hl => hl
  trans := by
    intro s t s' t' s'' t'' h h'
    refine ⟨fun pid ref hl => h'.dirty pid ref (h.dirty pid ref hl), fun n p hp => ?_,
      h'.blank.trans h.blank, fun n p hp => ?_⟩
    · obtain ⟨p', hp', hid⟩ := h.page n p hp
      obtain ⟨p'', hp'', hid'⟩ := h'.page n p' hp'
      exact ⟨p'', hp'', hid'.trans hid⟩
    · rcases h'.changed n p hp with heq | hsome
      · cases hp' : t'.pages n with
        | none =>
          have hnone : t.pages n = none := by
            cases hold : t.pages n with
            | none => rfl
            | some q =>
              obtain ⟨q', hq', -⟩ := h.page n q hold
              rw [hp'] at hq'
              cases hq'
          rw [hp', h.blank] at heq
          exact .inl (by rw [hnone]; exact heq)
        | some p' =>
          rw [hp'] at heq
          obtain rfl : p' = p := heq
          refine (h.changed n p' hp').imp_right fun hsome => ?_
          obtain ⟨ref, hl⟩ := Option.isSome_iff_exists.mp hsome
          rw [h'.dirty _ ref hl]
          rfl
      · exact .inr hsome

/-- The pointer is the one in `dirtypages` for the page. -/
def Held (ref : Ref) (n : Int32) (s : PoolTree δ) (t : LogicalTree) : Prop :=
  ∃ p, t.pages n = some p ∧ s.dirtypages.lookup (.btree p.getId) = some ref

def Seen (ref : Ref) (n : Int32) (s : PoolTree δ) (t : LogicalTree) : Prop :=
  ∃ obj, s.db.objects[ref]? = some obj ∧ t.pages n = some obj.page

theorem getPage_agrees (h : Couples s.db s.dirtypages t) (id : BTreePageId) (perm : Permissions) :
    Agrees coupling s t (fun ref n s' t' => Seen ref n s' t' ∧
        (perm = .readWrite → Held ref n s' t'))
      ((TreeStore.getPage id perm : EStateM Fault (PoolTree δ) Ref) s)
      (TreeStore.getPage id perm t) := by
  by_cases hin : t.InFile id
  · cases hp : t.pages id.pgNo with
    | some p =>
      by_cases hid : p.getId = id
      · rw [LogicalTree.getPage_run perm hp hid hin]
        subst hid
        obtain ⟨ref, s', hrun, h', hgrow, hheld, obj, hobj, hpage⟩ := getPage_couples h hp perm
        change Agrees coupling s t _ (getPage p.getId perm s) _
        rw [hrun]
        exact Agrees.ok h' (Advances.samePages rfl rfl hgrow)
          ⟨⟨obj, hobj, by rw [hp, hpage]⟩, fun hperm => ⟨p, hp, hheld hperm⟩⟩
      · have hstuck : (TreeStore.getPage id perm : EStateM Fault LogicalTree Int32) t =
            .error LogicalTree.stuck t := by
          change LogicalTree.getPage id t = _
          simp [LogicalTree.getPage, hin, hp, hid]
        rw [hstuck]
        exact Agrees.stuck _ _
    | none =>
      rw [LogicalTree.getPage_touch perm hp hin]
      have htouched := h.touch hin hp
      have hpage : (t.touch id).pages id.pgNo = some (t.blank t.reads id) :=
        Function.update_self _ _ _
      have hid : (t.blank t.reads id).getId = id := by rw [h.blank, emptyPage_id]
      obtain ⟨ref, s', hrun, h', hgrow, hheld, obj, hobj, hpage'⟩ :=
        getPage_couples htouched hpage perm
      rw [hid] at hrun hheld
      change Agrees coupling s t _ (getPage id perm s) _
      rw [hrun]
      refine Agrees.ok h' ⟨hgrow, fun m q hq => ⟨q, ?_, rfl⟩, rfl, fun m q hq => .inl ?_⟩
        ⟨⟨obj, hobj, by rw [hpage, hpage']⟩, fun hperm => ⟨_, hpage, by rw [hid]; exact hheld hperm⟩⟩
      · have hne : m ≠ id.pgNo := by
          rintro rfl
          rw [hq] at hp
          cases hp
        exact (Function.update_of_ne hne _ _).trans hq
      · by_cases hm : m = id.pgNo
        · subst hm
          rw [hpage] at hq
          cases hq
          rw [hp, hid, h.blank t.reads, ← h.blank 0]
          rfl
        · have hq' : t.pages m = some q := (Function.update_of_ne hm _ _).symm.trans hq
          rw [hq']
          rfl
  · have hstuck : (TreeStore.getPage id perm : EStateM Fault LogicalTree Int32) t =
        .error LogicalTree.stuck t := by
      change LogicalTree.getPage id t = _
      simp [LogicalTree.getPage, hin]
    rw [hstuck]
    exact Agrees.stuck _ _

theorem Couples.setFiles (h : Couples db dirtypages t) {files : δ} {size : ℕ}
    (htableid : BTreeDisk.tableid files = BTreeDisk.tableid db.files)
    (hkeyField : BTreeDisk.keyField files = BTreeDisk.keyField db.files)
    (htd : IdealDisk.td files = IdealDisk.td db.files) (hsize : IdealDisk.size files = size)
    (hgrow : t.size ≤ size)
    (hknown : ∀ n p, t.pages n = some p →
      IdealDisk.content files db.pageSize p.getId = IdealDisk.content db.files db.pageSize p.getId)
    (hfresh : ∀ id, ({ t with size } : LogicalTree).InFile id → t.pages id.pgNo = none →
      IdealDisk.content files db.pageSize id = t.blank 0 id) :
    Couples { db with files } dirtypages { t with size } := by
  have hin : ∀ id, t.InFile id → ({ t with size } : LogicalTree).InFile id := by
    rintro id ⟨hroot, -, htable, hnum⟩
    refine ⟨le_trans hroot hgrow, by simp [h.limit], htable, ?_⟩
    split_ifs at hnum ⊢
    · exact hnum
    · have hle : t.getNumPages ≤ ({ t with size } : LogicalTree).getNumPages :=
        Nat.div_le_div_right (Nat.sub_le_sub_right hgrow _)
      exact ⟨hnum.1, le_trans hnum.2 (by exact_mod_cast hle)⟩
  refine ⟨htableid.trans h.tableid, hkeyField.trans h.keyField, h.pageSize, h.limit, h.clearGrowth,
    ?_, hsize, fun n p hp => ⟨(h.known n p hp).1, hin _ (h.known n p hp).2⟩, h.inUse, ?_, h.cached,
    hfresh⟩
  · intro k
    rw [htd]
    exact h.blank k
  · intro n p hp hd
    have hrest := h.rests n p hp hd
    unfold Rests at hrest ⊢
    rwa [hknown n p hp]

theorem Couples.no_pages (h : Couples db dirtypages t) (hempty : t.size = 0) (n : Int32) :
    t.pages n = none := by
  cases hp : t.pages n with
  | none => rfl
  | some p =>
    have hroot := (h.known n p hp).2.1
    rw [hempty] at hroot
    exact absurd hroot (by decide)

theorem onFile_agrees {f : δ → ℕ → δ} {size : ℕ}
    (h : Couples { s.db with files := f s.db.files s.db.pageSize } s.dirtypages { t with size }) :
    Agrees coupling s t (fun _ _ _ _ => True) (onFile f s) (.ok () { t with size }) :=
  Agrees.ok (C := coupling) h (Advances.samePages rfl rfl fun _ _ hl => hl) trivial

theorem createFile_agrees (h : Couples s.db s.dirtypages t) :
    Agrees coupling s t (fun _ _ _ _ => True) (onFile BTreeDisk.createFile s)
      (LogicalTree.createFile t) := by
  unfold LogicalTree.createFile
  split
  · rename_i hempty
    obtain ⟨htableid, hkeyField, htd, hsize, hcontent⟩ :=
      IdealDisk.create_ok s.db.files s.db.pageSize (h.size.trans hempty)
    apply onFile_agrees
    apply h.setFiles htableid hkeyField htd (by rw [hsize, h.pageSize]) (by omega)
    · intro n p hp
      rw [h.no_pages hempty n] at hp
      cases hp
    · intro id _ _
      rw [hcontent, h.blank, h.keyField, h.pageSize]
  · exact Agrees.stuck _ _

theorem appendPage_agrees (h : Couples s.db s.dirtypages t) :
    Agrees coupling s t (fun _ _ _ _ => True) (onFile BTreeDisk.appendPage s)
      (LogicalTree.appendPage t) := by
  unfold LogicalTree.appendPage
  split
  · rename_i hroot
    obtain ⟨htableid, hkeyField, htd, hsize, hcontent⟩ :=
      IdealDisk.append_ok s.db.files s.db.pageSize
    apply onFile_agrees
    apply h.setFiles htableid hkeyField htd (by rw [hsize, h.size, h.pageSize])
      (Nat.le_add_right _ _)
    · intro n p hp
      rw [hcontent, if_pos (h.stored hp).2]
    · intro id hin hnone
      rw [hcontent]
      split
      · rename_i hnum
        apply h.fresh id ⟨hroot, by simp [h.limit], ?_⟩ hnone
        rwa [h.tableid, IdealDisk.getNumPages_eq, h.size, h.pageSize] at hnum
      · rw [h.blank, h.keyField, h.pageSize]
  · exact Agrees.stuck _ _

theorem clearPage_agrees (h : Couples s.db s.dirtypages t) (n : Int32) :
    Agrees coupling s t (fun _ _ _ _ => True)
      (onFile (fun f pageSize => BTreeDisk.clearPage f pageSize n) s) (LogicalTree.clearPage n t) := by
  unfold LogicalTree.clearPage
  split
  · rename_i hn
    obtain ⟨hnone, -, hpos, hle⟩ := hn
    have hle' : n.toInt ≤ BTreeDisk.getNumPages s.db.files s.db.pageSize := by
      rwa [IdealDisk.getNumPages_eq, h.size, h.pageSize]
    obtain ⟨htableid, hkeyField, htd, hsize, hcontent⟩ :=
      IdealDisk.clear_ok s.db.files s.db.pageSize n hpos hle'
    apply onFile_agrees
    apply h.setFiles htableid hkeyField htd
      (by rw [hsize, h.size, h.clearGrowth, Nat.add_zero]) (Nat.le_add_right _ _)
    · intro m p hp
      apply hcontent
      rintro rfl
      rw [(h.known m p hp).1, hp] at hnone
      cases hnone
    · intro id hin hid
      have hin' : t.InFile id := by
        simpa [LogicalTree.InFile, LogicalTree.getNumPages, h.clearGrowth] using hin
      rw [hcontent, h.fresh id hin' hid]
      intro _
      rw [h.fresh id hin' hid, h.blank, h.keyField, h.pageSize]
  · exact Agrees.stuck _ _

theorem erase_of_lookup_none {pages : PagesMap} (h : pages.lookup pid = none) :
    pages.erase pid = pages := by
  have hnot : pid ∉ pages := by
    rw [← AList.lookup_isSome, h]
    simp
  exact AList.ext (List.kerase_of_notMem_keys hnot)

theorem discardPage_agrees (h : Couples s.db s.dirtypages t) (id : BTreePageId) :
    Agrees coupling s t (fun _ _ _ _ => True) (discardPage id s) (LogicalTree.discardPage id t) := by
  unfold LogicalTree.discardPage
  split
  · rename_i hnone
    obtain ⟨hd, hl⟩ := h.not_cached hnone
    have hpool : onDb (BufferPool.discardPage (.btree id)) s = .ok () s := by
      have hdiscard : BufferPool.discardPage (.btree id) s.db = .ok () s.db := by
        rw [BufferPool.discardPage, modify_run, erase_of_lookup_none hl]
      exact zoom_ok hdiscard
    have hrun : discardPage id s = .ok () s := by
      rw [discardPage, bind_ok hpool, modify_run, erase_of_lookup_none hd]
    rw [hrun]
    exact Agrees.ok (C := coupling) h (coupling.refl s t) trivial
  · exact Agrees.stuck _ _

theorem load_agrees (h : Couples s.db s.dirtypages t) {ref : Ref} {n : Int32}
    (hs : Seen ref n s t) :
    Agrees coupling s t (fun p q s' t' => p = q ∧ s' = s ∧ t' = t)
      ((TreeStore.load ref : EStateM Fault (PoolTree δ) BTreeFilePage) s) (TreeStore.load n t) := by
  obtain ⟨obj, hobj, hp⟩ := hs
  have hrun : onDb (deref ref) s = .ok obj s := zoom_ok (deref_run hobj)
  have hload : (TreeStore.load ref : EStateM Fault (PoolTree δ) BTreeFilePage) s =
      .ok obj.page s := by
    change (onDb (deref ref) >>= fun obj => pure obj.page) s = _
    rw [bind_ok hrun]
    rfl
  rw [hload, LogicalTree.load_run hp]
  exact Agrees.ok (C := coupling) h (coupling.refl s t) ⟨rfl, rfl, rfl⟩

theorem store_agrees (h : Couples s.db s.dirtypages t) {ref : Ref} {n : Int32}
    (hh : Held ref n s t) (q : BTreeFilePage) :
    Agrees coupling s t (fun _ _ _ _ => True)
      ((TreeStore.store ref q : EStateM Fault (PoolTree δ) Unit) s) (TreeStore.store n q t) := by
  obtain ⟨p, hp, hd⟩ := hh
  obtain ⟨⟨obj, hobj, rfl⟩, -⟩ := h.inUse n p hp ref hd
  by_cases hid : obj.page.getId = q.getId
  · rw [LogicalTree.store_run hp hid]
    have hrun : onDb (deref ref) s = .ok obj s := zoom_ok (deref_run hobj)
    change Agrees coupling s t _ ((onDb (deref ref) >>= _) s) _
    rw [bind_ok hrun]
    have hset := @Couples.setObject _ _ _ _ _ _ h _ _ hp hd { obj with page := q } hid.symm
    refine Agrees.ok (C := coupling) hset ⟨fun _ _ hl => hl, fun m r hr => ?_, rfl,
      fun m r hr => ?_⟩ trivial
    · rcases eq_or_ne m n with rfl | hne
      · obtain rfl : obj.page = r := Option.some.inj (hp.symm.trans hr)
        exact ⟨q, LogicalTree.setPage_self, hid.symm⟩
      · exact ⟨r, (LogicalTree.setPage_ne hne).trans hr, rfl⟩
    · rcases eq_or_ne m n with rfl | hne
      · rw [LogicalTree.setPage_self] at hr
        cases hr
        refine .inr (Option.isSome_iff_exists.mpr ⟨ref, ?_⟩)
        rw [← hid]
        exact hd
      · rw [LogicalTree.setPage_ne hne] at hr
        exact .inl (by rw [hr]; rfl)
  · have hstuck : (TreeStore.store n q : EStateM Fault LogicalTree Unit) t =
        .error LogicalTree.stuck t := by
      change LogicalTree.store n q t = _
      simp [LogicalTree.store, hp, hid]
    rw [hstuck]
    exact Agrees.stuck _ _

/-- The buffer pool reaches pages as the map of pages says, whatever it evicts. -/
def sim : TreeSim (PoolTree δ) Ref where
  toCoupling := coupling
  stuck_eq := rfl
  Held := Held
  Seen := Seen
  seen_of_held := by
    intro s t h ref n hh
    obtain ⟨p, hp, hd⟩ := hh
    obtain ⟨⟨obj, hobj, rfl⟩, -⟩ := Couples.inUse h n p hp ref hd
    exact ⟨obj, hobj, hp⟩
  held_evolves := by
    intro s t s' t' ref n hev hh
    obtain ⟨p, hp, hd⟩ := hh
    obtain ⟨p', hp', hid⟩ := Advances.page hev n p hp
    exact ⟨p', hp', by rw [hid]; exact Advances.dirty hev _ _ hd⟩
  tableid h := Couples.tableid h
  keyField h := Couples.keyField h
  pageSize h := Couples.pageSize h
  isEmpty := by
    intro s t h
    change BTreeDisk.isEmpty s.db.files = decide (t.size = 0)
    rw [IdealDisk.isEmpty_eq, Couples.size h]
  getNumPages := by
    intro s t h
    change BTreeDisk.getNumPages s.db.files s.db.pageSize = t.getNumPages
    rw [IdealDisk.getNumPages_eq, Couples.size h, Couples.pageSize h]
    rfl
  readPage h id := (getPage_agrees h id .readOnly).mono fun _ _ _ _ hq => hq.1
  writePage h id := (getPage_agrees h id .readWrite).mono fun _ _ _ _ hq => hq.2 rfl
  load h _ _ hs := load_agrees h hs
  store h _ _ hh p := store_agrees h hh p
  createFile h := createFile_agrees h
  appendPage h := appendPage_agrees h
  clearPage h n := clearPage_agrees h n
  discardPage h id := discardPage_agrees h id

theorem erase_entries_perm {pages : PagesMap} (hl : pages.lookup pid = some ref) :
    (pages.entries.map Sigma.snd).Perm (ref :: (pages.erase pid).entries.map Sigma.snd) := by
  have hmem : pid ∈ pages.entries.keys := by
    apply AList.mem_keys.mp
    rw [← AList.lookup_isSome, hl]
    rfl
  obtain ⟨r, l₁, l₂, hnot, heq, herase⟩ := List.exists_of_kerase hmem
  have hr : pages.lookup pid = some r := by
    apply AList.mem_lookup_iff.mpr
    rw [heq]
    simp
  obtain rfl : ref = r := Option.some.inj (hl.symm.trans hr)
  rw [show (pages.erase pid).entries = l₁ ++ l₂ from herase, heq]
  simp

theorem registerAll (tid : TransactionId) {refs : List Ref} (h : Couples db dirtypages t)
    (hrefs : refs.Perm (dirtypages.entries.map Sigma.snd)) :
    ∃ db', refs.forM (BufferPool.registerDirty tid) db = .ok ⟨⟩ db' ∧ Couples db' ∅ t := by
  induction refs generalizing db dirtypages with
  | nil =>
    have hnil : dirtypages = ∅ := AList.ext (by simpa using hrefs.symm.eq_nil)
    exact ⟨db, rfl, hnil ▸ h⟩
  | cons ref refs ih =>
    obtain ⟨⟨pid, r⟩, he, rfl⟩ := List.mem_map.mp (hrefs.mem_iff.mp List.mem_cons_self)
    have hl : dirtypages.lookup pid = some r := AList.mem_lookup_iff.mpr he
    obtain ⟨db₁, hrun, h₁⟩ := h.registerDirty hl tid
    obtain ⟨db₂, hrest, h₂⟩ := ih h₁ (hrefs.trans (erase_entries_perm hl)).cons_inv
    refine ⟨db₂, ?_, h₂⟩
    change (BufferPool.registerDirty tid r >>= fun _ => refs.forM _) db = _
    rw [bind_ok hrun, hrest]

theorem insertTuple_advances (h : Couples s.db ∅ t) {tuple u : Tuple} {t' : LogicalTree}
    (hrun : BTreeFile.insertTuple tuple t = .ok u t') :
    ∃ s₁, BTreeFile.insertTuple tuple { s with dirtypages := ∅ } = .ok u s₁ ∧
      Couples s₁.db s₁.dirtypages t' ∧ Advances { s with dirtypages := ∅ } t s₁ t' := by
  have hagrees := (sim (δ := δ)).insertTuple (s := { s with dirtypages := ∅ }) h tuple
  rw [hrun] at hagrees
  obtain ⟨u', s₁, hins, h₁, hev, rfl⟩ := hagrees.of_ok
  exact ⟨s₁, hins, h₁, hev⟩

/-- `BufferPool::insertTuple` follows the map of pages where that returns, whatever the pool
evicts and in whatever order the dirty pages come back. -/
theorem insertTuple_ok (h : Couples s.db ∅ t) (call : InsertCall) {tuple : Tuple}
    {t' : LogicalTree} (hrun : BTreeFile.insertTuple call.tuple t = .ok tuple t') :
    ∃ s', insertTuple call s = .ok tuple s' ∧ Couples s'.db ∅ t' := by
  obtain ⟨s₁, hins, h₁, -⟩ := insertTuple_advances h hrun
  obtain ⟨db₂, hregister, h₂⟩ := registerAll call.tid h₁ (call.arrange_perm s₁.returned)
  refine ⟨{ s₁ with db := db₂ }, ?_, h₂⟩
  have hon : onDb ((call.arrange s₁.returned).forM (BufferPool.registerDirty call.tid)) s₁ =
      .ok ⟨⟩ { s₁ with db := db₂ } := zoom_ok hregister
  rw [insertTuple, bind_ok (modify_run _ s), bind_ok hins, bind_ok (get_run s₁), bind_ok hon]
  rfl

theorem insertTuple_error (h : Couples s.db ∅ t) (call : InsertCall) {e : Fault}
    {t' : LogicalTree} (hrun : BTreeFile.insertTuple call.tuple t = .error e t')
    (hstuck : e ≠ LogicalTree.stuck) : ∃ s', insertTuple call s = .error e s' := by
  have hagrees := (sim (δ := δ)).insertTuple (s := { s with dirtypages := ∅ }) h call.tuple
  rw [hrun] at hagrees
  obtain ⟨s₁, hins⟩ := hagrees.of_error hstuck
  exact ⟨s₁, by rw [insertTuple, bind_ok (modify_run _ s), bind_error hins]⟩

end PoolTree

end PagedDb
