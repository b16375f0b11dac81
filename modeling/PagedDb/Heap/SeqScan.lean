import PagedDb.Storage.KeysByValue
import PagedDb.Heap.KeyedScan

/-!
# Sequential scans

`SeqScan::next` moves a local copy of its iterator and stores the copy back. A page
loaded by this is filed under the id of the copy, and this key dangles as soon as the
call is over, so a later search or eviction must not read it. Besides, an iterator
that starts on a page without a used slot stands behind the last slot, and the scan
reads there before it looks for the next page.
-/

namespace PagedDb

open Exec WriteBack KeyedPool StaleKeys

namespace HeapFileIterator

/-- `operator*`. -/
def get (it : HeapFileIterator) : KeyedHeapM Tuple :=
  match it.it with
  | some pageIt => offPool pageIt.get
  | none => throw .nullDeref

def copy (it : HeapFileIterator) : KeyedHeapM HeapFileIterator := do
  let id ← readKey (.cell it.hpid)
  let hpid ← newCell id
  pure { it with hpid }

/-- `it = other`; `it` keeps its id and assigns the other one's value to it. -/
def assign (it other : HeapFileIterator) : KeyedHeapM HeapFileIterator := do
  let id ← readKey (.cell other.hpid)
  setCell it.hpid id
  pure { other with hpid := it.hpid }

end HeapFileIterator

namespace SeqScan

/-- `SeqScan::open`: the iterator the scan stores. -/
def openScan (tableid : Int32) : KeyedHeapM HeapFileIterator := do
  let db ← get
  let f ← lift (db.files.getDatabaseFile tableid)
  HeapFileIterator.begin f.tableid f.numPages

/-- `SeqScan::hasNext`: the test `it != heapFile->end()`. The copy of the iterator and the end
iterator are locals whose ids nobody keeps, so only the values are compared. -/
def hasNext (tableid : Int32) (itopt : HeapFileIterator) : KeyedHeapM Bool := do
  let db ← get
  let f ← lift (db.files.getDatabaseFile tableid)
  let hpid ← readKey (.cell itopt.hpid)
  pure (hpid ≠ .heap ⟨f.tableid, Int32.ofNat f.numPages⟩ || itopt.isEnd ≠ true)

/-- `SeqScan::next`. The life of the local `it` ends with the call. -/
def next (itopt : HeapFileIterator) : KeyedHeapM (Tuple × HeapFileIterator) := do
  let it ← itopt.copy
  let tup ← it.get
  let it ← it.next
  let itopt ← itopt.assign it
  endCell it.hpid
  pure (tup, itopt)

/-- `while (hasNext()) next()`, at most `fuel` times. -/
def loop (tableid : Int32) : ℕ → HeapFileIterator → KeyedHeapM (List Tuple)
  | 0, _ => throw .outOfFuel
  | fuel + 1, it => do
    if ← hasNext tableid it then
      let (tup, it) ← next it
      let rest ← loop tableid fuel it
      pure (tup :: rest)
    else pure []

/-- `open(); while (hasNext()) next()`. -/
def scan (tableid : Int32) (fuel : ℕ) : KeyedHeapM (List Tuple) := do
  let it ← openScan tableid
  loop tableid fuel it

section Walk

open HeapFile

variable {db db' : KeyedHeapDb} {d : HeapDb} {tbl : Int32} {td : TupleDesc} {n k c : ℕ} {ref : Ref}
  {obj : PageObject HeapPage} {γ : Type} {V : HeapPage.View γ} {r : List Tuple}

/-- The loop from `it` on ends with the tuples `r`. -/
def Ends (tbl : Int32) (it : HeapFileIterator) (db : KeyedHeapDb) (r : List Tuple) : Prop :=
  ∃ fuel db', loop tbl fuel it db = .ok r db'

/-- The iterator at slot `s` of a page, with its id in cell `c`. -/
def onPage (n c : ℕ) (ref : Ref) (s : ℕ) : HeapFileIterator := ⟨n, c, false, some ⟨s, ref⟩, some ref⟩

/-- A scan is on page `k`. Its own id, in cell `c`, is no key of the pool. -/
structure Scanning (tbl : Int32) (k c : ℕ) (db : KeyedHeapDb) (d : HeapDb) : Prop where
  kept : Kept db
  byValue : ByValue db d
  cell : db.cells[c]? = some (some (.heap (pageId tbl k)))
  unfiled : ∀ e ∈ db.entries, e.key ≠ .cell c

theorem hasNext_run {f : HeapFile} (hf : db.files.file? tbl = some f) {it : HeapFileIterator}
    {id : PageId} (hid : db.cells[it.hpid]? = some (some id)) :
    hasNext tbl it db =
      .ok (id ≠ .heap ⟨f.tableid, Int32.ofNat f.numPages⟩ || it.isEnd ≠ true) db := by
  have hread : db.idAt (.cell it.hpid) = some id := Option.join_eq_some_iff.mpr hid
  rw [hasNext, bind_ok (get_run db), bind_ok (lift_run (getDatabaseFile_ok hf) db),
    bind_ok (readKey_run hread)]
  rfl

theorem ends_iff_next {f : HeapFile} (hf : db.files.file? tbl = some f) {s : ℕ} {id : PageId}
    (hid : db.cells[c]? = some (some id)) :
    Ends tbl (onPage n c ref s) db r ↔ ∃ t it' db₁ rest,
      next (onPage n c ref s) db = .ok (t, it') db₁ ∧ Ends tbl it' db₁ rest ∧ r = t :: rest := by
  have hbody : ∀ fuel, loop tbl (fuel + 1) (onPage n c ref s) db = (do
      let (tup, it) ← next (onPage n c ref s)
      let rest ← loop tbl fuel it
      pure (tup :: rest)) db := by
    intro fuel
    rw [loop, bind_ok (hasNext_run hf hid)]
    simp [onPage]
  constructor
  · rintro ⟨fuel, db', hrun⟩
    cases fuel with
    | zero => cases hrun
    | succ fuel =>
      rw [hbody] at hrun
      obtain ⟨⟨t, it'⟩, db₁, hnext, hrest⟩ := of_bind_ok hrun
      obtain ⟨rest, db₂, hloop, hend⟩ := of_bind_ok hrest
      cases hend
      exact ⟨t, it', db₁, rest, hnext, ⟨fuel, _, hloop⟩, rfl⟩
  · rintro ⟨t, it', db₁, rest, hnext, ⟨fuel, db₂, hloop⟩, rfl⟩
    refine ⟨fuel + 1, db₂, ?_⟩
    rw [hbody, bind_ok hnext]
    change (loop tbl fuel it' >>= _) db₁ = _
    rw [bind_ok hloop]
    rfl

theorem ends_at_end {f : HeapFile} (hf : db.files.file? tbl = some f) {it : HeapFileIterator}
    (hid : db.cells[it.hpid]? = some (some (.heap ⟨f.tableid, Int32.ofNat f.numPages⟩)))
    (hend : it.isEnd = true) : Ends tbl it db r ↔ r = [] := by
  have hstop : ∀ fuel, loop tbl (fuel + 1) it db = .ok [] db := by
    intro fuel
    rw [loop, bind_ok (hasNext_run hf hid)]
    simp [hend]
  constructor
  · rintro ⟨fuel, db', hrun⟩
    cases fuel with
    | zero => cases hrun
    | succ fuel =>
      rw [hstop] at hrun
      cases hrun
      rfl
  · intro hr
    exact ⟨1, db, hr ▸ hstop 0⟩

/-- The end of `next`, when the copy `it` of the iterator is moved. -/
def finish (itopt : HeapFileIterator) (tup : Tuple) (it : HeapFileIterator) :
    KeyedHeapM (Tuple × HeapFileIterator) := do
  let itopt ← itopt.assign it
  endCell it.hpid
  pure (tup, itopt)

theorem copy_run {s : ℕ} {id : PageId} (hid : db.cells[c]? = some (some id)) :
    (onPage n c ref s).copy db =
      .ok (onPage n db.cells.length ref s) { db with cells := db.cells ++ [some id] } := by
  have hread : readKey (.cell c) db = .ok id db := readKey_run (Option.join_eq_some_iff.mpr hid)
  change (readKey (.cell c) >>= _) db = _
  rw [bind_ok hread]
  rfl

theorem next_eq {s : ℕ} {t : Tuple} {id : PageId} (hid : db.cells[c]? = some (some id))
    (hobj : db.objects[ref]? = some obj) (ht : obj.page.tuples[s]? = some t) :
    next (onPage n c ref s) db =
      ((onPage n db.cells.length ref s).next >>= finish (onPage n c ref s) t)
        { db with cells := db.cells ++ [some id] } := by
  let db₁ : KeyedHeapDb := { db with cells := db.cells ++ [some id] }
  have hget : (onPage n db.cells.length ref s).get db₁ = .ok t db₁ :=
    offPool_ok (HeapPageIterator.get_run (show db₁.below.objects[ref]? = some obj from hobj) ht)
  rw [next, bind_ok (copy_run hid), bind_ok hget]
  rfl

theorem not_ends_behind {f : HeapFile} (hf : db.files.file? tbl = some f) {id : PageId}
    (hid : db.cells[c]? = some (some id)) (hobj : db.objects[ref]? = some obj) :
    ¬ Ends tbl (onPage n c ref obj.page.numSlots) db r := by
  let db₁ : KeyedHeapDb := { db with cells := db.cells ++ [some id] }
  have hget : (onPage n db.cells.length ref obj.page.numSlots).get db₁ = .error .outOfBounds db₁ :=
    offPool_error
      (HeapPageIterator.get_behind (show db₁.below.objects[ref]? = some obj from hobj))
  rw [ends_iff_next hf hid, next, bind_ok (copy_run hid), bind_error hget]
  rintro ⟨t, it', db₂, rest, hnext, -⟩
  cases hnext

/-- What `next` makes of its copy: the next used slot of the page, if there is one. -/
theorem move_run {s : ℕ} {s' : ℕ}
    (hs' : Slots.search obj.page.isSlotUsed (obj.page.numSlots - (s + 1)) (s + 1) = s')
    (hobj : db.objects[ref]? = some obj) :
    (onPage n c ref s).next db = if s' ≠ obj.page.numSlots then .ok (onPage n c ref s') db
      else (onPage n c ref s).nextPage db := by
  have hnext : offPool (HeapPageIterator.next ⟨s, ref⟩) db = .ok ⟨s', ref⟩ db := by
    refine offPool_ok ?_
    rw [HeapPageIterator.next_run (show db.below.objects[ref]? = some obj from hobj), hs']
  change (offPool (HeapPageIterator.next ⟨s, ref⟩) >>= _) db = _
  rw [bind_ok hnext, bind_ok (KeyedPool.deref_run hobj)]
  by_cases hend : s' = obj.page.numSlots
  · rw [if_neg (by simp [hend]), if_neg (by simpa using hend)]
  · rw [if_pos (by simp [hend]), if_pos hend]
    rfl

/-- The value of the copy goes into the scan's own cell, and the copy's cell ends. -/
theorem finish_run (itopt it : HeapFileIterator) {cells : List (Option PageId)} {id : PageId}
    (hcells : db.cells = cells ++ [some id]) (hit : it.hpid = cells.length)
    (hc : itopt.hpid < cells.length) (t : Tuple) :
    finish itopt t it db = .ok (t, { it with hpid := itopt.hpid })
      { db with cells := cells.set itopt.hpid (some id) ++ [none] } := by
  have hread : readKey (.cell it.hpid) db = .ok id db := by
    refine readKey_run ?_
    change db.cells[it.hpid]?.join = some id
    rw [hcells, hit, List.getElem?_concat_length]
    rfl
  have hassign : itopt.assign it db = .ok { it with hpid := itopt.hpid }
      { db with cells := cells.set itopt.hpid (some id) ++ [some id] } := by
    rw [HeapFileIterator.assign, bind_ok hread, ← List.set_append_left _ _ hc, ← hcells]
    rfl
  have hend : (cells.set itopt.hpid (some id) ++ [some id]).set it.hpid none =
      cells.set itopt.hpid (some id) ++ [none] := by
    rw [hit, List.set_append_right _ _ (by rw [List.length_set]), List.length_set, Nat.sub_self]
    rfl
  rw [finish, bind_ok hassign, ← hend]
  rfl

section Turn

variable {cells : List (Option PageId)} {id : PageId}

theorem cell_after {c' : ℕ} (hc' : c' ≠ c) (hlen : c' ≠ cells.length) :
    (cells.set c (some id) ++ [none])[c']?.join = (cells ++ [some id])[c']?.join := by
  rcases Nat.lt_or_gt_of_ne hlen with hlt | hgt
  · rw [List.getElem?_append_left (by rwa [List.length_set]), List.getElem?_append_left hlt,
      List.getElem?_set_ne hc'.symm]
  · rw [List.getElem?_eq_none (by simp; omega), List.getElem?_eq_none (by simp; omega)]

theorem ended_join : (cells.set c (some id) ++ [none])[cells.length]?.join = none := by
  have hlen : (cells.set c (some id)).length = cells.length := List.length_set ..
  rw [← hlen, List.getElem?_concat_length]
  rfl

/-- At the end of `next` the scan is on the page that its copy was moved to. -/
theorem Scanning.after (hkept : Kept db) (hv : ByValue db d)
    (hcells : db.cells = cells ++ [some (.heap (pageId tbl k))]) (hc : c < cells.length)
    (hfree : ∀ e ∈ db.entries, e.key ≠ .cell c) :
    Scanning tbl k c { db with cells := cells.set c (some (.heap (pageId tbl k))) ++ [none] } d := by
  refine ⟨hkept.of_cells ?_ ?_, hv.of_cells _, ?_, hfree⟩
  · rw [hcells]
    simp
  · intro e he c' hk
    rcases eq_or_ne c' cells.length with rfl | hne
    · right
      exact ended_join
    · left
      rw [hcells]
      exact cell_after (fun heq => hfree e he (heq ▸ hk)) hne
  · change (cells.set c _ ++ [none])[c]? = _
    rw [List.getElem?_append_left (by rwa [List.length_set]), List.getElem?_set_self hc]

theorem marks_kept (hcells : db.cells = cells ++ [some id])
    (hfree : ∀ e ∈ db.entries, e.key ≠ .cell c ∧ e.key ≠ .cell cells.length) :
    { db with cells := cells.set c (some id) ++ [none] }.marks = db.marks := by
  refine KeyedDb.marks_of_cells fun e he c' hk => ?_
  rw [hcells]
  exact cell_after (fun heq => (hfree e he).1 (heq ▸ hk)) fun heq => (hfree e he).2 (heq ▸ hk)

/-- The marks if only the first page is filed under the ended id. -/
theorem marks_ended (hcells : db.cells = cells ++ [some id]) {e : Entry} {es : List Entry}
    (hentries : db.entries = e :: es) (hkey : e.key = .cell cells.length)
    (hfree : ∀ e ∈ es, e.key ≠ .cell c ∧ e.key ≠ .cell cells.length) {pid : Option PageId}
    {stale : Bool} {M : List (Option PageId × Bool)} (hmarks : db.marks = (pid, stale) :: M) :
    { db with cells := cells.set c (some id) ++ [none] }.marks = (pid, true) :: M := by
  let db' : KeyedHeapDb := { db with cells := cells.set c (some id) ++ [none] }
  rw [KeyedDb.marks, hentries, List.map_cons] at hmarks
  obtain ⟨hhead, hrest⟩ := List.cons.inj hmarks
  change db'.entries.map _ = _
  rw [show db'.entries = e :: es from hentries, List.map_cons]
  refine congrArg₂ List.cons ?_ (Eq.trans (List.map_congr_left fun e' he' => ?_) hrest)
  · have hended : db'.idAt e.key = none := by
      rw [hkey]
      exact ended_join
    have hpid : db.idAt (.page e.page) = pid := congrArg Prod.fst hhead
    refine Prod.ext hpid ?_
    change (KeyedDb.idAt db' e.key).isNone = true
    rw [hended]
    rfl
  · cases hk : e'.key with
    | page ref => rfl
    | cell c' =>
      have hsame : db'.idAt (.cell c') = db.idAt (.cell c') := by
        change (cells.set c (some id) ++ [none])[c']?.join = db.cells[c']?.join
        rw [hcells]
        exact cell_after (fun heq => (hfree e' he').1 (heq ▸ hk))
          fun heq => (hfree e' he').2 (heq ▸ hk)
      refine Prod.ext rfl ?_
      change (KeyedDb.idAt db' (.cell c')).isNone = (KeyedDb.idAt db (.cell c')).isNone
      rw [hsame]

end Turn

theorem pid_succ (k : ℕ) : (⟨tbl, (pageId tbl k).pgNo + 1⟩ : HeapPageId) = pageId tbl (k + 1) := by
  rw [pgNo_succ]
  rfl

/-- Moving the copy behind the last slot: its id goes on to the next page. -/
theorem nextPage_eq (cells : List (Option PageId))
    (hcells : db.cells = cells ++ [some (.heap (pageId tbl k))]) (s : ℕ) :
    (onPage n cells.length ref s).nextPage db =
      (if (n : Int) ≤ (pageId tbl (k + 1)).pgNo.toInt then
        pure ⟨n, cells.length, true, none, some ref⟩
      else do
        let page ← KeyedPool.getPage (.cell cells.length)
        let pageIt ← offPool (HeapPageIterator.new 0 page)
        pure ⟨n, cells.length, false, some pageIt, some page⟩ : KeyedHeapM HeapFileIterator)
      { db with cells := cells ++ [some (.heap (pageId tbl (k + 1)))] } := by
  have hread : readKey (.cell cells.length) db = .ok (.heap (pageId tbl k)) db := by
    refine readKey_run ?_
    change db.cells[cells.length]?.join = _
    rw [hcells, List.getElem?_concat_length]
    rfl
  have hset : (setCell cells.length (.heap (pageId tbl (k + 1))) : KeyedHeapM Unit) db =
      .ok () { db with cells := cells ++ [some (.heap (pageId tbl (k + 1)))] } := by
    have hlist : db.cells.set cells.length (some (.heap (pageId tbl (k + 1)))) =
        cells ++ [some (.heap (pageId tbl (k + 1)))] := by
      rw [hcells, List.set_append_right _ _ (le_refl _), Nat.sub_self]
      rfl
    rw [← hlist]
    rfl
  let rest : HeapPageId → KeyedHeapM HeapFileIterator := fun hpid => do
    setCell cells.length (.heap hpid)
    if (n : Int) ≤ hpid.pgNo.toInt then
      pure ⟨n, cells.length, true, none, some ref⟩
    else
      let page ← KeyedPool.getPage (.cell cells.length)
      let pageIt ← offPool (HeapPageIterator.new 0 page)
      pure ⟨n, cells.length, false, some pageIt, some page⟩
  rw [HeapFileIterator.nextPage]
  change (readKey (.cell cells.length) >>= _) db = _
  rw [bind_ok hread]
  change rest ⟨tbl, (pageId tbl k).pgNo + 1⟩ db = _
  rw [pid_succ]
  exact bind_ok hset

theorem next_last (hn : n < 2147483648) (hk : k + 1 = n) (hscan : Scanning tbl k c db d) {s : ℕ}
    {t : Tuple} (hobj : db.objects[ref]? = some obj) (ht : obj.page.tuples[s]? = some t)
    (hlast : Slots.search obj.page.isSlotUsed (obj.page.numSlots - (s + 1)) (s + 1) =
      obj.page.numSlots) :
    ∃ db', next (onPage n c ref s) db = .ok (t, ⟨n, c, true, none, some ref⟩) db' ∧
      db'.cells[c]? = some (some (.heap (pageId tbl n))) ∧ db'.files = db.files := by
  have hc : c < db.cells.length := (List.getElem?_eq_some_iff.mp hscan.cell).1
  have hval : (pageId tbl (k + 1)).pgNo.toInt = ((k + 1 : ℕ) : Int) := by
    exact Int32.toInt_ofNat_of_lt (by omega)
  let db₁ : KeyedHeapDb := { db with cells := db.cells ++ [some (.heap (pageId tbl (k + 1)))] }
  have hcells : db₁.cells = db.cells ++ [some (.heap (pageId tbl (k + 1)))] := rfl
  have hmove : (onPage n db.cells.length ref s).next
      { db with cells := db.cells ++ [some (.heap (pageId tbl k))] } =
      .ok ⟨n, db.cells.length, true, none, some ref⟩ db₁ := by
    rw [move_run hlast (by exact hobj), if_neg (by simp), nextPage_eq db.cells rfl,
      if_pos (by omega)]
    rfl
  refine ⟨{ db with cells := db.cells.set c (some (.heap (pageId tbl n))) ++ [none] }, ?_, ?_, rfl⟩
  · have hfinish := finish_run (onPage n c ref s) ⟨n, db.cells.length, true, none, some ref⟩
      hcells rfl hc t
    rw [next_eq hscan.cell hobj ht, bind_ok hmove, hfinish, hk]
    rfl
  · change (db.cells.set c _ ++ [none])[c]? = _
    rw [List.getElem?_append_left (by rwa [List.length_set]), List.getElem?_set_self hc]

/-- What is left of a request when the id that it came with has ended: the scan stands on page `k'`,
and if the page was loaded, the key in front dangles. -/
theorem Scanning.ended (hscan : Scanning tbl k c db d) {k' : ℕ} {db₂ : KeyedHeapDb} {d' : HeapDb}
    {ref' : Ref}
    (hloads : Loads { db with cells := db.cells ++ [some (.heap (pageId tbl k'))] } db₂
      (.cell db.cells.length) (.heap (pageId tbl k')) ref')
    (hv : ByValue db₂ d') (hkept : Kept db₂) :
    let db₃ : KeyedHeapDb :=
      { db₂ with cells := db.cells.set c (some (.heap (pageId tbl k'))) ++ [none] }
    Scanning tbl k' c db₃ d' ∧ (db₃.marks, db₃.order) =
      serve db.numPages db.marks (some (.heap (pageId tbl k')), true) db.order := by
  intro db₃
  have hc : c < db.cells.length := (List.getElem?_eq_some_iff.mp hscan.cell).1
  have hmarks₁ := hscan.kept.marks_newCell (.heap (pageId tbl k'))
  have hmarks := hloads.marks
  rw [hmarks₁] at hmarks
  change (db₂.marks, db₂.order) = serve db.numPages db.marks _ db.order at hmarks
  have hold : ∀ {es : List Entry}, es.Sublist db.entries →
      ∀ e ∈ es, e.key ≠ .cell c ∧ e.key ≠ .cell db.cells.length :=
    fun hsub e he => ⟨hscan.unfiled e (hsub.subset he), hscan.kept.older (hsub.subset he)⟩
  rcases hloads.entries with ⟨hres, hentries⟩ | ⟨habsent, es, hsub, hentries⟩
  · have hfree : ∀ e ∈ db₂.entries, e.key ≠ .cell c ∧ e.key ≠ .cell db.cells.length := by
      rw [hentries]
      exact hold (.refl _)
    refine ⟨.after hkept hv hloads.cells hc fun e he => (hfree e he).1, ?_⟩
    rw [hmarks₁] at hres
    have hmarks₃ : db₃.marks = db₂.marks := marks_kept hloads.cells hfree
    rw [serve_resident hres] at hmarks ⊢
    rw [hmarks₃]
    exact hmarks
  · have hfree := hold hsub
    refine ⟨.after hkept hv hloads.cells hc ?_, ?_⟩
    · rw [hentries, List.forall_mem_cons]
      exact ⟨fun hk => hc.ne (Key.cell.inj hk).symm, fun e he => (hfree e he).1⟩
    · rw [hmarks₁] at habsent
      obtain ⟨M, order, hserves⟩ := serve_absent (c := db.numPages) habsent db.order
      rw [hserves] at hmarks ⊢
      obtain ⟨hfront, rfl⟩ := Prod.mk.inj hmarks
      exact congrArg (Prod.mk · _) (marks_ended hloads.cells hentries rfl hfree hfront)

/-- `next` from the last slot of a page that is not the last one. A page that it loads is filed
under an id that ends with the call. -/
theorem next_turn (hn : n < 2147483648) (hk : k + 1 < n) (hpos : 0 < db.numPages)
    (hscan : Scanning tbl k c db d) {s : ℕ} {t : Tuple} (hobj : db.objects[ref]? = some obj)
    (ht : obj.page.tuples[s]? = some t)
    (hlast : Slots.search obj.page.isSlotUsed (obj.page.numSlots - (s + 1)) (s + 1) =
      obj.page.numSlots)
    {d' : HeapDb} {ref' : Ref} {obj' : PageObject HeapPage}
    (hget : BufferPool.getPage (.heap (pageId tbl (k + 1))) d = .ok ref' d')
    (hobj' : d'.objects[ref']? = some obj') :
    (Reads idCode db.numPages db.marks (some (.heap (pageId tbl (k + 1)))) db.order →
      ∃ db', next (onPage n c ref s) db =
          .ok (t, onPage n c ref' (Slots.search obj'.page.isSlotUsed obj'.page.numSlots 0)) db' ∧
        Scanning tbl (k + 1) c db' d' ∧ db'.numPages = db.numPages ∧
        (db'.marks, db'.order) =
          serve db.numPages db.marks (some (.heap (pageId tbl (k + 1))), true) db.order) ∧
    (¬ Reads idCode db.numPages db.marks (some (.heap (pageId tbl (k + 1)))) db.order →
      ∃ db', next (onPage n c ref s) db = .error .dangling db') := by
  have hc : c < db.cells.length := (List.getElem?_eq_some_iff.mp hscan.cell).1
  have hval : (pageId tbl (k + 1)).pgNo.toInt = ((k + 1 : ℕ) : Int) :=
    Int32.toInt_ofNat_of_lt (by omega)
  let pid : PageId := .heap (pageId tbl (k + 1))
  let db₁ : KeyedHeapDb := { db with cells := db.cells ++ [some pid] }
  have hpos₁ : 0 < db₁.numPages := hpos
  obtain ⟨hserve, hfail⟩ := getPage_byValue readsById hpos₁ (hscan.kept.newCell pid)
    (hscan.byValue.of_cells _) (db.idAt_newCell pid) hget
  rw [hscan.kept.marks_newCell pid] at hserve hfail
  -- the copy of the iterator goes on to page `k + 1`
  have hmove : ∀ (x : EStateM.Result Fault KeyedHeapDb HeapFileIterator),
      (KeyedPool.getPage (.cell db.cells.length) >>= fun page => do
        let pageIt ← offPool (HeapPageIterator.new 0 page)
        pure ⟨n, db.cells.length, false, some pageIt, some page⟩) db₁ = x →
      (onPage n db.cells.length ref s).next
        { db with cells := db.cells ++ [some (.heap (pageId tbl k))] } = x := by
    intro x hx
    rw [move_run hlast (by exact hobj), if_neg (by simp), nextPage_eq db.cells rfl,
      if_neg (by omega)]
    exact hx
  constructor
  · intro hreads
    obtain ⟨db₂, hrun₂, hloads, hv₂, h₂⟩ := hserve hreads
    have hobj₂ : db₂.objects[ref']? = some obj' := by
      rw [← hv₂.objects]
      exact hobj'
    have hnew : offPool (HeapPageIterator.new 0 ref') db₂ =
        .ok ⟨Slots.search obj'.page.isSlotUsed obj'.page.numSlots 0, ref'⟩ db₂ :=
      offPool_ok (HeapPageIterator.new_run (show db₂.below.objects[ref']? = some obj' from hobj₂))
    have hmove₂ : (onPage n db.cells.length ref s).next
        { db with cells := db.cells ++ [some (.heap (pageId tbl k))] } =
        .ok (onPage n db.cells.length ref'
          (Slots.search obj'.page.isSlotUsed obj'.page.numSlots 0)) db₂ := by
      refine hmove _ ?_
      rw [bind_ok hrun₂, bind_ok hnew]
      rfl
    have hfinish := finish_run (onPage n c ref s) (onPage n db.cells.length ref'
      (Slots.search obj'.page.isSlotUsed obj'.page.numSlots 0)) hloads.cells rfl hc t
    have hrun : next (onPage n c ref s) db = .ok (t, onPage n c ref'
        (Slots.search obj'.page.isSlotUsed obj'.page.numSlots 0))
          { db₂ with cells := db.cells.set c (some pid) ++ [none] } := by
      rw [next_eq hscan.cell hobj ht, bind_ok hmove₂, hfinish]
      rfl
    obtain ⟨hscan', hmarks⟩ := hscan.ended hloads hv₂ h₂
    exact ⟨_, hrun, hscan', hloads.numPages, hmarks⟩
  · intro hreads
    obtain ⟨db₂, hrun₂⟩ := hfail hreads
    have hmove₂ := hmove _ (bind_error hrun₂)
    exact ⟨db₂, by rw [next_eq hscan.cell hobj ht, bind_error hmove₂]⟩

/-- `next` from a slot that is not the last used one stays on the page. -/
theorem next_within (hscan : Scanning tbl k c db d) {s s' : ℕ} {t : Tuple}
    (hobj : db.objects[ref]? = some obj) (ht : obj.page.tuples[s]? = some t)
    (hs' : Slots.search obj.page.isSlotUsed (obj.page.numSlots - (s + 1)) (s + 1) = s')
    (hne : s' ≠ obj.page.numSlots) :
    ∃ db', next (onPage n c ref s) db = .ok (t, onPage n c ref s') db' ∧
      Scanning tbl k c db' d ∧ db'.marks = db.marks := by
  have hc : c < db.cells.length := (List.getElem?_eq_some_iff.mp hscan.cell).1
  let pid : PageId := .heap (pageId tbl k)
  let db₁ : KeyedHeapDb := { db with cells := db.cells ++ [some pid] }
  have hmove : (onPage n db.cells.length ref s).next db₁ =
      .ok (onPage n db.cells.length ref s') db₁ := by
    rw [move_run hs' (by exact hobj), if_pos hne]
  have hcells : db₁.cells = db.cells ++ [some pid] := rfl
  have hfinish := finish_run (onPage n c ref s) (onPage n db.cells.length ref s') hcells rfl hc t
  have h₁ : Kept db₁ := hscan.kept.newCell pid
  have hmarks₁ : db₁.marks = db.marks := hscan.kept.marks_newCell pid
  refine ⟨{ db with cells := db.cells.set c (some pid) ++ [none] }, ?_, ?_, ?_⟩
  · rw [next_eq hscan.cell hobj ht, bind_ok hmove, hfinish]
    rfl
  · have hafter := Scanning.after h₁ (hscan.byValue.of_cells _) hcells hc hscan.unfiled
    exact hafter
  · rw [← hmarks₁]
    exact marks_kept hcells fun e he => ⟨hscan.unfiled e he, hscan.kept.older he⟩

/-- From a used slot the scan gives the rest of the page. What comes after it is given by what
comes after the last used slot; induction on the slots that are left. -/
theorem ends_page {f : HeapFile} (hf : d.files.file? tbl = some f) {M : List (Option PageId × Bool)}
    {Q : List Tuple → Prop}
    (hlast : ∀ {db s t r}, Scanning tbl k c db d → db.marks = M → obj.page.tuples[s]? = some t →
      Slots.search obj.page.isSlotUsed (obj.page.numSlots - (s + 1)) (s + 1) = obj.page.numSlots →
      (Ends tbl (onPage n c ref s) db r ↔ ∃ rest, Q rest ∧ r = t :: rest))
    (hscan : Scanning tbl k c db d) (hM : db.marks = M) (hobj : d.objects[ref]? = some obj) {s : ℕ}
    (hs : s ≤ obj.page.numSlots) (hused : s < obj.page.numSlots → obj.page.isSlotUsed s = true) :
    Ends tbl (onPage n c ref s) db r ↔ s < obj.page.numSlots ∧
      ∃ rest, Q rest ∧ r = Slots.segment obj.page.tuple? s obj.page.numSlots ++ rest := by
  obtain ⟨a, ha⟩ := Nat.exists_eq_add_of_le hs
  induction a using Nat.strong_induction_on generalizing s r db with
  | _ a ih =>
    have hf' : db.files.file? tbl = some f := hscan.byValue.files ▸ hf
    have hobj' : db.objects[ref]? = some obj := hscan.byValue.objects ▸ hobj
    rcases Nat.eq_or_lt_of_le hs with rfl | hlt
    · exact iff_of_false (not_ends_behind hf' hscan.cell hobj') fun h => lt_irrefl _ h.1
    obtain ⟨t, ht, -, -, -⟩ := obj.page.tuple_of_used hlt (hused hlt)
    have htuple : obj.page.tuple? s = some t := by simp [TuplePage.tuple?, hused hlt, ht]
    let s' := Slots.search obj.page.isSlotUsed (obj.page.numSlots - (s + 1)) (s + 1)
    have hlen : s + 1 + (obj.page.numSlots - (s + 1)) = obj.page.numSlots := by omega
    have hseg : Slots.segment obj.page.tuple? s obj.page.numSlots =
        t :: Slots.segment obj.page.tuple? s' obj.page.numSlots := by
      have hskip := Slots.segment_search (i := s + 1) (n := obj.page.numSlots - (s + 1))
        (f := obj.page.tuple?) fun j hj => (obj.page.tuple?_isSome (hlen ▸ hj)).symm
      rw [hlen] at hskip
      rw [Slots.segment_cons _ hlt, htuple, hskip]
      rfl
    rw [and_iff_right hlt, hseg]
    by_cases hend : s' = obj.page.numSlots
    · rw [hlast hscan hM ht hend, hend, Slots.segment_of_le _ (le_refl _)]
      rfl
    · have hs' : s' ≤ obj.page.numSlots := by
        have := Slots.search_le obj.page.isSlotUsed (obj.page.numSlots - (s + 1)) (s + 1)
        rwa [hlen] at this
      have hge : s + 1 ≤ s' := Slots.le_search ..
      have hlt' : s' < obj.page.numSlots := Nat.lt_of_le_of_ne hs' hend
      have hused' : obj.page.isSlotUsed s' = true := by
        apply Slots.search_stop
        rwa [hlen]
      obtain ⟨db', hnext, hscan', hmarks⟩ := next_within (n := n) hscan hobj' ht rfl hend
      have hrest := fun r => ih (obj.page.numSlots - s') (by omega) (r := r) hscan'
        (hmarks.trans hM) hs' (fun _ => hused') (by omega)
      rw [ends_iff_next hf' hscan.cell]
      constructor
      · rintro ⟨t', it', db₁, rest, hnext', hends, rfl⟩
        rw [hnext] at hnext'
        cases hnext'
        obtain ⟨-, rest', hQ, rfl⟩ := (hrest rest).mp hends
        exact ⟨rest', hQ, rfl⟩
      · rintro ⟨rest, hQ, rfl⟩
        exact ⟨t, _, db', _, hnext, (hrest _).mpr ⟨hlt', rest, hQ, rfl⟩, rfl⟩

/-- The requests for the pages `k, …, k + m - 1`; what is loaded for one of them ends up under a
dangling key. -/
def requests (tbl : Int32) (k m : ℕ) : List (Option PageId × Bool) :=
  (List.range' k m).map fun i => (some (.heap (pageId tbl i)), true)

/-- The requests `rs` for the pages `k, …, k + m - 1` read no dangling key, and `rest` is what the
pages hold, none of which is without a used slot. -/
def Continues (tbl : Int32) (m k : ℕ) (rs M : List (Option PageId × Bool)) (d : HeapDb)
    (rest : List Tuple) : Prop :=
  StaleKeys.Survives idCode d.numPages M rs d.order ∧ ∃ pages d', fetchPages tbl m k d = .ok pages d' ∧
    (∀ q ∈ pages, q.storedTuples ≠ []) ∧ rest = pages.flatMap TuplePage.storedTuples

theorem continues_succ {m : ℕ} {stale : Bool} {rs M : List (Option PageId × Bool)} {d' : HeapDb}
    (hreads : Reads idCode d.numPages M (some (.heap (pageId tbl k))) d.order)
    (hget : BufferPool.getPage (.heap (pageId tbl k)) d = .ok ref d')
    (hobj : d'.objects[ref]? = some obj) (hnum : d'.numPages = d.numPages)
    (horder : d'.order = (serve d.numPages M (some (.heap (pageId tbl k)), stale) d.order).2) :
    Continues tbl (m + 1) k ((some (.heap (pageId tbl k)), stale) :: rs) M d r ↔
      obj.page.storedTuples ≠ [] ∧ ∃ rest, Continues tbl m (k + 1) rs
        (serve d.numPages M (some (.heap (pageId tbl k)), stale) d.order).1 d' rest ∧
        r = obj.page.storedTuples ++ rest := by
  have hfetch : fetchPages tbl (m + 1) k d = (do
      let rest ← fetchPages tbl m (k + 1)
      pure (obj.page :: rest)) d' := by
    rw [fetchPages, bind_ok hget, bind_ok (deref_run hobj)]
  rw [Continues, StaleKeys.Survives, and_iff_right hreads, hfetch]
  simp only [Continues, hnum, horder]
  constructor
  · rintro ⟨hrs, pages, d'', hpages, hfull, rfl⟩
    obtain ⟨rest, d₂, hrest, hpure⟩ := of_bind_ok hpages
    cases hpure
    obtain ⟨hpage, hfull⟩ := List.forall_mem_cons.mp hfull
    exact ⟨hpage, _, ⟨hrs, rest, _, hrest, hfull, rfl⟩, rfl⟩
  · rintro ⟨hpage, _, ⟨hrs, pages, d'', hpages, hfull, rfl⟩, rfl⟩
    refine ⟨hrs, obj.page :: pages, d'', by rw [bind_ok hpages]; rfl, ?_, rfl⟩
    exact List.forall_mem_cons.mpr ⟨hpage, hfull⟩

theorem first_slot (p : HeapPage) : Slots.search p.isSlotUsed p.numSlots 0 ≤ p.numSlots ∧
    (Slots.search p.isSlotUsed p.numSlots 0 < p.numSlots →
      p.isSlotUsed (Slots.search p.isSlotUsed p.numSlots 0) = true) := by
  have hle := Slots.search_le p.isSlotUsed p.numSlots 0
  have hused := @Slots.search_stop p.isSlotUsed p.numSlots 0
  rw [Nat.zero_add] at hle hused
  exact ⟨hle, hused⟩

/-- From a used slot of page `k` the scan ends exactly when no request for a page after it reads
a dangling key and each of these pages has a used slot; induction on the number of pages. -/
theorem ends_iff (h : Ready V d) (hs : d.files.schema tbl = some (td, n)) (hn : n < 2147483648)
    {m s : ℕ} (hk : k + 1 + m = n) (hscan : Scanning tbl k c db d)
    (hobj : d.objects[ref]? = some obj) (hle : s ≤ obj.page.numSlots)
    (hused : s < obj.page.numSlots → obj.page.isSlotUsed s = true) :
    Ends tbl (onPage n c ref s) db r ↔ s < obj.page.numSlots ∧
      ∃ rest, Continues tbl m (k + 1) (requests tbl (k + 1) m) db.marks d rest ∧
        r = Slots.segment obj.page.tuple? s obj.page.numSlots ++ rest := by
  induction m generalizing k ref obj s db d r with
  | zero =>
    obtain ⟨f, hf, htid, -, hnum⟩ := schema_eq_some hs
    refine ends_page hf (fun {db s t r} hscan _ ht hlast => ?_) hscan rfl hobj hle hused
    have hf' : db.files.file? tbl = some f := hscan.byValue.files ▸ hf
    obtain ⟨db', hnext, hcell, hfiles⟩ :=
      next_last hn hk hscan (hscan.byValue.objects ▸ hobj) ht hlast
    have hdone : ∀ r, Ends tbl ⟨n, c, true, none, some ref⟩ db' r ↔ r = [] := by
      intro r
      refine ends_at_end (f := f) (hfiles ▸ hf') ?_ rfl
      rw [htid, hnum]
      exact hcell
    rw [ends_iff_next hf' hscan.cell]
    constructor
    · rintro ⟨t', it', db₁, rest, hnext', hends, rfl⟩
      rw [hnext] at hnext'
      cases hnext'
      exact ⟨rest, ⟨trivial, [], d, rfl, by simp, (hdone rest).mp hends⟩, rfl⟩
    · rintro ⟨rest, ⟨-, pages, d', hpages, -, rfl⟩, rfl⟩
      cases hpages
      exact ⟨t, _, db', [], hnext, (hdone []).mpr rfl, rfl⟩
  | succ m ih =>
    obtain ⟨f, hf, -⟩ := schema_eq_some hs
    obtain ⟨M, hM⟩ : ∃ M, db.marks = M := ⟨_, rfl⟩
    rw [hM]
    refine ends_page hf (fun {db s t r} hscan hM ht hlast => ?_) hscan hM hobj hle hused
    have hf' : db.files.file? tbl = some f := hscan.byValue.files ▸ hf
    obtain ⟨d', ref', obj', hget, hfetched⟩ := getPage_fetched h hs (k := k + 1) (by omega)
    have hpos : 0 < db.numPages := hscan.byValue.numPages ▸ h.numPages
    obtain ⟨hok, hfail⟩ := next_turn hn (by omega) hpos hscan (hscan.byValue.objects ▸ hobj) ht
      hlast hget hfetched.object
    rw [← hscan.byValue.numPages, ← hscan.byValue.order, hM] at hok hfail
    rw [ends_iff_next hf' hscan.cell]
    by_cases hreads : Reads idCode d.numPages M (some (.heap (pageId tbl (k + 1)))) d.order
    swap
    · refine iff_of_false ?_ fun hcont => ?_
      · rintro ⟨t', it', db₁, rest, hnext', -⟩
        obtain ⟨db', hnext⟩ := hfail hreads
        rw [hnext] at hnext'
        cases hnext'
      · obtain ⟨rest, ⟨hsurvives, -⟩, -⟩ := hcont
        exact hreads hsurvives.1
    obtain ⟨db', hnext, hscan', hnum', hserve⟩ := hok hreads
    have hmarks : db'.marks = (serve d.numPages M (some (.heap (pageId tbl (k + 1))), true)
      d.order).1 := congrArg Prod.fst hserve
    have horder : db'.order = (serve d.numPages M (some (.heap (pageId tbl (k + 1))), true)
      d.order).2 := congrArg Prod.snd hserve
    have hnumPages : d'.numPages = d.numPages := hscan'.byValue.numPages.trans hnum'
    obtain ⟨hle', hused'⟩ := first_slot obj'.page
    have hnextPage := fun r => ih (k := k + 1) (r := r) hfetched.ready (hfetched.schema ▸ hs)
      (by omega) hscan' hfetched.object hle' hused'
    have hcons : ∀ r, Continues tbl (m + 1) (k + 1) (requests tbl (k + 1) (m + 1)) M d r ↔ _ :=
      fun r => continues_succ (r := r) hreads hget hfetched.object hnumPages
        (hscan'.byValue.order.trans horder)
    simp only [hcons]
    constructor
    · rintro ⟨t', it', db₁, rest, hnext', hends, rfl⟩
      rw [hnext] at hnext'
      cases hnext'
      obtain ⟨hlt, rest', hcont, rfl⟩ := (hnextPage rest).mp hends
      rw [hmarks] at hcont
      refine ⟨_, ⟨(search_lt_iff _).mp hlt, rest', hcont, rfl⟩, ?_⟩
      rw [storedTuples_eq_search]
    · rintro ⟨_, ⟨hpage, rest, hcont, rfl⟩, rfl⟩
      rw [← hmarks] at hcont
      refine ⟨t, _, db', _, hnext, (hnextPage _).mpr ⟨(search_lt_iff _).mpr hpage, rest, hcont, rfl⟩, ?_⟩
      rw [storedTuples_eq_search]

/-- The iterator of an opened scan is on page 0. If this page is loaded now, its key is the id of
the iterator that `begin` has made, which stays. -/
theorem openScan_run (hs : d.files.schema tbl = some (td, n)) (hpos : 0 < db.numPages)
    (hkept : Kept db) (hv : ByValue db d) {d' : HeapDb}
    (hget : BufferPool.getPage (.heap (pageId tbl 0)) d = .ok ref d')
    (hobj : d'.objects[ref]? = some obj) :
    (Reads idCode db.numPages db.marks (some (.heap (pageId tbl 0))) db.order →
      ∃ c db', openScan tbl db =
          .ok (onPage n c ref (Slots.search obj.page.isSlotUsed obj.page.numSlots 0)) db' ∧
        Scanning tbl 0 c db' d' ∧ db'.numPages = db.numPages ∧
        (db'.marks, db'.order) =
          serve db.numPages db.marks (some (.heap (pageId tbl 0)), false) db.order) ∧
    (¬ Reads idCode db.numPages db.marks (some (.heap (pageId tbl 0))) db.order →
      ∃ db', openScan tbl db = .error .dangling db') := by
  obtain ⟨f, hf, rfl, -, rfl⟩ := schema_eq_some hs
  have hf' : db.files.file? f.tableid = some f := hv.files ▸ hf
  let pid : PageId := .heap (pageId f.tableid 0)
  let db₁ : KeyedHeapDb := { db with cells := db.cells ++ [some pid] }
  have h₁ : Kept db₁ := hkept.newCell pid
  have hv₁ : ByValue db₁ d := hv.of_cells _
  have hmarks₁ : db₁.marks = db.marks := hkept.marks_newCell pid
  have hkey₁ : db₁.idAt (.cell db.cells.length) = some pid := db.idAt_newCell pid
  have hpos₁ : 0 < db₁.numPages := hpos
  obtain ⟨hserve, hfail⟩ := getPage_byValue readsById hpos₁ h₁ hv₁ hkey₁ hget
  rw [hmarks₁] at hserve hfail
  have hopen : ∀ x, (KeyedPool.getPage (.cell db.cells.length) >>= fun page => do
      let it ← offPool (HeapPageIterator.new 0 page)
      let copy ← newCell (.heap ⟨f.tableid, 0⟩)
      pure ⟨f.numPages, copy, false, some it, some page⟩) db₁ = x →
      openScan f.tableid db = x := by
    intro x hx
    rw [openScan, bind_ok (get_run db), bind_ok (lift_run (getDatabaseFile_ok hf') db)]
    exact hx
  constructor
  · intro hreads
    obtain ⟨db₂, hrun₂, hloads, hv₂, h₂⟩ := hserve hreads
    have hobj₂ : db₂.objects[ref]? = some obj := by
      rw [← hv₂.objects]
      exact hobj
    have hnew : offPool (HeapPageIterator.new 0 ref) db₂ =
        .ok ⟨Slots.search obj.page.isSlotUsed obj.page.numSlots 0, ref⟩ db₂ :=
      offPool_ok (HeapPageIterator.new_run (show db₂.below.objects[ref]? = some obj from hobj₂))
    let db₃ : KeyedHeapDb := { db₂ with cells := db₂.cells ++ [some pid] }
    have hmarks₃ : db₃.marks = db₂.marks := h₂.marks_newCell pid
    refine ⟨db₂.cells.length, db₃, ?_, ⟨?_, hv₂.of_cells _, ?_, ?_⟩, hloads.numPages, ?_⟩
    · refine hopen _ ?_
      rw [bind_ok hrun₂, bind_ok hnew]
      rfl
    · exact h₂.newCell pid
    · exact List.getElem?_concat_length ..
    · exact fun e he => h₂.older he
    · have hmarks₂ := hloads.marks
      rw [hmarks₁] at hmarks₂
      rw [hmarks₃]
      exact hmarks₂
  · intro hreads
    obtain ⟨db₂, hrun₂⟩ := hfail hreads
    exact ⟨db₂, hopen _ (bind_error hrun₂)⟩

/-- The scan of a table with pages ends exactly when no request for a page reads a dangling key
and every page has a used slot. -/
theorem scan_ends (h : Ready V d) (hkept : Kept db) (hv : ByValue db d) {m : ℕ}
    (hs : d.files.schema tbl = some (td, m + 1)) (hn : m + 1 < 2147483648) :
    (∃ fuel db', scan tbl fuel db = .ok r db') ↔ Continues tbl (m + 1) 0
      ((some (.heap (pageId tbl 0)), false) :: requests tbl 1 m) db.marks d r := by
  obtain ⟨d', ref, obj, hget, hf⟩ := getPage_fetched h hs (Nat.succ_pos m)
  have hpos : 0 < db.numPages := hv.numPages ▸ h.numPages
  obtain ⟨hok, hfail⟩ := openScan_run hs hpos hkept hv hget hf.object
  rw [← hv.numPages, ← hv.order] at hok hfail
  by_cases hreads : Reads idCode d.numPages db.marks (some (.heap (pageId tbl 0))) d.order
  swap
  · refine iff_of_false ?_ fun hcont => hreads hcont.1.1
    rintro ⟨fuel, db', hrun⟩
    obtain ⟨db₁, hopen⟩ := hfail hreads
    rw [scan, bind_error hopen] at hrun
    cases hrun
  obtain ⟨c, db₁, hopen, hscan, hnum, hserve⟩ := hok hreads
  have hmarks : db₁.marks = (serve d.numPages db.marks (some (.heap (pageId tbl 0)), false)
    d.order).1 := congrArg Prod.fst hserve
  have horder : db₁.order = (serve d.numPages db.marks (some (.heap (pageId tbl 0)), false)
    d.order).2 := congrArg Prod.snd hserve
  obtain ⟨hle, hused⟩ := first_slot obj.page
  have hloop := ends_iff (m := m) (r := r) hf.ready (hf.schema ▸ hs) hn (by omega) hscan hf.object
    hle hused
  have hscanRun : ∀ fuel, scan tbl fuel db = loop tbl fuel
      (onPage (m + 1) c ref (Slots.search obj.page.isSlotUsed obj.page.numSlots 0)) db₁ := by
    intro fuel
    rw [scan, bind_ok hopen]
  simp only [hscanRun]
  rw [continues_succ hreads hget hf.object (hscan.byValue.numPages.trans hnum)
    (hscan.byValue.order.trans horder), ← hmarks, ← search_lt_iff, storedTuples_eq_search]
  exact hloop

theorem scan_ne_nil {fuel : ℕ} (hrun : scan tbl fuel db = .ok r db') : r ≠ [] := by
  obtain ⟨it, db₁, hopen, hloop⟩ := of_bind_ok hrun
  obtain ⟨db₂, db₃, -, hopen⟩ := of_bind_ok hopen
  obtain ⟨f, db₄, -, hopen⟩ := of_bind_ok hopen
  obtain ⟨hpid, db₅, -, hopen⟩ := of_bind_ok hopen
  obtain ⟨page, db₆, -, hopen⟩ := of_bind_ok hopen
  obtain ⟨pageIt, db₇, -, hopen⟩ := of_bind_ok hopen
  obtain ⟨copy, db₈, -, hopen⟩ := of_bind_ok hopen
  cases hopen
  cases fuel with
  | zero => cases hloop
  | succ fuel =>
    obtain ⟨more, db₉, hmore, hround⟩ := of_bind_ok hloop
    obtain ⟨_, _, -, hmore⟩ := of_bind_ok hmore
    obtain ⟨f', _, -, hmore⟩ := of_bind_ok hmore
    obtain ⟨id, _, -, hmore⟩ := of_bind_ok hmore
    cases hmore
    rw [if_pos (by simp)] at hround
    obtain ⟨⟨t, it⟩, db₁₀, -, hrest⟩ := of_bind_ok hround
    obtain ⟨rest, db₁₁, -, hend⟩ := of_bind_ok hrest
    cases hend
    exact List.cons_ne_nil t rest

end Walk

section Table

open HeapFile

variable {db : KeyedHeapDb} {tbl : Int32} {td : TupleDesc} {n m : ℕ}

/-- The scan ends with the table: what it returns is what the pages hold when the pool hands
them out in order, which names every used slot once, and for integer columns is every row. -/
def ReturnsTable (db : KeyedHeapDb) (tbl : Int32) (n : ℕ) : Prop :=
  ∃ fuel result db' pages d', scan tbl fuel db = .ok result db' ∧
    fetchPages tbl n 0 db.byValue = .ok pages d' ∧
    result = pages.flatMap TuplePage.storedTuples ∧
    result.map Tuple.rid = (usedRecords db.byValue tbl n).map some ∧
    (Ready HeapPage.rowView db.byValue → result.map Tuple.fields = tableRows db.byValue tbl)

/-- The scan ends with the table in whatever order the map enumerates its entries. -/
def ScansTable (db : KeyedHeapDb) (tbl : Int32) (n : ℕ) : Prop :=
  ∀ order, ReturnsTable { db with order } tbl n

def Pooled (db : KeyedHeapDb) (pid : PageId) : Prop :=
  ∃ e ∈ db.entries, db.idAt (.page e.page) = some pid

instance (db : KeyedHeapDb) (pid : PageId) : Decidable (Pooled db pid) :=
  inferInstanceAs (Decidable (∃ e ∈ _, _))

def absentPages (db : KeyedHeapDb) (tbl : Int32) (n : ℕ) : ℕ :=
  (List.range n).countP fun k => ¬ Pooled db (.heap (pageId tbl k))

/-- The pool has room for what is absent, and no key under the code of a page of the table
dangles; or no key dangles at all, and the only pages that may be absent are the last one and,
if nothing is evicted for it or only one page comes after it, page 0. -/
def KeysSafe (db : KeyedHeapDb) (tbl : Int32) (n : ℕ) : Prop :=
  (db.entries.length + absentPages db tbl n ≤ db.numPages ∧
    ∀ k < n, ¬ db.Dangles (.heap (pageId tbl k))) ∨
  ((∀ e ∈ db.entries, db.idAt e.key ≠ none) ∧
    (∀ k, 1 ≤ k → k + 1 < n → Pooled db (.heap (pageId tbl k))) ∧
    (Pooled db (.heap (pageId tbl 0)) ∨ db.entries.length < db.numPages ∨ n ≤ 2))

/-- The requests of a scan of `m + 1` pages. -/
def scanRequests (tbl : Int32) (m : ℕ) : List (Option PageId × Bool) :=
  (some (.heap (pageId tbl 0)), false) :: requests tbl 1 m

/-- With one order of the map, a scan returns the table exactly if it reads no dangling key and
every page has a used slot. -/
theorem returnsTable_iff (h : Ready HeapPage.headerView db.byValue) (hkept : Kept db)
    (hs : db.files.schema tbl = some (td, m + 1)) (hn : m + 1 < 2147483648) :
    ReturnsTable db tbl (m + 1) ↔
      StaleKeys.Survives idCode db.numPages db.marks (scanRequests tbl m) db.order ∧
      ∀ i < m + 1, HasUsedSlot db.byValue (pageId tbl i) := by
  let d : HeapDb := db.byValue
  have hs' : d.files.schema tbl = some (td, m + 1) := hs
  obtain ⟨pages, d', hfetch, hall⟩ := fetchPages_spec h hs' (m + 1) 0 (by omega)
  rw [← List.range_eq_range'] at hall
  have hpage : ∀ i q, i ∈ List.range (m + 1) →
      (GoodPage HeapPage.headerView d.pageSize d.files.schema q ∧ q.pid = pageId tbl i ∧
        seen HeapPage.headerView d (pageId tbl i) = some (HeapPage.headerView.content q)) →
      ∃ p, readerPage d (pageId tbl i) = some p ∧ p.usedSlots = q.usedSlots := by
    rintro i q hi ⟨hgood, hpid, hseen⟩
    exact fetched_page h hs' (List.mem_range.mp hi) hgood hpid hseen
  have hfull : (∀ i < m + 1, HasUsedSlot d (pageId tbl i)) ↔ ∀ q ∈ pages, q.storedTuples ≠ [] := by
    rw [← forall₂_all hall (P := fun i => HasUsedSlot d (pageId tbl i))]
    · simp only [List.mem_range]
    · intro i q hi hq
      obtain ⟨p, hp, hsame⟩ := hpage i q hi hq
      rw [TuplePage.storedTuples_ne_nil, exists_used_iff, ← hsame, ← exists_used_iff, HasUsedSlot,
        hp]
      simp
  have hends := fun r => scan_ends (r := r) h hkept hkept.byValue hs' hn
  rw [hfull]
  constructor
  · rintro ⟨fuel, result, db₁, pages₁, d₁, hscan, hfetch₁, rfl, -⟩
    obtain ⟨hsurvives, pages₂, d₂, hfetch₂, hne, -⟩ := (hends _).mp ⟨fuel, db₁, hscan⟩
    rw [hfetch] at hfetch₂
    cases hfetch₂
    exact ⟨hsurvives, hne⟩
  · rintro ⟨hsurvives, hne⟩
    obtain ⟨fuel, db₁, hscan⟩ := (hends _).mpr ⟨hsurvives, pages, d', hfetch, hne, rfl⟩
    refine ⟨fuel, _, db₁, pages, d', hscan, hfetch, rfl, ?_, ?_⟩
    · rw [usedRecords, List.map_flatMap, List.map_flatMap]
      symm
      apply forall₂_flatMap hall
      intro i q hi hq
      obtain ⟨p, hp, hsame⟩ := hpage i q hi hq
      rw [q.storedTuples_rid, hp, Option.map_some, Option.getD_some, hsame]
    · intro hrows
      obtain ⟨pages', d₁, hfetch', hall'⟩ := fetchPages_spec hrows hs' (m + 1) 0 (by omega)
      rw [hfetch] at hfetch'
      cases hfetch'
      rw [← List.range_eq_range'] at hall'
      rw [tableRows, itemsOf, hs', List.map_flatMap]
      symm
      apply forall₂_flatMap hall'
      rintro i q hi ⟨hgood, hpid, hseen⟩
      rw [readerPage_items rowTally hrows hs' (List.mem_range.mp hi) hgood.fits
        (hgood.td_eq hpid hs') hseen, q.storedTuples_fields]
      rfl

theorem hash_inj {i j : ℕ} (hi : i < 2147483648) (hj : j < 2147483648)
    (h : idCode (some (.heap (pageId tbl i))) = idCode (some (.heap (pageId tbl j)))) : i = j := by
  have hpage : (Int32.ofNat i).toInt64.toUInt64 = (Int32.ofNat j).toInt64.toUInt64 :=
    (UInt64.xor_right_inj _).mp h
  have hint : (Int32.ofNat i).toInt64 = (Int32.ofNat j).toInt64 := congrArg UInt64.toInt64 hpage
  have hval := congrArg Int64.toInt hint
  rw [Int32.toInt_toInt64, Int32.toInt_toInt64, Int32.toInt_ofNat_of_lt hi,
    Int32.toInt_ofNat_of_lt hj] at hval
  exact_mod_cast hval

theorem scanRequests_codes (hn : m + 1 < 2147483648) :
    (scanRequests tbl m).Pairwise fun r s => idCode r.1 ≠ idCode s.1 := by
  refine List.pairwise_cons.mpr ⟨?_, ?_⟩
  · intro r hr heq
    obtain ⟨i, hi, rfl⟩ := List.mem_map.mp hr
    have hi := List.mem_range'_1.mp hi
    have := hash_inj (by omega) (by omega) heq
    omega
  · refine List.pairwise_map.mpr (List.Pairwise.imp_of_mem ?_ List.pairwise_lt_range')
    intro i j hi hj hlt heq
    have hi := List.mem_range'_1.mp hi
    have hj := List.mem_range'_1.mp hj
    have := hash_inj (by omega) (by omega) heq
    omega

theorem resident_iff_pooled {pid : PageId} : Resident db.marks (some pid) ↔ Pooled db pid := by
  rw [Resident, KeyedDb.marks, List.map_map, List.mem_map]
  rfl

theorem missing_eq : missing db.marks (scanRequests tbl m) = absentPages db tbl (m + 1) := by
  have hmap : scanRequests tbl m = (List.range (m + 1)).map fun i =>
      (some (PageId.heap (pageId tbl i)), decide (i ≠ 0)) := by
    rw [List.range_eq_range', List.range'_succ, List.map_cons]
    refine congrArg _ (List.map_congr_left fun i hi => ?_)
    have hi := List.mem_range'_1.mp hi
    rw [decide_eq_true (show i ≠ 0 by omega)]
  rw [missing, hmap, List.countP_map]
  refine List.countP_congr fun i _ => ?_
  simp [resident_iff_pooled]

/-- The requests of a scan are safe exactly if the keys are. -/
theorem safe_iff_keysSafe (h : Kept db) (hcap : db.entries.length ≤ db.numPages)
    (hpos : 0 < db.numPages) (hn : m + 1 < 2147483648) :
    StaleKeys.Safe idCode db.numPages db.marks (scanRequests tbl m) ↔ KeysSafe db tbl (m + 1) := by
  have hgo : ∀ s ∈ requests tbl 1 m, s.2 = true := by
    intro s hs
    obtain ⟨i, -, rfl⟩ := List.mem_map.mp hs
    rfl
  have hlength : (requests tbl 1 m).length = m := by rw [requests, List.length_map, List.length_range']
  have hread : (∀ s ∈ scanRequests tbl m, Readable idCode db.marks s.1) ↔
      ∀ k < m + 1, ¬ db.Dangles (.heap (pageId tbl k)) := by
    rw [scanRequests, List.forall_mem_cons, requests, List.forall_mem_map, h.readable_iff]
    simp only [h.readable_iff, List.mem_range'_1]
    constructor
    · rintro ⟨hfirst, hrest⟩ k hk
      rcases Nat.eq_zero_or_pos k with rfl | hk0
      · exact hfirst
      · exact hrest k (by omega)
    · intro hall
      exact ⟨hall 0 (by omega), fun k hk => hall k (by omega)⟩
  have hfresh : StaleKeys.Fresh db.marks ↔ ∀ e ∈ db.entries, db.idAt e.key ≠ none := by
    rw [StaleKeys.Fresh, KeyedDb.marks, List.forall_mem_map]
    simp only [Option.isNone_eq_false_iff, Option.isSome_iff_ne_none]
  have hmiddle : (∀ s ∈ (requests tbl 1 m).dropLast, Resident db.marks s.1) ↔
      ∀ k, 1 ≤ k → k + 1 < m + 1 → Pooled db (.heap (pageId tbl k)) := by
    cases m with
    | zero =>
      refine iff_of_true (fun s hs => by cases hs) fun k hk hk' => ?_
      omega
    | succ m =>
      rw [requests, List.range'_1_concat, List.map_append, List.map_singleton, List.dropLast_concat,
        List.forall_mem_map]
      simp only [List.mem_range'_1, resident_iff_pooled]
      exact forall_congr' fun k => ⟨fun hall hk hk' => hall ⟨hk, by omega⟩,
        fun hall hk => hall hk.1 (by omega)⟩
  have hshort : (requests tbl 1 m).length ≤ 1 ↔ m + 1 ≤ 2 := by rw [hlength]; omega
  have hsafe := safe_iff (@scanRequests_codes tbl m hn) rfl hgo
    h.nodup_marks ((Kept.marks_length db).symm ▸ hcap) hpos
  rw [← scanRequests, missing_eq, Kept.marks_length, hread, hfresh, hmiddle, resident_iff_pooled,
    hshort] at hsafe
  exact hsafe

/-- Whatever is evicted, a scan returns exactly the table if and only if the table has a page,
every page has a used slot, and no dangling key is in the way. -/
theorem scansTable_iff (hkept : Kept db) (h : Ready HeapPage.headerView db.byValue)
    (hs : db.files.schema tbl = some (td, n)) (hn : n < 2147483648) :
    ScansTable db tbl n ↔
      1 ≤ n ∧ (∀ i < n, HasUsedSlot db.byValue (pageId tbl i)) ∧ KeysSafe db tbl n := by
  rcases n with - | m
  · refine iff_of_false ?_ fun hpos => by omega
    intro hscans
    obtain ⟨fuel, result, db', pages, d', hscan, hfetch, rfl, -⟩ := hscans db.order
    cases hfetch
    exact scan_ne_nil hscan rfl
  have hready : ∀ order, Ready HeapPage.headerView { db with order }.byValue := fun order =>
    ⟨h.pageSize, h.numPages, h.covered, h.offsets,
      ⟨h.serving.pageSize, h.serving.entry, h.serving.capacity, h.serving.coherent,
        h.serving.writable⟩⟩
  have hkept' : ∀ order, Kept { db with order } := fun order => ⟨hkept.keyed, hkept.distinct, hkept.inside⟩
  have hcap : db.entries.length ≤ db.numPages := by
    rw [← hkept.byValue.length_eq]
    exact h.serving.capacity
  have hone : ∀ order, ReturnsTable { db with order } tbl (m + 1) ↔
      StaleKeys.Survives idCode db.numPages db.marks (scanRequests tbl m) order ∧
      ∀ i < m + 1, HasUsedSlot db.byValue (pageId tbl i) :=
    fun order => returnsTable_iff (hready order) (hkept' order) hs hn
  have hpos : 0 < db.numPages := h.numPages
  rw [ScansTable, forall_congr' hone, forall_and, forall_const, survives_all_iff hpos,
    safe_iff_keysSafe hkept hcap hpos hn, and_iff_right (Nat.le_add_left 1 m), and_comm]

def openKeyed (pageSize numPages : ℕ) (tableid : Int32) (td : TupleDesc) (fd : File) : KeyedHeapDb :=
  ⟨[], [], pageSize, numPages, [], fun _ => 0, (openTable pageSize numPages tableid td fd).files⟩

theorem scansTable_iff_twoPages : ScansTable (openKeyed 9 2 7 oneInt twoPageFile) 7 2 := by
  have hkept : Kept (openKeyed 9 2 7 oneInt twoPageFile) :=
    ⟨fun e he => absurd he List.not_mem_nil, List.nodup_nil, fun e he => absurd he List.not_mem_nil⟩
  have hready : Ready HeapPage.headerView (openTable 9 2 7 oneInt twoPageFile) :=
    openTable_ready (by decide) (by decide) trivial (by decide)
  apply (scansTable_iff hkept hready rfl (by decide)).mpr
  refine ⟨by decide, ?_, ?_⟩
  · intro i hi
    rcases (by omega : i = 0 ∨ i = 1) with rfl | rfl
    · exact ⟨_, rfl, 0, by decide⟩
    · exact ⟨_, rfl, 0, by decide⟩
  · left
    decide

/-- The scan of an empty file reads behind the last slot of a page that is not there. -/
theorem scan_reads_no_page :
    ¬ ∀ (db : KeyedHeapDb) (tbl : Int32) (td : TupleDesc) (n : ℕ), Kept db →
      Ready HeapPage.headerView db.byValue → db.files.schema tbl = some (td, n) →
      n < 2147483648 → ScansTable db tbl n := by
  intro hclaim
  have hkept : Kept (openKeyed 9 1 7 oneInt .empty) :=
    ⟨fun e he => absurd he List.not_mem_nil, List.nodup_nil, fun e he => absurd he List.not_mem_nil⟩
  have hready : Ready HeapPage.headerView (openTable 9 1 7 oneInt .empty) :=
    openTable_ready (by decide) (by decide) trivial (by decide)
  obtain ⟨fuel, result, db', pages, d', hscan, hfetch, rfl, -⟩ :=
    hclaim (openKeyed 9 1 7 oneInt .empty) 7 oneInt 0 hkept hready rfl (by decide) fun _ => 0
  cases hfetch
  exact scan_ne_nil hscan rfl

end Table

end SeqScan

end PagedDb
