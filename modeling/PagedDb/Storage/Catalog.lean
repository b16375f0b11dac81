import PagedDb.Foundation.TwoIndexes
import PagedDb.Storage.Values

/-!
# The catalog

The catalog files its tables by the id of their file and by name. `addTable`
first takes out the table with the new id, together with the name index entry
under that table's *primary key field*, then the table with the new name. The
two indexes stay inverse exactly as long as this wrong key does no harm.
-/

namespace PagedDb

/-- What the catalog sees of a `DbFile`. -/
structure FileInfo where
  id : Int32
  td : TupleDesc
  deriving DecidableEq

/-- A `Table` object; `address` is what a `Table *` to it is compared by. -/
structure Table where
  address : ℕ
  file : FileInfo
  name : String
  pkeyField : String
  deriving DecidableEq

namespace Table

/-- `file->getId()`. -/
def getId (T : Table) : Int32 := T.file.id

end Table

/-- The exceptions the catalog throws, with their texts. -/
inductive CatalogError where
  | invalidArgument (what : String)
  | runtimeError (what : String)
  deriving DecidableEq

structure Catalog where
  idToTable : AList fun _ : Int32 => Table
  nameToTable : AList fun _ : String => Table
  /-- The address the next `new Table` gets. -/
  next : ℕ

namespace Catalog

def byId (c : Catalog) (id : Int32) : Option Table := c.idToTable.lookup id

def byName (c : Catalog) (name : String) : Option Table := c.nameToTable.lookup name

/-- The first `if` of `addTable`. The erased element is read again for the second key. -/
def eraseOldId (c : Catalog) (id : Int32) : Catalog :=
  match c.byId id with
  | some oldId =>
    { c with
      idToTable := c.idToTable.erase id
      nameToTable := c.nameToTable.erase oldId.pkeyField }
  | none => c

/-- The second `if` of `addTable`. -/
def eraseOldName (c : Catalog) (name : String) : Catalog :=
  match c.byName name with
  | some oldName =>
    { c with
      nameToTable := c.nameToTable.erase name
      idToTable := c.idToTable.erase oldName.getId }
  | none => c

/-- `new Table`, filed in both indexes. -/
def newTable (c : Catalog) (file : FileInfo) (name pkeyField : String) : Catalog :=
  let table : Table := ⟨c.next, file, name, pkeyField⟩
  { idToTable := c.idToTable.insert file.id table
    nameToTable := c.nameToTable.insert name table
    next := c.next + 1 }

def addTable (c : Catalog) (file : FileInfo) (name pkeyField : String) : Catalog :=
  ((c.eraseOldId file.id).eraseOldName name).newTable file name pkeyField

def getTableId (c : Catalog) (name : String) : Except CatalogError Int32 :=
  match c.byName name with
  | none => throw (.invalidArgument "Table not found")
  | some T => pure T.getId

def findId (c : Catalog) (id : Int32) : Except CatalogError Table :=
  match c.byId id with
  | none => throw (.runtimeError "Table not found")
  | some T => pure T

def getTupleDesc (c : Catalog) (tableid : Int32) : Except CatalogError TupleDesc :=
  (fun T => T.file.td) <$> c.findId tableid

def getDatabaseFile (c : Catalog) (tableid : Int32) : Except CatalogError FileInfo :=
  Table.file <$> c.findId tableid

def getPrimaryKey (c : Catalog) (tableid : Int32) : Except CatalogError String :=
  Table.pkeyField <$> c.findId tableid

def getTableName (c : Catalog) (id : Int32) : Except CatalogError String :=
  Table.name <$> c.findId id

def clear (c : Catalog) : Catalog := { c with idToTable := ∅, nameToTable := ∅ }

def empty : Catalog := ⟨∅, ∅, 0⟩

section Lookup

variable {κ ρ : Type} [DecidableEq κ]

theorem lookup_erase_eq (s : AList fun _ : κ => ρ) (k : κ) :
    (fun i => (s.erase k).lookup i) = Function.update (fun i => s.lookup i) k none := by
  funext i
  by_cases hi : i = k
  · subst hi
    simp
  · simp [hi]

theorem lookup_insert_eq (s : AList fun _ : κ => ρ) (k : κ) (r : ρ) :
    (fun i => (s.insert k r).lookup i) = Function.update (fun i => s.lookup i) k (some r) := by
  funext i
  by_cases hi : i = k
  · subst hi
    simp
  · simp [hi]

end Lookup

variable (c : Catalog)

theorem byId_eraseOldId (id : Int32) :
    (c.eraseOldId id).byId = Function.update c.byId id none := by
  unfold eraseOldId
  cases h : c.byId id with
  | none => simp [h]
  | some T => exact lookup_erase_eq c.idToTable id

theorem byName_eraseOldId (id : Int32) : (c.eraseOldId id).byName =
    ((c.byId id).map fun T => Function.update c.byName T.pkeyField none).getD c.byName := by
  unfold eraseOldId
  cases h : c.byId id with
  | none => rfl
  | some T => exact lookup_erase_eq c.nameToTable T.pkeyField

theorem byName_eraseOldName (name : String) :
    (c.eraseOldName name).byName = Function.update c.byName name none := by
  unfold eraseOldName
  cases h : c.byName name with
  | none => simp [h]
  | some T => exact lookup_erase_eq c.nameToTable name

theorem byId_eraseOldName (name : String) : (c.eraseOldName name).byId =
    ((c.byName name).map fun T => Function.update c.byId T.getId none).getD c.byId := by
  unfold eraseOldName
  cases h : c.byName name with
  | none => rfl
  | some T => exact lookup_erase_eq c.idToTable T.getId

theorem byId_newTable (file : FileInfo) (name pkeyField : String) :
    (c.newTable file name pkeyField).byId =
      Function.update c.byId file.id (some ⟨c.next, file, name, pkeyField⟩) :=
  lookup_insert_eq c.idToTable file.id _

theorem byName_newTable (file : FileInfo) (name pkeyField : String) :
    (c.newTable file name pkeyField).byName =
      Function.update c.byName name (some ⟨c.next, file, name, pkeyField⟩) :=
  lookup_insert_eq c.nameToTable name _

/-- Each index finds a table under its own key, and the other index has the same table. -/
def Consistent : Prop := TwoIndexes.Inverse Table.getId Table.name c.byId c.byName

def KeepsOthers (c' : Catalog) (id : Int32) (name : String) : Prop :=
  (∀ i T, c.byId i = some T → T.getId ≠ id → T.name ≠ name → c'.byId i = some T) ∧
    ∀ n T, c.byName n = some T → T.getId ≠ id → T.name ≠ name → c'.byName n = some T

/-- The table with the new id has its primary key field for a name, or it has the new name
and no table is called like its primary key field. -/
def KeyIsName (id : Int32) (name : String) : Prop :=
  ∀ T, c.byId id = some T →
    T.pkeyField = T.name ∨ (T.name = name ∧ c.byName T.pkeyField = none)

variable {c} {id : Int32} {name : String}

/-- The state between the erasures and the insertion. -/
structure Cleared (c c' : Catalog) (id : Int32) (name : String) : Prop where
  consistent : c'.Consistent
  id_free : c'.byId id = none
  name_free : c'.byName name = none
  keeps : c.KeepsOthers c' id name

theorem eraseOldName_cleared (h : c.Consistent) (hid : c.byId id = none) :
    Cleared c (c.eraseOldName name) id name := by
  cases hname : c.byName name with
  | none =>
    have hsame : c.eraseOldName name = c := by simp [eraseOldName, hname]
    rw [hsame]
    exact ⟨h, hid, hname, fun i T hi _ _ => hi, fun n T hn _ _ => hn⟩
  | some V =>
    obtain ⟨rfl, hV⟩ := h.right hname
    have hbyId : (c.eraseOldName V.name).byId = Function.update c.byId V.getId none := by
      simp [byId_eraseOldName, hname]
    refine ⟨?_, ?_, ?_, ?_, ?_⟩
    · unfold Consistent
      rw [hbyId, byName_eraseOldName]
      exact h.erase hV
    · rw [hbyId]
      by_cases heq : id = V.getId
      · simp [heq]
      · rwa [Function.update_of_ne heq]
    · simp [byName_eraseOldName]
    · intro i T hi hne hname'
      rw [hbyId, Function.update_of_ne]
      · exact hi
      · rintro rfl
        rw [hV] at hi
        cases hi
        exact hname' rfl
    · intro n T hn _ hname'
      obtain ⟨rfl, -⟩ := h.right hn
      rw [byName_eraseOldName, Function.update_of_ne hname']
      exact hn

theorem KeepsOthers.trans {c₁ c₂ : Catalog} (h : c.KeepsOthers c₁ id name)
    (h' : c₁.KeepsOthers c₂ id name) : c.KeepsOthers c₂ id name :=
  ⟨fun i T hi hid hname => h'.1 i T (h.1 i T hi hid hname) hid hname,
    fun n T hn hid hname => h'.2 n T (h.2 n T hn hid hname) hid hname⟩

theorem keepsOthers_erase {T : Table} {c' : Catalog} (h : c.Consistent)
    (hT : c.byId T.getId = some T) (hid : c'.byId = Function.update c.byId T.getId none)
    (hname : c'.byName = Function.update c.byName T.name none) :
    c.KeepsOthers c' T.getId name := by
  constructor
  · intro i U hi hne _
    obtain ⟨rfl, -⟩ := h.left hi
    rwa [hid, Function.update_of_ne hne]
  · intro n U hn hne _
    obtain ⟨rfl, hU⟩ := h.right hn
    rw [hname, Function.update_of_ne]
    · exact hn
    · intro heq
      exact hne (congrArg Table.getId (h.eq_of_snd hU hT heq))

theorem eraseBoth_cleared (h : c.Consistent) (hkey : c.KeyIsName id name) :
    Cleared c ((c.eraseOldId id).eraseOldName name) id name := by
  cases hid : c.byId id with
  | none =>
    have hsame : c.eraseOldId id = c := by simp [eraseOldId, hid]
    rw [hsame]
    exact eraseOldName_cleared h hid
  | some T =>
    obtain ⟨rfl, hT⟩ := h.left hid
    have herase := h.erase hid
    have hbyId := byId_eraseOldId c T.getId
    have hbyName : (c.eraseOldId T.getId).byName = Function.update c.byName T.pkeyField none := by
      simp [byName_eraseOldId, hid]
    obtain hpkey | ⟨rfl, hfree⟩ := hkey T hid
    · rw [hpkey] at hbyName
      have hcons : (c.eraseOldId T.getId).Consistent := by
        unfold Consistent
        rwa [hbyId, hbyName]
      have hfree : (c.eraseOldId T.getId).byId T.getId = none := by simp [hbyId]
      have hcleared : Cleared _ _ _ name := eraseOldName_cleared hcons hfree
      exact { hcleared with
        keeps := (keepsOthers_erase h hid hbyId hbyName).trans hcleared.keeps }
    · -- The first erasure leaves the name of `T` behind; the second finds `T` by it.
      rw [show Function.update c.byName T.pkeyField none = c.byName by simp [hfree]] at hbyName
      have hbyId' : ((c.eraseOldId T.getId).eraseOldName T.name).byId =
          Function.update c.byId T.getId none := by
        simp [byId_eraseOldName, hbyName, hT, hbyId]
      have hbyName' : ((c.eraseOldId T.getId).eraseOldName T.name).byName =
          Function.update c.byName T.name none := by
        simp [byName_eraseOldName, hbyName]
      refine ⟨?_, by simp [hbyId'], by simp [hbyName'], keepsOthers_erase h hid hbyId' hbyName'⟩
      unfold Consistent
      rwa [hbyId', hbyName']

theorem addTable_spec (h : c.Consistent) {file : FileInfo} (hkey : c.KeyIsName file.id name)
    (pkeyField : String) :
    (c.addTable file name pkeyField).Consistent ∧
      c.KeepsOthers (c.addTable file name pkeyField) file.id name := by
  obtain ⟨hcons, hid, hname, hkeeps⟩ := eraseBoth_cleared h hkey
  constructor
  · unfold Consistent addTable
    rw [byId_newTable, byName_newTable]
    exact hcons.insert (r := Table.mk _ file name pkeyField) hid hname
  · refine hkeeps.trans ⟨?_, ?_⟩
    · intro i T hi hne _
      obtain ⟨rfl, -⟩ := hcons.left hi
      unfold addTable
      rwa [byId_newTable, Function.update_of_ne hne]
    · intro n T hn _ hne
      obtain ⟨rfl, -⟩ := hcons.right hn
      unfold addTable
      rwa [byName_newTable, Function.update_of_ne hne]

theorem byName_addTable {file : FileInfo} {pkeyField n : String} (hne : n ≠ name)
    (hkeep : ∀ T, c.byId file.id = some T → T.pkeyField ≠ n) :
    (c.addTable file name pkeyField).byName n = c.byName n := by
  unfold addTable
  rw [byName_newTable, Function.update_of_ne hne, byName_eraseOldName, Function.update_of_ne hne,
    byName_eraseOldId]
  cases hid : c.byId file.id with
  | none => rfl
  | some T => exact Function.update_of_ne (hkeep T hid).symm _ _

theorem keyIsName_of_consistent (h : c.Consistent) {file : FileInfo} {pkeyField : String}
    (h' : (c.addTable file name pkeyField).Consistent) : c.KeyIsName file.id name := by
  intro T hid
  by_contra hkey
  obtain ⟨hpkey, hfree⟩ := not_or.mp hkey
  obtain ⟨hidT, hT⟩ := h.left hid
  by_cases hname : T.name = name
  · -- The table called like the primary key field is still found by its id.
    obtain ⟨U, hU⟩ := Option.ne_none_iff_exists'.mp fun hnone => hfree ⟨hname, hnone⟩
    obtain ⟨hnameU, hidU⟩ := h.right hU
    have hne : U.getId ≠ file.id := by
      intro heq
      rw [heq, hid] at hidU
      cases hidU
      exact hpkey hnameU.symm
    have hkept : (c.addTable file name pkeyField).byId U.getId = some U := by
      subst hname
      have hbyName : (c.eraseOldId file.id).byName T.name = some T := by
        simp [byName_eraseOldId, hid, Ne.symm hpkey, hT]
      simp [addTable, byId_newTable, byId_eraseOldName, hbyName, hidT, byId_eraseOldId, hne, hidU]
    have hback := (h'.left hkept).2
    have hgone : (c.addTable file name pkeyField).byName U.name = none := by
      have hother : T.pkeyField ≠ name := hname ▸ hpkey
      simp [addTable, byName_newTable, byName_eraseOldName, byName_eraseOldId, hid, hnameU, hother]
    rw [hgone] at hback
    cases hback
  · -- The old table is still found by its name.
    have hstale : (c.addTable file name pkeyField).byName T.name = some T := by
      rw [byName_addTable hname, hT]
      intro T' hid'
      rw [hid] at hid'
      cases hid'
      exact hpkey
    have hback := (h'.right hstale).2
    rw [hidT] at hback
    unfold addTable at hback
    rw [byId_newTable, Function.update_self] at hback
    cases hback
    exact hname rfl

/-- The calls that change a catalog. -/
inductive Call where
  | addTable (file : FileInfo) (name pkeyField : String)
  | clear

def call (c : Catalog) : Call → Catalog
  | .addTable file name pkeyField => c.addTable file name pkeyField
  | .clear => c.clear

def run (calls : List Call) : Catalog := calls.foldl call empty

def RemovesOnly (c : Catalog) : Call → Prop
  | .addTable file name pkeyField => c.KeepsOthers (c.addTable file name pkeyField) file.id name
  | .clear => True

/-- `KeyIsName` of the call's arguments. -/
def Harmless (c : Catalog) : Call → Prop
  | .addTable file name _ => c.KeyIsName file.id name
  | .clear => True

theorem empty_consistent : empty.Consistent := TwoIndexes.Inverse.empty _ _

theorem call_spec (h : c.Consistent) (x : Call) :
    (c.call x).Consistent ∧ c.RemovesOnly x ↔ c.Harmless x := by
  cases x with
  | clear => exact ⟨fun _ => trivial, fun _ => ⟨empty_consistent, trivial⟩⟩
  | addTable file name pkeyField =>
    exact ⟨fun h' => keyIsName_of_consistent h h'.1, fun hkey => addTable_spec h hkey pkeyField⟩

/-- The catalog is consistent after every call, and every call removes only what it replaces,
exactly if no call meets a table whose primary key field is a name of its own. -/
theorem run_consistent_iff (calls : List Call) :
    (∀ pre, pre <+: calls → (run pre).Consistent) ∧
        (∀ pre x, pre ++ [x] <+: calls → (run pre).RemovesOnly x) ↔
      ∀ pre x, pre ++ [x] <+: calls → (run pre).Harmless x := by
  constructor
  · rintro ⟨hcons, hremoves⟩ pre x hpre
    have hbefore := hcons pre ((List.prefix_append pre [x]).trans hpre)
    have hafter := hcons _ hpre
    simp only [run, List.foldl_append, List.foldl_cons, List.foldl_nil] at hafter
    exact (call_spec hbefore x).mp ⟨hafter, hremoves pre x hpre⟩
  · intro hharmless
    have hcons : ∀ pre, pre <+: calls → (run pre).Consistent := by
      intro pre
      induction pre using List.reverseRecOn with
      | nil => exact fun _ => empty_consistent
      | append_singleton pre x ih =>
        intro hpre
        have hbefore := ih ((List.prefix_append pre [x]).trans hpre)
        simp only [run, List.foldl_append, List.foldl_cons, List.foldl_nil]
        exact ((call_spec hbefore x).mpr (hharmless pre x hpre)).1
    refine ⟨hcons, ?_⟩
    intro pre x hpre
    have hbefore := hcons pre ((List.prefix_append pre [x]).trans hpre)
    exact ((call_spec hbefore x).mpr (hharmless pre x hpre)).2

/-- A second table with the id of the first leaves the first one's name behind. -/
theorem stale_name :
    ¬ ∀ calls, (∀ pre, pre <+: calls → (run pre).Consistent) ∧
      ∀ pre x, pre ++ [x] <+: calls → (run pre).RemovesOnly x := by
  intro hclaim
  let file : FileInfo := ⟨1, .ofInts 1⟩
  have hcons := (hclaim [.addTable file "a" "", .addTable file "b" ""]).1 _ List.prefix_rfl
  have hfound : (run [.addTable file "a" "", .addTable file "b" ""]).byName "a" =
      some ⟨0, file, "a", ""⟩ := by decide
  have hback := (hcons.right hfound).2
  revert hback
  decide

end Catalog

end PagedDb
