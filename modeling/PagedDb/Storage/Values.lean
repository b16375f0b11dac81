import PagedDb.Foundation.Memory

/-!
# Fields, tuples and page identifiers

The values every page kind stores: typed fields with their byte codec, tuple
descriptions, tuples and the record ids that say where a tuple is kept.
-/

namespace PagedDb

open Memory

/-- The ways a call can end without returning. -/
inductive Fault
  | assertion
  | runtimeError (what : String)
  | nullDeref
  | dangling
  | outOfBounds
  | outOfFuel
  deriving DecidableEq, Repr

/-- `assert`. -/
def assertThat (c : Prop) [Decidable c] : Except Fault Unit :=
  if c then .ok () else .error .assertion

theorem assertThat_ok {c : Prop} [Decidable c] (h : c) : assertThat c = .ok () := if_pos h

theorem of_assertThat {c : Prop} [Decidable c] {u : Unit} (h : assertThat c = .ok u) : c := by
  unfold assertThat at h
  split at h
  · assumption
  · cases h

/-- `Types::Type`. -/
inductive FieldType
  | intType
  | stringType
  deriving DecidableEq, Repr

/-- `Types::STRING_LEN`. -/
def stringLen : ℕ := 128

/-- `Types::getLen`: the bytes a field of the type takes on a page. -/
def FieldType.getLen : FieldType → ℕ
  | .intType => 4
  | .stringType => stringLen + 4

/-- `Predicate::Op`. -/
inductive Op
  | equals
  | notEquals
  | greaterThan
  | lessThan
  | lessThanOrEq
  | greaterThanOrEq
  | like
  deriving DecidableEq, Repr

/-- `StringField`: a length and the whole `char` array, leftovers included. -/
structure StringField where
  len : ℕ
  value : List UInt8
  deriving DecidableEq, Repr

/-- `min(strlen(str), STRING_LEN - 1)`: the scan never needs more than that many bytes. -/
def boundedStrlen (str : Buffer) : ℕ :=
  ((List.range (stringLen - 1)).find? fun i => str i = 0).getD (stringLen - 1)

/-- The `StringField` constructor; `fresh` is what the new object's memory held before. -/
def StringField.ofChars (str fresh : Buffer) : StringField :=
  let len := boundedStrlen str
  { len
    value := (List.range stringLen).map fun i =>
      if i < len then str i else if i = len then 0 else fresh i }

/-- `Field`: the two subclasses. -/
inductive Field
  | int (value : Int32)
  | string (value : StringField)
  deriving DecidableEq, Repr

namespace Field

def getType : Field → FieldType
  | .int _ => .intType
  | .string _ => .stringType

/-- The bytes `serialize` copies out: the integer, or the length and four characters. -/
def serialize : Field → List UInt8
  | .int value => wordBytes value
  | .string s => wordBytes (Int32.ofNat s.len) ++ s.value.take 4

/-- `Types::parse` at an offset; `stack` is the leftover content of `parse`'s local array. -/
def parse (data : Buffer) (off : ℕ) (stack : Buffer) : FieldType → Field
  | .intType => .int (loadWord data off)
  | .stringType =>
    let len := (loadWord data off).toUInt32.toNat
    let value : Buffer := fun i => if i < len then data (off + 4 + i) else stack i
    .string (StringField.ofChars value fun i => stack (stringLen + i))

/-- `IntField::compare`. -/
def compareInt (op : Op) (a b : Int32) : Bool :=
  match op with
  | .equals => a.toInt = b.toInt
  | .notEquals => a.toInt ≠ b.toInt
  | .greaterThan => b.toInt < a.toInt
  | .greaterThanOrEq => b.toInt ≤ a.toInt
  | .lessThan => a.toInt < b.toInt
  | .lessThanOrEq => a.toInt ≤ b.toInt
  | .like => a.toInt = b.toInt

/-- `Field::compare`. A failed `dynamic_cast` of the argument is dereferenced as null;
`StringField::compare` always throws. -/
def compare (op : Op) : Field → Field → Except Fault Bool
  | .int a, .int b => .ok (compareInt op a b)
  | .int _, .string _ => .error .nullDeref
  | .string _, _ => .error (.runtimeError "Not implemented")

@[simp] theorem getType_parse (data : Buffer) (off : ℕ) (stack : Buffer) (type : FieldType) :
    (parse data off stack type).getType = type := by
  cases type <;> rfl

theorem serialize_length_le (f : Field) : f.serialize.length ≤ f.getType.getLen := by
  cases f with
  | int v => exact Nat.le_refl _
  | string s =>
    simp only [serialize, getType, FieldType.getLen, stringLen, List.length_append,
      List.length_take, wordBytes_length]
    omega

theorem exists_int {f : Field} (h : f.getType = .intType) : ∃ v, f = .int v := by
  cases f with
  | int v => exact ⟨v, rfl⟩
  | string s => simp [getType] at h

end Field

/-- `TDItem`. -/
structure TDItem where
  fieldType : FieldType
  fieldName : String
  deriving DecidableEq, Repr

/-- `TupleDesc`; its `size` member is always the sum `getSize` computes. -/
structure TupleDesc where
  items : List TDItem
  deriving DecidableEq, Repr

namespace TupleDesc

def numFields (td : TupleDesc) : ℕ := td.items.length

def types (td : TupleDesc) : List FieldType := td.items.map TDItem.fieldType

def getSize (td : TupleDesc) : ℕ := (td.types.map FieldType.getLen).sum

def getFieldType (td : TupleDesc) (i : ℕ) : Option FieldType := td.types[i]?

def IntOnly (td : TupleDesc) : Prop := ∀ t ∈ td.types, t = .intType

instance (td : TupleDesc) : Decidable td.IntOnly :=
  inferInstanceAs (Decidable (∀ t ∈ td.types, t = .intType))

/-- `Utility::getTupleDesc`: the given number of unnamed integer columns. -/
def ofInts (width : ℕ) : TupleDesc := ⟨List.replicate width ⟨.intType, ""⟩⟩

theorem IntOnly.getSize_eq {td : TupleDesc} (h : td.IntOnly) : td.getSize = 4 * td.numFields := by
  have hall : ∀ l : List FieldType, (∀ t ∈ l, t = .intType) →
      (l.map FieldType.getLen).sum = 4 * l.length := by
    intro l hl
    induction l with
    | nil => rfl
    | cons t l ih =>
      rw [List.map_cons, List.sum_cons, ih fun x hx => hl x (List.mem_cons_of_mem t hx),
        hl t List.mem_cons_self, FieldType.getLen, List.length_cons]
      omega
  simpa [getSize, numFields, types] using hall td.types h

end TupleDesc

/-- `HeapPageId`. -/
structure HeapPageId where
  tableId : Int32
  pgNo : Int32
  deriving DecidableEq, Repr

/-- `BTreePageType`, an `enum class` over `int`: any 32-bit code is a value of it. -/
structure BTreePageType where
  code : Int32
  deriving DecidableEq, Repr

namespace BTreePageType

def rootPtr : BTreePageType := ⟨0⟩
def internal : BTreePageType := ⟨1⟩
def leaf : BTreePageType := ⟨2⟩
def header : BTreePageType := ⟨3⟩

end BTreePageType

/-- `BTreePageId`. -/
structure BTreePageId where
  tableId : Int32
  pgNo : Int32
  type : BTreePageType
  deriving DecidableEq, Repr

/-- `PageId`: its two subclasses. `operator==` compares the dynamic type and every field. -/
inductive PageId
  | heap (id : HeapPageId)
  | btree (id : BTreePageId)
  deriving DecidableEq, Repr

namespace PageId

def getTableId : PageId → Int32
  | .heap id => id.tableId
  | .btree id => id.tableId

def pageNumber : PageId → Int32
  | .heap id => id.pgNo
  | .btree id => id.pgNo

end PageId

/-- `RecordId`. -/
structure RecordId where
  pid : PageId
  tupleno : ℕ
  deriving DecidableEq, Repr

/-- `TransactionId`. -/
structure TransactionId where
  id : ℕ
  deriving DecidableEq, Repr

theorem typed_int (v : Int32) :
    [Field.int v].map Field.getType = (TupleDesc.ofInts 1).types := rfl

/-- `Tuple`, every field set to a value of its declared type. -/
@[ext] structure Tuple where
  td : TupleDesc
  fields : List Field
  rid : Option RecordId
  typed : fields.map Field.getType = td.types
  deriving DecidableEq

namespace Tuple

def empty : Tuple := ⟨⟨[]⟩, [], none, rfl⟩

def setRecordId (t : Tuple) (rid : Option RecordId) : Tuple := { t with rid }

def getField (t : Tuple) (i : ℕ) : Except Fault Field :=
  match t.fields[i]? with
  | some f => .ok f
  | none => .error .outOfBounds

@[simp] theorem setRecordId_td (t : Tuple) (rid : Option RecordId) :
    (t.setRecordId rid).td = t.td := rfl

@[simp] theorem setRecordId_fields (t : Tuple) (rid : Option RecordId) :
    (t.setRecordId rid).fields = t.fields := rfl

@[simp] theorem setRecordId_rid (t : Tuple) (rid : Option RecordId) :
    (t.setRecordId rid).rid = rid := rfl

@[simp] theorem setRecordId_setRecordId (t : Tuple) (r r' : Option RecordId) :
    (t.setRecordId r).setRecordId r' = t.setRecordId r' := rfl

theorem fields_length (t : Tuple) : t.fields.length = t.td.numFields := by
  have := congrArg List.length t.typed
  simpa [TupleDesc.types, TupleDesc.numFields] using this

theorem field_isInt (t : Tuple) (h : t.td.IntOnly) {f : Field} (hf : f ∈ t.fields) :
    ∃ v, f = .int v := by
  apply Field.exists_int
  apply h
  rw [← t.typed]
  exact List.mem_map_of_mem hf

end Tuple

end PagedDb
