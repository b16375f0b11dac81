import PagedDb.Foundation.Layout
import PagedDb.Storage.Values

/-!
# Reading and writing tuples

Both page kinds that store tuples read a slot field by field. The round trip of
a slot rests on one property of a field: parsing its bytes gives it back.
-/

namespace PagedDb

open Memory Layout

def parseFields (data : Buffer) (stack : Buffer) : List FieldType → ℕ → List Field
  | [], _ => []
  | t :: ts, off => Field.parse data off stack t :: parseFields data stack ts (off + t.getLen)

theorem parseFields_typed (data stack : Buffer) (ts : List FieldType) (off : ℕ) :
    (parseFields data stack ts off).map Field.getType = ts := by
  induction ts generalizing off with
  | nil => rfl
  | cons t ts ih => simp [parseFields, ih]

/-- `readTuple`, the same loop in both page kinds that store tuples. -/
def readTuple (td : TupleDesc) (pid : PageId) (data : Buffer) (off : ℕ) (stack : Buffer)
    (slotId : ℕ) : Tuple :=
  { td
    fields := parseFields data stack td.types off
    rid := some ⟨pid, slotId⟩
    typed := parseFields_typed data stack td.types off }

theorem parseFields_congr {data data' stack stack' : Buffer} {ts : List FieldType} {off : ℕ}
    (hts : ∀ t ∈ ts, t = .intType)
    (h : ∀ i, off ≤ i → i < off + (ts.map FieldType.getLen).sum → data i = data' i) :
    parseFields data stack ts off = parseFields data' stack' ts off := by
  induction ts generalizing off with
  | nil => rfl
  | cons t ts ih =>
    obtain rfl := hts t List.mem_cons_self
    simp only [List.map_cons, List.sum_cons, FieldType.getLen] at h
    simp only [parseFields, Field.parse, FieldType.getLen]
    rw [loadWord_congr fun i h₁ h₂ => h i h₁ (by omega),
      ih (fun x hx => hts x (List.mem_cons_of_mem _ hx)) fun i h₁ h₂ => h i (by omega) (by omega)]

theorem parseFields_int {data stack : Buffer} {ts : List FieldType} {off : ℕ}
    (hts : ∀ t ∈ ts, t = .intType) :
    parseFields data stack ts off =
      (List.range ts.length).map fun j => Field.int (loadWord data (off + 4 * j)) := by
  induction ts generalizing off with
  | nil => rfl
  | cons t ts ih =>
    obtain rfl := hts t List.mem_cons_self
    rw [parseFields, ih fun x hx => hts x (List.mem_cons_of_mem _ hx), List.length_cons,
      List.range_succ_eq_map, List.map_cons, List.map_map]
    congr 1
    apply List.map_congr_left
    intro j _
    change Field.int (loadWord data (off + 4 + 4 * j)) = .int (loadWord data (off + 4 * (j + 1)))
    rw [show off + 4 + 4 * j = off + 4 * (j + 1) by ring]

/-- Memory that holds the field's bytes parses to the field, whatever stands around them. -/
structure Field.RoundTrips (f : Field) : Prop where
  length : f.serialize.length = f.getType.getLen
  parse : ∀ data off stack, read data off f.serialize.length = f.serialize →
    Field.parse data off stack f.getType = f

theorem Field.int_roundTrips (v : Int32) : (Field.int v).RoundTrips where
  length := rfl
  parse := fun _ _ _ h => congrArg Field.int (loadWord_of_read h)

def fieldsSize (fs : List Field) : ℕ := (fs.map fun f => f.getType.getLen).sum

@[simp] theorem fieldsSize_cons (f : Field) (fs : List Field) :
    fieldsSize (f :: fs) = f.getType.getLen + fieldsSize fs := by
  simp [fieldsSize]

theorem fieldsSize_eq {fs : List Field} {td : TupleDesc} (h : fs.map Field.getType = td.types) :
    fieldsSize fs = td.getSize := by
  rw [TupleDesc.getSize, ← h, List.map_map]
  rfl

def writeFields (c : Cursor) (fs : List Field) : Cursor :=
  fs.foldl (fun c f => (write c.1 c.2 f.serialize, c.2 + f.getType.getLen)) c

theorem writeFields_offset (c : Cursor) (fs : List Field) :
    (writeFields c fs).2 = c.2 + fieldsSize fs := by
  induction fs generalizing c with
  | nil => rfl
  | cons f fs ih =>
    rw [writeFields, List.foldl_cons]
    change (writeFields _ fs).2 = _
    rw [ih, fieldsSize_cons]
    exact Nat.add_assoc _ _ _

theorem writeFields_outside {c : Cursor} {fs : List Field} {j : ℕ}
    (hj : j < c.2 ∨ c.2 + fieldsSize fs ≤ j) : (writeFields c fs).1 j = c.1 j := by
  induction fs generalizing c with
  | nil => rfl
  | cons f fs ih =>
    have hf := f.serialize_length_le
    rw [fieldsSize_cons] at hj
    rw [writeFields, List.foldl_cons]
    change (writeFields _ fs).1 j = _
    rw [ih]
    · exact write_outside (by omega)
    · simp only
      omega

/-- Reading back what was written gives the same fields, if each of them round-trips. -/
theorem parseFields_writeFields {c : Cursor} {fs : List Field} {data stack : Buffer}
    (hfs : ∀ f ∈ fs, f.RoundTrips)
    (hdata : ∀ i, c.2 ≤ i → i < c.2 + fieldsSize fs → data i = (writeFields c fs).1 i) :
    parseFields data stack (fs.map Field.getType) c.2 = fs := by
  induction fs generalizing c with
  | nil => rfl
  | cons f fs ih =>
    have hf := hfs f List.mem_cons_self
    have hrest : ∀ g ∈ fs, g.RoundTrips := fun g hg => hfs g (List.mem_cons_of_mem f hg)
    rw [fieldsSize_cons] at hdata
    have hhead : Field.parse data c.2 stack f.getType = f := by
      apply hf.parse
      refine Eq.trans ?_ (read_write_self c.1 c.2 f.serialize)
      apply read_congr
      intro i h₁ h₂
      rw [hf.length] at h₂
      rw [hdata i h₁ (by omega)]
      exact writeFields_outside (c := (write c.1 c.2 f.serialize, c.2 + f.getType.getLen)) (.inl h₂)
    rw [List.map_cons, parseFields, hhead]
    congr 1
    apply ih (c := (write c.1 c.2 f.serialize, c.2 + f.getType.getLen)) hrest
    intro i h₁ h₂
    exact hdata i (le_trans (Nat.le_add_right _ _) h₁) (by simp only at h₂; omega)

end PagedDb
