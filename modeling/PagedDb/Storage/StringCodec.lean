import PagedDb.Storage.Values

/-!
# The string field codec

`serialize` copies out the length and four characters, `parse` copies in as
many characters as the length says and builds a new field from a local array
without a terminator of its own. So a string comes back only if the slot and
the local array happen to hold the rest, and the field that comes back is never
`==` to the one that went out, since `operator==` compares the two arrays'
addresses.
-/

namespace PagedDb

open Memory

/-- The memory at `s` is a NUL-terminated string of `n` characters. -/
structure IsCString (s : Buffer) (n : ℕ) : Prop where
  nonzero : ∀ i < n, s i ≠ 0
  terminated : s n = 0

theorem boundedStrlen_le (str : Buffer) : boundedStrlen str ≤ stringLen - 1 := by
  unfold boundedStrlen
  cases h : (List.range (stringLen - 1)).find? fun i => str i = 0 with
  | none => exact Nat.le_refl _
  | some i => exact le_of_lt (List.mem_range.mp (List.mem_of_find?_eq_some h))

theorem boundedStrlen_eq_iff {str : Buffer} {m : ℕ} (hm : m ≤ stringLen - 1) :
    boundedStrlen str = m ↔ (∀ i < m, str i ≠ 0) ∧ (m = stringLen - 1 ∨ str m = 0) := by
  have hspec : (∀ i < boundedStrlen str, str i ≠ 0) ∧
      (boundedStrlen str = stringLen - 1 ∨ str (boundedStrlen str) = 0) := by
    unfold boundedStrlen
    cases h : (List.range (stringLen - 1)).find? fun i => str i = 0 with
    | none => exact ⟨by simpa using h, .inl rfl⟩
    | some i =>
      simp only [List.find?_range_eq_some] at h
      exact ⟨fun j hj => by simpa using h.2.2 j hj, .inr (by simpa using h.1)⟩
  constructor
  · rintro rfl
    exact hspec
  · rintro ⟨hne, hend⟩
    have hle := boundedStrlen_le str
    rcases Nat.lt_trichotomy (boundedStrlen str) m with hlt | heq | hgt
    · rcases hspec.2 with hlast | hzero
      · omega
      · exact absurd hzero (hne _ hlt)
    · exact heq
    · rcases hend with hlast | hzero
      · omega
      · exact absurd hzero (hspec.1 _ hgt)

theorem IsCString.boundedStrlen_eq {s : Buffer} {n : ℕ} (hs : IsCString s n) :
    boundedStrlen s = min n (stringLen - 1) := by
  refine (boundedStrlen_eq_iff (Nat.min_le_right _ _)).mpr ⟨?_, ?_⟩
  · intro i hi
    exact hs.nonzero i (by omega)
  · by_cases hle : n ≤ stringLen - 1
    · right
      rw [Nat.min_eq_left hle]
      exact hs.terminated
    · left
      omega

theorem read_take (m : Buffer) (off n k : ℕ) : (read m off n).take k = read m off (min n k) := by
  simp [Memory.read, ← List.map_take, List.take_range, Nat.min_comm]

theorem read_eq_iff {m m' : Buffer} {n k : ℕ} :
    read m 0 n = read m' 0 k ↔ n = k ∧ ∀ i < n, m i = m' i := by
  constructor
  · intro h
    obtain rfl : n = k := by simpa using congrArg List.length h
    refine ⟨rfl, ?_⟩
    intro i hi
    simpa [Memory.read, hi] using congrArg (fun l => l[i]?) h
  · rintro ⟨rfl, h⟩
    exact read_congr fun i _ hi => h i (by omega)

namespace StringField

/-- `StringField::getValue`: the characters in front of the first NUL. -/
def getValue (f : StringField) : List UInt8 := f.value.takeWhile (· ≠ 0)

theorem ofChars_getD (str fresh : Buffer) {i : ℕ} (hi : i < boundedStrlen str) :
    (ofChars str fresh).value.getD i 0 = str i := by
  have hle := boundedStrlen_le str
  have hlen : i < stringLen := by
    unfold stringLen at hle ⊢
    omega
  simp [ofChars, hlen, hi]

theorem getValue_ofChars (str fresh : Buffer) :
    (ofChars str fresh).getValue = read str 0 (boundedStrlen str) := by
  obtain ⟨hne, -⟩ := (boundedStrlen_eq_iff (boundedStrlen_le str)).mp rfl
  obtain ⟨k, hk⟩ : ∃ k, stringLen = boundedStrlen str + (1 + k) := by
    refine ⟨stringLen - boundedStrlen str - 1, ?_⟩
    have hle := boundedStrlen_le str
    unfold stringLen at hle ⊢
    omega
  have hvalue : (ofChars str fresh).value = read str 0 (boundedStrlen str) ++
      0 :: (List.range k).map fun i => fresh (boundedStrlen str + (1 + i)) := by
    simp only [ofChars, hk, List.range_add, List.map_append, List.map_map, Memory.read]
    congr 1
    · apply List.map_congr_left
      intro i hi
      simp [List.mem_range.mp hi]
    · simp [Function.comp_def]
  have hall : ∀ b ∈ read str 0 (boundedStrlen str), decide (b ≠ 0) = true := by
    intro b hb
    obtain ⟨i, hi, rfl⟩ := List.mem_map.mp hb
    simpa using hne i (List.mem_range.mp hi)
  rw [getValue, hvalue, List.takeWhile_append_of_pos hall]
  simp

end StringField

namespace Field

/-- `Field::operator==` of two live objects. Two string fields are compared by their arrays,
and an array stands for its address: the answer is whether they are one object. -/
def eq (objects : List Field) (a b : ℕ) : Bool :=
  match objects[a]?, objects[b]? with
  | some (.int v), some (.int w) => v = w
  | some (.string _), some (.string _) => a = b
  | _, _ => false

/-- `Types::parse`, whose `new` puts the field behind the live objects. -/
def parseNew (objects : List Field) (data : Buffer) (off : ℕ) (stack : Buffer)
    (type : FieldType) : ℕ × List Field :=
  (objects.length, objects ++ [parse data off stack type])

end Field

namespace StringField

/-- The slot after `serialize`. -/
def sent (f : StringField) (slot : Buffer) (off : ℕ) : Buffer :=
  write slot off (Field.string f).serialize

/-- The field `f`, the live object `r`, was built from the string of `n` characters at `s`. It
goes out to a slot and comes back as another object with the same text, equal to `r`, and the
two calls touch the slot only. -/
structure ComesBack (objects : List Field) (r : ℕ) (f : StringField) (s : Buffer) (n : ℕ)
    (slot : Buffer) (off : ℕ) (stack : Buffer) : Prop where
  value : ∃ g, Field.parse (f.sent slot off) off stack .stringType = .string g ∧
    g.getValue = (read s 0 n).take (stringLen - 1)
  written : ∀ i, i < off ∨ off + FieldType.stringType.getLen ≤ i → f.sent slot off i = slot i
  parsed : ∀ data, (∀ i, off ≤ i → i < off + FieldType.stringType.getLen →
    data i = f.sent slot off i) → Field.parse data off stack .stringType =
      Field.parse (f.sent slot off) off stack .stringType
  equal : Field.eq (Field.parseNew objects (f.sent slot off) off stack .stringType).2 r
    (Field.parseNew objects (f.sent slot off) off stack .stringType).1 = true

/-- The string that `parse` builds its field from. -/
def parsedChars (s slot : Buffer) (m off : ℕ) (stack : Buffer) : Buffer := fun i =>
  if i < m then (if i < 4 then s i else slot (off + 4 + i)) else stack i

variable {s fresh slot stack : Buffer} {n off : ℕ}

theorem len_ofChars (s fresh : Buffer) :
    (Int32.ofNat (ofChars s fresh).len).toUInt32.toNat = boundedStrlen s := by
  have hle := boundedStrlen_le s
  unfold stringLen at hle
  simp only [ofChars]
  change (UInt32.ofNat _).toNat = _
  rw [UInt32.toNat_ofNat']
  omega

theorem loadWord_sent (f : StringField) (slot : Buffer) (off : ℕ) :
    loadWord (f.sent slot off) off = Int32.ofNat f.len := by
  apply loadWord_of_read
  have hread := read_write_self slot off (Field.string f).serialize
  have htake : read (f.sent slot off) off 4 =
      (read (f.sent slot off) off (Field.string f).serialize.length).take 4 := by
    simp [Memory.read, ← List.map_take, List.take_range, Field.serialize]
  rw [htake, sent, hread]
  rfl

theorem sent_char {f : StringField} (hf : 4 ≤ f.value.length) (i : ℕ) :
    f.sent slot off (off + 4 + i) =
      if i < 4 then f.value.getD i 0 else slot (off + 4 + i) := by
  have hlen : (Field.string f).serialize.length = 8 := by
    simp [Field.serialize, hf]
  unfold sent
  split
  · rename_i hi
    have hin : 4 + i < (Field.string f).serialize.length := by omega
    rw [Nat.add_assoc, write_inside hin, Field.serialize, List.getD_append_right]
    · simp [List.getD_eq_getElem?_getD, hi]
    · simp
  · exact write_outside (by omega)

theorem parse_sent (s fresh slot stack : Buffer) (off : ℕ) :
    Field.parse ((ofChars s fresh).sent slot off) off stack .stringType =
      .string (ofChars (parsedChars s slot (boundedStrlen s) off stack)
        fun i => stack (stringLen + i)) := by
  simp only [Field.parse, loadWord_sent, len_ofChars]
  congr 2
  funext i
  unfold parsedChars
  rw [sent_char (by simp [ofChars, stringLen])]
  split
  · rename_i hi
    rw [ofChars_getD _ _ hi]
  · rfl

/-- The text that comes back is the one that went out exactly if the slot already held what
`serialize` leaves out, and the local array a NUL behind it. -/
theorem getValue_parsed_iff (hs : IsCString s n) :
    (∃ g, Field.parse ((ofChars s fresh).sent slot off) off stack .stringType = .string g ∧
        g.getValue = (read s 0 n).take (stringLen - 1)) ↔
      (∀ i, 4 ≤ i → i < min n (stringLen - 1) → slot (off + 4 + i) = s i) ∧
        (stringLen - 1 ≤ n ∨ stack n = 0) := by
  have hstrlen := hs.boundedStrlen_eq
  have hm : boundedStrlen s ≤ stringLen - 1 := boundedStrlen_le s
  simp only [parse_sent, Field.string.injEq, exists_eq_left', getValue_ofChars, read_take,
    read_eq_iff, ← hstrlen]
  constructor
  · rintro ⟨hlen, hchars⟩
    obtain ⟨-, hend⟩ := (boundedStrlen_eq_iff hm).mp hlen
    rw [hlen] at hchars
    constructor
    · intro i h₁ h₂
      simpa [parsedChars, h₂, Nat.not_lt.mpr h₁] using hchars i h₂
    · by_cases hn : stringLen - 1 ≤ n
      · exact .inl hn
      · have hmn : boundedStrlen s = n := by omega
        rw [hmn] at hend
        right
        simpa [parsedChars, show n ≠ stringLen - 1 by omega] using hend
  · rintro ⟨hslot, hend⟩
    have hchars : ∀ i < boundedStrlen s,
        parsedChars s slot (boundedStrlen s) off stack i = s i := by
      intro i hi
      by_cases h₄ : i < 4
      · simp [parsedChars, hi, h₄]
      · simpa [parsedChars, hi, h₄] using hslot i (by omega) hi
    have hlen : boundedStrlen (parsedChars s slot (boundedStrlen s) off stack) =
        boundedStrlen s := by
      refine (boundedStrlen_eq_iff hm).mpr ⟨?_, ?_⟩
      · intro i hi
        rw [hchars i hi]
        exact hs.nonzero i (by omega)
      · by_cases hn : stringLen - 1 ≤ n
        · left
          omega
        · right
          have hmn : boundedStrlen s = n := by omega
          simpa [parsedChars, hmn] using hend.resolve_left hn
    refine ⟨hlen, ?_⟩
    rw [hlen]
    exact hchars

theorem sent_outside (f : StringField) {i : ℕ}
    (hi : i < off ∨ off + FieldType.stringType.getLen ≤ i) : f.sent slot off i = slot i := by
  have hle := (Field.string f).serialize_length_le
  rw [Field.getType] at hle
  exact write_outside (by omega)

theorem parse_congr {data data' : Buffer} (s fresh : Buffer)
    (hdata : data' = (ofChars s fresh).sent slot off)
    (h : ∀ i, off ≤ i → i < off + FieldType.stringType.getLen → data i = data' i) :
    Field.parse data off stack .stringType = Field.parse data' off stack .stringType := by
  have hword : loadWord data off = loadWord data' off :=
    loadWord_congr fun i h₁ h₂ => h i h₁ (by simp only [FieldType.getLen]; omega)
  have hlen : (loadWord data' off).toUInt32.toNat ≤ stringLen := by
    rw [hdata, loadWord_sent, len_ofChars]
    exact (boundedStrlen_le s).trans (Nat.sub_le _ _)
  simp only [Field.parse, hword]
  congr 2
  funext i
  split
  · exact h _ (by omega) (by simp only [FieldType.getLen]; omega)
  · rfl

/-- The field that was parsed is not `==` to the field that was serialized. -/
theorem parsed_not_eq {objects : List Field} {r : ℕ} {f : StringField}
    (hr : objects[r]? = some (.string f)) (data : Buffer) :
    Field.eq (Field.parseNew objects data off stack .stringType).2 r
      (Field.parseNew objects data off stack .stringType).1 = false := by
  have hlt := (List.getElem?_eq_some_iff.mp hr).1
  have hne : r ≠ objects.length := by omega
  have hold : ∀ g, (objects ++ [g])[r]? = some (.string f) := fun g => by
    rw [List.getElem?_append_left hlt, hr]
  simp [Field.eq, Field.parseNew, hold, hne, Field.parse]

/-- No string field comes back: the two calls keep to the slot, and the text is the same exactly
if the memory holds it already, but no field is `==` to the one it was parsed from. -/
theorem not_comesBack {objects : List Field} {r : ℕ} (hs : IsCString s n)
    (hr : objects[r]? = some (.string (ofChars s fresh))) :
    ¬ ComesBack objects r (ofChars s fresh) s n slot off stack ∧
      ((∃ g, Field.parse ((ofChars s fresh).sent slot off) off stack .stringType = .string g ∧
          g.getValue = (read s 0 n).take (stringLen - 1)) ↔
        (∀ i, 4 ≤ i → i < min n (stringLen - 1) → slot (off + 4 + i) = s i) ∧
          (stringLen - 1 ≤ n ∨ stack n = 0)) ∧
      (∀ i, i < off ∨ off + FieldType.stringType.getLen ≤ i →
        (ofChars s fresh).sent slot off i = slot i) ∧
      ∀ data, (∀ i, off ≤ i → i < off + FieldType.stringType.getLen →
        data i = (ofChars s fresh).sent slot off i) →
          Field.parse data off stack .stringType =
            Field.parse ((ofChars s fresh).sent slot off) off stack .stringType := by
  refine ⟨?_, getValue_parsed_iff hs, fun i hi => sent_outside _ hi, ?_⟩
  · intro h
    have hequal := h.equal
    rw [parsed_not_eq hr] at hequal
    cases hequal
  · intro data hdata
    exact parse_congr s fresh rfl hdata

def memoryOf (text : List UInt8) : Buffer := fun i => text.getD i 0

theorem not_comesBack_hello :
    ¬ ComesBack [.string (ofChars (memoryOf [104, 101, 108, 108, 111]) fun _ => 0)] 0
      (ofChars (memoryOf [104, 101, 108, 108, 111]) fun _ => 0)
      (memoryOf [104, 101, 108, 108, 111]) 5 (fun _ => 0) 0 fun _ => 0 :=
  (not_comesBack ⟨by decide, by decide⟩ rfl).1

/-- Of `hello` the letters `hell` come back, as a field that is not equal to the first. -/
theorem hello_comes_back_short :
    ¬ ∀ (objects : List Field) (r : ℕ) (s fresh slot stack : Buffer) (n off : ℕ),
      IsCString s n → objects[r]? = some (.string (ofChars s fresh)) →
        ComesBack objects r (ofChars s fresh) s n slot off stack := by
  intro hclaim
  let hello : Buffer := memoryOf [104, 101, 108, 108, 111]
  have h := hclaim [.string (ofChars hello fun _ => 0)] 0 hello (fun _ => 0) (fun _ => 0)
    (fun _ => 0) 5 0 ⟨by decide, by decide⟩ rfl
  obtain ⟨hslot, -⟩ := (getValue_parsed_iff ⟨by decide, by decide⟩).mp h.value
  have hlast := hslot 4 (by decide) (by decide)
  revert hlast
  decide

end StringField

end PagedDb
