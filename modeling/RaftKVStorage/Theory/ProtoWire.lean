import RaftKVStorage.Theory.Varint

set_option autoImplicit false

/-! # The protobuf wire format

A message is a sequence of fields, each a tag and a value. The fields of a proto3 message that have
their default value are left out, so a message of defaults is empty. A reader takes tags and sizes of
at most five bytes and numbers of at most ten, cuts them to the bits they have room for, and skips
groups, which proto3 does not have, as long as not too many of them are open. -/

namespace ProtoWire

/-- A field of a message: its number, and a value of one of the four wire types. -/
inductive Field
  | varint (number value : ℕ)
  | fixed64 (number : ℕ) (value : List UInt8)
  | bytes (number : ℕ) (value : List UInt8)
  | fixed32 (number : ℕ) (value : List UInt8)
deriving DecidableEq, Repr

/-- A number, left out if it is zero. -/
def varintField (number value : ℕ) : List UInt8 :=
  if value = 0 then [] else Varint.write (8 * number) ++ Varint.write value

/-- A string, left out if it is empty. -/
def bytesField (number : ℕ) (value : List UInt8) : List UInt8 :=
  if value = [] then [] else Varint.write (8 * number + 2) ++ (Varint.write value.length ++ value)

@[simp] theorem varintField_eq_nil {number value : ℕ} : varintField number value = [] ↔ value = 0 := by
  unfold varintField
  split_ifs with h
  · simp [h]
  · simp [h, Varint.write_ne_nil]

@[simp] theorem bytesField_eq_nil {number : ℕ} {value : List UInt8} :
    bytesField number value = [] ↔ value = [] := by
  unfold bytesField
  split_ifs with h
  · simp [h]
  · simp [h]

/-! ## Reading -/

/-- The first `k` bytes, if there are so many. -/
def take? (k : ℕ) (bytes : List UInt8) : Option (List UInt8 × List UInt8) :=
  if k ≤ bytes.length then some (bytes.take k, bytes.drop k) else none

/-- A tag, cut to 32 bits. -/
def readTag (bytes : List UInt8) : Option (ℕ × List UInt8) :=
  (Varint.readAtMost 5 bytes).map fun p => (p.1 % 4294967296, p.2)

/-- A number, cut to 64 bits. -/
def readNumber (bytes : List UInt8) : Option (ℕ × List UInt8) :=
  (Varint.readAtMost 10 bytes).map fun p => (p.1 % 18446744073709551616, p.2)

/-- The size of a string; 2 GB and more are refused. -/
def readSize (bytes : List UInt8) : Option (ℕ × List UInt8) :=
  (Varint.readAtMost 5 bytes).filter fun p => p.1 < 2147483648

/-- The value of a field with the given tag. -/
def readValue (tag : ℕ) (bytes : List UInt8) : Option (Field × List UInt8) :=
  if tag / 8 = 0 then none
  else
    match tag % 8 with
    | 0 => (readNumber bytes).map fun p => (.varint (tag / 8) p.1, p.2)
    | 1 => (take? 8 bytes).map fun p => (.fixed64 (tag / 8) p.1, p.2)
    | 2 => (readSize bytes).bind fun p => (take? p.1 p.2).map fun q => (.bytes (tag / 8) q.1, q.2)
    | 5 => (take? 4 bytes).map fun p => (.fixed32 (tag / 8) p.1, p.2)
    | _ => none

/-- One field. -/
def readField (bytes : List UInt8) : Option (Field × List UInt8) :=
  (readTag bytes).bind fun p => readValue p.1 p.2

/-- All fields. `groups` are the numbers of the groups that are open, at most `limit` of them; what is
    in a group is read and dropped. A field takes at least one byte, so `fuel` need not exceed the number
    of bytes. -/
def readFields (limit : ℕ) : ℕ → List ℕ → List UInt8 → Option (List Field)
  | _, [], [] => some []
  | _, _ :: _, [] => none
  | 0, _, _ :: _ => none
  | fuel + 1, groups, b :: bytes =>
      (readTag (b :: bytes)).bind fun p =>
        if p.1 % 8 = 3 then
          if p.1 / 8 ≠ 0 ∧ groups.length < limit then readFields limit fuel (p.1 / 8 :: groups) p.2
          else none
        else if p.1 % 8 = 4 then
          match groups with
          | [] => none
          | number :: groups => if p.1 / 8 = number then readFields limit fuel groups p.2 else none
        else
          (readValue p.1 p.2).bind fun q =>
            (readFields limit fuel groups q.2).map fun fields =>
              if groups = [] then q.1 :: fields else fields

/-- The bytes a field takes at least. -/
def Field.size : Field → ℕ
  | .varint number value => (Varint.write (8 * number)).length + (Varint.write value).length
  | .bytes number value =>
      (Varint.write (8 * number + 2)).length + ((Varint.write value.length).length + value.length)
  | .fixed64 _ value => value.length
  | .fixed32 _ value => value.length

theorem length_varintField_le {number value value' : ℕ} (h : value ≤ value') :
    (varintField number value).length ≤ (Field.varint number value').size := by
  unfold varintField
  split_ifs
  · exact Nat.zero_le _
  · rw [List.length_append]
    exact Nat.add_le_add_left (Varint.length_write_mono h) _

theorem length_bytesField_le (number : ℕ) (value : List UInt8) :
    (bytesField number value).length ≤ (Field.bytes number value).size := by
  unfold bytesField
  split_ifs
  · exact Nat.zero_le _
  · simp only [Field.size, List.length_append]
    exact le_rfl

/-- A string is written whole. -/
theorem length_le_bytesField (number : ℕ) (value : List UInt8) :
    value.length ≤ (bytesField number value).length := by
  unfold bytesField
  split_ifs with h
  · rw [h]
  · rw [List.length_append, List.length_append]
    omega

theorem take?_eq_some {k : ℕ} {bytes value rest : List UInt8} (h : take? k bytes = some (value, rest)) :
    value.length = k ∧ value.length + rest.length = bytes.length := by
  unfold take? at h
  split_ifs at h with hle
  obtain ⟨rfl, rfl⟩ := Prod.mk.inj (Option.some.inj h)
  simp only [List.length_take, List.length_drop]
  omega

/-- A number takes at least the bytes it is written in, cut to fewer bits or not. -/
theorem length_of_cut {k m v : ℕ} {bytes rest : List UInt8}
    (h : ((Varint.readAtMost k bytes).map fun p => (p.1 % m, p.2)) = some (v, rest)) :
    (Varint.write v).length + rest.length ≤ bytes.length := by
  obtain ⟨⟨w, rest'⟩, hread, heq⟩ := Option.map_eq_some_iff.1 h
  obtain ⟨rfl, rfl⟩ := Prod.mk.inj heq
  have hlen := Varint.length_of_read (Varint.read_of_readAtMost hread)
  have hmono := Varint.length_write_mono (Nat.mod_le w m)
  exact (Nat.add_le_add_right hmono _).trans hlen

theorem length_of_readTag {bytes rest : List UInt8} {tag : ℕ} (h : readTag bytes = some (tag, rest)) :
    (Varint.write tag).length + rest.length ≤ bytes.length := length_of_cut h

theorem length_of_readNumber {bytes rest : List UInt8} {v : ℕ}
    (h : readNumber bytes = some (v, rest)) :
    (Varint.write v).length + rest.length ≤ bytes.length := length_of_cut h

theorem length_of_readSize {bytes rest : List UInt8} {size : ℕ}
    (h : readSize bytes = some (size, rest)) :
    (Varint.write size).length + rest.length ≤ bytes.length :=
  Varint.length_of_read (Varint.read_of_readAtMost (Option.filter_eq_some_iff.1 h).1)

theorem size_le_of_readValue {tag : ℕ} {bytes rest : List UInt8} {f : Field}
    (h : readValue tag bytes = some (f, rest)) :
    f.size + rest.length ≤ (Varint.write tag).length + bytes.length := by
  unfold readValue at h
  split_ifs at h with hzero
  split at h
  · rename_i hwire
    obtain ⟨⟨value, rest'⟩, hread, heq⟩ := Option.map_eq_some_iff.1 h
    obtain ⟨rfl, rfl⟩ := Prod.mk.inj heq
    have hlen := length_of_readNumber hread
    have htag : 8 * (tag / 8) = tag := by omega
    simp only [Field.size, htag]
    omega
  · obtain ⟨⟨value, rest'⟩, hread, heq⟩ := Option.map_eq_some_iff.1 h
    obtain ⟨rfl, rfl⟩ := Prod.mk.inj heq
    have hlen := take?_eq_some hread
    simp only [Field.size]
    omega
  · rename_i hwire
    obtain ⟨⟨len, rest'⟩, hread, heq⟩ := Option.bind_eq_some_iff.1 h
    obtain ⟨⟨value, rest''⟩, htake, heq⟩ := Option.map_eq_some_iff.1 heq
    obtain ⟨rfl, rfl⟩ := Prod.mk.inj heq
    have hlen := length_of_readSize hread
    obtain ⟨rfl, hvalue⟩ := take?_eq_some htake
    have htag : 8 * (tag / 8) + 2 = tag := by omega
    simp only [Field.size, htag]
    simp only at hvalue
    omega
  · obtain ⟨⟨value, rest'⟩, hread, heq⟩ := Option.map_eq_some_iff.1 h
    obtain ⟨rfl, rfl⟩ := Prod.mk.inj heq
    have hlen := take?_eq_some hread
    simp only [Field.size]
    omega
  · simp at h

/-- A message ends outside all groups. -/
theorem readFields_nil (limit fuel : ℕ) (groups : List ℕ) :
    readFields limit fuel groups [] = if groups = [] then some [] else none := by
  cases groups with
  | nil => rw [readFields, if_pos rfl]
  | cons number groups => rw [readFields, if_neg (List.cons_ne_nil _ _)]

/-- A measure that grows by no more than the size of each field stays below the number of bytes. -/
theorem measure_foldl_le {α : Type} (set : α → Field → α) (measure : α → ℕ)
    (hset : ∀ a f, measure (set a f) ≤ measure a + f.size) (limit fuel : ℕ) :
    ∀ {groups : List ℕ} {bytes : List UInt8} {fields : List Field} (a : α),
      readFields limit fuel groups bytes = some fields →
        measure (fields.foldl set a) ≤ measure a + bytes.length := by
  have hnil : ∀ {fuel : ℕ} {groups : List ℕ} {fields : List Field} (a : α),
      readFields limit fuel groups [] = some fields →
        measure (fields.foldl set a) ≤ measure a + 0 := by
    intro fuel groups fields a h
    rw [readFields_nil] at h
    split_ifs at h
    obtain rfl : [] = fields := Option.some.inj h
    exact le_rfl
  induction fuel with
  | zero =>
    intro groups bytes fields a h
    cases bytes with
    | nil => exact hnil a h
    | cons b bytes => simp [readFields] at h
  | succ fuel ih =>
    intro groups bytes fields a h
    cases bytes with
    | nil => exact hnil a h
    | cons b bytes =>
      rw [readFields] at h
      obtain ⟨⟨tag, rest⟩, htag, h⟩ := Option.bind_eq_some_iff.1 h
      have hlen := length_of_readTag htag
      simp only at h
      by_cases hstart : tag % 8 = 3
      · rw [if_pos hstart] at h
        split_ifs at h
        exact (ih a h).trans (by omega)
      rw [if_neg hstart] at h
      by_cases hend : tag % 8 = 4
      · rw [if_pos hend] at h
        cases groups with
        | nil => cases h
        | cons number groups =>
          simp only at h
          split_ifs at h
          exact (ih a h).trans (by omega)
      · rw [if_neg hend] at h
        obtain ⟨⟨f, rest'⟩, hvalue, h⟩ := Option.bind_eq_some_iff.1 h
        obtain ⟨tail, htail, rfl⟩ := Option.map_eq_some_iff.1 h
        have hsize := size_le_of_readValue hvalue
        simp only at htail
        split_ifs
        · have hle : measure (tail.foldl set (set a f)) ≤ measure (set a f) + rest'.length :=
            ih (set a f) htail
          have hgrow := hset a f
          show measure (tail.foldl set (set a f)) ≤ _
          omega
        · exact (ih a htail).trans (by omega)

/-! ## Reading what was written -/

theorem length_le_of_readValue {tag : ℕ} {bytes rest : List UInt8} {f : Field}
    (h : readValue tag bytes = some (f, rest)) : rest.length ≤ bytes.length := by
  unfold readValue at h
  split_ifs at h
  split at h
  · obtain ⟨⟨value, rest'⟩, hread, heq⟩ := Option.map_eq_some_iff.1 h
    obtain ⟨-, rfl⟩ := Prod.mk.inj heq
    exact le_trans (Nat.le_add_left _ _) (length_of_readNumber hread)
  · obtain ⟨⟨value, rest'⟩, htake, heq⟩ := Option.map_eq_some_iff.1 h
    obtain ⟨-, rfl⟩ := Prod.mk.inj heq
    exact le_trans (Nat.le_add_left _ _) (take?_eq_some htake).2.le
  · obtain ⟨⟨len, rest'⟩, hread, heq⟩ := Option.bind_eq_some_iff.1 h
    obtain ⟨⟨value, rest''⟩, htake, heq⟩ := Option.map_eq_some_iff.1 heq
    obtain ⟨-, rfl⟩ := Prod.mk.inj heq
    exact (le_trans (Nat.le_add_left _ _) (take?_eq_some htake).2.le).trans
      (le_trans (Nat.le_add_left _ _) (length_of_readSize hread))
  · obtain ⟨⟨value, rest'⟩, htake, heq⟩ := Option.map_eq_some_iff.1 h
    obtain ⟨-, rfl⟩ := Prod.mk.inj heq
    exact le_trans (Nat.le_add_left _ _) (take?_eq_some htake).2.le
  · simp at h

theorem length_lt_of_readTag {bytes rest : List UInt8} {tag : ℕ}
    (h : readTag bytes = some (tag, rest)) : rest.length < bytes.length := by
  have hlen := length_of_readTag h
  have hpos := List.length_pos_of_ne_nil (Varint.write_ne_nil tag)
  omega

/-- Fuel beyond the number of bytes makes no difference. -/
theorem readFields_fuel {limit fuel fuel' : ℕ} {groups : List ℕ} {bytes : List UInt8}
    (h : bytes.length ≤ fuel) (h' : bytes.length ≤ fuel') :
    readFields limit fuel groups bytes = readFields limit fuel' groups bytes := by
  induction fuel generalizing fuel' groups bytes with
  | zero =>
    obtain rfl := List.length_eq_zero_iff.1 (Nat.le_zero.1 h)
    rw [readFields_nil, readFields_nil]
  | succ fuel ih =>
    cases bytes with
    | nil => rw [readFields_nil, readFields_nil]
    | cons b bytes =>
      cases fuel' with
      | zero => simp at h'
      | succ fuel' =>
        simp only [List.length_cons] at h h'
        have hrest : ∀ {groups : List ℕ} {rest : List UInt8}, rest.length < bytes.length + 1 →
            readFields limit fuel groups rest = readFields limit fuel' groups rest := fun hlt =>
          ih (by omega) (by omega)
        rw [readFields, readFields]
        cases htag : readTag (b :: bytes) with
        | none => rfl
        | some p =>
          have hlt : p.2.length < bytes.length + 1 := length_lt_of_readTag htag
          rw [Option.bind_some, Option.bind_some, hrest hlt]
          have hfield : ∀ q, readValue p.1 p.2 = some q →
              readFields limit fuel groups q.2 = readFields limit fuel' groups q.2 := fun q hq =>
            hrest ((length_le_of_readValue hq).trans_lt hlt)
          by_cases hstart : p.1 % 8 = 3
          · rw [if_pos hstart, if_pos hstart]
          · rw [if_neg hstart, if_neg hstart]
            by_cases hend : p.1 % 8 = 4
            · rw [if_pos hend, if_pos hend]
              cases groups with
              | nil => rfl
              | cons number groups => simp only [hrest hlt]
            · rw [if_neg hend, if_neg hend]
              exact Option.bind_congr fun q hq => by rw [hfield q hq]

/-- The fields of a message, within which at most so many groups may be open. -/
def fieldsWithin (limit : ℕ) (bytes : List UInt8) : Option (List Field) :=
  readFields limit bytes.length [] bytes

/-- The fields of a whole message. -/
def fieldsOf (bytes : List UInt8) : Option (List Field) := fieldsWithin 100 bytes

variable {limit : ℕ}

theorem fieldsWithin_nil : fieldsWithin limit [] = some [] := by
  rw [fieldsWithin, readFields_nil, if_pos rfl]

/-- A field that is read off the front is the first of the message. -/
theorem fieldsWithin_cons {bytes rest : List UInt8} {f : Field} (h : readField bytes = some (f, rest)) :
    fieldsWithin limit bytes = (fieldsWithin limit rest).map (f :: ·) := by
  obtain ⟨⟨tag, rest'⟩, htag, hvalue⟩ := Option.bind_eq_some_iff.1 h
  have hlt := length_lt_of_readTag htag
  have hle := length_le_of_readValue hvalue
  simp only at hvalue
  have hwire : tag % 8 ≠ 3 ∧ tag % 8 ≠ 4 := by
    constructor
    · intro hgroup
      rw [readValue, hgroup] at hvalue
      simp at hvalue
    · intro hgroup
      rw [readValue, hgroup] at hvalue
      simp at hvalue
  cases bytes with
  | nil => simp at hlt
  | cons b bytes =>
    simp only [List.length_cons] at hlt
    simp only at hle
    have hrest : readFields limit bytes.length [] rest = readFields limit rest.length [] rest :=
      readFields_fuel (by omega) le_rfl
    rw [fieldsWithin, fieldsWithin, List.length_cons, readFields, htag, Option.bind_some,
      if_neg hwire.1, if_neg hwire.2, hvalue, Option.bind_some, hrest]
    rfl

/-- Numbers of fields leave room for the wire type in a tag. -/
def IsNumber (number : ℕ) : Prop := number ≠ 0 ∧ number < 536870912

instance (number : ℕ) : Decidable (IsNumber number) := inferInstanceAs (Decidable (_ ∧ _))

/-- The tag of a field says its number and how its value is to be read. -/
theorem readField_tag {number wire : ℕ} (hnumber : IsNumber number) (hwire : wire < 8)
    (bytes : List UInt8) :
    readField (Varint.write (8 * number + wire) ++ bytes) = readValue (8 * number + wire) bytes ∧
      (8 * number + wire) / 8 = number ∧ (8 * number + wire) % 8 = wire := by
  obtain ⟨-, hlt⟩ := hnumber
  refine ⟨?_, by omega, by omega⟩
  rw [readField, readTag, Varint.readAtMost_write (by decide) (by omega), Option.map_some,
    Option.bind_some, Nat.mod_eq_of_lt (by omega)]

theorem readNumber_write {v : ℕ} (h : v < 18446744073709551616) (rest : List UInt8) :
    readNumber (Varint.write v ++ rest) = some (v, rest) := by
  rw [readNumber, Varint.readAtMost_write (by decide) (by omega), Option.map_some,
    Nat.mod_eq_of_lt h]

theorem readSize_write {size : ℕ} (h : size < 2147483648) (rest : List UInt8) :
    readSize (Varint.write size ++ rest) = some (size, rest) := by
  rw [readSize, Varint.readAtMost_write (by decide) (by omega), Option.filter_some,
    if_pos (decide_eq_true h)]

theorem take?_append {value rest : List UInt8} {k : ℕ} (h : value.length = k) :
    take? k (value ++ rest) = some (value, rest) := by
  rw [take?, if_pos (by rw [List.length_append]; omega), ← h, List.take_left, List.drop_left]

theorem fieldsOf_nil : fieldsOf [] = some [] := fieldsWithin_nil

theorem fieldsOf_varintField {number value : ℕ} (hnumber : IsNumber number)
    (hvalue : value < 18446744073709551616) (rest : List UInt8) :
    fieldsOf (varintField number value ++ rest) =
      (fieldsOf rest).map ((if value = 0 then [] else [.varint number value]) ++ ·) := by
  unfold varintField
  split_ifs with h
  · exact Option.map_id'.symm
  · have hread : readField (Varint.write (8 * number) ++ Varint.write value ++ rest) =
        some (.varint number value, rest) := by
      obtain ⟨htag, hdiv, hmod⟩ :=
        readField_tag hnumber (show 0 < 8 by decide) (Varint.write value ++ rest)
      rw [Nat.add_zero] at htag hdiv hmod
      rw [List.append_assoc, htag, readValue, hdiv, hmod, if_neg hnumber.1]
      simp [readNumber_write hvalue]
    exact fieldsWithin_cons hread

theorem fieldsOf_bytesField {number : ℕ} {value : List UInt8} (hnumber : IsNumber number)
    (hvalue : value.length < 2147483648) (rest : List UInt8) :
    fieldsOf (bytesField number value ++ rest) =
      (fieldsOf rest).map ((if value = [] then [] else [.bytes number value]) ++ ·) := by
  unfold bytesField
  split_ifs with h
  · exact Option.map_id'.symm
  · have hread : readField (Varint.write (8 * number + 2) ++
        (Varint.write value.length ++ value) ++ rest) = some (.bytes number value, rest) := by
      obtain ⟨htag, hdiv, hmod⟩ := readField_tag hnumber (show 2 < 8 by decide)
        (Varint.write value.length ++ (value ++ rest))
      rw [List.append_assoc, List.append_assoc, htag, readValue, hdiv, hmod, if_neg hnumber.1]
      simp [readSize_write hvalue, take?_append]
    exact fieldsWithin_cons hread

end ProtoWire
