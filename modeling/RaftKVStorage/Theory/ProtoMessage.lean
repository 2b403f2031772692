import RaftKVStorage.Theory.ProtoWire

set_option autoImplicit false

/-! # Messages of the wire format

A message type is a list of numbered fields, each of a type of its own: how a value is written, and
what a field that is read makes of the value so far. `FieldType` asks for the two to agree. What was
written of a message is then read back, and what is read of any bytes fits the message. -/

namespace ProtoWire

/-! ## Writing fields -/

/-- A field on the wire: its tag and its value. -/
def Field.write : Field → List UInt8
  | .varint number value => Varint.write (8 * number) ++ Varint.write value
  | .fixed64 number value => Varint.write (8 * number + 1) ++ value
  | .bytes number value =>
      Varint.write (8 * number + 2) ++ (Varint.write value.length ++ value)
  | .fixed32 number value => Varint.write (8 * number + 5) ++ value

/-- A field has a number, a fixed one its size, and a varint has room for its value. -/
def Field.Legal : Field → Prop
  | .varint number value => IsNumber number ∧ value < 18446744073709551616
  | .fixed64 number value => IsNumber number ∧ value.length = 8
  | .bytes number _ => IsNumber number
  | .fixed32 number value => IsNumber number ∧ value.length = 4

def Field.number : Field → ℕ
  | .varint number _ => number
  | .fixed64 number _ => number
  | .bytes number _ => number
  | .fixed32 number _ => number

theorem readField_write {f : Field} (h : f.Legal) (hlen : f.write.length < 2147483648)
    (rest : List UInt8) : readField (f.write ++ rest) = some (f, rest) := by
  cases f with
  | varint number value =>
    obtain ⟨hnumber, hvalue⟩ : IsNumber number ∧ value < 18446744073709551616 := h
    obtain ⟨htag, hdiv, hmod⟩ :=
      readField_tag hnumber (show 0 < 8 by decide) (Varint.write value ++ rest)
    rw [Nat.add_zero] at htag hdiv hmod
    rw [Field.write, List.append_assoc, htag, readValue, hdiv, hmod, if_neg hnumber.1]
    simp [readNumber_write hvalue]
  | fixed64 number value =>
    obtain ⟨hnumber, hlen⟩ : IsNumber number ∧ value.length = 8 := h
    obtain ⟨htag, hdiv, hmod⟩ := readField_tag hnumber (show 1 < 8 by decide) (value ++ rest)
    rw [Field.write, List.append_assoc, htag, readValue, hdiv, hmod, if_neg hnumber.1]
    simp [take?_append hlen]
  | bytes number value =>
    have hnumber : IsNumber number := h
    have hvalue : value.length < 2147483648 := by
      rw [Field.write, List.length_append, List.length_append] at hlen
      omega
    obtain ⟨htag, hdiv, hmod⟩ := readField_tag hnumber (show 2 < 8 by decide)
      (Varint.write value.length ++ (value ++ rest))
    rw [Field.write, List.append_assoc, List.append_assoc, htag, readValue, hdiv, hmod,
      if_neg hnumber.1]
    simp [readSize_write hvalue, take?_append]
  | fixed32 number value =>
    obtain ⟨hnumber, hlen⟩ : IsNumber number ∧ value.length = 4 := h
    obtain ⟨htag, hdiv, hmod⟩ := readField_tag hnumber (show 5 < 8 by decide) (value ++ rest)
    rw [Field.write, List.append_assoc, htag, readValue, hdiv, hmod, if_neg hnumber.1]
    simp [take?_append hlen]

variable {limit : ℕ}

/-- Fields that were written one after another are read back. -/
theorem fieldsWithin_write {fields : List Field} (h : ∀ f ∈ fields, f.Legal)
    (hlen : (fields.flatMap Field.write).length < 2147483648) :
    fieldsWithin limit (fields.flatMap Field.write) = some fields := by
  induction fields with
  | nil => exact fieldsWithin_nil
  | cons f fields ih =>
    obtain ⟨hf, hfields⟩ := List.forall_mem_cons.1 h
    rw [List.flatMap_cons, List.length_append] at hlen
    rw [List.flatMap_cons, fieldsWithin_cons (readField_write hf (by omega) _),
      ih hfields (by omega)]
    rfl

/-- Nothing is read of a field that was cut off. -/
theorem readField_take_write {f : Field} (h : f.Legal) {j : ℕ} (hj : j < f.write.length) :
    readField (f.write.take j) = none := by
  have hshort : ∀ {k : ℕ} {value : List UInt8}, value.length < k → take? k value = none :=
    fun hlt => if_neg (not_le.2 hlt)
  have hcut : ∀ (wire : ℕ) {number : ℕ} (value : List UInt8), IsNumber number → wire < 8 →
      j < (Varint.write (8 * number + wire) ++ value).length →
      (∀ i < value.length, readValue (8 * number + wire) (value.take i) = none) →
      readField ((Varint.write (8 * number + wire) ++ value).take j) = none := by
    intro wire number value hnumber hwire hlen hvalue
    rw [List.length_append] at hlen
    by_cases htag : j < (Varint.write (8 * number + wire)).length
    · rw [List.take_append_of_le_length (by omega), readField, readTag,
        Varint.readAtMost_take_write htag]
      rfl
    · rw [List.take_append, List.take_of_length_le (by omega), (readField_tag hnumber hwire _).1]
      exact hvalue _ (by omega)
  cases f with
  | varint number value =>
    refine hcut 0 (Varint.write value) h.1 (by decide) hj fun i hi => ?_
    have hmod : (8 * number + 0) % 8 = 0 := by omega
    rw [readValue, hmod]
    simp [readNumber, Varint.readAtMost_take_write hi]
  | fixed64 number value =>
    refine hcut 1 value h.1 (by decide) hj fun i hi => ?_
    have hmod : (8 * number + 1) % 8 = 1 := by omega
    have hlen : (value.take i).length < 8 := by
      rw [List.length_take, ← h.2]
      omega
    rw [readValue, hmod]
    simp [hshort hlen]
  | bytes number value =>
    refine hcut 2 _ h (by decide) hj fun i hi => ?_
    have hmod : (8 * number + 2) % 8 = 2 := by omega
    rw [List.length_append] at hi
    rw [readValue, hmod]
    by_cases hsize : i < (Varint.write value.length).length
    · rw [List.take_append_of_le_length (by omega)]
      simp [readSize, Varint.readAtMost_take_write hsize]
    · have hlen : (value.take (i - (Varint.write value.length).length)).length < value.length := by
        rw [List.length_take]
        omega
      rw [List.take_append, List.take_of_length_le (by omega)]
      by_cases hlimit : value.length < 2147483648
      · simp [readSize_write hlimit, hshort hlen]
      · -- a size that is refused in any case
        have hrefused : readSize (Varint.write value.length ++
            value.take (i - (Varint.write value.length).length)) = none := by
          rw [readSize, Option.filter_eq_none_iff]
          rintro p hp
          have hread := Varint.read_of_readAtMost hp
          rw [Varint.read_write] at hread
          obtain rfl := Option.some.inj hread
          simpa using hlimit
        simp [hrefused]
  | fixed32 number value =>
    refine hcut 5 value h.1 (by decide) hj fun i hi => ?_
    have hmod : (8 * number + 5) % 8 = 5 := by omega
    have hlen : (value.take i).length < 4 := by
      rw [List.length_take, ← h.2]
      omega
    rw [readValue, hmod]
    simp [hshort hlen]

/-- The tag of a field is none of a group's. -/
theorem Field.exists_tag {f : Field} (h : f.Legal) : ∃ tag value, f.write = Varint.write tag ++ value ∧
    tag < 4294967296 ∧ tag % 8 ≠ 3 ∧ tag % 8 ≠ 4 := by
  cases f with
  | varint number value =>
    obtain ⟨⟨-, hlt⟩, -⟩ := h
    exact ⟨8 * number, _, rfl, by omega, by omega, by omega⟩
  | fixed64 number value =>
    obtain ⟨⟨-, hlt⟩, -⟩ := h
    exact ⟨8 * number + 1, _, rfl, by omega, by omega, by omega⟩
  | bytes number value =>
    obtain ⟨-, hlt⟩ := h
    exact ⟨8 * number + 2, _, rfl, by omega, by omega, by omega⟩
  | fixed32 number value =>
    obtain ⟨⟨-, hlt⟩, -⟩ := h
    exact ⟨8 * number + 5, _, rfl, by omega, by omega, by omega⟩

/-- A message that is cut off inside a field is refused. -/
theorem fieldsWithin_take_write {fields : List Field} (hfields : ∀ f ∈ fields, f.Legal)
    (hshort : (fields.flatMap Field.write).length < 2147483648) {f : Field} (hf : f.Legal) {j : ℕ}
    (hpos : 0 < j) (hj : j < f.write.length) :
    fieldsWithin limit (fields.flatMap Field.write ++ f.write.take j) = none := by
  induction fields with
  | nil =>
    have hread := readField_take_write hf hj
    have hlen : (f.write.take j).length = j := List.length_take_of_le hj.le
    rw [List.flatMap_nil, List.nil_append, fieldsWithin]
    cases hbytes : f.write.take j with
    | nil =>
      rw [hbytes, List.length_nil] at hlen
      omega
    | cons b bytes =>
      rw [hbytes] at hread
      rw [List.length_cons, readFields]
      obtain ⟨tag, value, hwrite, hlt, hstart, hend⟩ := f.exists_tag hf
      cases htag : readTag (b :: bytes) with
      | none => rfl
      | some p =>
        have hsame : p.1 = tag := by
          rw [← hbytes, hwrite, readTag] at htag
          by_cases hcut : j < (Varint.write tag).length
          · rw [List.take_append_of_le_length hcut.le, Varint.readAtMost_take_write hcut] at htag
            cases htag
          · rw [List.take_append, List.take_of_length_le (by omega),
              Varint.readAtMost_write (by decide) (by omega), Option.map_some,
              Nat.mod_eq_of_lt hlt] at htag
            exact (congrArg Prod.fst (Option.some.inj htag)).symm
        have hvalue : readValue p.1 p.2 = none := by
          rwa [readField, htag, Option.bind_some] at hread
        rw [Option.bind_some, hsame, if_neg hstart, if_neg hend, ← hsame, hvalue]
        rfl
  | cons g fields ih =>
    obtain ⟨hg, hrest⟩ := List.forall_mem_cons.1 hfields
    rw [List.flatMap_cons, List.length_append] at hshort
    rw [List.flatMap_cons, List.append_assoc, fieldsWithin_cons (readField_write hg (by omega) _),
      ih hrest (by omega)]
    rfl

/-! ## Types of fields -/

/-- The type of a field. Nothing is written for `blank`; `Fits` says which values can be written. A
    field of another wire type is skipped. -/
structure FieldType where
  Value : Type
  blank : Value
  fields : ℕ → Value → List Field
  set : Value → Field → Option Value
  Fits : Value → Prop
  legal : ∀ k v, IsNumber k → ∀ f ∈ fields k v, f.Legal ∧ f.number = k
  foldlM_fields : ∀ k v, Fits v → ((fields k v).flatMap Field.write).length < 2147483648 →
    (fields k v).foldlM set blank = some v
  fits_blank : Fits blank
  fits_set : ∀ v f v', Fits v → set v f = some v' → Fits v'

namespace FieldType

/-- A value that is written as a varint. -/
def ofVarint {ν : Type} [DecidableEq ν] (blank : ν) (encode : ν → ℕ) (decode : ℕ → ν) (Fits : ν → Prop)
    (hencode : ∀ v, encode v < 18446744073709551616) (hdecode : ∀ v, Fits v → decode (encode v) = v)
    (hfits : ∀ w, Fits (decode w)) (hblank : Fits blank) : FieldType where
  Value := ν
  blank := blank
  fields k v := if v = blank then [] else [.varint k (encode v)]
  set v
    | .varint _ w => some (decode w)
    | _ => some v
  Fits := Fits
  legal k v hk f hf := by
    split_ifs at hf
    · cases hf
    · obtain rfl := List.mem_singleton.1 hf
      exact ⟨⟨hk, hencode v⟩, rfl⟩
  foldlM_fields k v hv _ := by
    split_ifs with h
    · rw [h]
      rfl
    · exact congrArg some (hdecode v hv)
  fits_blank := hblank
  fits_set v f v' hv hset := by
    split at hset <;> cases hset
    · exact hfits _
    · exact hv

/-- A value that is written as a string. -/
def ofBytes {ν : Type} [DecidableEq ν] (blank : ν) (encode : ν → List UInt8) (decode : List UInt8 → ν)
    (hdecode : ∀ v, decode (encode v) = v) : FieldType where
  Value := ν
  blank := blank
  fields k v := if v = blank then [] else [.bytes k (encode v)]
  set v
    | .bytes _ w => some (decode w)
    | _ => some v
  Fits _ := True
  legal k v hk f hf := by
    split_ifs at hf
    · cases hf
    · obtain rfl := List.mem_singleton.1 hf
      exact ⟨hk, rfl⟩
  foldlM_fields k v _ _ := by
    split_ifs with h
    · rw [h]
      rfl
    · exact congrArg some (hdecode v)
  fits_blank := trivial
  fits_set _ _ _ _ _ := trivial

end FieldType

/-- The numbers an `int32` can hold. -/
def IsInt32 (value : Int) : Prop := -2 ^ 31 ≤ value ∧ value < 2 ^ 31

instance (value : Int) : Decidable (IsInt32 value) := inferInstanceAs (Decidable (_ ∧ _))

/-- An `int32` as a varint; negative numbers are written as 64-bit ones. -/
def ofInt32 (value : Int) : ℕ := (value % 2 ^ 64).toNat

/-- A varint that is read into an `int32`: its lowest 32 bits. -/
def toInt32 (v : ℕ) : Int := (BitVec.ofNat 32 v).toInt

theorem toInt32_ofInt32 {value : Int} (h : IsInt32 value) : toInt32 (ofInt32 value) = value := by
  have hlo : -2 ^ 31 ≤ value := h.1
  have hhi : value < 2 ^ 31 := h.2
  rw [toInt32, ofInt32, BitVec.toInt_ofNat', Int.toNat_of_nonneg (by omega), Int.bmod_def]
  omega

theorem isInt32_toInt32 (v : ℕ) : IsInt32 (toInt32 v) := by
  have hlt : 2 * toInt32 v < 2 ^ 32 := BitVec.two_mul_toInt_lt
  have hle : -2 ^ 32 ≤ 2 * toInt32 v := BitVec.le_two_mul_toInt
  exact ⟨by omega, by omega⟩

theorem isInt32_zero : IsInt32 0 := by decide

theorem ofInt32_lt (value : Int) : ofInt32 value < 18446744073709551616 := by
  rw [ofInt32]
  omega

namespace FieldType

def int32 : FieldType :=
  ofVarint 0 ofInt32 toInt32 IsInt32 ofInt32_lt (fun _ => toInt32_ofInt32) isInt32_toInt32 isInt32_zero

def bool : FieldType :=
  ofVarint false Bool.toNat (· != 0) (fun _ => True) (fun v => by cases v <;> decide)
    (fun v _ => by cases v <;> rfl) (fun _ => trivial) trivial

def bytes : FieldType := ofBytes [] id id fun _ => rfl

/-- A varint type that encodes its blank value, and only that, as zero. -/
theorem write_ofVarint {ν : Type} [DecidableEq ν] {blank : ν} {encode : ν → ℕ} {decode : ℕ → ν}
    {Fits : ν → Prop} {hencode : ∀ v, encode v < 18446744073709551616}
    {hdecode : ∀ v, Fits v → decode (encode v) = v} {hfits : ∀ w, Fits (decode w)}
    {hblank : Fits blank} {v : ν} (hzero : encode v = 0 ↔ v = blank) (k : ℕ) :
    ((ofVarint blank encode decode Fits hencode hdecode hfits hblank).fields k v).flatMap
      Field.write = varintField k (encode v) := by
  simp only [ofVarint, varintField, hzero]
  split_ifs
  · rfl
  · simp [Field.write]

/-- A string type that encodes its blank value, and only that, as the empty string. -/
theorem write_ofBytes {ν : Type} [DecidableEq ν] {blank : ν} {encode : ν → List UInt8}
    {decode : List UInt8 → ν} {hdecode : ∀ v, decode (encode v) = v} {v : ν}
    (hnil : encode v = [] ↔ v = blank) (k : ℕ) :
    ((ofBytes blank encode decode hdecode).fields k v).flatMap Field.write =
      bytesField k (encode v) := by
  simp only [ofBytes, bytesField, hnil]
  split_ifs
  · rfl
  · simp [Field.write]

end FieldType

/-! ## Messages -/

/-- The format of a message type, and how many groups may be open within such a message: 100, less the
    messages around it. -/
structure Message (α : Type) where
  limit : ℕ
  blank : α
  fields : α → List Field
  set : α → Field → Option α
  Fits : α → Prop
  legal : ∀ a, ∀ f ∈ fields a, f.Legal
  foldlM_fields : ∀ a, Fits a → ((fields a).flatMap Field.write).length < 2147483648 →
    (fields a).foldlM set blank = some a
  fits_blank : Fits blank
  fits_set : ∀ a f a', Fits a → set a f = some a' → Fits a'

namespace Message

section Parse

variable {α : Type} (m : Message α)

/-- `SerializeToString`. -/
def serialize (a : α) : List UInt8 := (m.fields a).flatMap Field.write

/-- `ParseFromString`: every field that was read changes the value, the last of a number counts. -/
def parse (bytes : List UInt8) : Option α :=
  (fieldsWithin m.limit bytes).bind fun fields => fields.foldlM m.set m.blank

variable {m}

/-- What was written is read back. -/
theorem parse_serialize {a : α} (h : m.Fits a) (hlen : (m.serialize a).length < 2147483648) :
    m.parse (m.serialize a) = some a := by
  rw [parse, serialize, fieldsWithin_write (m.legal a) hlen, Option.bind_some,
    m.foldlM_fields a h hlen]

theorem fits_foldlM {fields : List Field} {a a' : α} (ha : m.Fits a)
    (h : fields.foldlM m.set a = some a') : m.Fits a' := by
  induction fields generalizing a with
  | nil =>
    obtain rfl : a = a' := Option.some.inj h
    exact ha
  | cons f fields ih =>
    rw [List.foldlM_cons] at h
    obtain ⟨b, hset, hrest⟩ := Option.bind_eq_some_iff.1 h
    exact ih (m.fits_set a f b ha hset) hrest

/-- Whatever is accepted can be written. -/
theorem fits_of_parse {bytes : List UInt8} {a : α} (h : m.parse bytes = some a) : m.Fits a := by
  obtain ⟨fields, -, hfold⟩ := Option.bind_eq_some_iff.1 h
  exact fits_foldlM m.fits_blank hfold

end Parse

end Message

/-- Messages inside a message: each is in a field of its own, written even if it is empty. -/
def FieldType.repeated {α : Type} (m : Message α) : FieldType where
  Value := List α
  blank := []
  fields k as := as.map fun a => .bytes k (m.serialize a)
  set as
    | .bytes _ value => (m.parse value).map fun a => as ++ [a]
    | _ => some as
  Fits as := ∀ a ∈ as, m.Fits a
  legal k as hk f hf := by
    obtain ⟨a, -, rfl⟩ := List.mem_map.1 hf
    exact ⟨hk, rfl⟩
  foldlM_fields k as has hlen := by
    induction as using List.reverseRecOn with
    | nil => rfl
    | append_singleton as a ih =>
      obtain ⟨hinit, hlast⟩ := List.forall_mem_append.1 has
      rw [List.map_append, List.flatMap_append, List.length_append] at hlen
      have hshort : (m.serialize a).length < 2147483648 := by
        simp only [List.map_cons, List.map_nil, List.flatMap_cons, List.flatMap_nil, List.append_nil,
          Field.write, List.length_append] at hlen
        omega
      rw [List.map_append, List.foldlM_append, ih hinit (by omega)]
      simp [Message.parse_serialize (hlast a (List.mem_singleton_self a)) hshort]
  fits_blank := by simp
  fits_set as f as' has hset := by
    split at hset
    · obtain ⟨a, hparse, rfl⟩ := Option.map_eq_some_iff.1 hset
      exact List.forall_mem_append.2 ⟨has, by simpa using Message.fits_of_parse hparse⟩
    · cases hset
      exact has

/-! ## Messages of numbered fields -/

/-- The values of the fields of a message. -/
@[reducible] def Values : List (ℕ × FieldType) → Type
  | [] => Unit
  | (_, t) :: ts => t.Value × Values ts

namespace Values

def blank : (ts : List (ℕ × FieldType)) → Values ts
  | [] => ()
  | (_, t) :: ts => (t.blank, blank ts)

def fields : (ts : List (ℕ × FieldType)) → Values ts → List Field
  | [], _ => []
  | (k, t) :: ts, (v, vs) => t.fields k v ++ fields ts vs

/-- A field of an unknown number is skipped. -/
def set : (ts : List (ℕ × FieldType)) → Values ts → Field → Option (Values ts)
  | [], vs, _ => some vs
  | (k, t) :: ts, (v, vs), f =>
      if f.number = k then (t.set v f).map fun v' => (v', vs)
      else (set ts vs f).map fun vs' => (v, vs')

def Fits : (ts : List (ℕ × FieldType)) → Values ts → Prop
  | [], _ => True
  | (_, t) :: ts, (v, vs) => t.Fits v ∧ Fits ts vs

theorem legal_fields (ts : List (ℕ × FieldType)) (hts : ∀ p ∈ ts, IsNumber p.1) (vs : Values ts) :
    ∀ f ∈ fields ts vs, f.Legal ∧ f.number ∈ ts.map Prod.fst := by
  induction ts with
  | nil => intro f hf; cases hf
  | cons p ts ih =>
    obtain ⟨k, t⟩ := p
    obtain ⟨v, vs⟩ := vs
    obtain ⟨hk, hrest⟩ := List.forall_mem_cons.1 hts
    intro f hf
    rcases List.mem_append.1 hf with hf | hf
    · obtain ⟨hlegal, hnumber⟩ := t.legal k v hk f hf
      exact ⟨hlegal, by simp [hnumber]⟩
    · obtain ⟨hlegal, hnumber⟩ := ih hrest vs f hf
      exact ⟨hlegal, List.mem_cons_of_mem _ hnumber⟩

/-- Fields of the first number only change the first value. -/
theorem foldlM_first {k : ℕ} {t : FieldType} {ts : List (ℕ × FieldType)} {fs : List Field}
    (h : ∀ f ∈ fs, f.number = k) (v : t.Value) (vs : Values ts) :
    fs.foldlM (set ((k, t) :: ts)) (v, vs) = (fs.foldlM t.set v).map fun v' => (v', vs) := by
  induction fs generalizing v with
  | nil => rfl
  | cons f fs ih =>
    obtain ⟨hf, hfs⟩ := List.forall_mem_cons.1 h
    rw [List.foldlM_cons, List.foldlM_cons, set, if_pos hf]
    cases t.set v f with
    | none => rfl
    | some v' => exact ih hfs v'

/-- Fields of other numbers only change the other values. -/
theorem foldlM_rest {k : ℕ} {t : FieldType} {ts : List (ℕ × FieldType)} {fs : List Field}
    (h : ∀ f ∈ fs, f.number ≠ k) (v : t.Value) (vs : Values ts) :
    fs.foldlM (set ((k, t) :: ts)) (v, vs) = (fs.foldlM (set ts) vs).map fun vs' => (v, vs') := by
  induction fs generalizing vs with
  | nil => rfl
  | cons f fs ih =>
    obtain ⟨hf, hfs⟩ := List.forall_mem_cons.1 h
    rw [List.foldlM_cons, List.foldlM_cons, set, if_neg hf]
    cases set ts vs f with
    | none => rfl
    | some vs' => exact ih hfs vs'

theorem foldlM_fields (ts : List (ℕ × FieldType)) (hts : ∀ p ∈ ts, IsNumber p.1)
    (hnodup : (ts.map Prod.fst).Nodup) (vs : Values ts) (hvs : Fits ts vs)
    (hlen : ((fields ts vs).flatMap Field.write).length < 2147483648) :
    (fields ts vs).foldlM (set ts) (blank ts) = some vs := by
  induction ts with
  | nil => rfl
  | cons p ts ih =>
    obtain ⟨k, t⟩ := p
    obtain ⟨v, vs⟩ := vs
    obtain ⟨hk, hrest⟩ := List.forall_mem_cons.1 hts
    obtain ⟨hnot, hnodup⟩ := List.nodup_cons.1 hnodup
    have hfirst : ∀ f ∈ t.fields k v, f.number = k := fun f hf => (t.legal k v hk f hf).2
    have hother : ∀ f ∈ fields ts vs, f.number ≠ k := by
      intro f hf heq
      exact hnot (heq ▸ (legal_fields ts hrest vs f hf).2)
    rw [fields, List.flatMap_append, List.length_append] at hlen
    rw [fields, blank, List.foldlM_append, foldlM_first hfirst,
      t.foldlM_fields k v hvs.1 (by omega)]
    show (fields ts vs).foldlM (set ((k, t) :: ts)) (v, blank ts) = _
    rw [foldlM_rest hother, ih hrest hnodup vs hvs.2 (by omega)]
    rfl

theorem fits_blank (ts : List (ℕ × FieldType)) : Fits ts (blank ts) := by
  induction ts with
  | nil => trivial
  | cons p ts ih => exact ⟨p.2.fits_blank, ih⟩

theorem fits_set (ts : List (ℕ × FieldType)) {vs vs' : Values ts} {f : Field} (h : Fits ts vs)
    (hset : set ts vs f = some vs') : Fits ts vs' := by
  induction ts with
  | nil => trivial
  | cons p ts ih =>
    obtain ⟨k, t⟩ := p
    obtain ⟨v, vs⟩ := vs
    rw [set] at hset
    split_ifs at hset
    · obtain ⟨v', hv, rfl⟩ := Option.map_eq_some_iff.1 hset
      exact ⟨t.fits_set v f v' h.1 hv, h.2⟩
    · obtain ⟨vs', hvs, rfl⟩ := Option.map_eq_some_iff.1 hset
      exact ⟨h.1, ih h.2 hvs⟩

end Values

/-- The message type of a structure whose fields have these numbers and types. -/
def Message.ofFields {α : Type} (limit : ℕ) (ts : List (ℕ × FieldType))
    (hts : ∀ p ∈ ts, IsNumber p.1) (hnodup : (ts.map Prod.fst).Nodup) (e : α ≃ Values ts) :
    Message α where
  limit := limit
  blank := e.symm (.blank ts)
  fields a := Values.fields ts (e a)
  set a f := (Values.set ts (e a) f).map e.symm
  Fits a := Values.Fits ts (e a)
  legal a f hf := (Values.legal_fields ts hts (e a) f hf).1
  foldlM_fields a ha hlen := by
    have hfold : ∀ (fs : List Field) (vs : Values ts),
        fs.foldlM (fun a f => (Values.set ts (e a) f).map e.symm) (e.symm vs) =
          (fs.foldlM (Values.set ts) vs).map e.symm := by
      intro fs
      induction fs with
      | nil => intro vs; rfl
      | cons f fs ih =>
        intro vs
        rw [List.foldlM_cons, List.foldlM_cons, e.apply_symm_apply]
        cases Values.set ts vs f with
        | none => rfl
        | some vs' => exact ih vs'
    rw [hfold, Values.foldlM_fields ts hts hnodup (e a) ha hlen, Option.map_some, e.symm_apply_apply]
  fits_blank := by
    rw [e.apply_symm_apply]
    exact Values.fits_blank ts
  fits_set a f a' ha hset := by
    obtain ⟨vs, hvs, rfl⟩ := Option.map_eq_some_iff.1 hset
    rw [e.apply_symm_apply]
    exact Values.fits_set ts ha hvs

end ProtoWire
