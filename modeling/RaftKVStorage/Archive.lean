import RaftKVStorage.Persister
import RaftKVStorage.Theory.Codec
import Mathlib.Data.List.AList

set_option autoImplicit false

/-! # Boost archives and `op`

The Boost text archives are not part of the repository. What the code relies on is that an archive is
never empty and that loading it gives back what was saved, the old contents of the target replaced.
`Boost.text` is an archive of that kind in the manner of Boost's: every number ends in a space, every
string follows its length. -/

namespace RaftKVStorage

/-- The text archives of a type. A `load` of `none` is an `archive_exception`. -/
structure Archive (α : Type) where
  save : α → Bytes
  load : Bytes → Option α
  load_save : ∀ a, load (save a) = some a
  save_ne_nil : ∀ a, save a ≠ []

/-- `std::unordered_map<std::string, int>`. -/
abbrev RequestTable := AList fun _ : Bytes => Int

/-- The archives that `op`, `kvskiplist`, `kvServer` and `raft` use. -/
structure Boost where
  op : Archive (Bytes × Bytes × Bytes × Bytes × Int)
  dumper : Archive (List Bytes × List Bytes)
  server : Archive (Bytes × RequestTable)
  state : Archive PersistNode

/-! ## `op` -/

inductive Operation
  | invalid
  | get
  | put
deriving DecidableEq, Repr

structure Op where
  operation : Operation
  key : Bytes
  value : Bytes
  clientId : Bytes
  requestId : Int
deriving DecidableEq, Repr

/-- The bytes of a text. -/
def ofChars (s : List Char) : Bytes := s.map fun c => UInt8.ofNat c.toNat

/-- `operation2String`. -/
def operation2String : Operation → Bytes
  | .invalid => ofChars ['I', 'n', 'v', 'a', 'l', 'i', 'd']
  | .put => ofChars ['P', 'u', 't']
  | .get => ofChars ['G', 'e', 't']

/-- `string2Operation`. -/
def string2Operation (str : Bytes) : Operation :=
  if str = operation2String .put then .put
  else if str = operation2String .get then .get
  else .invalid

theorem string2Operation_operation2String (o : Operation) :
    string2Operation (operation2String o) = o := by
  cases o <;> decide

/-- `op::dump`. -/
def Op.dump (boost : Boost) (o : Op) : Bytes :=
  boost.op.save (operation2String o.operation, o.key, o.value, o.clientId, o.requestId)

/-- `op::load`. On an empty string, which no `op` dumps, it leaves the `op` uninitialised. -/
def Op.load (boost : Boost) (str : Bytes) : Option Op :=
  if str = [] then none
  else
    (boost.op.load str).map fun ⟨operation, key, value, clientId, requestId⟩ =>
      { operation := string2Operation operation
        key := key
        value := value
        clientId := clientId
        requestId := requestId }

@[simp] theorem Op.load_dump (boost : Boost) (o : Op) : Op.load boost (o.dump boost) = some o := by
  have hne : o.dump boost ≠ [] := boost.op.save_ne_nil _
  rw [Op.load, if_neg hne, Op.dump, boost.op.load_save]
  simp [string2Operation_operation2String]

/-! ## An archive -/

/-- `std::to_string` of a natural number. -/
def decimal (k : ℕ) : Bytes := ofChars (Nat.toDigits 10 k)

/-- Read the digits of a number. -/
def ofDecimal (str : Bytes) : ℕ := Nat.ofDigitChars 10 (str.map fun c => Char.ofNat c.toNat) 0

theorem charOfNat_of_isDigit {c : Char} (h : c.isDigit) :
    Char.ofNat (UInt8.ofNat c.toNat).toNat = c := by
  have hlt : c.toNat < 256 := by
    have hle : c.toNat ≤ 57 := (Char.isDigit_iff_toNat.1 h).2
    omega
  rw [UInt8.toNat_ofNat_of_lt' hlt, Char.ofNat_toNat]

theorem ofDecimal_decimal (k : ℕ) : ofDecimal (decimal k) = k := by
  have hdigit : ∀ c ∈ Nat.toDigits 10 k, c.isDigit := fun c hc =>
    Nat.isDigit_of_mem_toDigits (by decide) (by decide) hc
  have hmap : (decimal k).map (fun c => Char.ofNat c.toNat) = Nat.toDigits 10 k := by
    rw [decimal, ofChars, List.map_map]
    exact (List.map_congr_left fun c hc => charOfNat_of_isDigit (hdigit c hc)).trans (List.map_id _)
  rw [ofDecimal, hmap, Nat.ofDigitChars_ten_toDigits]

theorem space_not_mem_decimal (k : ℕ) : 32 ∉ decimal k := by
  intro h
  obtain ⟨c, hc, heq⟩ := List.mem_map.1 h
  have hdigit := Nat.isDigit_of_mem_toDigits (by decide) (by decide) hc
  have := charOfNat_of_isDigit hdigit
  rw [heq] at this
  rw [← this] at hdigit
  exact absurd hdigit (by decide)

namespace Text

/-- A number and a space. -/
def nat : Codec UInt8 ℕ :=
  Codec.delimited 32 decimal (fun str => some (ofDecimal str)) space_not_mem_decimal
    fun k => congrArg some (ofDecimal_decimal k)

/-- The length of a string and the string. -/
def bytes : Codec UInt8 Bytes := Codec.list nat Codec.symbol

/-- A sign and an absolute value. -/
def int : Codec UInt8 Int :=
  (Codec.pair nat nat).map (fun i => (if i < 0 then 1 else 0, i.natAbs))
    (fun p => some (if p.1 = 1 then -p.2 else p.2)) fun i => by
      by_cases h : i < 0
      · simp only [if_pos h, if_true]
        rw [Int.ofNat_natAbs_of_nonpos h.le, Int.neg_neg]
      · simp only [if_neg h, Nat.zero_ne_one, if_false]
        rw [Int.natAbs_of_nonneg (not_lt.1 h)]

def entry : Codec UInt8 LogEntry :=
  (Codec.pair bytes (Codec.pair int int)).map (fun e => (e.command, e.term, e.index))
    (fun p => some ⟨p.1, p.2.1, p.2.2⟩) fun _ => rfl

def requestTable : Codec UInt8 RequestTable :=
  (Codec.list nat (Codec.pair bytes int)).map (fun t => t.entries.map fun e => (e.1, e.2))
    (fun l =>
      let entries : List (Σ _ : Bytes, Int) := l.map fun e => ⟨e.1, e.2⟩
      if h : entries.keys.Nodup then some ⟨entries, h⟩ else none) fun t => by
        have hmap : (t.entries.map fun e => (e.1, e.2)).map
            (fun e => (⟨e.1, e.2⟩ : Σ _ : Bytes, Int)) = t.entries := by
          rw [List.map_map]
          exact List.map_id' _
        simp only [hmap]
        exact dif_pos t.nodupKeys

def persistNode : Codec UInt8 PersistNode :=
  (Codec.pair (Codec.list nat entry) (Codec.pair int (Codec.pair int (Codec.pair int int)))).map
    (fun s => (s.logs, s.term, s.vote4, s.lastSnapshotIndex, s.lastSnapshotTerm))
    (fun p => some ⟨p.1, p.2.1, p.2.2.1, p.2.2.2.1, p.2.2.2.2⟩) fun _ => rfl

/-- The archive a codec writes, behind the number that every text archive starts with. -/
def archive {α : Type} (c : Codec UInt8 α) : Archive α where
  save := fun a => nat.write 22 ++ c.write a
  load := fun str => (nat.read str).bind fun p => (c.read p.2).map Prod.fst
  load_save := fun a => by
    have h := c.read_write a []
    rw [List.append_nil] at h
    simp [nat.read_write, h]
  save_ne_nil := fun a h => by simp [nat, Codec.delimited] at h

end Text

/-- Archives like Boost's. -/
def Boost.text : Boost where
  op := Text.archive
    (Codec.pair Text.bytes (Codec.pair Text.bytes (Codec.pair Text.bytes
      (Codec.pair Text.bytes Text.int))))
  dumper := Text.archive
    (Codec.pair (Codec.list Text.nat Text.bytes) (Codec.list Text.nat Text.bytes))
  server := Text.archive (Codec.pair Text.bytes Text.requestTable)
  state := Text.archive Text.persistNode

end RaftKVStorage
