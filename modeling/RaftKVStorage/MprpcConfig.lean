import RaftKVStorage.Proto
import RaftKVStorage.Theory.LineText
import Mathlib.Data.List.AList
import Mathlib.Data.List.TakeWhile

set_option autoImplicit false

/-! # The configuration file

Class `mprpcConfig`. `load` reads the file with `fgets` into a buffer of 512 bytes and takes every
piece it gets for a line; `_M_trim` removes spaces only, so a newline stays. -/

namespace RaftKVStorage

open LineText

/-! ## Reading -/

abbrev newline : UInt8 := 10
abbrev space : UInt8 := 32
abbrev hash : UInt8 := 35
abbrev equals : UInt8 := 61

@[simp] theorem equals_ne_space : equals ≠ space := by decide

@[simp] theorem equals_ne_hash : equals ≠ hash := by decide

@[simp] theorem hash_ne_space : hash ≠ space := by decide

@[simp] theorem newline_ne_space : newline ≠ space := by decide

/-- A `FILE`: what was not read yet, and the flag that `feof` tells. -/
structure OpenFile where
  rest : Bytes
  eof : Bool

/-- `fgets` into an empty buffer with room for `room` bytes and the NUL after them. -/
def fgets : ℕ → OpenFile → Bytes × OpenFile
  | 0, pf => ([], pf)
  | room + 1, pf =>
      match pf.rest with
      | [] => ([], { pf with eof := true })
      | c :: rest =>
          if c = newline then ([c], { pf with rest := rest })
          else
            let (buf, pf) := fgets room { pf with rest := rest }
            (c :: buf, pf)

/-- `std::string::find_first_not_of`. -/
def findFirstNotOf (c : UInt8) (src : Bytes) : Option ℕ := src.findIdx? fun b => b ≠ c

/-- `std::string::find_last_not_of`. -/
def findLastNotOf (c : UInt8) (src : Bytes) : Option ℕ :=
  (src.reverse.findIdx? fun b => b ≠ c).map fun i => src.length - 1 - i

/-- `_M_config`, into which `insert` puts a key only if it is not there. -/
abbrev MprpcConfig := AList fun _ : Bytes => Bytes

namespace MprpcConfig

/-- `_M_trim`. -/
def mTrim (src : Bytes) : Bytes :=
  let src := match findLastNotOf space src with
    | some tmp => src.take (tmp + 1)
    | none => src
  match findFirstNotOf space src with
  | some tmp => src.drop tmp
  | none => src

/-- The key and the value in `buf`, unless the loop continues without them. -/
def parseBuf (buf : Bytes) : Option (Bytes × Bytes) :=
  let data := mTrim (buf.takeWhile fun c => c ≠ 0)
  if data = [] ∨ data.head? = some hash then none
  else
    match data.findIdx? fun c => c = equals with
    | none => none
    | some eq => some (mTrim (data.take eq), mTrim (data.drop (eq + 1)))

/-- One turn of the loop of `load`. -/
def readBuf (config : MprpcConfig) (buf : Bytes) : MprpcConfig :=
  match parseBuf buf with
  | none => config
  | some (key, value) => if key ∈ config then config else config.insert key value

/-- The loop of `load`. -/
def loadLoop : ℕ → OpenFile → MprpcConfig → Option MprpcConfig
  | 0, _, _ => none
  | fuel + 1, pf, config =>
      if pf.eof then some config
      else
        let (buf, pf) := fgets 511 pf
        loadLoop fuel pf (readBuf config buf)

/-- `load`, which exits if there is no file. -/
def load (config : MprpcConfig) (file : Option Bytes) : Option MprpcConfig := do
  let rest ← file
  loadLoop (rest.length + 2) ⟨rest, false⟩ config

/-- `value`. -/
def value (config : MprpcConfig) (key : Bytes) : Bytes := (config.lookup key).getD []

/-! ## Pieces of a line -/

/-- A piece of a line is taken for an assignment to the key. -/
def Reads (piece key text : Bytes) : Prop :=
  ∃ a b a' b', piece = List.replicate a space ++ key ++ List.replicate b space ++ equals ::
      (List.replicate a' space ++ text ++ List.replicate b' space) ∧
    equals ∉ key ∧ Trimmed space key ∧ Trimmed space text ∧ key.head? ≠ some hash

variable {config : MprpcConfig} {piece key text rest s t : Bytes} {ps : List Bytes} {a b : ℕ}

theorem findFirstNotOf_replicate (c : UInt8) (a : ℕ) :
    findFirstNotOf c (List.replicate a c) = none := by
  rw [findFirstNotOf, List.findIdx?_eq_none_iff]
  intro x hx
  simp [List.eq_of_mem_replicate hx]

theorem findLastNotOf_replicate (c : UInt8) (a : ℕ) :
    findLastNotOf c (List.replicate a c) = none := by
  have hnone := findFirstNotOf_replicate c a
  rw [findFirstNotOf] at hnone
  rw [findLastNotOf, List.reverse_replicate, hnone, Option.map_none]

theorem findFirstNotOf_append {c x : UInt8} (hx : x ≠ c) (a : ℕ) (s : Bytes) :
    findFirstNotOf c (List.replicate a c ++ x :: s) = some a := by
  have hnone := findFirstNotOf_replicate c a
  rw [findFirstNotOf] at hnone
  rw [findFirstNotOf, List.findIdx?_append, hnone, List.findIdx?_cons]
  simp [hx]

theorem findLastNotOf_append {c x : UInt8} (hx : x ≠ c) (s : Bytes) (b : ℕ) :
    findLastNotOf c (s ++ x :: List.replicate b c) = some s.length := by
  have hfirst := findFirstNotOf_append hx b s.reverse
  rw [findFirstNotOf] at hfirst
  rw [findLastNotOf, List.reverse_append, List.reverse_cons, List.reverse_replicate, List.append_assoc,
    List.singleton_append, hfirst, Option.map_some]
  refine congrArg some ?_
  rw [List.length_append, List.length_cons, List.length_replicate]
  omega

/-- What has nothing but spaces is not trimmed. -/
theorem mTrim_replicate (a : ℕ) : mTrim (List.replicate a space) = List.replicate a space := by
  simp only [mTrim, findLastNotOf_replicate, findFirstNotOf_replicate]

/-- What has anything else is. -/
theorem mTrim_padded (ht : Trimmed space t) (hne : t ≠ []) (a b : ℕ) :
    mTrim (List.replicate a space ++ t ++ List.replicate b space) = t := by
  obtain ⟨s, x, rfl⟩ := List.eq_nil_or_concat' t |>.resolve_left hne
  obtain ⟨hhead, hlast⟩ := ht
  have hx : x ≠ space := by simpa using hlast
  have hdrop : findLastNotOf space (List.replicate a space ++ (s ++ [x]) ++ List.replicate b space) =
      some (List.replicate a space ++ s).length := by
    rw [← findLastNotOf_append hx (List.replicate a space ++ s) b]
    simp
  have htake : (List.replicate a space ++ (s ++ [x]) ++ List.replicate b space).take
      ((List.replicate a space ++ s).length + 1) = List.replicate a space ++ (s ++ [x]) := by
    refine List.take_left' ?_
    simp
    omega
  obtain ⟨y, t, hcons⟩ := List.exists_cons_of_ne_nil hne
  rw [hcons] at hhead
  have hy : y ≠ space := by simpa using hhead
  have hfirst : findFirstNotOf space (List.replicate a space ++ (s ++ [x])) = some a := by
    rw [hcons]
    exact findFirstNotOf_append hy a t
  simp only [mTrim, hdrop, htake, hfirst]
  exact List.drop_left' (List.length_replicate ..)

/-- What is left of the text in front of the `=`, once the spaces in front of it are gone. -/
theorem exists_left (hkey : Trimmed space key) (a b : ℕ) :
    ∃ a' left, List.replicate a space ++ key ++ List.replicate b space =
        List.replicate a' space ++ left ∧
      left.head? ≠ some space ∧ left.head? = key.head? ∧ mTrim left = key := by
  rcases eq_or_ne key [] with rfl | hne
  · refine ⟨a + b, [], ?_, by simp, rfl, mTrim_replicate 0⟩
    rw [List.append_nil, List.append_nil, List.replicate_append_replicate]
  · have hhead : (key ++ List.replicate b space).head? = key.head? := by
      obtain ⟨x, t, rfl⟩ := List.exists_cons_of_ne_nil hne
      rfl
    exact ⟨a, key ++ List.replicate b space, List.append_assoc .., hhead ▸ hkey.1, hhead,
      mTrim_padded hkey hne 0 b⟩

/-- What is left of the text behind the `=`, once the spaces behind it are gone. -/
theorem exists_right (htext : Trimmed space text) (a b : ℕ) :
    ∃ right b', List.replicate a space ++ text ++ List.replicate b space =
        right ++ List.replicate b' space ∧
      right.getLast? ≠ some space ∧ mTrim right = text := by
  rcases eq_or_ne text [] with rfl | hne
  · refine ⟨[], a + b, ?_, by simp, mTrim_replicate 0⟩
    rw [List.append_nil, List.nil_append, List.replicate_append_replicate]
  · have hlast : (List.replicate a space ++ text).getLast? = text.getLast? :=
      List.getLast?_append_of_ne_nil _ hne
    refine ⟨List.replicate a space ++ text, b, rfl, hlast ▸ htext.2, ?_⟩
    have htrim := mTrim_padded htext hne a 0
    rwa [List.replicate_zero, List.append_nil] at htrim

theorem trimmed_around {left right : Bytes} (hhead : left.head? ≠ some space)
    (hlast : right.getLast? ≠ some space) : Trimmed space (left ++ equals :: right) := by
  constructor
  · cases left with
    | nil => simp
    | cons x left => simpa using hhead
  · rw [List.getLast?_append_of_ne_nil _ (by simp), List.getLast?_cons]
    cases hr : right.getLast? with
    | none => simp
    | some x =>
      rw [hr] at hlast
      simpa using hlast

theorem findIdx?_equals (hleft : equals ∉ s) (t : Bytes) :
    (s ++ equals :: t).findIdx? (fun c => c = equals) = some s.length := by
  have hnone : s.findIdx? (fun c => c = equals) = none := by
    rw [List.findIdx?_eq_none_iff]
    intro x hx
    simp only [decide_eq_false_iff_not]
    rintro rfl
    exact hleft hx
  rw [List.findIdx?_append, hnone, List.findIdx?_cons]
  simp

/-- A piece with an `=`: whatever spaces are around the key and the value, both come out trimmed. -/
theorem parseBuf_padded (hnul : (0 : UInt8) ∉ piece) (hkey : Trimmed space key)
    (htext : Trimmed space text) (hequals : equals ∉ key) {a b a' b' : ℕ}
    (hpiece : piece = List.replicate a space ++ key ++ List.replicate b space ++ equals ::
      (List.replicate a' space ++ text ++ List.replicate b' space)) :
    parseBuf piece = if key.head? = some hash then none else some (key, text) := by
  have hwhole : piece.takeWhile (fun c => c ≠ 0) = piece :=
    List.takeWhile_eq_self_iff.2 fun c hc => decide_eq_true fun hzero => hnul (hzero ▸ hc)
  obtain ⟨c, left, hfront, hhead, hsame, hleft⟩ := exists_left hkey a b
  obtain ⟨right, d, hback, hlast, hright⟩ := exists_right htext a' b'
  have hnot : equals ∉ left := by
    intro hmem
    have hmem' : equals ∈ List.replicate a space ++ key ++ List.replicate b space := by
      rw [hfront]
      exact List.mem_append_right _ hmem
    simp [hequals] at hmem'
  have htrim : mTrim piece = left ++ equals :: right := by
    have hpadded : piece = List.replicate c space ++ (left ++ equals :: right) ++
        List.replicate d space := by
      rw [hpiece, hfront, hback]
      simp
    rw [hpadded]
    exact mTrim_padded (trimmed_around hhead hlast) (by simp) c d
  have hdatahead : (left ++ equals :: right).head? = some hash ↔ key.head? = some hash := by
    rw [← hsame]
    cases left with
    | nil => simp
    | cons x left => rfl
  have hdrop : (left ++ equals :: right).drop (left.length + 1) = right := by
    rw [List.append_cons]
    exact List.drop_left' (by simp)
  simp only [parseBuf, hwhole, htrim, hdatahead, findIdx?_equals hnot, List.take_left' rfl, hdrop, hleft,
    hright]
  simp

theorem mem_of_mem_mTrim {c : UInt8} (hc : c ∈ mTrim s) : c ∈ s := by
  have hdrop : ∀ t : Bytes, c ∈ (match findFirstNotOf space t with
      | some tmp => t.drop tmp
      | none => t) → c ∈ t := by
    intro t ht
    cases hfirst : findFirstNotOf space t with
    | none => simpa only [hfirst] using ht
    | some tmp =>
      simp only [hfirst] at ht
      exact List.mem_of_mem_drop ht
  have hmem := hdrop _ hc
  cases hlast : findLastNotOf space s with
  | none => simpa only [hlast] using hmem
  | some tmp =>
    simp only [hlast] at hmem
    exact List.mem_of_mem_take hmem

/-- Without an `=` there is nothing to insert. -/
theorem parseBuf_eq_none (hequals : equals ∉ piece) : parseBuf piece = none := by
  have hnone : (mTrim (piece.takeWhile fun c => c ≠ 0)).findIdx? (fun c => c = equals) = none := by
    rw [List.findIdx?_eq_none_iff]
    intro c hc
    simp only [decide_eq_false_iff_not]
    rintro rfl
    exact hequals ((List.takeWhile_sublist _).subset (mem_of_mem_mTrim hc))
  simp only [parseBuf, hnone]
  split_ifs <;> rfl

theorem parseBuf_eq_some_iff (hnul : (0 : UInt8) ∉ piece) :
    parseBuf piece = some (key, text) ↔ Reads piece key text := by
  constructor
  · intro hentry
    by_cases hequals : equals ∈ piece
    · obtain ⟨left, right, rfl, hnot⟩ := List.eq_append_cons_of_mem hequals
      obtain ⟨a, key', b, hkey, rfl⟩ := exists_trimmed space left
      obtain ⟨a', text', b', htext, rfl⟩ := exists_trimmed space right
      have hnot' : equals ∉ key' := fun hmem => hnot (by simp [hmem])
      rw [parseBuf_padded hnul hkey htext hnot' rfl] at hentry
      split_ifs at hentry with hhash
      obtain ⟨rfl, rfl⟩ := Prod.mk.inj (Option.some.inj hentry)
      exact ⟨a, b, a', b', rfl, hnot', hkey, htext, hhash⟩
    · rw [parseBuf_eq_none hequals] at hentry
      cases hentry
  · rintro ⟨a, b, a', b', hpiece, hequals, hkey, htext, hhash⟩
    rw [parseBuf_padded hnul hkey htext hequals hpiece, if_neg hhash]

/-! ## The loop -/

theorem fgets_line (ht : newline ∉ t) (rest : Bytes) {room : ℕ} (hroom : t.length < room)
    (eof : Bool) : fgets room ⟨t ++ newline :: rest, eof⟩ = (t ++ [newline], ⟨rest, eof⟩) := by
  induction t generalizing room with
  | nil =>
    obtain ⟨room, rfl⟩ := Nat.exists_eq_add_of_lt hroom
    rfl
  | cons c t ih =>
    obtain ⟨hc, ht⟩ := List.ne_and_not_mem_of_not_mem_cons ht
    obtain ⟨room, rfl⟩ := Nat.exists_eq_add_of_lt hroom
    have hrec := ih ht (by omega : t.length < t.length + 1 + room)
    simp only [List.cons_append, List.length_cons, fgets, if_neg (Ne.symm hc), hrec]

theorem fgets_full (ht : newline ∉ t) (rest : Bytes) (eof : Bool) :
    fgets t.length ⟨t ++ rest, eof⟩ = (t, ⟨rest, eof⟩) := by
  induction t with
  | nil => rfl
  | cons c t ih =>
    obtain ⟨hc, ht⟩ := List.ne_and_not_mem_of_not_mem_cons ht
    simp only [List.cons_append, List.length_cons, fgets, if_neg (Ne.symm hc), ih ht]

theorem fgets_last (ht : newline ∉ t) {room : ℕ} (hroom : t.length < room) (eof : Bool) :
    fgets room ⟨t, eof⟩ = (t, ⟨[], true⟩) := by
  induction t generalizing room with
  | nil =>
    obtain ⟨room, rfl⟩ := Nat.exists_eq_add_of_lt hroom
    rfl
  | cons c t ih =>
    obtain ⟨hc, ht⟩ := List.ne_and_not_mem_of_not_mem_cons ht
    obtain ⟨room, rfl⟩ := Nat.exists_eq_add_of_lt hroom
    have hrec := ih ht (by omega : t.length < t.length + 1 + room)
    simp only [List.length_cons, fgets, if_neg (Ne.symm hc), hrec]

/-- A turn of the loop on a file that `fgets` did not come to the end of. -/
theorem loadLoop_succ {buf : Bytes} {pf : OpenFile} (hread : fgets 511 ⟨rest, false⟩ = (buf, pf))
    (fuel : ℕ) (config : MprpcConfig) :
    loadLoop (fuel + 1) ⟨rest, false⟩ config = loadLoop fuel pf (readBuf config buf) := by
  rw [loadLoop, hread]
  rfl

/-- The loop ends, when it has read one piece after the other. -/
theorem loadLoop_cut (h : Cut newline 511 rest ps) {fuel : ℕ} (hfuel : ps.length + 2 ≤ fuel)
    (config : MprpcConfig) :
    loadLoop fuel ⟨rest, false⟩ config = some (ps.foldl readBuf config) := by
  induction h generalizing fuel config with
  | nil =>
    -- nothing to read, which only the attempt to read tells
    obtain ⟨fuel, rfl⟩ := Nat.exists_eq_add_of_le' hfuel
    rfl
  | last hne hlt hsep =>
    obtain ⟨fuel, rfl⟩ := Nat.exists_eq_add_of_le' hfuel
    rw [List.length_singleton, ← Nat.add_assoc, loadLoop_succ (fgets_last hsep hlt false)]
    rfl
  | @full p rest ps hlen hsep hcut ih =>
    obtain ⟨fuel, rfl⟩ := Nat.exists_eq_add_of_le' hfuel
    have hfull : fgets 511 ⟨p ++ rest, false⟩ = (p, ⟨rest, false⟩) := by
      rw [← hlen]
      exact fgets_full hsep rest false
    rw [List.length_cons, ← Nat.add_assoc, ← Nat.add_assoc, loadLoop_succ hfull,
      ih (by omega) (readBuf config p), List.foldl_cons]
  | @line p rest ps hlt hsep hcut ih =>
    obtain ⟨fuel, rfl⟩ := Nat.exists_eq_add_of_le' hfuel
    rw [List.length_cons, ← Nat.add_assoc, ← Nat.add_assoc,
      loadLoop_succ (fgets_line hsep rest hlt false), ih (by omega) (readBuf config (p ++ [newline])),
      List.foldl_cons]

/-- What is there stays, and otherwise the key has what the buffer says. -/
theorem lookup_readBuf (config : MprpcConfig) (buf key : Bytes) :
    (readBuf config buf).lookup key = (config.lookup key).or ((parseBuf buf).toList.lookup key) := by
  unfold readBuf
  cases parseBuf buf with
  | none => simp
  | some e =>
    obtain ⟨key', v⟩ := e
    show AList.lookup key (if key' ∈ config then config else config.insert key' v) =
      (config.lookup key).or ([(key', v)].lookup key)
    by_cases hkey : key = key'
    · rw [← hkey, List.lookup_cons_self]
      split_ifs with hmem
      · obtain ⟨v', hlookup⟩ := Option.isSome_iff_exists.1 (AList.lookup_isSome.2 hmem)
        rw [hlookup, Option.some_or]
      · rw [AList.lookup_insert, AList.lookup_eq_none.2 hmem, Option.none_or]
    · have hnone : [(key', v)].lookup key = none := by
        rw [List.lookup_cons, beq_eq_false_iff_ne.2 hkey]
        rfl
      rw [hnone, Option.or_none]
      split_ifs
      · rfl
      · exact AList.lookup_insert_ne hkey

/-- Of the pieces that assign to a key, the first one counts. -/
theorem lookup_foldl_readBuf (ps : List Bytes) (config : MprpcConfig) (key : Bytes) :
    (ps.foldl readBuf config).lookup key =
      (config.lookup key).or ((ps.filterMap parseBuf).lookup key) := by
  induction ps generalizing config with
  | nil => simp
  | cons p ps ih =>
    rw [List.foldl_cons, ih, lookup_readBuf, Option.or_assoc, List.filterMap_cons]
    cases parseBuf p with
    | none => rfl
    | some e => rw [Option.toList_some, ← List.lookup_append, List.singleton_append]

end MprpcConfig

end RaftKVStorage
