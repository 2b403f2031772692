import RaftKVStorage.MprpcConfig

set_option autoImplicit false

/-! # The lines of a configuration file

The lines a configuration file is made of, and what `load` takes the pieces of such a line for. -/

namespace RaftKVStorage

open MprpcConfig LineText

/-! ## The grammar -/

/-- A line without the newline that may end it: spaces, a comment, or a key and a value with spaces
    around them. -/
inductive ConfigLine
  | blank (spaces : ℕ)
  | comment (text : Bytes)
  | entry (before : ℕ) (key : Bytes) (behind before' : ℕ) (value : Bytes) (behind' : ℕ)

/-- Text within a line of a text file. -/
def OneLine (s : Bytes) : Prop := newline ∉ s ∧ (0 : UInt8) ∉ s

namespace ConfigLine

def text : ConfigLine → Bytes
  | .blank spaces => List.replicate spaces space
  | .comment text => hash :: text
  | .entry before key behind before' value behind' =>
      List.replicate before space ++ key ++ List.replicate behind space ++ equals ::
        (List.replicate before' space ++ value ++ List.replicate behind' space)

/-- The key ends with the first `=`, and the line is no comment. -/
def Valid : ConfigLine → Prop
  | .blank _ => True
  | .comment text => OneLine text
  | .entry before key _ _ value _ =>
      OneLine key ∧ OneLine value ∧ equals ∉ key ∧ Trimmed space key ∧ Trimmed space value ∧
        (key.head? = some hash → 0 < before)

def bytes (line : ConfigLine) (ended : Bool) : Bytes :=
  if ended = true then line.text ++ [newline] else line.text

def assignment : ConfigLine → Option (Bytes × Bytes)
  | .entry _ key _ _ value _ => some (key, value)
  | _ => none

/-- Where the piece of a line begins that a position of the line is in. -/
def cutBefore (i : ℕ) : ℕ := i / 511 * 511

/-- No cut of the line parts the key from the `=`. -/
def KeyWhole (before : ℕ) (key : Bytes) (behind : ℕ) : Prop :=
  key = [] ∨ cutBefore (before + key.length + behind) ≤ before

instance KeyWhole.decidable (before : ℕ) (key : Bytes) (behind : ℕ) :
    Decidable (KeyWhole before key behind) :=
  inferInstanceAs (Decidable (key = [] ∨ cutBefore (before + key.length + behind) ≤ before))

/-- The key of an entry is seen: it is whole, and nobody takes it for a comment. -/
def Shown : ConfigLine → Prop
  | .entry before key behind _ _ _ => KeyWhole before key behind ∧ key.head? ≠ some hash
  | _ => False

/-- The value ends before the next cut behind the `=`, and the newline that ends the line, if there is
    one, stands behind that cut. -/
def Kept (line : ConfigLine) (ended : Bool) : Prop :=
  match line with
  | .entry before key behind before' value _ =>
      let eq := before + key.length + behind
      (value = [] ∨ eq + 1 + before' + value.length ≤ cutBefore eq + 511) ∧
        (ended = true → cutBefore eq + 511 ≤ line.text.length)
  | _ => True

/-- The pieces of a line that are no part of the grammar: those behind the first cut of a comment, and
    behind the first cut after the `=` of an entry or, where a cut parts it from the key, before it. -/
def strays (line : ConfigLine) (ended : Bool) : List Bytes :=
  match line with
  | .blank _ => []
  | .comment _ => pieces 511 ((line.bytes ended).drop 511)
  | .entry before key behind _ _ _ =>
      let eq := before + key.length + behind
      pieces 511 ((line.bytes ended).drop
        (if KeyWhole before key behind then cutBefore eq + 511 else cutBefore eq))

/-- Something in the line is taken for an assignment to the key. -/
def Assigns (line : ConfigLine) (ended : Bool) (key : Bytes) : Prop :=
  (line.Shown ∧ line.assignment.map Prod.fst = some key) ∨
    ∃ p ∈ line.strays ended, ∃ text, Reads p key text

/-- In a line that fits the buffer nothing comes between the key and its value: no newline ends it, and
    nobody takes it for a comment unless there is no value. -/
def Unharmed : ConfigLine → Bool → Prop
  | .entry _ key _ _ value _, ended => if key.head? = some hash then value = [] else ended = false
  | _, _ => True

end ConfigLine

/-! ## Text of a line -/

variable {line : ConfigLine} {ended : Bool} {key text : Bytes}

theorem oneLine_replicate (n : ℕ) : OneLine (List.replicate n space) := by
  constructor
  · intro hmem
    exact absurd (List.eq_of_mem_replicate hmem) (by decide)
  · intro hmem
    exact absurd (List.eq_of_mem_replicate hmem) (by decide)

theorem OneLine.append {s t : Bytes} (hs : OneLine s) (ht : OneLine t) : OneLine (s ++ t) :=
  ⟨fun hmem => (List.mem_append.1 hmem).elim hs.1 ht.1,
    fun hmem => (List.mem_append.1 hmem).elim hs.2 ht.2⟩

theorem OneLine.cons {c : UInt8} {s : Bytes} (hs : OneLine s) (hnewline : newline ≠ c)
    (hnul : 0 ≠ c) : OneLine (c :: s) :=
  ⟨List.not_mem_cons_of_ne_of_not_mem hnewline hs.1, List.not_mem_cons_of_ne_of_not_mem hnul hs.2⟩

theorem ConfigLine.Valid.oneLine (h : line.Valid) : OneLine line.text := by
  cases line with
  | blank spaces => exact oneLine_replicate spaces
  | comment text => exact OneLine.cons h (by decide) (by decide)
  | entry before key behind before' value behind' =>
    obtain ⟨hkey, hvalue, -⟩ := h
    have hback : OneLine (List.replicate before' space ++ value ++ List.replicate behind' space) :=
      ((oneLine_replicate before').append hvalue).append (oneLine_replicate behind')
    exact (((oneLine_replicate before).append hkey).append (oneLine_replicate behind)).append
      (hback.cons (by decide) (by decide))

theorem ConfigLine.Valid.not_mem_bytes (h : line.Valid) (ended : Bool) :
    (0 : UInt8) ∉ line.bytes ended := by
  intro hmem
  unfold ConfigLine.bytes at hmem
  split_ifs at hmem
  · rcases List.mem_append.1 hmem with htext | hnewline
    · exact h.oneLine.2 htext
    · exact absurd (List.mem_singleton.1 hnewline) (by decide)
  · exact h.oneLine.2 hmem

/-! ## What a line is read as -/

theorem parseBuf_comment (text : Bytes) : parseBuf (hash :: text) = none := by
  have hwhole : (hash :: text).takeWhile (fun c => c ≠ 0) =
      hash :: text.takeWhile (fun c => c ≠ 0) := rfl
  obtain ⟨t, b, hlast, heq⟩ := exists_trail space (hash :: text.takeWhile fun c => c ≠ 0)
  cases t with
  | nil =>
    -- then the line would be spaces only
    have hmem : hash ∈ List.replicate b space := by
      rw [List.nil_append] at heq
      rw [← heq]
      exact List.mem_cons_self ..
    exact absurd (List.eq_of_mem_replicate hmem) (by decide)
  | cons c t =>
    obtain rfl : hash = c := (List.cons.inj heq).1
    have htrim : mTrim (hash :: text.takeWhile fun c => c ≠ 0) = hash :: t := by
      rw [heq]
      exact mTrim_padded ⟨by simp, hlast⟩ (by simp) 0 b
    simp only [parseBuf, hwhole, htrim]
    exact if_pos (Or.inr rfl)

namespace ConfigLine

theorem cutBefore_le (i : ℕ) : cutBefore i ≤ i := Nat.div_mul_le_self i 511

theorem lt_cutBefore (i : ℕ) : i < cutBefore i + 511 := Nat.lt_div_mul_add (by decide)

/-- What a piece shows of the text behind an `=` is the value if the piece has all of it and has no
    newline. -/
theorem exists_shown {value : Bytes} (hvalue : Trimmed space value) (hnewline : newline ∉ value)
    (a b m : ℕ) (ended : Bool) :
    ∃ a' t b', (List.replicate a space ++ value ++ List.replicate b space ++
          (if ended = true then [newline] else [])).take m =
        List.replicate a' space ++ t ++ List.replicate b' space ∧ Trimmed space t ∧
      (t = value ↔ (value = [] ∨ a + value.length ≤ m) ∧
        (ended = true → m ≤ a + value.length + b)) := by
  obtain ⟨a', t, b', ht, heq⟩ := exists_trimmed space ((List.replicate a space ++ value ++
    List.replicate b space ++ (if ended = true then [newline] else [])).take m)
  refine ⟨a', t, b', heq, ht, ?_⟩
  constructor
  · intro hsame
    rw [hsame] at heq
    constructor
    · by_contra hcut
      obtain ⟨hne, hlt⟩ := not_or.1 hcut
      obtain ⟨s, x, rfl⟩ := List.eq_nil_or_concat' value |>.resolve_left hne
      have hx : x ≠ space := by simpa using hvalue.2
      -- the last byte of the value is behind the cut, so the piece has fewer bytes that are no spaces
      have htake : (List.replicate a space ++ (s ++ [x]) ++ List.replicate b space ++
          (if ended = true then [newline] else [])).take m = (List.replicate a space ++ s).take m := by
        rw [← List.append_assoc, List.append_assoc, List.append_assoc]
        refine List.take_append_of_le_length ?_
        rw [List.length_append, List.length_replicate]
        rw [List.length_append, List.length_singleton] at hlt
        omega
      have hfewer := (List.take_sublist m (List.replicate a space ++ s)).countP_le
        (p := fun c => decide (c ≠ space))
      rw [← htake, heq] at hfewer
      simp only [List.countP_append, List.countP_replicate, List.countP_singleton, hx, ne_eq,
        not_true_eq_false, not_false_eq_true, decide_true, decide_false, if_true, if_false,
        Bool.false_eq_true] at hfewer
      omega
    · rintro rfl
      by_contra hlt
      have hmem : newline ∈ List.replicate a' space ++ value ++ List.replicate b' space := by
        rw [← heq, List.take_of_length_le (by simp; omega)]
        simp
      simp [hnewline] at hmem
  · rintro ⟨hfits, hend⟩
    have htake : (List.replicate a space ++ value ++ List.replicate b space ++
        (if ended = true then [newline] else [])).take m =
          (List.replicate a space ++ value ++ List.replicate b space).take m := by
      cases ended with
      | false => simp
      | true =>
        refine List.take_append_of_le_length ?_
        have := hend rfl
        simp
        omega
    rw [htake] at heq
    rcases eq_or_ne value [] with rfl | hne
    · rw [List.append_nil, List.replicate_append_replicate, List.take_replicate] at heq
      exact ht.eq_nil_of_replicate heq.symm
    · have hlen : (List.replicate a space ++ value).length ≤ m := by
        rw [List.length_append, List.length_replicate]
        exact hfits.resolve_left hne
      rw [List.take_append, List.take_of_length_le hlen, List.take_replicate] at heq
      rcases eq_or_ne t [] with rfl | hne'
      · rw [List.append_nil, List.replicate_append_replicate] at heq
        exact absurd (hvalue.eq_nil_of_replicate heq) hne
      · rw [← mTrim_padded ht hne' a' b', ← heq, mTrim_padded hvalue hne]

/-- What a piece shows of the text in front of the `=`, if no cut parts the key from it. -/
theorem KeyWhole.exists_front {before behind : ℕ} (h : KeyWhole before key behind) :
    ∃ a b, (List.replicate before space ++ key ++ List.replicate behind space).drop
        (cutBefore (before + key.length + behind)) =
      List.replicate a space ++ key ++ List.replicate b space := by
  rcases h with rfl | hle
  · refine ⟨0, before + behind - cutBefore (before + behind), ?_⟩
    rw [List.append_nil, List.replicate_append_replicate, List.drop_replicate]
    simp
  · refine ⟨before - cutBefore (before + key.length + behind), behind, ?_⟩
    rw [List.append_assoc, List.append_assoc, List.drop_append_of_le_length (by simpa using hle),
      List.drop_replicate]

variable {before behind before' behind' : ℕ} {value : Bytes}

theorem length_text_entry (before : ℕ) (key : Bytes) (behind before' : ℕ) (value : Bytes)
    (behind' : ℕ) :
    (ConfigLine.entry before key behind before' value behind').text.length =
      before + key.length + behind + 1 + before' + value.length + behind' := by
  simp only [text, List.length_append, List.length_cons, List.length_replicate]
  omega

/-- Nothing is read before the piece with the `=`. -/
theorem filterMap_pieces_entry (h : (ConfigLine.entry before key behind before' value behind').Valid)
    (ended : Bool) :
    (pieces 511 ((ConfigLine.entry before key behind before' value behind').bytes
        ended)).filterMap parseBuf =
      (pieces 511 (((ConfigLine.entry before key behind before' value behind').bytes
        ended).drop (cutBefore (before + key.length + behind)))).filterMap parseBuf := by
  have hequals : equals ∉ List.replicate before space ++ key ++ List.replicate behind space := by
    have hkey := h.2.2.1
    simp [hkey]
  have hbytes : ∃ rest, (ConfigLine.entry before key behind before' value behind').bytes ended =
      List.replicate before space ++ key ++ List.replicate behind space ++ rest := by
    cases ended
    · exact ⟨_, rfl⟩
    · exact ⟨_, List.append_assoc ..⟩
  obtain ⟨rest, hbytes⟩ := hbytes
  rw [pieces_append (by decide) ((before + key.length + behind) / 511), List.filterMap_append]
  refine List.append_left_eq_self.2 (List.filterMap_eq_nil_iff.2 fun p hp => ?_)
  refine parseBuf_eq_none fun hmem => hequals ?_
  have hfront := mem_of_mem_pieces hp hmem
  rw [hbytes, List.take_append_of_le_length ?_] at hfront
  · exact List.mem_of_mem_take hfront
  · rw [List.length_append, List.length_append, List.length_replicate, List.length_replicate]
    exact cutBefore_le (before + key.length + behind)

/-- An entry whose key is whole is read as one assignment, if it is not taken for a comment, and then
    come the stray pieces. -/
theorem filterMap_pieces_whole (h : (ConfigLine.entry before key behind before' value behind').Valid)
    (hwhole : KeyWhole before key behind) (ended : Bool) :
    ∃ v, (pieces 511 ((ConfigLine.entry before key behind before' value behind').bytes
          ended)).filterMap parseBuf =
        (if key.head? = some hash then none else some (key, v)).toList ++
          ((ConfigLine.entry before key behind before' value behind').strays ended).filterMap
            parseBuf ∧
      (v = value ↔ (ConfigLine.entry before key behind before' value behind').Kept ended) := by
  have hnul := h.not_mem_bytes ended
  have hentry := filterMap_pieces_entry h ended
  obtain ⟨-, hvalue, hequals, hkey, htrimmed, -⟩ := h
  obtain ⟨a, b, hfront⟩ := hwhole.exists_front
  obtain ⟨eq, heq⟩ : ∃ eq, before + key.length + behind = eq := ⟨_, rfl⟩
  rw [heq] at hentry hfront
  have hle := cutBefore_le eq
  have hlt := lt_cutBefore eq
  obtain ⟨a', v, b', hback, hv, hkept⟩ := exists_shown htrimmed hvalue.1 before' behind'
    (cutBefore eq + 510 - eq) ended
  have hbytes : (ConfigLine.entry before key behind before' value behind').bytes ended =
      List.replicate before space ++ key ++ List.replicate behind space ++ equals ::
        (List.replicate before' space ++ value ++ List.replicate behind' space ++
          (if ended = true then [newline] else [])) := by
    cases ended <;> simp [bytes, text]
  have hlen : (List.replicate before space ++ key ++ List.replicate behind space).length = eq := by
    rw [← heq]
    simp [Nat.add_assoc]
  have hdrop : ((ConfigLine.entry before key behind before' value behind').bytes ended).drop
      (cutBefore eq) = List.replicate a space ++ key ++ List.replicate b space ++ equals ::
        (List.replicate before' space ++ value ++ List.replicate behind' space ++
          (if ended = true then [newline] else [])) := by
    rw [hbytes, List.drop_append_of_le_length (hlen.symm ▸ hle), hfront]
  have hshorter : (List.replicate a space ++ key ++ List.replicate b space).length =
      eq - cutBefore eq := by
    rw [← hfront, List.length_drop, hlen]
  have hpiece : (((ConfigLine.entry before key behind before' value behind').bytes ended).drop
      (cutBefore eq)).take 511 = List.replicate a space ++ key ++ List.replicate b space ++ equals ::
        (List.replicate a' space ++ v ++ List.replicate b' space) := by
    have hroom : 511 - (eq - cutBefore eq) = (cutBefore eq + 510 - eq) + 1 := by omega
    rw [hdrop, List.take_append, List.take_of_length_le (by rw [hshorter]; omega), hshorter, hroom,
      List.take_succ_cons, hback]
  have hne : ((ConfigLine.entry before key behind before' value behind').bytes ended).drop
      (cutBefore eq) ≠ [] := by
    rw [hdrop]
    simp
  have hread := parseBuf_padded (fun hmem => hnul (List.mem_of_mem_drop (List.mem_of_mem_take hmem)))
    hkey hv hequals hpiece
  have hstrays : (ConfigLine.entry before key behind before' value behind').strays ended =
      pieces 511 (((ConfigLine.entry before key behind before' value behind').bytes
        ended).drop (cutBefore eq + 511)) := by
    simp only [strays, if_pos hwhole, heq]
  have hall : (ConfigLine.entry before key behind before' value behind').text.length =
      eq + 1 + before' + value.length + behind' := by
    rw [length_text_entry, heq]
  have hshows : (ConfigLine.entry before key behind before' value behind').Kept ended ↔
      (value = [] ∨ eq + 1 + before' + value.length ≤ cutBefore eq + 511) ∧
        (ended = true → cutBefore eq + 511 ≤ eq + 1 + before' + value.length + behind') := by
    simp only [Kept, heq, hall]
  rw [hshows]
  refine ⟨v, ?_, hkept.trans (and_congr (or_congr_right ?_) (imp_congr_right fun _ => ?_))⟩
  · rw [hentry, pieces_cons (by decide) hne, List.filterMap_cons, hread, List.drop_drop, hstrays]
    split_ifs <;> rfl
  · omega
  · omega

/-- A line is read as an assignment to its key, if that is seen, and then come the stray pieces. -/
theorem Valid.exists_own (h : line.Valid) (ended : Bool) :
    ∃ own : Option (Bytes × Bytes),
      (pieces 511 (line.bytes ended)).filterMap parseBuf =
        own.toList ++ (line.strays ended).filterMap parseBuf ∧
      (∀ key, (∃ v, own = some (key, v)) ↔ line.Shown ∧ line.assignment.map Prod.fst = some key) ∧
      ∀ e value, own = some e → line.assignment = some (e.1, value) →
        (e.2 = value ↔ line.Kept ended) := by
  cases line with
  | blank spaces =>
    refine ⟨none, List.filterMap_eq_nil_iff.2 fun p hp => parseBuf_eq_none fun hmem => ?_,
      by simp [Shown], by simp⟩
    have hbytes := mem_of_mem_pieces hp hmem
    unfold bytes at hbytes
    split_ifs at hbytes
    · simp only [text, List.mem_append, List.mem_replicate, List.mem_singleton] at hbytes
      exact hbytes.elim (fun hspace => equals_ne_space hspace.2) fun hnewline =>
        absurd hnewline (by decide)
    · exact equals_ne_space (List.eq_of_mem_replicate hbytes)
  | comment text =>
    obtain ⟨rest, hbytes⟩ : ∃ rest, (ConfigLine.comment text).bytes ended = hash :: rest := by
      cases ended
      · exact ⟨_, rfl⟩
      · exact ⟨_, rfl⟩
    have hne : hash :: rest ≠ [] := List.cons_ne_nil hash rest
    refine ⟨none, ?_, by simp [Shown], by simp⟩
    rw [strays, hbytes, pieces_cons (by decide) hne, List.filterMap_cons, List.take_succ_cons,
      parseBuf_comment]
    rfl
  | entry before key behind before' value behind' =>
    by_cases hwhole : KeyWhole before key behind
    · obtain ⟨v, hread, hkept⟩ := filterMap_pieces_whole h hwhole ended
      by_cases hhash : key.head? = some hash
      · rw [if_pos hhash] at hread
        exact ⟨none, hread, by simp [Shown, hhash], by simp⟩
      · rw [if_neg hhash] at hread
        refine ⟨some (key, v), hread, by simp [Shown, hhash, hwhole, assignment], ?_⟩
        rintro e value' hown hassign
        obtain rfl := Option.some.inj hown
        obtain rfl := (Prod.mk.inj (Option.some.inj hassign)).2
        exact hkept
    · refine ⟨none, ?_, by simp [Shown, hwhole], by simp⟩
      rw [filterMap_pieces_entry h ended]
      simp only [strays, if_neg hwhole, Option.toList_none, List.nil_append]

theorem Valid.not_mem_strays (h : line.Valid) {p : Bytes} (hp : p ∈ line.strays ended) :
    (0 : UInt8) ∉ p := by
  intro hmem
  refine h.not_mem_bytes ended ?_
  cases line with
  | blank spaces => cases hp
  | comment text => exact List.mem_of_mem_drop (mem_of_mem_pieces hp hmem)
  | entry before key behind before' value behind' =>
    exact List.mem_of_mem_drop (mem_of_mem_pieces hp hmem)

theorem Valid.mem_strays_iff (h : line.Valid) :
    key ∈ ((line.strays ended).filterMap parseBuf).map Prod.fst ↔
      ∃ p ∈ line.strays ended, ∃ text, Reads p key text := by
  constructor
  · intro hkey
    obtain ⟨e, he, rfl⟩ := List.mem_map.1 hkey
    obtain ⟨p, hp, hread⟩ := List.mem_filterMap.1 he
    exact ⟨p, hp, e.2, (parseBuf_eq_some_iff (h.not_mem_strays hp)).1 hread⟩
  · rintro ⟨p, hp, text, hread⟩
    have hentry := (parseBuf_eq_some_iff (h.not_mem_strays hp)).2 hread
    exact List.mem_map.2 ⟨_, List.mem_filterMap.2 ⟨p, hp, hentry⟩, rfl⟩

/-- A line is read as some assignment to the key. -/
theorem Valid.mem_filterMap_pieces_iff (h : line.Valid) :
    key ∈ ((pieces 511 (line.bytes ended)).filterMap parseBuf).map Prod.fst ↔
      line.Assigns ended key := by
  obtain ⟨own, hread, hown, -⟩ := h.exists_own ended
  rw [Assigns, ← h.mem_strays_iff, ← hown, hread, List.map_append, List.mem_append]
  refine or_congr_left ?_
  cases own with
  | none => simp
  | some e => simp [Prod.ext_iff, eq_comm]

end ConfigLine

/-! ## Lines that fit the buffer -/

namespace ConfigLine

/-- A line that fits the buffer has no cut. -/
theorem cutBefore_of_short {before behind before' behind' : ℕ} {value : Bytes}
    (hshort : (ConfigLine.entry before key behind before' value behind').text.length < 511) :
    cutBefore (before + key.length + behind) = 0 := by
  rw [length_text_entry] at hshort
  rw [cutBefore, Nat.div_eq_of_lt (by omega), Nat.zero_mul]

theorem keyWhole_of_short {before behind before' behind' : ℕ} {value : Bytes}
    (hshort : (ConfigLine.entry before key behind before' value behind').text.length < 511) :
    KeyWhole before key behind :=
  .inr (by rw [cutBefore_of_short hshort]; exact Nat.zero_le before)

theorem kept_iff_of_short {before behind before' behind' : ℕ} {value : Bytes}
    (hshort : (ConfigLine.entry before key behind before' value behind').text.length < 511)
    (ended : Bool) :
    (ConfigLine.entry before key behind before' value behind').Kept ended ↔ ended = false := by
  have hcut := cutBefore_of_short hshort
  simp only [Kept, hcut, length_text_entry] at hshort ⊢
  constructor
  · rintro ⟨-, hend⟩
    refine eq_false_of_ne_true fun htrue => ?_
    have := hend htrue
    omega
  · rintro rfl
    exact ⟨.inr (by omega), fun htrue => absurd htrue (by simp)⟩

theorem length_bytes_le (hshort : line.text.length < 511) (ended : Bool) :
    (line.bytes ended).length ≤ 511 := by
  unfold bytes
  split_ifs
  · rw [List.length_append]
    exact hshort
  · exact Nat.le_of_lt hshort

theorem strays_of_short (hshort : line.text.length < 511) (ended : Bool) : line.strays ended = [] := by
  have hlen := length_bytes_le hshort ended
  cases line with
  | blank spaces => rfl
  | comment text =>
    rw [strays, List.drop_of_length_le hlen]
    exact pieces_nil (by decide)
  | entry before key behind before' value behind' =>
    simp only [strays, if_pos (keyWhole_of_short hshort)]
    rw [List.drop_of_length_le (hlen.trans (Nat.le_add_left ..))]
    exact pieces_nil (by decide)

end ConfigLine

end RaftKVStorage
