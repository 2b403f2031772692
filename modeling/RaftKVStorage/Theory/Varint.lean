import Mathlib.Data.List.TakeWhile
import Mathlib.Data.Nat.Digits.Lemmas

set_option autoImplicit false

/-! # Base-128 varints

Seven bits a byte, the lowest first; every byte but the last has its top bit set. Written numbers are
read back in front of any continuation, and no shorter bytes read as the same number. -/

namespace Varint

/-- The bytes of a number's base-128 digits, all but the last with the top bit set. -/
def write (v : ℕ) : List UInt8 :=
  (Nat.digits 128 v).dropLast.map (fun d => UInt8.ofNat (d + 128)) ++
    [UInt8.ofNat ((Nat.digits 128 v).getLastD 0)]

/-- Read up to the first byte without the top bit, and return what follows. -/
def read (bytes : List UInt8) : Option (ℕ × List UInt8) :=
  match bytes.dropWhile (128 ≤ ·) with
  | [] => none
  | last :: rest =>
      some (Nat.ofDigits 128 ((bytes.takeWhile (128 ≤ ·)).map (fun b => b.toNat - 128) ++ [last.toNat]),
        rest)

theorem write_ne_nil (v : ℕ) : write v ≠ [] := by simp [write]

theorem length_write (v : ℕ) : (write v).length = max 1 (Nat.digits 128 v).length := by
  simp only [write, List.length_append, List.length_map, List.length_dropLast, List.length_singleton]
  omega

/-- The bytes with the top bit set come first. -/
theorem marked_write (v : ℕ) :
    ∀ b ∈ (Nat.digits 128 v).dropLast.map (fun d => UInt8.ofNat (d + 128)),
      decide ((128 : UInt8) ≤ b) = true := by
  intro b hb
  obtain ⟨d, hd, rfl⟩ := List.mem_map.1 hb
  have hlt : d < 128 := Nat.digits_lt_base (by decide) (List.mem_of_mem_dropLast hd)
  rw [decide_eq_true_iff, UInt8.le_iff_toNat_le, UInt8.toNat_ofNat_of_lt' (by show d + 128 < 256; omega)]
  show 128 ≤ d + 128
  omega

theorem last_lt (v : ℕ) : (Nat.digits 128 v).getLastD 0 < 128 := by
  cases h : (Nat.digits 128 v).getLast? with
  | none => simp [List.getLast?_eq_none_iff.1 h]
  | some d =>
    have hmem : d ∈ Nat.digits 128 v := List.mem_of_getLast? h
    rw [List.getLastD_eq_getLast?, h]
    exact Nat.digits_lt_base (by decide) hmem

theorem ofDigits_dropLast_last (v : ℕ) :
    Nat.ofDigits 128 ((Nat.digits 128 v).dropLast ++ [(Nat.digits 128 v).getLastD 0]) = v := by
  by_cases h : Nat.digits 128 v = []
  · rw [Nat.digits_eq_nil_iff_eq_zero.1 h]
    rfl
  · have hlast : (Nat.digits 128 v).getLastD 0 = (Nat.digits 128 v).getLast h := by
      rw [List.getLastD_eq_getLast?, List.getLast?_eq_some_getLast h]
      rfl
    rw [hlast, List.dropLast_append_getLast h, Nat.ofDigits_digits]

theorem read_write (v : ℕ) (rest : List UInt8) : read (write v ++ rest) = some (v, rest) := by
  have hlast : decide ((128 : UInt8) ≤ UInt8.ofNat ((Nat.digits 128 v).getLastD 0)) = false := by
    have hlt := last_lt v
    rw [decide_eq_false_iff_not, UInt8.le_iff_toNat_le,
      UInt8.toNat_ofNat_of_lt' (by show _ < 256; omega)]
    show ¬128 ≤ _
    omega
  have hdigits : ((Nat.digits 128 v).dropLast.map (fun d => UInt8.ofNat (d + 128))).map
      (fun b => b.toNat - 128) = (Nat.digits 128 v).dropLast := by
    rw [List.map_map]
    refine (List.map_congr_left fun d hd => ?_).trans (List.map_id _)
    have hlt : d < 128 := Nat.digits_lt_base (by decide) (List.mem_of_mem_dropLast hd)
    show (UInt8.ofNat (d + 128)).toNat - 128 = d
    rw [UInt8.toNat_ofNat_of_lt' (by show d + 128 < 256; omega), Nat.add_sub_cancel]
  have hlt := last_lt v
  simp only [read, write, List.append_assoc, List.dropWhile_append_of_pos (marked_write v),
    List.takeWhile_append_of_pos (marked_write v), List.singleton_append, List.dropWhile_cons, hlast,
    List.takeWhile_cons, Bool.false_eq_true, if_false, List.append_nil, hdigits]
  rw [UInt8.toNat_ofNat_of_lt' (by show _ < 256; omega), ofDigits_dropLast_last]

/-- Nothing is read of a number that was cut off. -/
theorem read_take_write {v j : ℕ} (h : j < (write v).length) : read ((write v).take j) = none := by
  have hle : j ≤ ((Nat.digits 128 v).dropLast.map (fun d => UInt8.ofNat (d + 128))).length := by
    rw [write, List.length_append, List.length_singleton] at h
    omega
  rw [write, List.take_append_of_le_length hle, read,
    List.dropWhile_eq_nil_iff.2 fun b hb => marked_write v b (List.mem_of_mem_take hb)]

theorem length_write_le {v k : ℕ} (hk : 0 < k) (h : v < 128 ^ k) : (write v).length ≤ k := by
  rw [length_write]
  exact max_le hk ((Nat.digits_length_le_iff (by decide) v).2 h)

theorem lt_length_write {v k : ℕ} (h : 128 ^ k ≤ v) : k < (write v).length := by
  rw [length_write]
  exact lt_max_of_lt_right ((Nat.lt_digits_length_iff (by decide) v).2 h)

/-- The written form is the shortest. -/
theorem length_of_read {bytes rest : List UInt8} {v : ℕ} (h : read bytes = some (v, rest)) :
    (write v).length + rest.length ≤ bytes.length := by
  unfold read at h
  cases hdrop : bytes.dropWhile (128 ≤ ·) with
  | nil => simp [hdrop] at h
  | cons last tail =>
    rw [hdrop] at h
    obtain ⟨hv, rfl⟩ := Prod.mk.inj (Option.some.inj h)
    have hlen : bytes.length = (bytes.takeWhile (128 ≤ ·)).length + (tail.length + 1) := by
      conv_lhs => rw [← List.takeWhile_append_dropWhile (p := (128 ≤ ·)) (l := bytes), hdrop]
      simp
    have hdigit : ∀ d ∈ (bytes.takeWhile (128 ≤ ·)).map (fun b => b.toNat - 128) ++ [last.toNat],
        d < 128 := by
      intro d hd
      rcases List.mem_append.1 hd with hd | hd
      · obtain ⟨b, -, rfl⟩ := List.mem_map.1 hd
        have := b.toNat_lt
        omega
      · rw [List.mem_singleton.1 hd]
        have hhead := List.head?_dropWhile_not (128 ≤ ·) bytes
        rw [hdrop] at hhead
        have hnot : ¬(128 : UInt8) ≤ last := by simpa using hhead
        rw [UInt8.le_iff_toNat_le] at hnot
        exact not_le.1 hnot
    have hlt : v < 128 ^ ((bytes.takeWhile (128 ≤ ·)).length + 1) := by
      rw [← hv]
      simpa using Nat.ofDigits_lt_base_pow_length (by decide) hdigit
    have hle := (Nat.digits_length_le_iff (by decide) v).2 hlt
    rw [length_write]
    omega

theorem length_write_mono {v w : ℕ} (h : v ≤ w) : (write v).length ≤ (write w).length := by
  have hle := Nat.le_length_digits_le 128 v w h
  rw [length_write, length_write]
  omega

/-! ## Readers that stop -/

/-- Read a number that takes at most `k` bytes. -/
def readAtMost (k : ℕ) (bytes : List UInt8) : Option (ℕ × List UInt8) :=
  (read bytes).filter fun p => bytes.length ≤ p.2.length + k

theorem read_of_readAtMost {k : ℕ} {bytes : List UInt8} {p : ℕ × List UInt8}
    (h : readAtMost k bytes = some p) : read bytes = some p :=
  (Option.filter_eq_some_iff.1 h).1

/-- A number of few digits is read back. -/
theorem readAtMost_write {k v : ℕ} (hk : 0 < k) (h : v < 128 ^ k) (rest : List UInt8) :
    readAtMost k (write v ++ rest) = some (v, rest) := by
  have hlen := length_write_le hk h
  rw [readAtMost, read_write, Option.filter_some, if_pos]
  rw [List.length_append, decide_eq_true_iff]
  show (write v).length + rest.length ≤ rest.length + k
  omega

theorem readAtMost_take_write {k v j : ℕ} (h : j < (write v).length) :
    readAtMost k ((write v).take j) = none := by
  rw [readAtMost, read_take_write h, Option.filter_none]

end Varint
