import Mathlib.Data.List.Basic

set_option autoImplicit false

/-! # Text

Text over any alphabet: what is left of it without the padding around it, and the pieces of it that a
reader with a short buffer gets to see. -/

namespace LineText

variable {α : Type}

/-! ## Padding -/

/-- Neither end is padding. -/
def Trimmed (pad : α) (t : List α) : Prop := t.head? ≠ some pad ∧ t.getLast? ≠ some pad

variable {pad sep : α} {t p s rest : List α} {ps : List (List α)} {size : ℕ}

instance Trimmed.decidable [DecidableEq α] (pad : α) (t : List α) : Decidable (Trimmed pad t) :=
  inferInstanceAs (Decidable (t.head? ≠ some pad ∧ t.getLast? ≠ some pad))

theorem exists_lead (pad : α) (s : List α) :
    ∃ a t, t.head? ≠ some pad ∧ s = List.replicate a pad ++ t := by
  induction s with
  | nil => exact ⟨0, [], by simp, rfl⟩
  | cons c s ih =>
    by_cases hc : c = pad
    · obtain ⟨a, t, hhead, heq⟩ := ih
      refine ⟨a + 1, t, hhead, ?_⟩
      rw [List.replicate_succ, List.cons_append, ← heq, hc]
    · exact ⟨0, c :: s, by simpa using hc, rfl⟩

theorem exists_trail (pad : α) (s : List α) :
    ∃ t b, t.getLast? ≠ some pad ∧ s = t ++ List.replicate b pad := by
  obtain ⟨b, t, hhead, heq⟩ := exists_lead pad s.reverse
  refine ⟨t.reverse, b, by rwa [List.getLast?_reverse], ?_⟩
  rw [← List.reverse_reverse s, heq, List.reverse_append, List.reverse_replicate]

theorem exists_trimmed (pad : α) (s : List α) :
    ∃ a t b, Trimmed pad t ∧ s = List.replicate a pad ++ t ++ List.replicate b pad := by
  obtain ⟨a, t, hhead, rfl⟩ := exists_lead pad s
  obtain ⟨t', b, hlast, rfl⟩ := exists_trail pad t
  refine ⟨a, t', b, ⟨?_, hlast⟩, (List.append_assoc ..).symm⟩
  cases t' with
  | nil => simp
  | cons c t' => simpa using hhead

theorem Trimmed.eq_nil_of_replicate {a b n : ℕ} (ht : Trimmed pad t)
    (heq : List.replicate a pad ++ t ++ List.replicate b pad = List.replicate n pad) : t = [] := by
  cases t with
  | nil => rfl
  | cons c t =>
    have hmem : c ∈ List.replicate n pad := by
      rw [← heq]
      simp
    exact absurd (by rw [List.eq_of_mem_replicate hmem]; rfl) ht.1

/-! ## Pieces -/

/-- A text cut into pieces of a size, the last of which may be shorter. -/
def pieces (size : ℕ) (s : List α) : List (List α) :=
  (List.range ((s.length + (size - 1)) / size)).map fun i => (s.drop (i * size)).take size

theorem pieces_nil (hsize : 0 < size) : pieces size ([] : List α) = [] := by
  have hzero : (0 + (size - 1)) / size = 0 := Nat.div_eq_of_lt (by omega)
  rw [pieces, List.length_nil, hzero]
  rfl

theorem pieces_cons (hsize : 0 < size) (hne : s ≠ []) :
    pieces size s = s.take size :: pieces size (s.drop size) := by
  have hpos := List.length_pos_iff.2 hne
  have hcount : (s.length + (size - 1)) / size = ((s.drop size).length + (size - 1)) / size + 1 := by
    rw [List.length_drop]
    rcases Nat.le_total s.length size with hle | hle
    · have hzero : (s.length - size + (size - 1)) / size = 0 := Nat.div_eq_of_lt (by omega)
      rw [hzero]
      exact Nat.div_eq_of_lt_le (by omega) (by omega)
    · rw [← Nat.add_div_right _ hsize]
      exact congrArg (· / size) (by omega)
  rw [pieces, hcount, List.range_succ_eq_map, List.map_cons, List.map_map, Nat.zero_mul, List.drop_zero]
  refine congrArg (s.take size :: ·) (List.map_congr_left fun i _ => ?_)
  rw [Function.comp_apply, List.drop_drop]
  exact congrArg (fun n => (s.drop n).take size) (by rw [Nat.succ_mul, Nat.add_comm])

theorem pieces_of_length_le (hsize : 0 < size) (hne : s ≠ []) (hle : s.length ≤ size) :
    pieces size s = [s] := by
  rw [pieces_cons hsize hne, List.take_of_length_le hle, List.drop_of_length_le hle, pieces_nil hsize]

/-- A cut between two pieces parts the text. -/
theorem pieces_append (hsize : 0 < size) (n : ℕ) (s : List α) :
    pieces size s = pieces size (s.take (n * size)) ++ pieces size (s.drop (n * size)) := by
  induction n generalizing s with
  | zero => rw [Nat.zero_mul, List.take_zero, List.drop_zero, pieces_nil hsize, List.nil_append]
  | succ n ih =>
    rcases eq_or_ne s [] with rfl | hne
    · rw [List.take_nil, List.drop_nil, pieces_nil hsize, List.append_nil]
    · have hpos := List.length_pos_iff.2 hne
      have htake : s.take ((n + 1) * size) ≠ [] := by
        rw [← List.length_pos_iff, List.length_take, Nat.succ_mul]
        omega
      have hfirst : (s.take ((n + 1) * size)).take size = s.take size := by
        rw [List.take_take, Nat.succ_mul, Nat.min_eq_left (Nat.le_add_left ..)]
      have hothers : (s.take ((n + 1) * size)).drop size = (s.drop size).take (n * size) := by
        rw [List.drop_take, Nat.succ_mul, Nat.add_sub_cancel]
      have hbehind : s.drop ((n + 1) * size) = (s.drop size).drop (n * size) := by
        rw [List.drop_drop, Nat.succ_mul, Nat.add_comm]
      rw [pieces_cons hsize hne, pieces_cons hsize htake, hfirst, hothers, hbehind, ih (s.drop size),
        List.cons_append]

/-- A piece is part of the text. -/
theorem mem_of_mem_pieces {c : α} (hp : p ∈ pieces size s) (hc : c ∈ p) : c ∈ s := by
  obtain ⟨i, -, rfl⟩ := List.mem_map.1 hp
  exact List.mem_of_mem_drop (List.mem_of_mem_take hc)

/-- How a reader gets to see a text: up to the next separator, up to the end of the text, or as much
    as its buffer holds, whichever comes first. -/
inductive Cut (sep : α) (size : ℕ) : List α → List (List α) → Prop
  | nil : Cut sep size [] []
  | last {p : List α} : p ≠ [] → p.length < size → sep ∉ p → Cut sep size p [p]
  | full {p rest : List α} {ps : List (List α)} :
      p.length = size → sep ∉ p → Cut sep size rest ps → Cut sep size (p ++ rest) (p :: ps)
  | line {p rest : List α} {ps : List (List α)} :
      p.length < size → sep ∉ p → Cut sep size rest ps →
        Cut sep size (p ++ sep :: rest) ((p ++ [sep]) :: ps)

theorem Cut.length_le (h : Cut sep size s ps) (hsize : 0 < size) : ps.length ≤ s.length := by
  induction h with
  | nil => exact Nat.le_refl 0
  | last hne _ _ => exact List.length_pos_iff.2 hne
  | full hlen _ _ ih =>
    rw [List.length_append, List.length_cons]
    omega
  | line _ _ _ ih =>
    rw [List.length_append, List.length_cons, List.length_cons]
    omega

/-- Text without a separator, at the end. -/
theorem cut_pieces (hsize : 0 < size) (hsep : sep ∉ t) : Cut sep size t (pieces size t) := by
  induction hn : t.length using Nat.strongRecOn generalizing t with
  | ind n ih =>
    rcases eq_or_ne t [] with rfl | hne
    · rw [pieces_nil hsize]
      exact .nil
    · rcases Nat.lt_or_ge t.length size with hlt | hge
      · rw [pieces_of_length_le hsize hne (Nat.le_of_lt hlt)]
        exact .last hne hlt hsep
      · have hpos := List.length_pos_iff.2 hne
        have hrest := ih (t.drop size).length (by rw [List.length_drop]; omega)
          (fun hmem => hsep (List.mem_of_mem_drop hmem)) rfl
        have hfull := Cut.full (List.length_take_of_le hge)
          (fun hmem => hsep (List.mem_of_mem_take hmem)) hrest
        rw [List.take_append_drop] at hfull
        rw [pieces_cons hsize hne]
        exact hfull

/-- A line is cut into its pieces, whatever comes after it. -/
theorem Cut.append_line (h : Cut sep size rest ps) (hsize : 0 < size) (hsep : sep ∉ t) :
    Cut sep size (t ++ [sep] ++ rest) (pieces size (t ++ [sep]) ++ ps) := by
  induction hn : t.length using Nat.strongRecOn generalizing t with
  | ind n ih =>
    have hne : t ++ [sep] ≠ [] := by simp
    rcases Nat.lt_or_ge t.length size with hlt | hge
    · rw [pieces_of_length_le hsize hne (by rw [List.length_append]; exact hlt), List.append_assoc]
      exact .line hlt hsep h
    · have hrest := ih (t.drop size).length (by rw [List.length_drop]; omega)
        (fun hmem => hsep (List.mem_of_mem_drop hmem)) rfl
      have hfull := Cut.full (List.length_take_of_le hge)
        (fun hmem => hsep (List.mem_of_mem_take hmem)) hrest
      have htext : t.take size ++ (t.drop size ++ [sep] ++ rest) = t ++ [sep] ++ rest := by
        rw [← List.append_assoc, ← List.append_assoc, List.take_append_drop]
      rw [htext] at hfull
      rw [pieces_cons hsize hne, List.take_append_of_le_length hge, List.drop_append_of_le_length hge]
      exact hfull

end LineText
