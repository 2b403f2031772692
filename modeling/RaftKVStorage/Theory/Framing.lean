import Mathlib.Data.List.Basic

set_option autoImplicit false

/-! # Framing

Frames are sent one after the other and arrive as a stream that is cut somewhere. A receiver that
takes each piece for itself and finds at most one message in it loses nothing only when the pieces are
the frames. All that is asked of it is that no piece is shorter than the frame of what it finds. -/

namespace Framing

variable {α β : Type} {frame : α → List β} {decode : List β → Option α}

/-- The frames of what is found are no longer than the pieces, and shorter when a piece that is not
    empty yields nothing. -/
theorem length_filterMap_le (hlen : ∀ d a, decode d = some a → (frame a).length ≤ d.length)
    (ds : List (List β)) :
    ((ds.filterMap decode).map frame).flatten.length ≤ ds.flatten.length := by
  induction ds with
  | nil => exact Nat.le_refl _
  | cons d ds ih =>
    cases hd : decode d with
    | none =>
      rw [List.filterMap_cons_none hd, List.flatten_cons, List.length_append]
      exact Nat.le_trans ih (Nat.le_add_left _ _)
    | some a =>
      have := hlen d a hd
      simp only [List.filterMap_cons_some hd, List.map_cons, List.flatten_cons, List.length_append]
      omega

/-- If everything sent is found, each piece is a frame. -/
theorem eq_frames_of_filterMap_eq (hlen : ∀ d a, decode d = some a → (frame a).length ≤ d.length)
    {ds : List (List β)} {as : List α} (hne : ∀ d ∈ ds, d ≠ [])
    (hcut : ds.flatten = (as.map frame).flatten) (hall : ds.filterMap decode = as) :
    ds = as.map frame := by
  induction ds generalizing as with
  | nil =>
    subst hall
    rfl
  | cons d ds ih =>
    have hrest := length_filterMap_le hlen ds
    have htotal := congrArg List.length hcut
    cases hd : decode d with
    | none =>
      -- the other pieces are too short for the frames
      rw [List.filterMap_cons_none hd] at hall
      have hpos := List.length_pos_of_ne_nil (hne d (List.mem_cons_self ..))
      rw [← hall] at htotal
      simp only [List.flatten_cons, List.length_append] at htotal
      omega
    | some a =>
      rw [List.filterMap_cons_some hd] at hall
      subst hall
      have hfirst := hlen d a hd
      simp only [List.map_cons, List.flatten_cons, List.length_append] at htotal hcut
      have heq : d.length = (frame a).length := by omega
      obtain ⟨rfl, htail⟩ := List.append_inj hcut heq
      rw [List.map_cons, ← ih (fun d hd => hne d (List.mem_cons_of_mem _ hd)) htail rfl]

/-- If each piece is a frame, everything sent is found exactly when each frame is read as what it
    is the frame of. -/
theorem filterMap_frames_iff {as : List α} :
    (as.map frame).filterMap decode = as ↔ ∀ a ∈ as, decode (frame a) = some a := by
  induction as with
  | nil => simp
  | cons a as ih =>
    rw [List.map_cons, List.forall_mem_cons]
    cases hd : decode (frame a) with
    | none =>
      rw [List.filterMap_cons_none hd]
      constructor
      · intro hall
        have hle := List.length_filterMap_le decode (as.map frame)
        rw [hall, List.length_cons, List.length_map] at hle
        omega
      · rintro ⟨hfalse, -⟩
        simp at hfalse
    | some b => rw [List.filterMap_cons_some hd, List.cons.injEq, Option.some.injEq, ih]

/-! ## Where a stream is split

What is written for a list of messages is split in front of a message. Marking the messages in front
tells the place, up to messages of no bytes. -/

variable {bytes : α → List β} {marked : α → Prop}

/-- Only messages of bytes in front of the split are marked, and all of them are. -/
def SplitAt (bytes : α → List β) (marked : α → Prop) (before behind : List α) : Prop :=
  (∀ a ∈ before, bytes a ≠ [] → marked a) ∧ ∀ a ∈ behind, bytes a ≠ [] → ¬ marked a

/-- The marks determine what is written behind the split. -/
theorem SplitAt.flatMap_eq {before behind before' behind' : List α}
    (h : SplitAt bytes marked before behind) (h' : SplitAt bytes marked before' behind')
    (heq : before ++ behind = before' ++ behind') : behind.flatMap bytes = behind'.flatMap bytes := by
  rcases List.append_eq_append_iff.1 heq with ⟨mid, rfl, rfl⟩ | ⟨mid, rfl, rfl⟩
  · have hmid : mid.flatMap bytes = [] := List.flatMap_eq_nil_iff.2 fun a ha => by
      by_contra hne
      exact h.2 a (List.mem_append_left _ ha) hne (h'.1 a (List.mem_append_right _ ha) hne)
    rw [List.flatMap_append, hmid, List.nil_append]
  · have hmid : mid.flatMap bytes = [] := List.flatMap_eq_nil_iff.2 fun a ha => by
      by_contra hne
      exact h'.2 a (List.mem_append_left _ ha) hne (h.1 a (List.mem_append_right _ ha) hne)
    rw [List.flatMap_append, hmid, List.nil_append]

/-- A split with as many bytes behind it has the same marks. -/
theorem SplitAt.of_length_eq {before behind before' behind' : List α}
    (h : SplitAt bytes marked before behind) (heq : before ++ behind = before' ++ behind')
    (hlen : (behind.flatMap bytes).length = (behind'.flatMap bytes).length) :
    SplitAt bytes marked before' behind' := by
  rcases List.append_eq_append_iff.1 heq with ⟨mid, rfl, rfl⟩ | ⟨mid, rfl, rfl⟩
  · have hmid : mid.flatMap bytes = [] := by
      rw [List.flatMap_append, List.length_append] at hlen
      exact List.length_eq_zero_iff.1 (by omega)
    refine ⟨fun a ha hne => ?_, fun a ha => h.2 a (List.mem_append_right _ ha)⟩
    rcases List.mem_append.1 ha with ha | ha
    · exact h.1 a ha hne
    · exact absurd (List.flatMap_eq_nil_iff.1 hmid a ha) hne
  · have hmid : mid.flatMap bytes = [] := by
      rw [List.flatMap_append, List.length_append] at hlen
      exact List.length_eq_zero_iff.1 (by omega)
    refine ⟨fun a ha => h.1 a (List.mem_append_left _ ha), fun a ha hne => ?_⟩
    rcases List.mem_append.1 ha with ha | ha
    · exact absurd (List.flatMap_eq_nil_iff.1 hmid a ha) hne
    · exact h.2 a ha hne

end Framing
