import Mathlib.Order.Lattice
import Mathlib.Data.List.Basic

set_option autoImplicit false

/-! # Sets ordered by a comparator

A set kept in the order of a comparator `less`, as the list of its elements, with the operations of
an ordered container: an element goes where the comparator puts it unless an equivalent one is
there, and is looked up by the comparator alone. The comparator need not look at the element itself:
it may read a key out of a store that changes, and the container stays right as long as the keys of
its elements do not change. -/

namespace OrderedSet

variable {α : Type}

/-- The set with `a`, unless it has an equivalent element. -/
def insert (less : α → α → Bool) (a : α) : List α → List α
  | [] => [a]
  | b :: l => if less b a then b :: insert less a l else if less a b then a :: b :: l else b :: l

/-- The first element that is not before `a`. -/
def lowerBound (less : α → α → Bool) (a : α) (l : List α) : Option α := l.find? fun b => !less b a

/-- The element equivalent to `a`. -/
def find (less : α → α → Bool) (a : α) (l : List α) : Option α :=
  match lowerBound less a l with
  | none => none
  | some b => if less a b then none else some b

/-- The element behind `a`. -/
def successor [DecidableEq α] (a : α) : List α → Option α
  | [] => none
  | b :: l => if b = a then l.head? else successor a l

/-! ## The order -/

section Order

variable {κ : Type} [LinearOrder κ] {less : α → α → Bool} {key key' : α → κ} {a b : α}
  {l l₁ l₂ done todo rest : List α}

/-- The comparator is the order of the keys. -/
def Orders (less : α → α → Bool) (key : α → κ) : Prop := ∀ a b, less a b = true ↔ key a < key b

def Ascending (key : α → κ) (l : List α) : Prop := l.Pairwise fun a b => key a < key b

/-- Only the keys of the elements matter. -/
theorem Ascending.congr (h : Ascending key l) (hkey : ∀ a ∈ l, key' a = key a) :
    Ascending key' l := by
  refine List.Pairwise.imp_of_mem ?_ h
  intro a b ha hb hlt
  rw [hkey a ha, hkey b hb]
  exact hlt

theorem Ascending.nodup (h : Ascending key l) : l.Nodup := by
  refine List.Pairwise.imp ?_ h
  intro a b hlt heq
  rw [heq] at hlt
  exact lt_irrefl _ hlt

theorem Ascending.erase [DecidableEq α] (h : Ascending key l) (a : α) : Ascending key (l.erase a) :=
  List.Pairwise.sublist List.erase_sublist h

/-- What passes to greater elements holds behind the first element that stops a scan. -/
theorem Ascending.forall_dropWhile (h : Ascending key l) {p : α → Bool} {Q : α → Prop}
    (hup : ∀ a b, key a < key b → Q a → Q b) (hstop : ∀ a ∈ l, p a = false → Q a) :
    ∀ a ∈ l.dropWhile p, Q a := by
  induction l with
  | nil => simp
  | cons b l ih =>
      obtain ⟨hb, hl⟩ := List.pairwise_cons.1 h
      intro a ha
      rw [List.dropWhile_cons] at ha
      by_cases hpb : p b = true
      · rw [if_pos hpb] at ha
        exact ih hl (fun c hc => hstop c (List.mem_cons_of_mem _ hc)) a ha
      · rw [if_neg hpb] at ha
        have hQb := hstop b List.mem_cons_self (by simpa using hpb)
        rcases List.mem_cons.1 ha with rfl | ha
        · exact hQb
        · exact hup b a (hb a ha) hQb

/-! ## Insertion -/

theorem insert_append_of_lt (hless : Orders less key) (h : ∀ b ∈ l₁, key b < key a) :
    insert less a (l₁ ++ l₂) = l₁ ++ insert less a l₂ := by
  induction l₁ with
  | nil => rfl
  | cons b l₁ ih =>
      have hb : less b a = true := (hless b a).2 (h b List.mem_cons_self)
      rw [List.cons_append, insert, if_pos hb, ih fun c hc => h c (List.mem_cons_of_mem _ hc)]
      rfl

theorem insert_append_of_gt (hless : Orders less key) (h : ∀ b ∈ l₂, key a < key b) :
    insert less a (l₁ ++ l₂) = insert less a l₁ ++ l₂ := by
  induction l₁ with
  | nil =>
      cases l₂ with
      | nil => rfl
      | cons b l₂ =>
          have hlt := h b List.mem_cons_self
          have hb : ¬ less b a = true := fun hb => lt_asymm hlt ((hless b a).1 hb)
          show (if less b a then b :: insert less a l₂
            else if less a b then a :: b :: l₂ else b :: l₂) = a :: b :: l₂
          rw [if_neg hb, if_pos ((hless a b).2 hlt)]
  | cons b l₁ ih =>
      rw [List.cons_append, insert, insert]
      by_cases hb : less b a = true
      · rw [if_pos hb, if_pos hb, ih]
        rfl
      · rw [if_neg hb, if_neg hb]
        split <;> rfl

theorem insert_perm (hless : Orders less key) (hne : ∀ b ∈ l, key b ≠ key a) :
    (insert less a l).Perm (a :: l) := by
  induction l with
  | nil => exact List.Perm.refl _
  | cons c l ih =>
      rw [insert]
      by_cases hc : less c a = true
      · rw [if_pos hc]
        have ih := ih fun x hx => hne x (List.mem_cons_of_mem _ hx)
        exact (ih.cons c).trans (List.Perm.swap a c l)
      · have hlt : key a < key c := by
          refine lt_of_le_of_ne (not_lt.1 fun hlt => hc ((hless c a).2 hlt)) ?_
          exact (hne c List.mem_cons_self).symm
        rw [if_neg hc, if_pos ((hless a c).2 hlt)]

theorem mem_insert (hless : Orders less key) (hne : ∀ b ∈ l, key b ≠ key a) :
    b ∈ insert less a l ↔ b = a ∨ b ∈ l := by
  rw [(insert_perm hless hne).mem_iff, List.mem_cons]

theorem Ascending.insert (hless : Orders less key) (h : Ascending key l)
    (hne : ∀ b ∈ l, key b ≠ key a) : Ascending key (insert less a l) := by
  induction l with
  | nil => exact List.pairwise_singleton _ _
  | cons b l ih =>
      obtain ⟨hb, hl⟩ := List.pairwise_cons.1 h
      have hne' : ∀ c ∈ l, key c ≠ key a := fun c hc => hne c (List.mem_cons_of_mem _ hc)
      rw [OrderedSet.insert]
      by_cases hba : less b a = true
      · rw [if_pos hba]
        refine List.pairwise_cons.2 ⟨fun c hc => ?_, ih hl hne'⟩
        rcases (mem_insert hless hne').1 hc with rfl | hc
        · exact (hless b c).1 hba
        · exact hb c hc
      · have hlt : key a < key b := by
          refine lt_of_le_of_ne (not_lt.1 fun hlt => hba ((hless b a).2 hlt)) ?_
          exact (hne b List.mem_cons_self).symm
        rw [if_neg hba, if_pos ((hless a b).2 hlt)]
        refine List.pairwise_cons.2 ⟨fun c hc => ?_, h⟩
        rcases List.mem_cons.1 hc with rfl | hc
        · exact hlt
        · exact hlt.trans (hb c hc)

/-- An element put into a set that is cut in three goes before the cuts, between them or behind
    them, and between or behind them only if an element of that part is before it. -/
theorem insert_three (hless : Orders less key) (h : Ascending key (done ++ (todo ++ rest)))
    (hne : ∀ b ∈ done ++ (todo ++ rest), key b ≠ key a) :
    (OrderedSet.insert less a (done ++ (todo ++ rest))
        = OrderedSet.insert less a done ++ (todo ++ rest) ∧
      ∀ b ∈ todo ++ rest, key a < key b) ∨
    (OrderedSet.insert less a (done ++ (todo ++ rest))
        = done ++ (OrderedSet.insert less a todo ++ rest) ∧
      (∃ b ∈ todo, key b < key a) ∧ ∀ b ∈ rest, key a < key b) ∨
    (OrderedSet.insert less a (done ++ (todo ++ rest))
        = done ++ (todo ++ OrderedSet.insert less a rest) ∧ ∃ b ∈ rest, key b < key a) := by
  obtain ⟨-, hright, hdone⟩ := List.pairwise_append.1 h
  obtain ⟨-, -, htodo⟩ := List.pairwise_append.1 hright
  by_cases hall : ∀ b ∈ todo ++ rest, key a < key b
  · exact Or.inl ⟨insert_append_of_gt hless hall, hall⟩
  push Not at hall
  obtain ⟨b, hb, hle⟩ := hall
  have hlt : key b < key a := lt_of_le_of_ne hle (hne b (List.mem_append_right _ hb))
  have hbelow : ∀ c ∈ done, key c < key a := fun c hc => (hdone c hc b hb).trans hlt
  by_cases hrest : ∀ c ∈ rest, key a < key c
  · refine Or.inr (Or.inl ⟨?_, ⟨b, ?_, hlt⟩, hrest⟩)
    · rw [insert_append_of_lt hless hbelow, insert_append_of_gt hless hrest]
    · rcases List.mem_append.1 hb with hb | hb
      · exact hb
      · exact absurd (hrest b hb) (lt_asymm hlt)
  · push Not at hrest
    obtain ⟨c, hc, hle'⟩ := hrest
    have hlt' : key c < key a :=
      lt_of_le_of_ne hle' (hne c (List.mem_append_right _ (List.mem_append_right _ hc)))
    refine Or.inr (Or.inr ⟨?_, c, hc, hlt'⟩)
    rw [insert_append_of_lt hless hbelow,
      insert_append_of_lt hless fun d hd => (htodo d hd c hc).trans hlt']

/-- The first element stays the first when a later one is put in. -/
theorem head?_insert (hless : Orders less key) (h : Ascending key l)
    (hbefore : ∃ b ∈ l, key b < key a) : (OrderedSet.insert less a l).head? = l.head? := by
  obtain ⟨b, hb, hlt⟩ := hbefore
  cases l with
  | nil => cases hb
  | cons c l =>
      have hc : key c < key a := by
        rcases List.mem_cons.1 hb with rfl | hb
        · exact hlt
        · exact ((List.pairwise_cons.1 h).1 b hb).trans hlt
      rw [OrderedSet.insert, if_pos ((hless c a).2 hc)]
      rfl

/-! ## Lookup -/

theorem find_of_mem (hless : Orders less key) (h : Ascending key l) (ha : a ∈ l) :
    find less a l = some a := by
  have hlower : lowerBound less a l = some a := by
    induction l with
    | nil => cases ha
    | cons b l ih =>
        obtain ⟨hb, hl⟩ := List.pairwise_cons.1 h
        rw [lowerBound, List.find?_cons]
        rcases List.mem_cons.1 ha with rfl | ha
        · have hself : less a a = false :=
            Bool.eq_false_iff.2 fun hself => lt_irrefl _ ((hless a a).1 hself)
          rw [hself]
          rfl
        · rw [(hless b a).2 (hb a ha)]
          exact ih hl ha
  have hself : ¬ less a a = true := fun hself => lt_irrefl _ ((hless a a).1 hself)
  rw [find, hlower]
  exact if_neg hself

/-- What is found has the key looked for. -/
theorem key_of_find (hless : Orders less key) (h : find less a l = some b) :
    b ∈ l ∧ key b = key a := by
  unfold find at h
  split at h
  · cases h
  · rename_i c hc
    by_cases hac : less a c = true
    · rw [if_pos hac] at h
      cases h
    · rw [if_neg hac] at h
      obtain rfl := Option.some.inj h
      have hca : ¬ less c a = true := by
        simpa using List.find?_some hc
      refine ⟨List.mem_of_find?_eq_some hc, ?_⟩
      exact le_antisymm (not_lt.1 fun hlt => hac ((hless a c).2 hlt))
        (not_lt.1 fun hlt => hca ((hless c a).2 hlt))

end Order

/-! ## Iterators -/

section Iterators

variable [DecidableEq α] {a : α} {before behind : List α}

theorem successor_append (h : a ∉ before) :
    successor a (before ++ a :: behind) = behind.head? := by
  induction before with
  | nil => simp [successor]
  | cons b before ih =>
      obtain ⟨hne, hmem⟩ := not_or.1 fun hor => h (List.mem_cons.2 hor)
      rw [List.cons_append, successor, if_neg (Ne.symm hne)]
      exact ih hmem

theorem erase_append (h : a ∉ before) : (before ++ a :: behind).erase a = before ++ behind := by
  rw [List.erase_append_right _ h, List.erase_cons_head]

end Iterators

end OrderedSet
