import RaftKVStorage.Theory.Run
import Mathlib.Data.List.Perm.Basic

set_option autoImplicit false

/-! # Threads that wait for work

Threads take items from a queue and sleep on a condition variable while it is empty. A thread that is
awake and on its way to the queue is `ready`; whoever adds an item owes a notice, which wakes one of
the sleepers. While somebody sleeps, the items must not outnumber the notices still owed and the
threads on their way: otherwise an item may lie in the queue with nobody coming for it. Each
operation of such a monitor has a rule that keeps the balance. -/

namespace Monitor

/-- While somebody sleeps, every item in the queue has a notice or a ready thread to itself. -/
def Tended (items ready asleep notices : ℕ) : Prop := 0 < asleep → items ≤ notices + ready

variable {items ready asleep notices : ℕ}

/-- An item is added, and its notice is owed. -/
theorem Tended.push (h : Tended items ready asleep notices) :
    Tended (items + 1) ready asleep (notices + 1) := fun hs => by
  have := h hs
  omega

/-- A notice wakes a sleeper. -/
theorem Tended.notify (h : Tended items ready (asleep + 1) (notices + 1)) :
    Tended items (ready + 1) asleep notices := fun _ => by
  have := h (Nat.succ_pos _)
  omega

/-- A notice finds nobody asleep. -/
theorem Tended.of_awake : Tended items ready 0 notices := fun hs => absurd hs (Nat.lt_irrefl 0)

/-- A sleeper wakes by itself. -/
theorem Tended.wake (h : Tended items ready (asleep + 1) notices) :
    Tended items (ready + 1) asleep notices := fun _ => by
  have := h (Nat.succ_pos _)
  omega

/-- A ready thread takes an item. -/
theorem Tended.take (h : Tended (items + 1) (ready + 1) asleep notices) :
    Tended items ready asleep notices := fun hs => by
  have := h hs
  omega

/-- A ready thread finds the queue empty. -/
theorem Tended.sleep : Tended 0 ready asleep notices := fun _ => Nat.zero_le _

/-- A thread comes back to the queue. -/
theorem Tended.back (h : Tended items ready asleep notices) :
    Tended items (ready + 1) asleep notices := fun hs => by
  have := h hs
  omega

/-- What the balance is for: with items in the queue and everybody asleep, a notice is still owed. -/
theorem Tended.owed (h : Tended items 0 asleep notices) (hitems : 0 < items) (hs : 0 < asleep) :
    0 < notices := by
  have := h hs
  omega

/-- Changing the state of one thread, with all the others left aside. -/
theorem exists_perm_set {α : Type} {l : List α} {k : ℕ} {x : α} (h : l[k]? = some x) (y : α) :
    ∃ rest, l.Perm (x :: rest) ∧ (l.set k y).Perm (y :: rest) := by
  obtain ⟨hk, rfl⟩ := List.getElem?_eq_some_iff.1 h
  exact ⟨l.eraseIdx k, (List.getElem_cons_eraseIdx_perm hk).symm, List.set_perm_cons_eraseIdx hk y⟩

/-! ## Threads on watch -/

section Watch

variable {α : Type} {l : List α} {k : ℕ} {x y : α}

/-- While something is due, one of the threads is on watch for it. -/
def Watched (due : Prop) (watch : α → Bool) (l : List α) : Prop := due → ∃ w ∈ l, watch w = true

/-- One thread goes on: it is on watch then, or it was not before and another one is. -/
theorem Watched.set {due due' : Prop} {watch : α → Bool} (h : Watched due watch l)
    (hx : l[k]? = some x) (hy : due' → watch y = true ∨ due ∧ watch x = false) :
    Watched due' watch (l.set k y) := by
  intro hdue
  obtain ⟨rest, hperm, hperm'⟩ := exists_perm_set hx y
  rcases hy hdue with hwatch | ⟨hold, hx⟩
  · exact ⟨y, hperm'.mem_iff.2 (List.mem_cons_self ..), hwatch⟩
  · obtain ⟨w, hw, hwatch⟩ := h hold
    rcases List.mem_cons.1 (hperm.mem_iff.1 hw) with rfl | hw
    · rw [hx] at hwatch
      cases hwatch
    · exact ⟨w, hperm'.mem_iff.2 (List.mem_cons_of_mem _ hw), hwatch⟩

/-- What is due nobody has left behind. -/
theorem Watched.not_due {due : Prop} {watch : α → Bool} (h : Watched due watch l)
    (hnone : ∀ w ∈ l, watch w = false) : ¬due := by
  intro hdue
  obtain ⟨w, hw, hwatch⟩ := h hdue
  rw [hnone w hw] at hwatch
  cases hwatch

theorem countP_set (p : α → Bool) (hx : l[k]? = some x) (y : α) :
    (l.set k y).countP p + (p x).toNat = l.countP p + (p y).toNat := by
  obtain ⟨rest, hperm, hperm'⟩ := exists_perm_set hx y
  have hbool : ∀ b : Bool, (if b = true then 1 else 0) = b.toNat := by decide
  rw [hperm.countP_eq, hperm'.countP_eq, List.countP_cons, List.countP_cons, hbool, hbool]
  omega

/-- What all threads together have before them. -/
def total (weight : α → ℕ) : List α → ℕ
  | [] => 0
  | w :: l => weight w + total weight l

theorem total_perm {l l' : List α} (weight : α → ℕ) (h : l.Perm l') :
    total weight l = total weight l' := by
  induction h with
  | nil => rfl
  | cons w _ ih => rw [total, total, ih]
  | swap w w' l =>
      simp only [total]
      omega
  | trans _ _ ih ih' => exact ih.trans ih'

theorem total_set (weight : α → ℕ) (hx : l[k]? = some x) (y : α) :
    total weight (l.set k y) + weight x = total weight l + weight y := by
  obtain ⟨rest, hperm, hperm'⟩ := exists_perm_set hx y
  rw [total_perm weight hperm, total_perm weight hperm', total, total]
  omega

theorem total_le (weight : α → ℕ) {c : ℕ} (h : ∀ w, weight w ≤ c) (l : List α) :
    total weight l ≤ c * l.length := by
  induction l with
  | nil => exact Nat.zero_le _
  | cons w l ih =>
      have hw := h w
      rw [total, List.length_cons, Nat.mul_succ]
      omega

end Watch

end Monitor
