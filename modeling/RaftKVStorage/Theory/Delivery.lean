import Mathlib.Order.Lattice
import Mathlib.Data.Int.Basic
import Mathlib.Algebra.Order.Group.Int

set_option autoImplicit false

/-! # Delivery of a compacted log

A consumer takes the entries of a log one by one, with snapshots in between that stand for everything
up to an index. `Ordered` is what it may expect of the order. A `Mark` sums up what was consumed so
far, and decides for a queue of further items whether they are in order. -/

namespace Delivery

/-- The entry at `i`, or a snapshot that covers everything up to `s`. -/
inductive Item
  | command (i : ℤ)
  | snapshot (s : ℤ)
deriving DecidableEq

/-- Index `j` was consumed, or a snapshot that covers it. -/
def Covered (done : List Item) (j : ℤ) : Prop :=
  .command j ∈ done ∨ ∃ s, .snapshot s ∈ done ∧ j ≤ s

/-- The item comes in order behind `done`: an entry once everything below it is covered, a snapshot
    before any entry above it. -/
def Item.Allowed (done : List Item) : Item → Prop
  | .command i => ∀ j, 0 < j → j < i → Covered done j
  | .snapshot s => ∀ i, .command i ∈ done → i ≤ s

/-- Every item was consumed in order. -/
def Ordered (done : List Item) : Prop :=
  ∀ pre item post, done = pre ++ item :: post → item.Allowed pre

theorem Covered.mono {done done' : List Item} {j : ℤ} (h : Covered done j)
    (hsub : ∀ item ∈ done, item ∈ done') : Covered done' j := by
  rcases h with h | ⟨s, hs, hle⟩
  · exact .inl (hsub _ h)
  · exact .inr ⟨s, hsub _ hs, hle⟩

theorem Covered.append {done : List Item} {j : ℤ} (h : Covered done j) (more : List Item) :
    Covered (done ++ more) j :=
  h.mono fun _ hitem => List.mem_append_left _ hitem

theorem Ordered.nil : Ordered [] := by
  intro pre item post h
  simp at h

theorem Ordered.concat {done : List Item} {item : Item} (h : Ordered done)
    (hitem : item.Allowed done) : Ordered (done ++ [item]) := by
  intro pre x post heq
  rcases List.eq_nil_or_concat post with rfl | ⟨post, last, rfl⟩
  · obtain ⟨rfl, hx⟩ := List.append_inj' heq rfl
    obtain rfl : item = x := by simpa using hx
    exact hitem
  · refine h pre x post ?_
    have hassoc : done ++ [item] = (pre ++ x :: post) ++ [last] := by
      simpa [List.append_assoc] using heq
    exact (List.append_inj' hassoc rfl).1

/-! ## Marks -/

/-- No entry above `commands` was consumed, and everything up to `top` is covered. -/
structure Mark where
  commands : ℤ
  top : ℤ

namespace Mark

/-- The mark once the item is consumed too. -/
def after (m : Mark) : Item → Mark
  | .command i => ⟨max m.commands i, max m.top i⟩
  | .snapshot s => ⟨m.commands, max m.top s⟩

/-- The item may come next. -/
def Admits (m : Mark) : Item → Prop
  | .command i => i ≤ m.top + 1
  | .snapshot s => m.commands ≤ s

/-- The mark once all items are consumed. -/
def afterAll (m : Mark) (items : List Item) : Mark := items.foldl after m

/-- The items may come next, in this order. -/
def AdmitsAll : Mark → List Item → Prop
  | _, [] => True
  | m, item :: items => m.Admits item ∧ (m.after item).AdmitsAll items

/-- The mark tells the truth about what was consumed. -/
structure Of (m : Mark) (done : List Item) : Prop where
  ordered : Ordered done
  commands : ∀ i, .command i ∈ done → i ≤ m.commands
  top : ∀ j, 0 < j → j ≤ m.top → Covered done j

variable {m : Mark} {done items : List Item} {item : Item}

@[simp] theorem afterAll_nil : m.afterAll [] = m := rfl

theorem afterAll_append (more : List Item) :
    m.afterAll (items ++ more) = (m.afterAll items).afterAll more :=
  List.foldl_append

theorem admitsAll_append (more : List Item) :
    m.AdmitsAll (items ++ more) ↔ m.AdmitsAll items ∧ (m.afterAll items).AdmitsAll more := by
  induction items generalizing m with
  | nil => simp [AdmitsAll]
  | cons item items ih =>
    simp only [List.cons_append, AdmitsAll, ih, and_assoc]
    rfl

theorem top_le_after : m.top ≤ (m.after item).top := by
  cases item with
  | command i => exact le_max_left _ _
  | snapshot s => exact le_max_left _ _

theorem commands_le_after : m.commands ≤ (m.after item).commands := by
  cases item with
  | command i => exact le_max_left _ _
  | snapshot s => exact le_rfl

theorem commands_le_afterAll : m.commands ≤ (m.afterAll items).commands := by
  induction items generalizing m with
  | nil => exact le_rfl
  | cons item items ih => exact commands_le_after.trans ih

/-- One more item at the end of the queue. -/
theorem admitsAll_concat (h : m.AdmitsAll items) (hitem : (m.afterAll items).Admits item) :
    m.AdmitsAll (items ++ [item]) :=
  (admitsAll_append [item]).2 ⟨h, hitem, trivial⟩

/-- An item that is admitted can be consumed. -/
theorem Of.consume (h : m.Of done) (hadmits : m.Admits item) :
    (m.after item).Of (done ++ [item]) := by
  cases item with
  | command i =>
    refine ⟨h.ordered.concat fun j hj hlt => ?_, fun i' hi' => ?_, fun j hj hle => ?_⟩
    · have hle : i ≤ m.top + 1 := hadmits
      exact h.top j hj (by omega)
    · rcases List.mem_append.1 hi' with hi' | hi'
      · exact (h.commands i' hi').trans (le_max_left _ _)
      · obtain rfl : i' = i := by simpa using hi'
        exact le_max_right _ _
    · have hle' : i ≤ m.top + 1 := hadmits
      by_cases hj' : j ≤ m.top
      · exact (h.top j hj hj').append _
      · have heq : j = i := by
          have := le_max_iff.1 hle
          omega
        rw [heq]
        exact .inl (by simp)
  | snapshot s =>
    refine ⟨h.ordered.concat fun i hi => (h.commands i hi).trans hadmits, fun i hi => ?_,
      fun j hj hle => ?_⟩
    · rcases List.mem_append.1 hi with hi | hi
      · exact h.commands i hi
      · simp at hi
    · rcases le_max_iff.1 hle with hle | hle
      · exact (h.top j hj hle).append _
      · exact .inr ⟨s, by simp, hle⟩

/-- An entry that is covered may be dropped. -/
theorem Of.drop {i : ℤ} (h : m.Of done) (hcovered : ∀ j, 0 < j → j ≤ i → Covered done j) :
    (m.after (.command i)).Of done := by
  refine ⟨h.ordered, fun i' hi' => (h.commands i' hi').trans (le_max_left _ _), fun j hj hle => ?_⟩
  rcases le_max_iff.1 hle with hle | hle
  · exact h.top j hj hle
  · exact hcovered j hj hle

end Mark

end Delivery
