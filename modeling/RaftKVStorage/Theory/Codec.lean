import Mathlib.Data.List.Basic

set_option autoImplicit false

/-! # Codecs

A writer and a reader that undoes it in front of any continuation, so that codecs can be written one
after the other. -/

/-- `write` puts out a value as symbols; `read` takes one off the front and returns what follows. -/
structure Codec (σ α : Type) where
  write : α → List σ
  read : List σ → Option (α × List σ)
  read_write : ∀ a rest, read (write a ++ rest) = some (a, rest)

namespace Codec

variable {σ α β : Type}

/-- A single symbol. -/
def symbol : Codec σ σ where
  write := fun a => [a]
  read
    | [] => none
    | a :: rest => some (a, rest)
  read_write := fun _ _ => rfl

/-- Values that are words without `sep`, which is written behind each. -/
def delimited [DecidableEq σ] (sep : σ) (word : α → List σ) (parse : List σ → Option α)
    (hsep : ∀ a, sep ∉ word a) (hparse : ∀ a, parse (word a) = some a) : Codec σ α where
  write := fun a => word a ++ [sep]
  read := fun l => (parse (l.takeWhile (· ≠ sep))).map fun a => (a, (l.dropWhile (· ≠ sep)).tail)
  read_write := fun a rest => by
    have hall : ∀ x ∈ word a, decide (x ≠ sep) = true := by
      intro x hx
      simpa using fun h : x = sep => hsep a (h ▸ hx)
    rw [List.append_assoc, List.takeWhile_append_of_pos hall, List.dropWhile_append_of_pos hall]
    simp [hparse]

/-- One value after the other. -/
def pair (c : Codec σ α) (d : Codec σ β) : Codec σ (α × β) where
  write := fun p => c.write p.1 ++ d.write p.2
  read := fun l => (c.read l).bind fun p => (d.read p.2).map fun q => ((p.1, q.1), q.2)
  read_write := fun p rest => by
    simp [List.append_assoc, c.read_write, d.read_write]

/-- Values that another codec writes in the form `form`. -/
def map (c : Codec σ α) (form : β → α) (back : α → Option β) (h : ∀ b, back (form b) = some b) :
    Codec σ β where
  write := fun b => c.write (form b)
  read := fun l => (c.read l).bind fun p => (back p.1).map fun b => (b, p.2)
  read_write := fun b rest => by simp [c.read_write, h]

/-- Read `k` values. -/
def readMany (c : Codec σ α) : ℕ → List σ → Option (List α × List σ)
  | 0, l => some ([], l)
  | k + 1, l => (c.read l).bind fun p => (c.readMany k p.2).map fun q => (p.1 :: q.1, q.2)

theorem readMany_write (c : Codec σ α) (as : List α) (rest : List σ) :
    c.readMany as.length (as.flatMap c.write ++ rest) = some (as, rest) := by
  induction as with
  | nil => rfl
  | cons a as ih =>
    simp [readMany, List.flatMap_cons, List.append_assoc, c.read_write, ih]

/-- A list, its length first. -/
def list (count : Codec σ ℕ) (c : Codec σ α) : Codec σ (List α) where
  write := fun as => count.write as.length ++ as.flatMap c.write
  read := fun l => (count.read l).bind fun p => c.readMany p.1 p.2
  read_write := fun as rest => by
    simp [List.append_assoc, count.read_write, c.readMany_write]

end Codec
