import RaftKVStorage.Proto
import Mathlib.Tactic.Order

set_option autoImplicit false

/-! # The skip list

Class `kvskiplist`, by its bottom level: the nodes that `forward[0]` links from the head, in order of
their keys. The levels above only shorten the walk to a key's precursors, so every function here
walks the bottom level. -/

namespace RaftKVStorage

/-- Bytes in the order in which `std::string` compares them. -/
instance byteOrder : LinearOrder UInt8 where
  le_refl := UInt8.le_refl
  le_trans := fun _ _ _ => UInt8.le_trans
  lt_iff_le_not_ge := fun a b => by
    rw [UInt8.not_le]
    exact ⟨fun h => ⟨UInt8.le_of_lt h, h⟩, And.right⟩
  le_antisymm := fun _ _ => UInt8.le_antisymm
  le_total := UInt8.le_total
  toDecidableLE := inferInstance
  toDecidableLT := inferInstance

/-- The nodes of the bottom level, keys ascending. -/
structure KvSkipList (κ υ : Type) [LinearOrder κ] where
  nodes : List (κ × υ) := []
  sorted : nodes.Pairwise (fun a b => a.1 < b.1) := by simp

variable {κ υ : Type} [LinearOrder κ]

/-! ## Walking the bottom level -/

/-- Walk to the first node that is not below `k`; it is the one sought or there is none. -/
def findNode (k : κ) : List (κ × υ) → Option υ
  | [] => none
  | (k', v) :: rest => if k' < k then findNode k rest else if k < k' then none else some v

/-- Walk to the first node that is not below `k`: link a node for `k` before it, unless it is the one
    for `k`. The value becomes `f` of the one found. -/
def alterNode (k : κ) (f : Option υ → υ) : List (κ × υ) → List (κ × υ)
  | [] => [(k, f none)]
  | (k', v) :: rest =>
      if k' < k then (k', v) :: alterNode k f rest
      else if k < k' then (k, f none) :: (k', v) :: rest
      else (k', f (some v)) :: rest

theorem mem_alterNode {k : κ} {f : Option υ → υ} {l : List (κ × υ)} {x : κ × υ}
    (h : x ∈ alterNode k f l) : x.1 = k ∨ ∃ y ∈ l, y.1 = x.1 := by
  induction l with
  | nil =>
    obtain rfl := List.mem_singleton.1 h
    exact .inl rfl
  | cons a rest ih =>
    obtain ⟨k', v⟩ := a
    simp only [alterNode] at h
    split_ifs at h with hlt hgt
    · rcases List.mem_cons.1 h with rfl | h
      · exact .inr ⟨_, List.mem_cons_self, rfl⟩
      · rcases ih h with hk | ⟨y, hy, hk⟩
        · exact .inl hk
        · exact .inr ⟨y, List.mem_cons_of_mem _ hy, hk⟩
    · rcases List.mem_cons.1 h with rfl | h
      · exact .inl rfl
      · exact .inr ⟨x, h, rfl⟩
    · rcases List.mem_cons.1 h with rfl | h
      · exact .inr ⟨(k', v), List.mem_cons_self, rfl⟩
      · exact .inr ⟨x, List.mem_cons_of_mem _ h, rfl⟩

theorem pairwise_alterNode (k : κ) (f : Option υ → υ) {l : List (κ × υ)}
    (h : l.Pairwise fun a b => a.1 < b.1) : (alterNode k f l).Pairwise fun a b => a.1 < b.1 := by
  induction l with
  | nil => simp [alterNode]
  | cons a rest ih =>
    obtain ⟨k', v⟩ := a
    obtain ⟨hhead, htail⟩ := List.pairwise_cons.1 h
    simp only [alterNode]
    split_ifs with hlt hgt
    · refine List.pairwise_cons.2 ⟨fun x hx => ?_, ih htail⟩
      rcases mem_alterNode hx with hk | ⟨y, hy, hk⟩
      · rw [hk]
        exact hlt
      · rw [← hk]
        exact hhead y hy
    · refine List.pairwise_cons.2 ⟨fun x hx => ?_, h⟩
      rcases List.mem_cons.1 hx with rfl | hx
      · exact hgt
      · exact hgt.trans (hhead x hx)
    · exact List.pairwise_cons.2 ⟨hhead, htail⟩

theorem findNode_alterNode (k k' : κ) (f : Option υ → υ) (l : List (κ × υ)) :
    findNode k' (alterNode k f l) =
      if k' = k then some (f (findNode k l)) else findNode k' l := by
  induction l with
  | nil =>
    simp only [alterNode, findNode]
    rcases lt_trichotomy k k' with h | rfl | h
    · rw [if_pos h, if_neg h.ne']
    · simp
    · rw [if_neg h.not_gt, if_pos h, if_neg h.ne]
  | cons a rest ih =>
    obtain ⟨a, v⟩ := a
    simp only [alterNode]
    rcases lt_trichotomy a k with hak | rfl | hka
    · simp only [if_pos hak, findNode, ih]
      split_ifs with h₁ h₂ <;> first | rfl | order
    · simp only [lt_irrefl, if_false, findNode]
      split_ifs with h₁ h₂ <;> first | rfl | order
    · simp only [if_neg hka.not_gt, if_pos hka, findNode]
      split_ifs with h₁ h₂ <;> first | rfl | order

theorem findNode_eq_none {k : κ} {l : List (κ × υ)} (h : ∀ x ∈ l, k < x.1) : findNode k l = none := by
  cases l with
  | nil => rfl
  | cons a rest =>
    have hlt := h a List.mem_cons_self
    simp only [findNode]
    rw [if_neg hlt.not_gt, if_pos hlt]

/-! ## The member functions -/

namespace KvSkipList

/-- `find`. -/
def find (t : KvSkipList κ υ) (k : κ) : Option υ := findNode k t.nodes

/-- Insert a node for `k`, or change the one there is. -/
def alter (t : KvSkipList κ υ) (k : κ) (f : Option υ → υ) : KvSkipList κ υ :=
  ⟨alterNode k f t.nodes, pairwise_alterNode k f t.sorted⟩

/-- `operator[]`, assigned to: the node is inserted with a default value first if need be. -/
def assign (t : KvSkipList κ υ) (k : κ) (v : υ) : KvSkipList κ υ := t.alter k fun _ => v

/-- `insert`: a node that is there keeps its value. -/
def insert (t : KvSkipList κ υ) (k : κ) (v : υ) : KvSkipList κ υ := t.alter k fun old => old.getD v

/-- What `dump` pushes into the `dumper`: the keys and the values. -/
def dumper (t : KvSkipList κ υ) : List κ × List υ := (t.nodes.map Prod.fst, t.nodes.map Prod.snd)

/-- The loop of `load`: every key of the `dumper` is inserted into the list as it is. -/
def insertAll (t : KvSkipList κ υ) (d : List κ × List υ) : KvSkipList κ υ :=
  (d.1.zip d.2).foldl (fun t node => t.insert node.1 node.2) t

@[simp] theorem find_alter (t : KvSkipList κ υ) (k k' : κ) (f : Option υ → υ) :
    (t.alter k f).find k' = if k' = k then some (f (t.find k)) else t.find k' :=
  findNode_alterNode k k' f t.nodes

@[simp] theorem find_assign (t : KvSkipList κ υ) (k k' : κ) (v : υ) :
    (t.assign k v).find k' = if k' = k then some v else t.find k' :=
  t.find_alter k k' _

@[simp] theorem find_insert (t : KvSkipList κ υ) (k k' : κ) (v : υ) :
    (t.insert k v).find k' = if k' = k then some ((t.find k).getD v) else t.find k' :=
  t.find_alter k k' _

/-- Assigning the value that is there changes nothing. -/
theorem find_assign_self {t : KvSkipList κ υ} {k : κ} {v : υ} (h : t.find k = some v) (k' : κ) :
    (t.assign k v).find k' = t.find k' := by
  rw [find_assign]
  split_ifs with hk
  · rw [hk, h]
  · rfl

/-- Inserting a chain of nodes one by one adds those whose keys are not there. -/
theorem find_foldl_insert {l : List (κ × υ)} (hl : l.Pairwise fun a b => a.1 < b.1)
    (t : KvSkipList κ υ) (k : κ) :
    (l.foldl (fun t node => t.insert node.1 node.2) t).find k = (t.find k).or (findNode k l) := by
  induction l generalizing t with
  | nil => simp [findNode]
  | cons a rest ih =>
    obtain ⟨k', v⟩ := a
    obtain ⟨hhead, htail⟩ := List.pairwise_cons.1 hl
    rw [List.foldl_cons, ih htail, find_insert]
    simp only [findNode]
    rcases lt_trichotomy k' k with hlt | rfl | hgt
    · rw [if_neg hlt.ne', if_pos hlt]
    · -- the key has a node by now, so the rest of the chain cannot give it another
      simp only [if_true, lt_irrefl, if_false]
      cases t.find k' <;> rfl
    · rw [if_neg hgt.ne, if_neg hgt.not_gt, if_pos hgt,
        findNode_eq_none fun x hx => hgt.trans (hhead x hx)]

/-- `load` never changes the value of a key that is there. -/
theorem find_insertAll {t : KvSkipList κ υ} {k : κ} {v : υ} (h : t.find k = some v)
    (d : List κ × List υ) : (t.insertAll d).find k = some v := by
  unfold insertAll
  generalize d.1.zip d.2 = l
  induction l generalizing t with
  | nil => exact h
  | cons node rest ih =>
    rw [List.foldl_cons]
    refine ih ?_
    rw [find_insert]
    split_ifs with hk
    · rw [← hk, h, Option.getD_some]
    · exact h

/-- What `load` makes of the nodes another list has dumped: its own values, and those of the other
    list for keys it lacks. -/
theorem find_insertAll_dumper (t s : KvSkipList κ υ) (k : κ) :
    (t.insertAll s.dumper).find k = (t.find k).or (s.find k) := by
  have hzip : s.dumper.1.zip s.dumper.2 = s.nodes := by
    rw [dumper, List.zip_map']
    exact List.map_id' _
  rw [insertAll, hzip, find_foldl_insert s.sorted]
  rfl

end KvSkipList

end RaftKVStorage
