import Mathlib.Data.List.Basic
import Mathlib.Logic.Function.Basic

set_option autoImplicit false

/-! # Towers

A linked list with express lanes: each node has an array of links, one for each level below its
height, and the link of a level leads to the next node that is high enough. All of these links follow
from the order of the nodes and their heights, which is how `Linked` says it; a search that descends
level by level then ends where a walk along the bottom level does. -/

namespace Towers

variable {δ : Type}

structure Node (δ : Type) where
  data : δ
  forward : List (Option ℕ)

/-- What is stored at an address, if anything is. -/
abbrev Heap (δ : Type) := ℕ → Option (Node δ)

/-- The link of a level, if the node is there and high enough. -/
def Heap.next (h : Heap δ) (a l : ℕ) : Option (Option ℕ) := (h a).bind (·.forward[l]?)

def Heap.setNext (h : Heap δ) (a l : ℕ) (q : Option ℕ) : Option (Heap δ) :=
  match h a with
  | none => none
  | some node =>
      if l < node.forward.length then
        some (Function.update h a (some { node with forward := node.forward.set l q }))
      else none

/-- Follow the links of a level while they lead to a node that is `below`. -/
def Heap.walk (h : Heap δ) (below : δ → Bool) (l : ℕ) : ℕ → ℕ → Option ℕ
  | 0, _ => none
  | fuel + 1, cur =>
      match h.next cur l with
      | none => none
      | some none => some cur
      | some (some b) =>
          match h b with
          | none => none
          | some node => if below node.data then h.walk below l fuel b else some cur

/-- Walk along a level and then, from where that ends, along those under it. The ends of all the
    walks, from the bottom level up. -/
def Heap.descend (h : Heap δ) (below : δ → Bool) (fuel : ℕ) : ℕ → ℕ → Option (List ℕ)
  | 0, cur => (h.walk below 0 fuel cur).map fun a => [a]
  | l + 1, cur =>
      (h.walk below (l + 1) fuel cur).bind fun a => (h.descend below fuel l a).map (· ++ [a])

/-! ## Linked cells -/

/-- A node by its address, what it stores and its height. -/
structure Cell (δ : Type) where
  addr : ℕ
  data : δ
  height : ℕ

/-- The first cell above level `l`; `nx` is what follows the cells. -/
def nextAt (nx : ℕ → Option ℕ) (l : ℕ) : List (Cell δ) → Option ℕ
  | [] => nx l
  | c :: cells => if l < c.height then some c.addr else nextAt nx l cells

/-- The heap stores the cells, each with its links to those behind it. -/
def Linked (h : Heap δ) (nx : ℕ → Option ℕ) : List (Cell δ) → Prop
  | [] => True
  | c :: cells =>
      h c.addr = some ⟨c.data, (List.range c.height).map fun l => nextAt nx l cells⟩ ∧
        Linked h nx cells

/-- The last cell above level `l`. -/
def LastAbove (l : ℕ) (cells : List (Cell δ)) (p : Cell δ) : Prop :=
  ∃ front behind, cells = front ++ p :: behind ∧ l < p.height ∧ ∀ c ∈ behind, c.height ≤ l

variable {h h' : Heap δ} {nx nx' : ℕ → Option ℕ} {l : ℕ} {cells front behind : List (Cell δ)}
  {c p : Cell δ} {below : δ → Bool}

theorem nextAt_congr (heq : nx l = nx' l) (cells : List (Cell δ)) :
    nextAt nx l cells = nextAt nx' l cells := by
  induction cells with
  | nil => exact heq
  | cons c cells ih =>
    simp only [nextAt]
    rw [ih]

theorem nextAt_append (front behind : List (Cell δ)) :
    nextAt nx l (front ++ behind) = nextAt (fun l => nextAt nx l behind) l front := by
  induction front with
  | nil => rfl
  | cons c front ih =>
    simp only [List.cons_append, nextAt]
    rw [ih]

theorem nextAt_of_le (hle : ∀ c ∈ cells, c.height ≤ l) : nextAt nx l cells = nx l := by
  induction cells with
  | nil => rfl
  | cons c cells ih =>
    rw [nextAt, if_neg (Nat.not_lt.2 (hle c (List.mem_cons_self ..)))]
    exact ih fun c hc => hle c (List.mem_cons_of_mem _ hc)

/-- What follows a level is a cell, or what follows the cells. -/
theorem nextAt_mem (nx : ℕ → Option ℕ) (l : ℕ) (cells : List (Cell δ)) :
    nextAt nx l cells = nx l ∨ ∃ c ∈ cells, nextAt nx l cells = some c.addr := by
  induction cells with
  | nil => exact .inl rfl
  | cons c cells ih =>
    by_cases hlt : l < c.height
    · right
      exact ⟨c, List.mem_cons_self .., by rw [nextAt, if_pos hlt]⟩
    · rw [nextAt, if_neg hlt]
      rcases ih with hnx | ⟨c', hc', hnext⟩
      · exact .inl hnx
      · exact .inr ⟨c', List.mem_cons_of_mem _ hc', hnext⟩

/-- A cell above the level is not passed. -/
theorem nextAt_ne_none (hlt : ∃ c ∈ cells, l < c.height) : nextAt nx l cells ≠ none := by
  induction cells with
  | nil =>
    obtain ⟨c, hc, -⟩ := hlt
    exact absurd hc List.not_mem_nil
  | cons c cells ih =>
    rw [nextAt]
    split_ifs with hc
    · simp
    · obtain ⟨c', hc', hlt⟩ := hlt
      rcases List.mem_cons.1 hc' with rfl | hc'
      · exact absurd hlt hc
      · exact ih ⟨c', hc', hlt⟩

theorem Linked.append :
    Linked h nx (front ++ behind) ↔
      Linked h (fun l => nextAt nx l behind) front ∧ Linked h nx behind := by
  induction front with
  | nil => simp [Linked]
  | cons c front ih =>
    simp only [List.cons_append, Linked, ih, nextAt_append]
    exact and_assoc.symm

/-- Only the stored nodes count, and of what follows only the levels the cells reach. -/
theorem Linked.congr (hl : Linked h nx cells) (hheap : ∀ c ∈ cells, h' c.addr = h c.addr)
    (hnx : ∀ c ∈ cells, ∀ l < c.height, nx l = nx' l) : Linked h' nx' cells := by
  induction cells with
  | nil => trivial
  | cons c cells ih =>
    refine ⟨?_, ih hl.2 (fun c hc => hheap c (List.mem_cons_of_mem _ hc)) fun c hc =>
      hnx c (List.mem_cons_of_mem _ hc)⟩
    rw [hheap c (List.mem_cons_self ..), hl.1]
    have hforward : ((List.range c.height).map fun l => nextAt nx l cells) =
        (List.range c.height).map fun l => nextAt nx' l cells :=
      List.map_congr_left fun l hlt =>
        nextAt_congr (hnx c (List.mem_cons_self ..) l (List.mem_range.1 hlt)) cells
    rw [hforward]

theorem Linked.get (hl : Linked h nx cells) (hc : c ∈ cells) :
    ∃ forward, h c.addr = some ⟨c.data, forward⟩ := by
  obtain ⟨front, behind, rfl⟩ := List.append_of_mem hc
  exact ⟨_, (Linked.append.1 hl).2.1⟩

theorem Linked.next (hl : Linked h nx (c :: cells)) (hlt : l < c.height) :
    h.next c.addr l = some (nextAt nx l cells) := by
  rw [Heap.next, hl.1, Option.bind_some]
  simp [hlt]

/-- A cell has no link on a level it does not reach. -/
theorem Linked.next_none (hl : Linked h nx (c :: cells)) (hle : c.height ≤ l) :
    h.next c.addr l = none := by
  rw [Heap.next, hl.1, Option.bind_some]
  simp [hle]

/-- The last cell above a level links to what follows the cells. -/
theorem Linked.next_of_lastAbove (hl : Linked h nx cells) (hp : LastAbove l cells p) :
    h.next p.addr l = some (nx l) := by
  obtain ⟨front, behind, rfl, hlt, hle⟩ := hp
  rw [(Linked.append.1 hl).2.next hlt, nextAt_of_le hle]

/-- Setting that link changes what follows the cells, on this level only. -/
theorem Linked.setNext (hl : Linked h nx cells) (hnodup : (cells.map Cell.addr).Nodup)
    (hp : LastAbove l cells p) (q : Option ℕ) :
    ∃ h', h.setNext p.addr l q = some h' ∧ Linked h' (Function.update nx l q) cells ∧
      ∀ a, a ≠ p.addr → h' a = h a := by
  obtain ⟨front, behind, rfl, hlt, hle⟩ := hp
  obtain ⟨hfront, hnode, hbehind⟩ := Linked.append.1 hl
  have hother : ∀ c ∈ front ++ behind, c.addr ≠ p.addr := by
    rw [List.map_append, List.map_cons] at hnodup
    obtain ⟨-, hcons, hdisj⟩ := List.nodup_append.1 hnodup
    intro c hc heq
    rcases List.mem_append.1 hc with hc | hc
    · exact hdisj c.addr (List.mem_map_of_mem hc) p.addr (List.mem_cons_self ..) heq
    · exact (List.nodup_cons.1 hcons).1 (heq ▸ List.mem_map_of_mem hc)
  have hne : ∀ m, m ≠ l → Function.update nx l q m = nx m := fun m hm => Function.update_of_ne hm ..
  have hset : h.setNext p.addr l q = some (Function.update h p.addr (some ⟨p.data,
      ((List.range p.height).map fun l => nextAt nx l behind).set l q⟩)) := by
    simp only [Heap.setNext, hnode]
    exact if_pos (by simpa using hlt)
  refine ⟨_, hset, Linked.append.2 ⟨?_, ?_, ?_⟩, fun a ha => Function.update_of_ne ha ..⟩
  · -- a cell in front sees the cell itself on the level, and nothing else of the change
    refine hfront.congr (fun c hc => ?_) fun c hc m hm => ?_
    · exact Function.update_of_ne (hother c (List.mem_append_left _ hc)) ..
    · simp only [nextAt]
      split_ifs with hmp
      · rfl
      · exact nextAt_congr (hne m (by omega)).symm behind
  · rw [Function.update_self]
    have hforward : ((List.range p.height).map fun l => nextAt nx l behind).set l q =
        (List.range p.height).map fun m => nextAt (Function.update nx l q) m behind := by
      refine List.ext_getElem (by simp) fun m hm hm' => ?_
      rw [List.getElem_set]
      split_ifs with hml
      · subst hml
        rw [List.getElem_map, List.getElem_range, nextAt_of_le hle, Function.update_self]
      · rw [List.getElem_map, List.getElem_map, List.getElem_range]
        exact nextAt_congr (hne m (Ne.symm hml)).symm behind
    exact congrArg some (congrArg (Node.mk p.data) hforward)
  · refine hbehind.congr (fun c hc => ?_) fun c hc m hm => ?_
    · exact Function.update_of_ne (hother c (List.mem_append_right _ hc)) ..
    · have := hle c hc
      exact (hne m (by omega)).symm

/-- Storing something else in a node leaves the links as they are. -/
theorem Linked.store (hl : Linked h nx (front ++ c :: behind))
    (hnodup : ((front ++ c :: behind).map Cell.addr).Nodup) (data : δ) :
    ∃ forward, h c.addr = some ⟨c.data, forward⟩ ∧
      Linked (Function.update h c.addr (some ⟨data, forward⟩)) nx
        (front ++ { c with data := data } :: behind) := by
  obtain ⟨hfront, hnode, hbehind⟩ := Linked.append.1 hl
  rw [List.map_append, List.map_cons] at hnodup
  obtain ⟨-, hcons, hdisj⟩ := List.nodup_append.1 hnodup
  refine ⟨_, hnode, Linked.append.2 ⟨?_, Function.update_self .., ?_⟩⟩
  · refine hfront.congr (fun c' hc' => Function.update_of_ne (fun heq => ?_) ..) fun _ _ _ _ => rfl
    exact hdisj c'.addr (List.mem_map_of_mem hc') c.addr (List.mem_cons_self ..) heq
  · refine hbehind.congr (fun c' hc' => Function.update_of_ne (fun heq => ?_) ..) fun _ _ _ _ => rfl
    exact (List.nodup_cons.1 hcons).1 (heq ▸ List.mem_map_of_mem hc')

/-! ## Searching -/

/-- The walk does not go on to what follows the cells. -/
def Heap.Stops (h : Heap δ) (below : δ → Bool) (q : Option ℕ) : Prop :=
  ∀ b, q = some b → ∃ node, h b = some node ∧ below node.data = false

theorem LastAbove.mem (hp : LastAbove l cells p) : p ∈ cells := by
  obtain ⟨front, behind, rfl, -, -⟩ := hp
  exact List.mem_append_right _ (List.mem_cons_self ..)

theorem LastAbove.cons (hp : LastAbove l cells p) (c : Cell δ) : LastAbove l (c :: cells) p := by
  obtain ⟨front, behind, rfl, hlt, hle⟩ := hp
  exact ⟨c :: front, behind, rfl, hlt, hle⟩

theorem LastAbove.append (hp : LastAbove l cells p) (front : List (Cell δ)) :
    LastAbove l (front ++ cells) p := by
  obtain ⟨front', behind, rfl, hlt, hle⟩ := hp
  exact ⟨front ++ front', behind, by rw [List.append_assoc], hlt, hle⟩

/-- A cell that does not reach the level does not matter to it. -/
theorem LastAbove.insert_low (hp : LastAbove l (c :: cells) p) {c' : Cell δ} (hle : c'.height ≤ l) :
    LastAbove l (c :: c' :: cells) p := by
  obtain ⟨front, behind, heq, hlt, hbehind⟩ := hp
  cases front with
  | nil =>
    obtain ⟨rfl, rfl⟩ := List.cons.inj heq
    refine ⟨[], c' :: cells, rfl, hlt, fun c'' hc'' => ?_⟩
    rcases List.mem_cons.1 hc'' with rfl | hc''
    · exact hle
    · exact hbehind c'' hc''
  | cons a front =>
    obtain ⟨rfl, rfl⟩ := List.cons.inj heq
    exact ⟨c :: c' :: front, behind, rfl, hlt, hbehind⟩

/-- A walk along cells that are all `below` ends at the last one above the level. -/
theorem Linked.walk (hl : Linked h nx cells) (hbelow : ∀ c ∈ cells, below c.data = true)
    (hstops : h.Stops below (nx l)) {fuel : ℕ} (hfuel : cells.length < fuel) (hlt : l < c.height)
    (hnext : h.next c.addr l = some (nextAt nx l cells)) :
    ∃ p, h.walk below l fuel c.addr = some p.addr ∧ LastAbove l (c :: cells) p := by
  induction cells generalizing c fuel with
  | nil =>
    obtain ⟨fuel, rfl⟩ := Nat.exists_eq_add_of_lt hfuel
    refine ⟨c, ?_, [], [], rfl, hlt, fun c hc => absurd hc List.not_mem_nil⟩
    have hnx : h.next c.addr l = some (nx l) := hnext
    simp only [List.length_nil, Nat.zero_add, Heap.walk, hnx]
    cases hq : nx l with
    | none => rfl
    | some b =>
      obtain ⟨node, hnode, hnot⟩ := hstops b hq
      simp [hnode, hnot]
  | cons c' cells ih =>
    have hrest : ∀ c ∈ cells, below c.data = true := fun c hc => hbelow c (List.mem_cons_of_mem _ hc)
    by_cases hlt' : l < c'.height
    · -- the link leads to this cell, and the walk goes on from it
      obtain ⟨fuel, rfl⟩ := Nat.exists_eq_add_of_lt hfuel
      rw [nextAt, if_pos hlt'] at hnext
      have hfuel' : cells.length < cells.length + 1 + fuel := by omega
      obtain ⟨p, hwalk, hp⟩ := ih hl.2 hrest hfuel' hlt' (hl.next hlt')
      refine ⟨p, ?_, hp.cons c⟩
      simp only [List.length_cons, Heap.walk, hnext, hl.1, hbelow c' (List.mem_cons_self ..), if_true]
      exact hwalk
    · rw [nextAt, if_neg hlt'] at hnext
      obtain ⟨p, hwalk, hp⟩ := ih hl.2 hrest (Nat.lt_of_succ_lt hfuel) hlt hnext
      exact ⟨p, hwalk, hp.insert_low (Nat.not_lt.1 hlt')⟩

/-- A search cannot start on a level that its first node does not have. -/
theorem Heap.descend_none {cur fuel : ℕ} (hnext : h.next cur l = none) :
    h.descend below (fuel + 1) l cur = none := by
  have hwalk : h.walk below l (fuel + 1) cur = none := by simp only [Heap.walk, hnext]
  cases l with
  | zero => rw [Heap.descend, hwalk, Option.map_none]
  | succ l => rw [Heap.descend, hwalk, Option.bind_none]

/-- The descent ends, on every level, at the last cell above it. -/
theorem Linked.descend (hl : Linked h nx (c :: cells)) (hbelow : ∀ c ∈ cells, below c.data = true)
    (hstops : ∀ m ≤ l, h.Stops below (nx m)) {fuel : ℕ} (hfuel : cells.length < fuel)
    (hlt : l < c.height) :
    ∃ pre, h.descend below fuel l c.addr = some pre ∧ pre.length = l + 1 ∧
      ∀ m ≤ l, ∃ p, pre[m]? = some p.addr ∧ LastAbove m (c :: cells) p := by
  induction l generalizing c cells with
  | zero =>
    obtain ⟨p, hwalk, hp⟩ := hl.2.walk hbelow (hstops 0 (Nat.le_refl _)) hfuel hlt (hl.next hlt)
    refine ⟨[p.addr], by rw [Heap.descend, hwalk]; rfl, rfl, fun m hm => ?_⟩
    obtain rfl := Nat.le_zero.1 hm
    exact ⟨p, rfl, hp⟩
  | succ l ih =>
    obtain ⟨p, hwalk, hp⟩ := hl.2.walk hbelow (hstops (l + 1) (Nat.le_refl _)) hfuel hlt (hl.next hlt)
    obtain ⟨front, behind, heq, hlt', hle⟩ := id hp
    have hlen := congrArg List.length heq
    rw [List.length_append, List.length_cons, List.length_cons] at hlen
    have hmem : ∀ c ∈ behind, below c.data = true := by
      intro c' hc'
      cases front with
      | nil =>
        obtain ⟨-, rfl⟩ := List.cons.inj heq
        exact hbelow c' hc'
      | cons a front =>
        obtain ⟨-, rfl⟩ := List.cons.inj heq
        exact hbelow c' (List.mem_append_right _ (List.mem_cons_of_mem _ hc'))
    rw [heq] at hl hp ⊢
    obtain ⟨pre, hpre, hprelen, hall⟩ := ih (Linked.append.1 hl).2 hmem
      (fun m hm => hstops m (by omega)) (by omega) (by omega)
    refine ⟨pre ++ [p.addr], by simp [Heap.descend, hwalk, hpre], by simp [hprelen], fun m hm => ?_⟩
    by_cases hml : m ≤ l
    · obtain ⟨p', hget, hp'⟩ := hall m hml
      refine ⟨p', ?_, hp'.append front⟩
      rw [List.getElem?_append_left (by omega)]
      exact hget
    · obtain rfl : m = l + 1 := by omega
      refine ⟨p, ?_, hp⟩
      rw [List.getElem?_append_right (by omega), hprelen, Nat.sub_self]
      rfl

end Towers
