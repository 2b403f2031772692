import RaftKVStorage.Theory.SortedMap
import RaftKVStorage.Theory.Towers

set_option autoImplicit false

/-! # The skip list with its levels

Class `kvskiplist` as it works on memory: nodes with an array `forward` of pointers, a head node that
has all levels, and a search that starts at `_M_level_now`. A pointer to nothing, an index behind an
array and an element of `pre` that was not set have no value, so a function that comes across one
returns none; so does a loop that takes more steps than there are nodes. -/

namespace RaftKVStorage

open Towers

variable {κ υ : Type}

structure LinkedSkipList (κ υ : Type) where
  heap : Heap (κ × υ)
  head : ℕ
  levelNow : ℕ
  counter : ℕ

/-- What a new node gets: the level `_M_randomLevel` draws, and its address. -/
structure Draw where
  level : ℕ
  addr : ℕ

namespace LinkedSkipList

/-- `kvskiplist::kvskiplist`. -/
def init [Inhabited κ] [Inhabited υ] (maxLevel head : ℕ) : LinkedSkipList κ υ where
  heap := Function.update (fun _ => none) head
    (some ⟨(default, default), List.replicate maxLevel none⟩)
  head := head
  levelNow := 1
  counter := 0

section Search

variable [LinearOrder κ]

/-- `_Comp<_Key>{}(k, key)`, where `_Comp` is `std::greater`. -/
def below (k : κ) (data : κ × υ) : Bool := data.1 < k

/-- `_M_findPrecursors`: the elements of `pre` it sets. -/
def mFindPrecursors (s : LinkedSkipList κ υ) (k : κ) : Option (List ℕ) :=
  s.heap.descend (below k) (s.counter + 1) (s.levelNow - 1) s.head

/-- The node behind `pre[0]`, unless there is none or its key is not `k`. -/
def found (s : LinkedSkipList κ υ) (k : κ) (pre : List ℕ) : Option (Option ℕ) := do
  let p ← pre[0]?
  match ← s.heap.next p 0 with
  | none => some none
  | some b =>
      let node ← s.heap b
      some (if k < node.data.1 then none else some b)

end Search

/-- The loop of `_M_insert` over the levels of the new node. -/
def link (isrt : ℕ) (pre : List ℕ) : List ℕ → Heap (κ × υ) → Option (Heap (κ × υ))
  | [], heap => some heap
  | l :: ls, heap => do
      let p ← pre[l]?
      let heap ← heap.setNext isrt l (← heap.next p l)
      link isrt pre ls (← heap.setNext p l (some isrt))

/-- `_M_insert`. -/
def mInsert (s : LinkedSkipList κ υ) (pre : List ℕ) (d : Draw) (k : κ) (v : υ) :
    Option (LinkedSkipList κ υ) :=
  let pre := pre ++ List.replicate (d.level - s.levelNow) s.head
  let heap := Function.update s.heap d.addr (some ⟨(k, v), List.replicate d.level none⟩)
  (link d.addr pre (List.range d.level) heap).map fun heap =>
    { s with heap := heap, levelNow := max s.levelNow d.level, counter := s.counter + 1 }

/-- The loop of `remove` over the levels. -/
def unlink (rm : ℕ) (pre : List ℕ) : List ℕ → Heap (κ × υ) → Option (Heap (κ × υ))
  | [], heap => some heap
  | l :: ls, heap => do
      let p ← pre[l]?
      if (← heap.next p l) = some rm then
        unlink rm pre ls (← heap.setNext p l (← heap.next rm l))
      else some heap

/-- The loop of `remove` that lowers `_M_level_now`. -/
def lower (heap : Heap (κ × υ)) (head : ℕ) : ℕ → Option ℕ
  | l + 2 => do
      match ← heap.next head (l + 1) with
      | none => lower heap head (l + 1)
      | some _ => some (l + 2)
  | l => some l

/-- The loop of `clear`. -/
def free (head : ℕ) : ℕ → Heap (κ × υ) → Option (Heap (κ × υ))
  | 0, _ => none
  | fuel + 1, heap => do
      match ← heap.next head 0 with
      | none => some heap
      | some rm =>
          let heap ← heap.setNext head 0 (← heap.next rm 0)
          free head fuel (Function.update heap rm none)

/-- `clear`. -/
def clear (s : LinkedSkipList κ υ) : Option (LinkedSkipList κ υ) := do
  let node ← s.heap s.head
  -- `std::fill_n` over the levels in use but the lowest
  let forward := node.forward.mapIdx fun l q => if 1 ≤ l ∧ l < s.levelNow then none else q
  let heap ← free s.head (s.counter + 1)
    (Function.update s.heap s.head (some { node with forward := forward }))
  some { s with heap := heap, levelNow := 1, counter := 0 }

/-- An assignment through the result of `operator[]`. -/
def write (s : LinkedSkipList κ υ) (a : ℕ) (v : υ) : Option (LinkedSkipList κ υ) := do
  let node ← s.heap a
  some { s with heap := Function.update s.heap a (some { node with data := (node.data.1, v) }) }

/-- From one node to the last, along the bottom level. -/
def iterate (heap : Heap (κ × υ)) : ℕ → Option ℕ → Option (List (κ × υ))
  | _, none => some []
  | 0, some _ => none
  | fuel + 1, some a => do
      let node ← heap a
      let rest ← iterate heap fuel (← heap.next a 0)
      some (node.data :: rest)

/-- What iterating from `begin` to `end` gives. -/
def nodes (s : LinkedSkipList κ υ) : Option (List (κ × υ)) := do
  iterate s.heap s.counter (← s.heap.next s.head 0)

section Members

variable [LinearOrder κ]

/-- `operator[]`: the node whose value it returns. -/
def access [Inhabited υ] (s : LinkedSkipList κ υ) (d : Draw) (k : κ) :
    Option (LinkedSkipList κ υ × ℕ) := do
  let pre ← s.mFindPrecursors k
  let s ← match ← s.found k pre with
    | none => s.mInsert pre d k default
    | some _ => some s
  let p ← pre[0]?
  let b ← (← s.heap.next p 0)
  some (s, b)

/-- `insert`: the new node, or none if there is one with the key. -/
def insert (s : LinkedSkipList κ υ) (d : Draw) (k : κ) (v : υ) :
    Option (LinkedSkipList κ υ × Option ℕ) := do
  let pre ← s.mFindPrecursors k
  match ← s.found k pre with
  | none => (s.mInsert pre d k v).map fun s => (s, some d.addr)
  | some _ => some (s, none)

/-- `remove`. -/
def remove (s : LinkedSkipList κ υ) (k : κ) : Option (LinkedSkipList κ υ) := do
  let pre ← s.mFindPrecursors k
  match ← s.found k pre with
  | none => some s
  | some rm =>
      let heap ← unlink rm pre (List.range s.levelNow) s.heap
      let level ← lower heap s.head s.levelNow
      some { s with
        heap := Function.update heap rm none
        levelNow := level
        counter := s.counter - 1 }

/-- `find`, whose loops are those of `_M_findPrecursors`. -/
def find (s : LinkedSkipList κ υ) (k : κ) : Option (Option ℕ) := do
  s.found k (← s.mFindPrecursors k)

end Members

/-! ## The levels in order -/

variable {maxLevel j : ℕ} {s : LinkedSkipList κ υ} {heap : Heap (κ × υ)}
  {cells before behind chain : List (Cell (κ × υ))} {pre : List ℕ} {k : κ} {v : υ} {c : Cell (κ × υ)}

/-- Nothing follows. -/
abbrev nil : ℕ → Option ℕ := fun _ => none

/-- `pre` holds, for the levels under `n`, the last of the cells above the level. -/
def Precursors (n : ℕ) (pre : List ℕ) (cells : List (Cell (κ × υ))) : Prop :=
  ∀ l < n, ∃ p, pre[l]? = some p.addr ∧ LastAbove l cells p

/-- What follows cells when the levels under `j` lead to the new node already. -/
def linked (isrt : ℕ) (behind : List (Cell (κ × υ))) (j l : ℕ) : Option ℕ :=
  if l < j then some isrt else nextAt nil l behind

/-- What follows cells when the levels under `j` lead past the node to remove already. -/
def unlinked (rm : Cell (κ × υ)) (behind : List (Cell (κ × υ))) (j l : ℕ) : Option ℕ :=
  if j ≤ l ∧ l < rm.height then some rm.addr else nextAt nil l behind

theorem update_linked (isrt : ℕ) (behind : List (Cell (κ × υ))) (j : ℕ) :
    Function.update (linked isrt behind j) j (some isrt) = linked isrt behind (j + 1) := by
  funext l
  by_cases hl : l = j
  · subst hl
    simp [linked]
  · rw [Function.update_of_ne hl]
    unfold linked
    split_ifs <;> first | rfl | omega

theorem update_unlinked (rm : Cell (κ × υ)) (behind : List (Cell (κ × υ))) (j : ℕ) :
    Function.update (unlinked rm behind j) j (nextAt nil j behind) = unlinked rm behind (j + 1) := by
  funext l
  by_cases hl : l = j
  · subst hl
    simp [unlinked]
  · rw [Function.update_of_ne hl]
    unfold unlinked
    split_ifs <;> first | rfl | omega

/-- The loop of `_M_insert` puts the new node between the cells, level by level. -/
theorem link_spec {d level : ℕ} {data : κ × υ} (hpre : Precursors level pre cells)
    (hnodup : ((cells ++ behind).map Cell.addr).Nodup) (hnew : ∀ c ∈ cells ++ behind, c.addr ≠ d)
    (n j : ℕ) (hn : j + n = level) (hfront : Linked heap (linked d behind j) cells)
    (hisrt : heap d = some ⟨data, (List.range level).map fun l =>
      if l < j then nextAt nil l behind else none⟩)
    (htail : Linked heap nil behind) :
    ∃ heap', link d pre (List.range' j n) heap = some heap' ∧
      Linked heap' nil (cells ++ ⟨d, data, level⟩ :: behind) := by
  rw [List.map_append] at hnodup
  obtain ⟨hnodupCells, -, hdisj⟩ := List.nodup_append.1 hnodup
  induction n generalizing j heap with
  | zero =>
    obtain rfl : j = level := hn
    refine ⟨heap, rfl, Linked.append.2 ⟨?_, ?_, htail⟩⟩
    · refine hfront.congr (fun c hc => rfl) fun c hc l hl => ?_
      simp only [linked, nextAt]
    · rw [hisrt]
      refine congrArg some (congrArg (Towers.Node.mk data) (List.map_congr_left fun l hl => ?_))
      rw [if_pos (List.mem_range.1 hl)]
  | succ n ih =>
    obtain ⟨p, hget, hp⟩ := hpre j (by omega)
    have hpmem : p ∈ cells := hp.mem
    have hpd : p.addr ≠ d := hnew p (List.mem_append_left _ hpmem)
    -- the new node takes over the link of its precursor
    have hnext : heap.next p.addr j = some (nextAt nil j behind) := by
      rw [hfront.next_of_lastAbove hp, linked, if_neg (Nat.lt_irrefl j)]
    have hset : heap.setNext d j (nextAt nil j behind) = some (Function.update heap d
        (some ⟨data, (List.range level).map fun l =>
          if l < j + 1 then nextAt nil l behind else none⟩)) := by
      simp only [Heap.setNext, hisrt]
      rw [if_pos (by simp; omega)]
      refine congrArg some (congrArg (Function.update heap d) (congrArg some
        (congrArg (Towers.Node.mk data) (List.ext_getElem (by simp) fun l hl hl' => ?_))))
      rw [List.getElem_set]
      simp only [List.getElem_map, List.getElem_range]
      split_ifs <;> first | rfl | omega | (subst_vars; rfl)
    obtain ⟨heap', hset', hfront', hother⟩ := Linked.setNext
      (hfront.congr (fun c hc => Function.update_of_ne (hnew c (List.mem_append_left _ hc)) ..)
        fun _ _ _ _ => rfl) hnodupCells hp (some d)
    rw [update_linked] at hfront'
    obtain ⟨heap'', hlink, hlinked⟩ := ih (j + 1) (by omega) hfront'
      (by rw [hother d (Ne.symm hpd), Function.update_self])
      (htail.congr (fun c hc => by
        rw [hother c.addr fun heq => hdisj p.addr (List.mem_map_of_mem hpmem) c.addr
          (List.mem_map_of_mem hc) heq.symm]
        exact Function.update_of_ne (hnew c (List.mem_append_right _ hc)) ..) fun _ _ _ _ => rfl)
    refine ⟨heap'', ?_, hlinked⟩
    rw [List.range'_succ, link, hget]
    simp only [Option.bind_eq_bind, Option.bind_some, hnext, hset, hset']
    exact hlink

/-- The loop of `remove` leads past the node, level by level, and breaks behind its last one. -/
theorem unlink_spec {levelNow : ℕ} {rm : Cell (κ × υ)} (hpre : Precursors levelNow pre cells)
    (hnodup : ((cells ++ rm :: behind).map Cell.addr).Nodup) (hheight : rm.height ≤ levelNow)
    (n j : ℕ) (hn : j + n = levelNow) (hfront : Linked heap (unlinked rm behind j) cells)
    (htail : Linked heap nil (rm :: behind)) :
    ∃ heap', unlink rm.addr pre (List.range' j n) heap = some heap' ∧
      Linked heap' nil (cells ++ behind) := by
  have hnodup' := hnodup
  rw [List.map_append] at hnodup'
  obtain ⟨hnodupCells, hnodupTail, hdisj⟩ := List.nodup_append.1 hnodup'
  -- once no level of the node is left, the loop has nothing more to do
  have hdone : ∀ j (heap : Heap (κ × υ)), rm.height ≤ j → Linked heap (unlinked rm behind j) cells →
      Linked heap nil (rm :: behind) → Linked heap nil (cells ++ behind) := by
    intro j heap hj hfront htail
    refine Linked.append.2 ⟨hfront.congr (fun _ _ => rfl) fun c hc l hl => ?_, htail.2⟩
    rw [unlinked, if_neg (by omega)]
  induction n generalizing j heap with
  | zero => exact ⟨heap, rfl, hdone j heap (by omega) hfront htail⟩
  | succ n ih =>
    obtain ⟨p, hget, hp⟩ := hpre j (by omega)
    have hpmem : p ∈ cells := hp.mem
    have hnext := hfront.next_of_lastAbove hp
    by_cases hj : j < rm.height
    · rw [unlinked, if_pos ⟨Nat.le_refl j, hj⟩] at hnext
      have hrm : heap.next rm.addr j = some (nextAt nil j behind) := htail.next hj
      obtain ⟨heap', hset, hfront', hother⟩ := hfront.setNext hnodupCells hp (nextAt nil j behind)
      rw [update_unlinked] at hfront'
      have htail' : Linked heap' nil (rm :: behind) := htail.congr (fun c hc =>
        hother c.addr fun heq => hdisj p.addr (List.mem_map_of_mem hpmem) c.addr
          (List.mem_map_of_mem hc) heq.symm) fun _ _ _ _ => rfl
      obtain ⟨heap'', hunlink, hlinked⟩ := ih (j + 1) (by omega) hfront' htail'
      refine ⟨heap'', ?_, hlinked⟩
      rw [List.range'_succ, unlink, hget]
      simp only [Option.bind_eq_bind, Option.bind_some, hnext, hrm, hset, if_true]
      exact hunlink
    · refine ⟨heap, ?_, hdone j heap (by omega) hfront htail⟩
      rw [unlinked, if_neg (by omega)] at hnext
      have hne : nextAt nil j behind ≠ some rm.addr := by
        rcases nextAt_mem nil j behind with hnil | ⟨c, hc, heq⟩
        · rw [hnil]
          simp
        · rw [heq]
          intro h
          exact (List.nodup_cons.1 hnodupTail).1 (List.mem_map.2 ⟨c, hc, Option.some.inj h⟩)
      rw [List.range'_succ, unlink, hget]
      simp only [Option.bind_eq_bind, Option.bind_some, hnext, if_neg hne]

/-- The levels that are lowered have no nodes. -/
theorem lower_spec {head : Cell (κ × υ)} (hl : Linked heap nil (head :: chain)) :
    ∀ level, 0 < level → level ≤ head.height → (∀ c ∈ chain, c.height ≤ level) →
      ∃ level', lower heap head.addr level = some level' ∧ 0 < level' ∧ level' ≤ level ∧
        ∀ c ∈ chain, c.height ≤ level' := by
  intro level
  induction level with
  | zero => exact fun hpos => absurd hpos (Nat.lt_irrefl 0)
  | succ level ih =>
    intro _ hle hall
    cases level with
    | zero => exact ⟨1, rfl, Nat.one_pos, Nat.le_refl 1, hall⟩
    | succ level =>
      have hnext := hl.next (l := level + 1) (by omega)
      by_cases hnone : ∀ c ∈ chain, c.height ≤ level + 1
      · rw [nextAt_of_le hnone] at hnext
        obtain ⟨level', hlower, hpos, hle', hall'⟩ := ih (by omega) (by omega) hnone
        refine ⟨level', ?_, hpos, by omega, hall'⟩
        simp only [lower, Option.bind_eq_bind, hnext, Option.bind_some]
        exact hlower
      · refine ⟨level + 2, ?_, by omega, Nat.le_refl _, hall⟩
        cases hq : nextAt nil (level + 1) chain with
        | none =>
          -- a node above the level would be what the head links to
          exact absurd (fun c hc => Nat.not_lt.1 fun hlt => nextAt_ne_none ⟨c, hc, hlt⟩ hq) hnone
        | some b => simp [lower, hnext, hq]

/-- The loop of `clear` ends with a head node that links to nothing. -/
theorem free_spec {head height : ℕ} {data : κ × υ} (hheight : 0 < height)
    (hpos : ∀ c ∈ chain, 0 < c.height) (hnodup : (head :: chain.map Cell.addr).Nodup) :
    ∀ (heap : Heap (κ × υ)) (fuel : ℕ), chain.length < fuel → Linked heap nil chain →
      heap head = some ⟨data, (List.range height).map fun l =>
        if l = 0 then nextAt nil 0 chain else none⟩ →
      ∃ heap', free head fuel heap = some heap' ∧
        heap' head = some ⟨data, (List.range height).map fun _ => none⟩ := by
  induction chain with
  | nil =>
    intro heap fuel hfuel _ hhead
    obtain ⟨fuel, rfl⟩ := Nat.exists_eq_add_of_lt hfuel
    have hnext : heap.next head 0 = some none := by simp [Heap.next, hhead, hheight, nextAt]
    refine ⟨heap, ?_, ?_⟩
    · simp [free, hnext]
    · rw [hhead]
      refine congrArg some (congrArg (Towers.Node.mk data) (List.map_congr_left fun l _ => ?_))
      simp [nextAt]
  | cons c chain ih =>
    intro heap fuel hfuel hl hhead
    obtain ⟨fuel, rfl⟩ := Nat.exists_eq_add_of_lt hfuel
    have hcpos := hpos c (List.mem_cons_self ..)
    obtain ⟨hnot, hnodup'⟩ := List.nodup_cons.1 hnodup
    obtain ⟨hnotChain, hnodupChain⟩ := List.nodup_cons.1 hnodup'
    have hne : head ≠ c.addr := fun heq => hnot (heq ▸ List.mem_cons_self ..)
    have hnext : heap.next head 0 = some (some c.addr) := by
      simp [Heap.next, hhead, hheight, nextAt, hcpos]
    have hnext' : heap.next c.addr 0 = some (nextAt nil 0 chain) := hl.next hcpos
    -- the head node takes over the link of the node, and the node goes
    have hset : heap.setNext head 0 (nextAt nil 0 chain) = some (Function.update heap head
        (some ⟨data, (List.range height).map fun l =>
          if l = 0 then nextAt nil 0 chain else none⟩)) := by
      simp only [Heap.setNext, hhead]
      rw [if_pos (by simpa using hheight)]
      refine congrArg some (congrArg (Function.update heap head) (congrArg some
        (congrArg (Towers.Node.mk data) (List.ext_getElem (by simp) fun l hl hl' => ?_))))
      rw [List.getElem_set]
      simp only [List.getElem_map, List.getElem_range]
      split_ifs <;> first | rfl | omega
    obtain ⟨heap', hfree, hhead'⟩ := ih (fun c hc => hpos c (List.mem_cons_of_mem _ hc))
      (List.nodup_cons.2 ⟨fun hmem => hnot (List.mem_cons_of_mem _ hmem), hnodupChain⟩)
      (Function.update (Function.update heap head (some ⟨data, (List.range height).map fun l =>
        if l = 0 then nextAt nil 0 chain else none⟩)) c.addr none) (chain.length + 1 + fuel) (by omega)
      (hl.2.congr (fun c' hc' => by
        rw [Function.update_of_ne fun heq => hnotChain (List.mem_map.2 ⟨c', hc', heq⟩),
          Function.update_of_ne fun heq => hnot (List.mem_cons_of_mem _
            (List.mem_map.2 ⟨c', hc', heq⟩))]) fun _ _ _ _ => rfl)
      (by rw [Function.update_of_ne hne, Function.update_self])
    refine ⟨heap', ?_, hhead'⟩
    simp only [List.length_cons, free, Option.bind_eq_bind, hnext, Option.bind_some, hnext', hset]
    exact hfree

theorem iterate_spec (hpos : ∀ c ∈ chain, 0 < c.height) (hl : Linked heap nil chain) {fuel : ℕ}
    (hfuel : chain.length ≤ fuel) :
    iterate heap fuel (nextAt nil 0 chain) = some (chain.map Cell.data) := by
  induction chain generalizing fuel with
  | nil => cases fuel <;> rfl
  | cons c chain ih =>
    cases fuel with
    | zero => exact absurd hfuel (Nat.not_succ_le_zero _)
    | succ fuel =>
      have hcpos := hpos c (List.mem_cons_self ..)
      have hrest := ih (fun c hc => hpos c (List.mem_cons_of_mem _ hc)) hl.2
        (Nat.le_of_succ_le_succ hfuel)
      rw [nextAt, if_pos hcpos, iterate, hl.1]
      simp only [Option.bind_eq_bind, Option.bind_some, hl.next hcpos, hrest]
      rfl

/-! ## What the list stands for -/

section Rep

open SortedMap

variable [LinearOrder κ] {top : Cell (κ × υ)} {d : Draw}

/-- The nodes behind the head node `top`: keys ascending, on all levels below their heights, none
    above the level in use, and counted. -/
structure Rep (top : Cell (κ × υ)) (s : LinkedSkipList κ υ) (chain : List (Cell (κ × υ))) : Prop where
  head : s.head = top.addr
  linked : Linked s.heap nil (top :: chain)
  nodup : ((top :: chain).map Cell.addr).Nodup
  ascending : Ascending (chain.map Cell.data)
  height_pos : ∀ c ∈ chain, 0 < c.height
  height_le : ∀ c ∈ chain, c.height ≤ s.levelNow
  levelNow_pos : 0 < s.levelNow
  levelNow_le : s.levelNow ≤ top.height
  counter : s.counter = chain.length

theorem Rep.init [Inhabited κ] [Inhabited υ] (hmax : 0 < maxLevel) (head : ℕ) :
    Rep ⟨head, (default, default), maxLevel⟩ (LinkedSkipList.init maxLevel head : LinkedSkipList κ υ)
      [] where
  head := rfl
  linked := by
    have hhead : (LinkedSkipList.init maxLevel head : LinkedSkipList κ υ).heap head =
        some ⟨(default, default), List.replicate maxLevel none⟩ := by simp [LinkedSkipList.init]
    refine ⟨hhead.trans ?_, trivial⟩
    refine congrArg some (congrArg (Towers.Node.mk _) (List.ext_getElem (by simp) fun l hl hl' => ?_))
    simp [nextAt]
  nodup := by simp
  ascending := List.Pairwise.nil
  height_pos := by simp
  height_le := by simp
  levelNow_pos := Nat.one_pos
  levelNow_le := hmax
  counter := rfl

/-- Where the key has its place, and what the search finds there. -/
structure Located (top : Cell (κ × υ)) (s : LinkedSkipList κ υ) (k : κ)
    (before behind : List (Cell (κ × υ))) (pre : List ℕ) : Prop where
  before_lt : ∀ c ∈ before, c.data.1 < k
  le_behind : ∀ c ∈ behind, k ≤ c.data.1
  search : s.mFindPrecursors k = some pre
  length : pre.length = s.levelNow
  precursors : Precursors s.levelNow pre (top :: before)
  next : ∃ p, pre[0]? = some p ∧ s.heap.next p 0 = some (behind.head?.map Cell.addr)

theorem Rep.locate (h : Rep top s chain) (k : κ) :
    ∃ before behind pre, chain = before ++ behind ∧ Located top s k before behind pre := by
  obtain ⟨es, es', heq, hlt, hle⟩ := h.ascending.split k
  obtain ⟨before, behind, rfl, rfl, rfl⟩ := List.map_eq_append_iff.1 heq
  have hlt' : ∀ c ∈ before, c.data.1 < k := fun c hc => hlt c.data (List.mem_map_of_mem hc)
  have hle' : ∀ c ∈ behind, k ≤ c.data.1 := fun c hc => hle c.data (List.mem_map_of_mem hc)
  obtain ⟨hfront, htail⟩ := Linked.append.1 (show Linked s.heap nil ((top :: before) ++ behind) from
    h.linked)
  have hstops : ∀ m ≤ s.levelNow - 1, s.heap.Stops (below k) (nextAt nil m behind) := by
    intro m _ b hb
    rcases nextAt_mem nil m behind with hnil | ⟨c, hc, heq⟩
    · rw [hnil] at hb
      cases hb
    · rw [heq] at hb
      obtain rfl := Option.some.inj hb
      obtain ⟨forward, hget⟩ := htail.get hc
      exact ⟨_, hget, by simpa [below] using hle' c hc⟩
  have hfuel : before.length < s.counter + 1 := by
    rw [h.counter, List.length_append]
    omega
  have hpos := h.levelNow_pos
  obtain ⟨pre, hdescend, hlen, hall⟩ := hfront.descend (fun c hc => by simpa [below] using hlt' c hc)
    hstops hfuel (Nat.lt_of_lt_of_le (Nat.sub_one_lt_of_lt hpos) h.levelNow_le)
  refine ⟨before, behind, pre, rfl, hlt', hle', ?_, by omega, fun m hm => hall m (by omega), ?_⟩
  · rw [mFindPrecursors, h.head]
    exact hdescend
  · obtain ⟨p, hget, hp⟩ := hall 0 (Nat.zero_le _)
    refine ⟨p.addr, hget, ?_⟩
    rw [hfront.next_of_lastAbove hp]
    cases behind with
    | nil => rfl
    | cons c behind =>
      rw [nextAt, if_pos (h.height_pos c (List.mem_append_right _ (List.mem_cons_self ..)))]
      rfl

theorem Rep.fresh (h : Rep top s chain) {a : ℕ} (ha : s.heap a = none) :
    ∀ c ∈ top :: chain, c.addr ≠ a := by
  rintro c hc rfl
  obtain ⟨forward, hget⟩ := h.linked.get hc
  rw [ha] at hget
  cases hget

theorem Located.found_absent (h : Located top s k before behind pre)
    (hl : Linked s.heap nil behind) (hgt : ∀ c ∈ behind, k < c.data.1) :
    s.found k pre = some none := by
  obtain ⟨p, hget, hnext⟩ := h.next
  cases behind with
  | nil => simp [found, hget, hnext]
  | cons c behind =>
    simp only [List.head?_cons, Option.map_some] at hnext
    simp [found, hget, hnext, hl.1, hgt c (List.mem_cons_self ..)]

theorem Located.found_present (h : Located top s k before (c :: behind) pre)
    (hl : Linked s.heap nil (c :: behind)) (hk : c.data.1 = k) :
    s.found k pre = some (some c.addr) := by
  obtain ⟨p, hget, hnext⟩ := h.next
  simp only [List.head?_cons, Option.map_some] at hnext
  simp [found, hget, hnext, hl.1, hk]

/-- Either no node has the key, or the node at its place does. -/
theorem Rep.found (h : Rep top s chain) (k : κ) :
    (∃ before behind pre, chain = before ++ behind ∧ Located top s k before behind pre ∧
        (∀ c ∈ behind, k < c.data.1) ∧ s.found k pre = some none) ∨
      ∃ before c behind pre, chain = before ++ c :: behind ∧
        Located top s k before (c :: behind) pre ∧ c.data.1 = k ∧
        (∀ c ∈ behind, k < c.data.1) ∧ s.found k pre = some (some c.addr) := by
  obtain ⟨before, behind, pre, rfl, hloc⟩ := h.locate k
  have htail := (Linked.append.1 (show Linked s.heap nil ((top :: before) ++ behind) from h.linked)).2
  cases behind with
  | nil =>
    have hgt : ∀ c ∈ ([] : List (Cell (κ × υ))), k < c.data.1 := by simp
    exact .inl ⟨before, [], pre, rfl, hloc, hgt, hloc.found_absent htail hgt⟩
  | cons c behind =>
    have hasc := h.ascending
    rw [List.map_append, List.map_cons] at hasc
    have hhead : ∀ c' ∈ behind, c.data.1 < c'.data.1 := fun c' hc' =>
      (List.pairwise_cons.1 (List.pairwise_append.1 hasc).2.1).1 _ (List.mem_map_of_mem hc')
    rcases (hloc.le_behind c (List.mem_cons_self ..)).lt_or_eq with hlt | heq
    · have hgt : ∀ c' ∈ c :: behind, k < c'.data.1 :=
        List.forall_mem_cons.2 ⟨hlt, fun c' hc' => hlt.trans (hhead c' hc')⟩
      exact .inl ⟨before, c :: behind, pre, rfl, hloc, hgt, hloc.found_absent htail hgt⟩
    · exact .inr ⟨before, c, behind, pre, rfl, hloc, heq.symm, fun c' hc' => heq ▸ hhead c' hc',
        hloc.found_present htail heq.symm⟩

/-- What `_M_randomLevel` and the allocator may come up with. -/
def Admits (s : LinkedSkipList κ υ) (maxLevel : ℕ) (d : Draw) : Prop :=
  0 < d.level ∧ d.level ≤ maxLevel ∧ s.heap d.addr = none

theorem Rep.mInsert (h : Rep top s (before ++ behind)) (hloc : Located top s k before behind pre)
    (hgt : ∀ c ∈ behind, k < c.data.1) (hd : s.Admits top.height d) (v : υ) :
    ∃ s', s.mInsert pre d k v = some s' ∧
      Rep top s' (before ++ ⟨d.addr, (k, v), d.level⟩ :: behind) := by
  obtain ⟨hpos, hmax, hfresh⟩ := hd
  have hnew := h.fresh hfresh
  obtain ⟨hfront, htail⟩ := Linked.append.1 (show Linked s.heap nil ((top :: before) ++ behind) from
    h.linked)
  -- on the levels above the one in use the head node is the precursor
  have hpre : Precursors d.level (pre ++ List.replicate (d.level - s.levelNow) s.head)
      (top :: before) := by
    intro l hl
    by_cases hlt : l < s.levelNow
    · obtain ⟨p, hget, hp⟩ := hloc.precursors l hlt
      refine ⟨p, ?_, hp⟩
      rw [List.getElem?_append_left (by rw [hloc.length]; exact hlt)]
      exact hget
    · refine ⟨top, ?_, [], before, rfl, by omega, fun c hc => ?_⟩
      · rw [List.getElem?_append_right (by rw [hloc.length]; omega), List.getElem?_replicate,
          if_pos (by rw [hloc.length]; omega), h.head]
      · have := h.height_le c (List.mem_append_left _ hc)
        omega
  have hheap : ∀ c ∈ top :: before ++ behind,
      Function.update s.heap d.addr (some ⟨(k, v), List.replicate d.level none⟩) c.addr =
        s.heap c.addr := fun c hc => Function.update_of_ne (hnew c hc) ..
  obtain ⟨heap', hlink, hlinked⟩ := link_spec hpre h.nodup hnew d.level 0
    (Nat.zero_add _)
    (hfront.congr (fun c hc => hheap c (List.mem_append_left _ hc)) fun c _ l _ => by
      simp [LinkedSkipList.linked])
    (by
      rw [Function.update_self]
      refine congrArg some (congrArg (Towers.Node.mk _) (List.ext_getElem (by simp) fun l hl hl' => ?_))
      simp)
    (htail.congr (fun c hc => hheap c (List.mem_append_right _ hc)) fun _ _ _ _ => rfl)
  have hmem : ∀ {q : Cell (κ × υ) → Prop}, (∀ c ∈ before ++ behind, q c) →
      q ⟨d.addr, (k, v), d.level⟩ → ∀ c ∈ before ++ ⟨d.addr, (k, v), d.level⟩ :: behind, q c := by
    intro q hall hq c hc
    rcases List.mem_append.1 hc with hc | hc
    · exact hall c (List.mem_append_left _ hc)
    · rcases List.mem_cons.1 hc with rfl | hc
      · exact hq
      · exact hall c (List.mem_append_right _ hc)
  refine ⟨{ s with heap := heap', levelNow := max s.levelNow d.level, counter := s.counter + 1 }, ?_,
    h.head, hlinked, ?_, ?_, hmem h.height_pos hpos, ?_, ?_, ?_, ?_⟩
  · rw [LinkedSkipList.mInsert, List.range_eq_range', hlink]
    rfl
  · have hperm : (top :: (before ++ ⟨d.addr, (k, v), d.level⟩ :: behind)).Perm
        (⟨d.addr, (k, v), d.level⟩ :: (top :: (before ++ behind))) :=
      (List.perm_middle.cons top).trans (List.Perm.swap ..)
    rw [(hperm.map Cell.addr).nodup_iff, List.map_cons]
    refine List.nodup_cons.2 ⟨fun hmem => ?_, h.nodup⟩
    obtain ⟨c, hc, heq⟩ := List.mem_map.1 hmem
    exact hnew c hc heq
  · have hasc := h.ascending
    rw [Ascending, List.map_append, List.pairwise_append] at hasc
    rw [Ascending, List.map_append, List.map_cons, List.pairwise_append, List.pairwise_cons]
    refine ⟨hasc.1, ⟨?_, hasc.2.1⟩, ?_⟩
    · intro e he
      obtain ⟨c, hc, rfl⟩ := List.mem_map.1 he
      exact hgt c hc
    · intro e he e' he'
      obtain ⟨c, hc, rfl⟩ := List.mem_map.1 he
      rcases List.mem_cons.1 he' with rfl | he'
      · exact hloc.before_lt c hc
      · exact hasc.2.2 c.data he e' he'
  · exact hmem (fun c hc => (h.height_le c hc).trans (le_max_left ..)) (le_max_right ..)
  · exact lt_of_lt_of_le h.levelNow_pos (le_max_left ..)
  · exact max_le h.levelNow_le hmax
  · show s.counter + 1 = _
    rw [h.counter, List.length_append, List.length_append, List.length_cons]
    omega

/-- A node has its address for itself. -/
theorem Rep.addr_ne (h : Rep top s (before ++ c :: behind)) :
    ∀ c' ∈ top :: (before ++ behind), c'.addr ≠ c.addr := by
  have hnodup : (((top :: before) ++ c :: behind).map Cell.addr).Nodup := h.nodup
  rw [(List.perm_middle.map Cell.addr).nodup_iff] at hnodup
  intro c' hc' heq
  exact (List.nodup_cons.1 hnodup).1 (List.mem_map.2 ⟨c', hc', heq⟩)

theorem Rep.remove (h : Rep top s (before ++ c :: behind))
    (hloc : Located top s c.data.1 before (c :: behind) pre)
    (hfound : s.found c.data.1 pre = some (some c.addr)) :
    ∃ s', s.remove c.data.1 = some s' ∧ Rep top s' (before ++ behind) := by
  obtain ⟨hfront, htail⟩ := Linked.append.1 (show Linked s.heap nil ((top :: before) ++ c :: behind)
    from h.linked)
  have hsub : (before ++ behind).Sublist (before ++ c :: behind) :=
    (List.Sublist.refl before).append (List.sublist_cons_self c behind)
  obtain ⟨heap', hunlink, hlinked⟩ := unlink_spec hloc.precursors h.nodup
    (h.height_le c (by simp)) s.levelNow 0 (Nat.zero_add _)
    (hfront.congr (fun _ _ => rfl) fun _ _ l _ => by simp [nextAt, LinkedSkipList.unlinked]) htail
  obtain ⟨level', hlower, hpos', hle', hall'⟩ := lower_spec hlinked s.levelNow h.levelNow_pos
    h.levelNow_le fun c' hc' => h.height_le c' (hsub.subset hc')
  refine ⟨{ s with heap := Function.update heap' c.addr none, levelNow := level', counter := s.counter - 1 },
    ?_, h.head, ?_, (hsub.cons_cons top).map Cell.addr |>.nodup h.nodup,
    List.Pairwise.sublist (hsub.map Cell.data) h.ascending,
    fun c' hc' => h.height_pos c' (hsub.subset hc'), hall', hpos', hle'.trans h.levelNow_le, ?_⟩
  · rw [List.range_eq_range'.symm] at hunlink
    simp only [LinkedSkipList.remove, Option.bind_eq_bind, hloc.search, Option.bind_some, hfound,
      hunlink, h.head, hlower]
  · exact hlinked.congr (fun c' hc' => Function.update_of_ne (h.addr_ne c' hc') ..) fun _ _ _ _ => rfl
  · show s.counter - 1 = _
    rw [h.counter, List.length_append, List.length_append, List.length_cons]
    omega

theorem Rep.remove_absent (hloc : Located top s k before behind pre)
    (hfound : s.found k pre = some none) : s.remove k = some s := by
  simp [LinkedSkipList.remove, hloc.search, hfound]

theorem Rep.write (h : Rep top s (before ++ c :: behind)) (v : υ) :
    ∃ s', s.write c.addr v = some s' ∧
      Rep top s' (before ++ { c with data := (c.data.1, v) } :: behind) := by
  have hlinked : Linked s.heap nil ((top :: before) ++ c :: behind) := h.linked
  obtain ⟨forward, hget, hlinked⟩ := hlinked.store h.nodup (c.data.1, v)
  have hmem : ∀ {q : Cell (κ × υ) → Prop}, (∀ c' ∈ before ++ c :: behind, q c') →
      (q c → q { c with data := (c.data.1, v) }) →
      ∀ c' ∈ before ++ { c with data := (c.data.1, v) } :: behind, q c' := by
    intro q hall hq c' hc'
    rcases List.mem_append.1 hc' with hc' | hc'
    · exact hall c' (List.mem_append_left _ hc')
    · rcases List.mem_cons.1 hc' with rfl | hc'
      · exact hq (hall c (by simp))
      · exact hall c' (List.mem_append_right _ (List.mem_cons_of_mem _ hc'))
  have hwrite : s.write c.addr v = some { s with
      heap := Function.update s.heap c.addr (some ⟨(c.data.1, v), forward⟩) } := by
    simp [LinkedSkipList.write, hget]
  refine ⟨_, hwrite, h.head, hlinked, ?_, ?_, hmem h.height_pos id, hmem h.height_le id,
    h.levelNow_pos, h.levelNow_le, ?_⟩
  · simpa using h.nodup
  · have hasc := h.ascending
    rw [Ascending, List.map_append, List.map_cons, List.pairwise_append, List.pairwise_cons] at hasc ⊢
    refine ⟨hasc.1, ⟨hasc.2.1.1, hasc.2.1.2⟩, fun e he e' he' => ?_⟩
    rcases List.mem_cons.1 he' with rfl | he'
    · exact hasc.2.2 e he c.data (List.mem_cons_self ..)
    · exact hasc.2.2 e he e' (List.mem_cons_of_mem _ he')
  · show s.counter = _
    rw [h.counter]
    simp

theorem Rep.clear (h : Rep top s chain) : ∃ s', s.clear = some s' ∧ Rep top s' [] := by
  have hlow : 0 < top.height := lt_of_lt_of_le h.levelNow_pos h.levelNow_le
  have hother : ∀ c ∈ chain, c.addr ≠ top.addr := fun c hc heq =>
    (List.nodup_cons.1 h.nodup).1 (List.mem_map.2 ⟨c, hc, heq⟩)
  -- the levels above the one in use lead nowhere as it is
  have hforward : (((List.range top.height).map fun l => nextAt nil l chain).mapIdx fun l q =>
      if 1 ≤ l ∧ l < s.levelNow then none else q) =
        (List.range top.height).map fun l => if l = 0 then nextAt nil 0 chain else none := by
    refine List.ext_getElem (by simp) fun l hl hl' => ?_
    simp only [List.getElem_mapIdx, List.getElem_map, List.getElem_range]
    by_cases hzero : l = 0
    · simp [hzero]
    · by_cases hlt : l < s.levelNow
      · rw [if_pos ⟨Nat.one_le_iff_ne_zero.2 hzero, hlt⟩, if_neg hzero]
      · rw [if_neg (fun hcon => hlt hcon.2), if_neg hzero]
        exact nextAt_of_le fun c hc => (h.height_le c hc).trans (Nat.not_lt.1 hlt)
  obtain ⟨heap', hfree, hhead⟩ := free_spec hlow h.height_pos
    h.nodup
    (Function.update s.heap top.addr (some ⟨top.data, (List.range top.height).map fun l =>
      if l = 0 then nextAt nil 0 chain else none⟩)) (s.counter + 1)
    (by rw [h.counter]; exact Nat.lt_succ_self _)
    (h.linked.2.congr (fun c hc => Function.update_of_ne (hother c hc) ..) fun _ _ _ _ => rfl)
    (Function.update_self ..)
  refine ⟨{ s with heap := heap', levelNow := 1, counter := 0 }, ?_, h.head, ⟨hhead, trivial⟩,
    by simp, List.Pairwise.nil, by simp, by simp, Nat.one_pos, hlow, rfl⟩
  simp only [LinkedSkipList.clear, Option.bind_eq_bind, h.head, h.linked.1, Option.bind_some, hforward,
    hfree]

theorem Rep.nodes (h : Rep top s chain) : s.nodes = some (chain.map Cell.data) := by
  have hlow : 0 < top.height := lt_of_lt_of_le h.levelNow_pos h.levelNow_le
  rw [LinkedSkipList.nodes, h.head, h.linked.next hlow]
  simp only [Option.bind_eq_bind, Option.bind_some]
  exact iterate_spec h.height_pos h.linked.2 h.counter.ge

/-- `operator[]` returns the node of the key, a new one with the default value if there was none. -/
theorem Rep.access [Inhabited υ] (h : Rep top s chain) (hd : s.Admits top.height d) (k : κ) :
    (∃ before behind s', chain = before ++ behind ∧ (∀ c ∈ before, c.data.1 < k) ∧
        (∀ c ∈ behind, k < c.data.1) ∧ s.access d k = some (s', d.addr) ∧
        Rep top s' (before ++ ⟨d.addr, (k, default), d.level⟩ :: behind)) ∨
      ∃ c ∈ chain, c.data.1 = k ∧ s.access d k = some (s, c.addr) := by
  rcases h.found k with ⟨before, behind, pre, rfl, hloc, hgt, hfound⟩ |
    ⟨before, c, behind, pre, rfl, hloc, rfl, hgt, hfound⟩
  · left
    obtain ⟨s', hinsert, hrep⟩ := h.mInsert hloc hgt hd default
    refine ⟨before, behind, s', rfl, hloc.before_lt, hgt, ?_, hrep⟩
    obtain ⟨p, hget, hp⟩ := hloc.precursors 0 h.levelNow_pos
    have hnext : s'.heap.next p.addr 0 = some (some d.addr) := by
      have hlinked : Linked s'.heap nil ((top :: before) ++ ⟨d.addr, (k, default), d.level⟩ :: behind) :=
        hrep.linked
      rw [(Linked.append.1 hlinked).1.next_of_lastAbove hp, nextAt, if_pos hd.1]
    simp [LinkedSkipList.access, hloc.search, hfound, hinsert, hget, hnext]
  · right
    refine ⟨c, by simp, rfl, ?_⟩
    obtain ⟨p, hget, hnext⟩ := hloc.next
    simp only [List.head?_cons, Option.map_some] at hnext
    simp [LinkedSkipList.access, hloc.search, hfound, hget, hnext]

theorem Rep.insert (h : Rep top s chain) (hd : s.Admits top.height d) (k : κ) (v : υ) :
    (∃ before behind s', chain = before ++ behind ∧ (∀ c ∈ before, c.data.1 < k) ∧
        (∀ c ∈ behind, k < c.data.1) ∧ s.insert d k v = some (s', some d.addr) ∧
        Rep top s' (before ++ ⟨d.addr, (k, v), d.level⟩ :: behind)) ∨
      (∃ c ∈ chain, c.data.1 = k) ∧ s.insert d k v = some (s, none) := by
  rcases h.found k with ⟨before, behind, pre, rfl, hloc, hgt, hfound⟩ |
    ⟨before, c, behind, pre, rfl, hloc, rfl, hgt, hfound⟩
  · left
    obtain ⟨s', hinsert, hrep⟩ := h.mInsert hloc hgt hd v
    refine ⟨before, behind, s', rfl, hloc.before_lt, hgt, ?_, hrep⟩
    simp [LinkedSkipList.insert, hloc.search, hfound, hinsert]
  · right
    exact ⟨⟨c, by simp, rfl⟩, by simp [LinkedSkipList.insert, hloc.search, hfound]⟩

theorem Rep.find (h : Rep top s chain) (k : κ) :
    (s.find k = some none ∧ ∀ c ∈ chain, c.data.1 ≠ k) ∨
      ∃ c ∈ chain, c.data.1 = k ∧ s.find k = some (some c.addr) := by
  rcases h.found k with ⟨before, behind, pre, rfl, hloc, hgt, hfound⟩ |
    ⟨before, c, behind, pre, rfl, hloc, rfl, hgt, hfound⟩
  · left
    refine ⟨by simp [LinkedSkipList.find, hloc.search, hfound], fun c hc => ?_⟩
    rcases List.mem_append.1 hc with hc | hc
    · exact (hloc.before_lt c hc).ne
    · exact (hgt c hc).ne'
  · right
    exact ⟨c, by simp, rfl, by simp [LinkedSkipList.find, hloc.search, hfound]⟩

end Rep

end LinkedSkipList

end RaftKVStorage
