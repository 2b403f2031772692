import RaftKVStorage.SkipListShape
import Mathlib.Data.Finset.Card

set_option autoImplicit false

/-! # The skip list without values

Class `skiplist`, a set: its nodes are those of `kvskiplist` without a value. It differs in that the
level in use is 0 as long as nothing was inserted since it was made or cleared, in that its array of
precursors is only as long as the level in use, and in that `_M_randomLevel` draws at most one level
more than there are. `insert` is the two overloads that take a value; the variadic one calls itself
and never returns. -/

namespace RaftKVStorage

open Towers LinkedSkipList

variable {α : Type}

/-- `skiplist`, with nodes that have nothing for a value. -/
abbrev LinkedSkipSet (α : Type) := LinkedSkipList α Unit

namespace LinkedSkipSet

/-- `skiplist::skiplist`. -/
def init [Inhabited α] (maxLevel head : ℕ) : LinkedSkipSet α :=
  { LinkedSkipList.init maxLevel head with levelNow := 0 }

/-- The loop of `insert` that sets elements of `pre`, which ends at one that is not there. -/
def raise (head : ℕ) : List ℕ → List ℕ → Option (List ℕ)
  | [], pre => some pre
  | l :: ls, pre => if l < pre.length then raise head ls (pre.set l head) else none

/-- `clear`, which does not leave the level in use at 1. -/
def clear (s : LinkedSkipSet α) : Option (LinkedSkipSet α) :=
  (LinkedSkipList.clear s).map fun s => { s with levelNow := 0 }

variable [LinearOrder α]

/-- `_M_findPrecursor`: the elements of `pre`, all of which it sets. -/
def mFindPrecursor (s : LinkedSkipSet α) (val : α) : Option (List ℕ) :=
  s.heap.descend (below val) (s.counter + 1) (max s.levelNow 1 - 1) s.head

/-- `insert`. -/
def insert (s : LinkedSkipSet α) (d : Draw) (val : α) : Option (LinkedSkipSet α) := do
  let pre ← mFindPrecursor s val
  match ← s.found val pre with
  | some _ => some s
  | none =>
      let pre ← raise s.head (List.range' s.levelNow (d.level - s.levelNow)) pre
      let heap := Function.update s.heap d.addr (some ⟨(val, ()), List.replicate d.level none⟩)
      let heap ← link d.addr pre (List.range d.level) heap
      some { s with heap := heap, levelNow := max s.levelNow d.level, counter := s.counter + 1 }

/-- `remove`. -/
def remove (s : LinkedSkipSet α) (value : α) : Option (LinkedSkipSet α) := do
  let pre ← mFindPrecursor s value
  match ← s.found value pre with
  | none => some s
  | some rm =>
      let heap ← unlink rm pre (List.range s.levelNow) s.heap
      let level ← lower heap s.head s.levelNow
      some { s with
        heap := Function.update heap rm none
        levelNow := level
        counter := s.counter - 1 }

/-- `find`, which starts at `_M_level_now - 1` of type `size_t`. -/
def find (s : LinkedSkipSet α) (val : α) : Option Bool := do
  let cur ← s.heap.descend (below val) (s.counter + 1) (BitVec.ofNat 64 s.levelNow - 1).toNat s.head
  let node ← s.found val cur
  some node.isSome

end LinkedSkipSet

/-! ## Calls -/

inductive SetCall (α : Type)
  | insert (val : α)
  | remove (value : α)
  | find (val : α)
  | clear
  | size

inductive SetResult
  | unit
  | found (found : Bool)
  | size (size : ℕ)
deriving DecidableEq

namespace LinkedSkipSet

variable [LinearOrder α]

/-- A call, with what `_M_randomLevel` and the allocator come up with if it makes a node. -/
def step (s : LinkedSkipSet α) (d : Draw) : SetCall α → Option (LinkedSkipSet α × SetResult)
  | .insert val => (insert s d val).map fun s => (s, .unit)
  | .remove value => (remove s value).map fun s => (s, .unit)
  | .find val => (find s val).map fun found => (s, .found found)
  | .clear => (clear s).map fun s => (s, .unit)
  | .size => some (s, .size s.counter)

/-- The results of a sequence of calls, if every index is within its array. -/
def run (s : LinkedSkipSet α) : List (SetCall α × Draw) → Option (List SetResult)
  | [] => some []
  | (call, d) :: calls => do
      let (s, result) ← step s d call
      let results ← run s calls
      some (result :: results)

/-- What `_M_randomLevel` and the allocator may come up with. -/
def Draws (maxLevel : ℕ) (s : LinkedSkipSet α) (d : Draw) : Prop :=
  0 < d.level ∧ d.level ≤ (if maxLevel = s.levelNow then s.levelNow else s.levelNow + 1) ∧
    s.heap d.addr = none

/-- Every draw is one there can be. -/
def Drawn (maxLevel : ℕ) : LinkedSkipSet α → List (SetCall α × Draw) → Prop
  | _, [] => True
  | s, (call, d) :: calls => Draws maxLevel s d ∧ ∀ r ∈ step s d call, Drawn maxLevel r.1 calls

/-- The calls on a finite set. -/
def setStep (m : Finset α) : SetCall α → Finset α × SetResult
  | .insert val => (Insert.insert val m, .unit)
  | .remove value => (m.erase value, .unit)
  | .find val => (m, .found (val ∈ m))
  | .clear => (∅, .unit)
  | .size => (m, .size m.card)

def setRun (m : Finset α) : List (SetCall α) → List SetResult
  | [] => []
  | call :: calls => (setStep m call).2 :: setRun (setStep m call).1 calls

/-- `made` tells whether anything was inserted since the list was made or cleared. If not, nothing may
    be looked for; and what is not in the list may be inserted on the lowest level only. -/
def Stays (m : Finset α) (made : Bool) (d : Draw) : SetCall α → Prop
  | .insert val => val ∉ m → d.level = 1
  | .find _ => made = true
  | _ => True

def madeAfter (made : Bool) : SetCall α → Bool
  | .insert _ => true
  | .clear => false
  | _ => made

/-- The list never gets beyond its lowest level, and is not searched before it has one. -/
def StaysLow : Finset α → Bool → List (SetCall α × Draw) → Prop
  | _, _, [] => True
  | m, made, (call, d) :: calls =>
      Stays m made d call ∧ StaysLow (setStep m call).1 (madeAfter made call) calls

instance Draws.decidable (maxLevel : ℕ) (s : LinkedSkipSet α) (d : Draw) :
    Decidable (Draws maxLevel s d) :=
  decidable_of_iff (0 < d.level ∧
    d.level ≤ (if maxLevel = s.levelNow then s.levelNow else s.levelNow + 1) ∧
    (s.heap d.addr).isNone = true) (by
      rw [Option.isNone_iff_eq_none]
      rfl)

instance Drawn.decidable (maxLevel : ℕ) :
    (s : LinkedSkipSet α) → (calls : List (SetCall α × Draw)) → Decidable (Drawn maxLevel s calls)
  | _, [] => .isTrue trivial
  | s, (call, d) :: calls =>
      have : ∀ r : LinkedSkipSet α × SetResult, Decidable (Drawn maxLevel r.1 calls) :=
        fun r => Drawn.decidable maxLevel r.1 calls
      inferInstanceAs (Decidable (Draws maxLevel s d ∧ ∀ r ∈ step s d call, Drawn maxLevel r.1 calls))

instance Stays.decidable (m : Finset α) (made : Bool) (d : Draw) :
    (call : SetCall α) → Decidable (Stays m made d call)
  | .insert val => inferInstanceAs (Decidable (val ∉ m → d.level = 1))
  | .find _ => inferInstanceAs (Decidable (made = true))
  | .remove _ | .clear | .size => .isTrue trivial

/-! ## On the lowest level -/

/-- The list as a `kvskiplist`, whose level in use is never 0. -/
def onLowest (s : LinkedSkipSet α) : LinkedSkipList α Unit := { s with levelNow := 1 }

/-- A list on its lowest level, with the elements of the set. -/
structure Low (top : Cell (α × Unit)) (s : LinkedSkipSet α) (m : Finset α) (made : Bool) : Prop where
  rep : ∃ chain, Rep top (onLowest s) chain ∧ m = (chain.map fun c => c.data.1).toFinset
  levelNow : s.levelNow = if made = true then 1 else 0
  empty : made = false → m = ∅

variable {top : Cell (α × Unit)} {s : LinkedSkipSet α} {m : Finset α} {made : Bool} {d : Draw}
  {val : α} {pre : List ℕ} {chain before behind : List (Cell (α × Unit))} {c : Cell (α × Unit)}

theorem Low.init [Inhabited α] {maxLevel : ℕ} (hmax : 0 < maxLevel) (head : ℕ) :
    Low ⟨head, (default, default), maxLevel⟩ (init maxLevel head : LinkedSkipSet α) ∅ false where
  rep := ⟨[], Rep.init hmax head, rfl⟩
  levelNow := rfl
  empty := fun _ => rfl

theorem Low.le_one (h : Low top s m made) : s.levelNow ≤ 1 := by
  rw [h.levelNow]
  split_ifs
  · exact le_rfl
  · exact Nat.zero_le 1

omit [LinearOrder α] in
theorem onLowest_eq (hlevel : s.levelNow = 1) : onLowest s = s := by
  unfold onLowest
  rw [← hlevel]

omit [LinearOrder α] in
theorem mem_elements [DecidableEq α] (hm : m = (chain.map fun c => c.data.1).toFinset) :
    val ∈ m ↔ ∃ c ∈ chain, c.data.1 = val := by
  rw [hm, List.mem_toFinset, List.mem_map]

theorem mFindPrecursor_eq (hle : s.levelNow ≤ 1) (val : α) :
    mFindPrecursor s val = (onLowest s).mFindPrecursors val := by
  have hmax : max s.levelNow 1 - 1 = 0 := by omega
  unfold mFindPrecursor mFindPrecursors
  rw [hmax]
  rfl

omit [LinearOrder α] in
/-- The loop sets nothing new on the level there is, and comes upon the end of `pre` above it. -/
theorem raise_eq {head : ℕ} (hlen : pre.length = 1) (hle : s.levelNow ≤ 1)
    (hzero : s.levelNow = 0 → pre = [head] ∧ d.level = 1) (hpos : 0 < d.level) :
    raise head (List.range' s.levelNow (d.level - s.levelNow)) pre =
      if d.level = 1 then some pre else none := by
  rcases Nat.le_one_iff_eq_zero_or_eq_one.1 hle with hlevel | hlevel
  · obtain ⟨rfl, hone⟩ := hzero hlevel
    rw [hlevel, hone]
    rfl
  · rw [hlevel]
    split_ifs with hone
    · rw [hone]
      rfl
    · obtain ⟨k, hk⟩ : ∃ k, d.level - 1 = k + 1 := ⟨d.level - 2, by omega⟩
      rw [hk, List.range'_succ, raise, if_neg (by omega)]

/-- `insert` of something new: `_M_insert` of a `kvskiplist` if the draw is the lowest level. -/
theorem insert_absent (hle : s.levelNow ≤ 1) (hsearch : (onLowest s).mFindPrecursors val = some pre)
    (hfound : (onLowest s).found val pre = some none) (hlen : pre.length = 1)
    (hzero : s.levelNow = 0 → pre = [s.head] ∧ d.level = 1) (hpos : 0 < d.level) :
    insert s d val = if d.level = 1 then (onLowest s).mInsert pre d val () else none := by
  have hfound' : s.found val pre = some none := hfound
  have hraise := raise_eq hlen hle hzero hpos
  unfold insert
  simp only [mFindPrecursor_eq hle, hsearch, hfound', hraise, Option.bind_eq_bind, Option.bind_some]
  split_ifs with hone
  · have hmax : max s.levelNow d.level = max 1 d.level := by omega
    rw [mInsert, hone]
    simp only [Option.bind_some, onLowest, Nat.sub_self, List.replicate_zero, List.append_nil]
    rw [hone] at hmax
    rw [hmax]
    cases link d.addr pre (List.range 1) (Function.update s.heap d.addr
      (some ⟨(val, ()), List.replicate 1 none⟩)) with
    | none => rfl
    | some heap => rfl
  · rfl

/-- A draw of the lowest level is one that a `kvskiplist` admits. -/
theorem Low.admits (h : Low top s m made) (hd : Draws top.height s d) (hone : d.level = 1) :
    (onLowest s).Admits top.height d := by
  obtain ⟨chain, hrep, -⟩ := h.rep
  have hheight : 1 ≤ top.height := hrep.levelNow_le
  exact ⟨hd.1, hone.trans_le hheight, hd.2.2⟩

/-- As long as nothing was inserted, only the lowest level is drawn. -/
theorem Low.draws_one (h : Low top s m false) (hd : Draws top.height s d) : d.level = 1 := by
  obtain ⟨hpos, hle, -⟩ := hd
  have hlevel : s.levelNow = 0 := h.levelNow
  rw [hlevel] at hle
  split_ifs at hle <;> omega

/-- The search for an element that is not there ends at its place, with nothing to find. -/
theorem Low.search_absent (h : Low top s m made) (hval : val ∉ m) :
    ∃ before behind pre, Rep top (onLowest s) (before ++ behind) ∧
      m = ((before ++ behind).map fun c => c.data.1).toFinset ∧
      Located top (onLowest s) val before behind pre ∧ (∀ c ∈ behind, val < c.data.1) ∧
      (onLowest s).found val pre = some none := by
  obtain ⟨chain, hrep, hm⟩ := h.rep
  rcases hrep.found val with ⟨before, behind, pre, rfl, hloc, hgt, hfound⟩ |
    ⟨before, c, behind, pre, rfl, -, hval', -⟩
  · exact ⟨before, behind, pre, hrep, hm, hloc, hgt, hfound⟩
  · exact absurd ((mem_elements hm).2 ⟨c, by simp, hval'⟩) hval

/-- The search for an element that is there ends in front of its node. -/
theorem Low.search_present (h : Low top s m made) (hval : val ∈ m) :
    ∃ before c behind pre, Rep top (onLowest s) (before ++ c :: behind) ∧
      m = ((before ++ c :: behind).map fun c => c.data.1).toFinset ∧
      Located top (onLowest s) val before (c :: behind) pre ∧ c.data.1 = val ∧
      (∀ c ∈ behind, val < c.data.1) ∧ (onLowest s).found val pre = some (some c.addr) := by
  obtain ⟨chain, hrep, hm⟩ := h.rep
  rcases hrep.found val with ⟨before, behind, pre, rfl, hloc, hgt, -⟩ |
    ⟨before, c, behind, pre, rfl, hloc, hval', hgt, hfound⟩
  · obtain ⟨c, hc, rfl⟩ := (mem_elements hm).1 hval
    rcases List.mem_append.1 hc with hc | hc
    · exact absurd (hloc.before_lt c hc) (lt_irrefl _)
    · exact absurd (hgt c hc) (lt_irrefl _)
  · exact ⟨before, c, behind, pre, hrep, hm, hloc, hval', hgt, hfound⟩

theorem Low.made_of_mem (h : Low top s m made) (hval : val ∈ m) : made = true := by
  cases made with
  | true => rfl
  | false =>
    rw [h.empty rfl] at hval
    exact absurd hval (Finset.notMem_empty val)

theorem Low.insert_present (h : Low top s m made) (hval : val ∈ m) : insert s d val = some s := by
  obtain ⟨before, c, behind, pre, -, -, hloc, -, -, hfound⟩ := h.search_present hval
  have hfound' : s.found val pre = some (some c.addr) := hfound
  simp only [insert, mFindPrecursor_eq h.le_one, hloc.search, hfound', Option.bind_eq_bind,
    Option.bind_some]

/-- In an empty list every search ends at the head node. -/
theorem eq_head_of_empty (hrep : Rep top (onLowest s) []) (hloc : Located top (onLowest s) val [] [] pre) :
    pre = [s.head] := by
  obtain ⟨p, hget, hp⟩ := hloc.precursors 0 hrep.levelNow_pos
  obtain rfl := List.mem_singleton.1 hp.mem
  obtain ⟨a, rfl⟩ := List.length_eq_one_iff.1 hloc.length
  rw [List.getElem?_cons_zero] at hget
  have hhead : s.head = p.addr := hrep.head
  rw [Option.some.inj hget, hhead]

/-- What the new element comes to depends on the level that is drawn for it. -/
theorem Low.insert_new (h : Low top s m made) (hd : Draws top.height s d) (hval : val ∉ m) :
    if d.level = 1 then ∃ s', insert s d val = some s' ∧ Low top s' (Insert.insert val m) true
    else insert s d val = none := by
  obtain ⟨before, behind, pre, hrep, hm, hloc, hgt, hfound⟩ := h.search_absent hval
  have hzero : s.levelNow = 0 → pre = [s.head] ∧ d.level = 1 := by
    intro hlevel
    cases made with
    | true => exact absurd (h.levelNow.symm.trans hlevel) Nat.one_ne_zero
    | false =>
      have hempty : before ++ behind = [] := by
        rw [h.empty rfl] at hm
        exact List.map_eq_nil_iff.1 (List.toFinset_eq_empty_iff _ |>.1 hm.symm)
      obtain ⟨rfl, rfl⟩ := List.append_eq_nil_iff.1 hempty
      exact ⟨eq_head_of_empty hrep hloc, h.draws_one hd⟩
  have hinsert := insert_absent h.le_one hloc.search hfound hloc.length hzero hd.1
  rw [hinsert]
  split_ifs with hone
  · obtain ⟨s', hnew, hrep'⟩ := hrep.mInsert hloc hgt (h.admits hd hone) ()
    have hlevel : s'.levelNow = 1 := by
      rw [LinkedSkipList.mInsert_levelNow hnew, hone]
      rfl
    refine ⟨s', hnew, ⟨_, (onLowest_eq hlevel).symm ▸ hrep', ?_⟩, hlevel,
      fun hcon => absurd hcon (by simp)⟩
    rw [hm]
    simp only [List.map_append, List.map_cons, List.toFinset_append, List.toFinset_cons,
      Finset.union_insert]
  · rfl

/-- With one level in use it is `remove` of a `kvskiplist`. -/
theorem remove_eq (hlevel : s.levelNow = 1) (value : α) :
    remove s value = LinkedSkipList.remove s value := by
  have hsearch : mFindPrecursor s value = s.mFindPrecursors value := by
    have hmax : max s.levelNow 1 - 1 = s.levelNow - 1 := by omega
    exact congrArg (fun l => s.heap.descend (below value) (s.counter + 1) l s.head) hmax
  show (mFindPrecursor s value).bind _ = (s.mFindPrecursors value).bind _
  exact congrArg₂ Option.bind hsearch rfl

theorem Low.remove (h : Low top s m made) (value : α) :
    ∃ s', remove s value = some s' ∧ Low top s' (m.erase value) made := by
  by_cases hval : value ∈ m
  · obtain rfl := h.made_of_mem hval
    obtain ⟨before, c, behind, pre, hrep, hm, hloc, rfl, hgt, hfound⟩ := h.search_present hval
    have hlevel : s.levelNow = 1 := h.levelNow
    rw [onLowest_eq hlevel] at hrep hloc hfound
    obtain ⟨s', hremove, hrep'⟩ := hrep.remove hloc hfound
    have hlevel' : s'.levelNow = 1 := by
      rcases remove_cases hremove with rfl | ⟨heap, rm, hlower, -, -⟩
      · exact hlevel
      · rw [hlevel] at hlower
        exact (Option.some.inj hlower).symm
    refine ⟨s', (remove_eq hlevel _).trans hremove, ⟨_, (onLowest_eq hlevel').symm ▸ hrep', ?_⟩,
      hlevel', fun hcon => absurd hcon (by simp)⟩
    have hnot : c.data.1 ∉ ((before ++ behind).map fun c => c.data.1).toFinset := by
      rw [mem_elements rfl]
      rintro ⟨c', hc', heq⟩
      rcases List.mem_append.1 hc' with hc' | hc'
      · exact (hloc.before_lt c' hc').ne heq
      · exact (hgt c' hc').ne' heq
    rw [hm, List.map_append, List.map_cons, List.toFinset_append, List.toFinset_cons,
      Finset.union_insert, ← List.toFinset_append, ← List.map_append, Finset.erase_insert hnot]
  · obtain ⟨before, behind, pre, -, -, hloc, -, hfound⟩ := h.search_absent hval
    have hfound' : s.found value pre = some none := hfound
    refine ⟨s, ?_, (Finset.erase_eq_of_notMem hval).symm ▸ h⟩
    simp only [LinkedSkipSet.remove, mFindPrecursor_eq h.le_one, hloc.search, hfound',
      Option.bind_eq_bind, Option.bind_some]

/-- With one level in use `find` is right. -/
theorem Low.find (h : Low top s m true) (val : α) : find s val = some (decide (val ∈ m)) := by
  have hlevel : s.levelNow = 1 := h.levelNow
  have hsearch : ∀ pre, (onLowest s).mFindPrecursors val = some pre →
      s.heap.descend (below val) (s.counter + 1) (BitVec.ofNat 64 s.levelNow - 1).toNat s.head =
        some pre := by
    intro pre hpre
    rw [hlevel]
    exact hpre
  by_cases hval : val ∈ m
  · obtain ⟨before, c, behind, pre, -, -, hloc, -, -, hfound⟩ := h.search_present hval
    have hfound' : s.found val pre = some (some c.addr) := hfound
    simp only [LinkedSkipSet.find, hsearch pre hloc.search, hfound', Option.bind_eq_bind,
      Option.bind_some, Option.isSome_some, hval, decide_true]
  · obtain ⟨before, behind, pre, -, -, hloc, -, hfound⟩ := h.search_absent hval
    have hfound' : s.found val pre = some none := hfound
    simp only [LinkedSkipSet.find, hsearch pre hloc.search, hfound', Option.bind_eq_bind,
      Option.bind_some, Option.isSome_none, hval, decide_false]

/-- With no level in use `find` starts far above the levels of the head node. -/
theorem Low.find_none (h : Low top s m false) (hlt : top.height < 2 ^ 64) (val : α) :
    LinkedSkipSet.find s val = none := by
  obtain ⟨chain, hrep, -⟩ := h.rep
  have hlevel : s.levelNow = 0 := h.levelNow
  have hstart : (BitVec.ofNat 64 s.levelNow - 1).toNat = 2 ^ 64 - 1 := by
    rw [hlevel]
    rfl
  have hnext : s.heap.next s.head (2 ^ 64 - 1) = none := by
    have hhead : s.head = top.addr := hrep.head
    rw [hhead]
    exact hrep.linked.next_none (by omega)
  rw [LinkedSkipSet.find, hstart, Heap.descend_none hnext]
  rfl

theorem Low.clear (h : Low top s m made) : ∃ s', clear s = some s' ∧ Low top s' ∅ false := by
  obtain ⟨chain, hrep, -⟩ := h.rep
  obtain ⟨s', hclear, hrep'⟩ := hrep.clear
  have hsame : LinkedSkipList.clear s = LinkedSkipList.clear (onLowest s) := by
    have hle := h.le_one
    have hlevels : ∀ l, (1 ≤ l ∧ l < s.levelNow) ↔ (1 ≤ l ∧ l < (onLowest s).levelNow) := by
      intro l
      simp only [onLowest]
      omega
    unfold LinkedSkipList.clear
    simp only [hlevels]
    rfl
  have hlow : onLowest { s' with levelNow := 0 } = s' := onLowest_eq (clear_levelNow hclear)
  refine ⟨{ s' with levelNow := 0 }, ?_, ⟨[], hlow.symm ▸ hrep', rfl⟩, rfl, fun _ => rfl⟩
  rw [LinkedSkipSet.clear, hsame, hclear]
  rfl

theorem Low.counter (h : Low top s m made) : s.counter = m.card := by
  obtain ⟨chain, hrep, rfl⟩ := h.rep
  have hcount : s.counter = chain.length := hrep.counter
  have hnodup : (chain.map fun c => c.data.1).Nodup := by
    have hasc : ((chain.map Cell.data).map Prod.fst).Pairwise (· < ·) :=
      List.pairwise_map.2 hrep.ascending
    rw [List.map_map] at hasc
    exact hasc.imp fun hlt => hlt.ne
  rw [List.toFinset_card_of_nodup hnodup, List.length_map, hcount]

/-! ## Runs -/

/-- A call that stays low gives the result of the call on the set. -/
theorem Low.step (h : Low top s m made) (hd : Draws top.height s d) {call : SetCall α}
    (hstays : Stays m made d call) :
    ∃ s', step s d call = some (s', (setStep m call).2) ∧
      Low top s' (setStep m call).1 (madeAfter made call) := by
  cases call with
  | insert val =>
    by_cases hval : val ∈ m
    · obtain rfl := h.made_of_mem hval
      refine ⟨s, ?_, ?_⟩
      · rw [LinkedSkipSet.step, h.insert_present hval, Option.map_some, setStep]
      · rw [setStep, Finset.insert_eq_of_mem hval]
        exact h
    · have hnew := h.insert_new hd hval
      rw [if_pos (hstays hval)] at hnew
      obtain ⟨s', hinsert, hlow⟩ := hnew
      refine ⟨s', ?_, hlow⟩
      rw [LinkedSkipSet.step, hinsert, Option.map_some, setStep]
  | remove value =>
    obtain ⟨s', hremove, hlow⟩ := h.remove value
    refine ⟨s', ?_, hlow⟩
    rw [LinkedSkipSet.step, hremove, Option.map_some, setStep]
  | find val =>
    obtain rfl : made = true := hstays
    refine ⟨s, ?_, h⟩
    rw [LinkedSkipSet.step, h.find val, Option.map_some, setStep]
  | clear =>
    obtain ⟨s', hclear, hlow⟩ := h.clear
    refine ⟨s', ?_, hlow⟩
    rw [LinkedSkipSet.step, hclear, Option.map_some, setStep]
  | size =>
    refine ⟨s, ?_, h⟩
    rw [LinkedSkipSet.step, setStep, h.counter]

/-- Any other call comes upon an index that is not within its array. -/
theorem Low.step_none (h : Low top s m made) (hd : Draws top.height s d) (hlt : top.height < 2 ^ 64)
    {call : SetCall α} (hleaves : ¬ Stays m made d call) : LinkedSkipSet.step s d call = none := by
  cases call with
  | insert val =>
    obtain ⟨hval, hone⟩ := Classical.not_imp.1 hleaves
    have hnew := h.insert_new hd hval
    rw [if_neg hone] at hnew
    rw [LinkedSkipSet.step, hnew, Option.map_none]
  | find val =>
    cases made with
    | true => exact absurd rfl hleaves
    | false =>
      rw [LinkedSkipSet.step, h.find_none hlt, Option.map_none]
  | remove value => exact absurd trivial hleaves
  | clear => exact absurd trivial hleaves
  | size => exact absurd trivial hleaves

theorem run_cons {s s' : LinkedSkipSet α} {call : SetCall α} {result : SetResult}
    (hstep : step s d call = some (s', result)) (calls : List (SetCall α × Draw)) :
    run s ((call, d) :: calls) = (run s' calls).map fun results => result :: results := by
  simp only [run, hstep, Option.bind_eq_bind, Option.bind_some]
  cases run s' calls with
  | none => rfl
  | some results => rfl

theorem Low.run (hlt : top.height < 2 ^ 64) {calls : List (SetCall α × Draw)} (h : Low top s m made)
    (hdrawn : Drawn top.height s calls) :
    run s calls = some (setRun m (calls.map Prod.fst)) ↔ StaysLow m made calls := by
  induction calls generalizing s m made with
  | nil => exact iff_of_true rfl trivial
  | cons head calls ih =>
    obtain ⟨call, d⟩ := head
    obtain ⟨hd, hrest⟩ := hdrawn
    by_cases hstays : Stays m made d call
    · obtain ⟨s', hstep, hlow⟩ := h.step hd hstays
      have hrun := ih hlow (hrest _ hstep)
      rw [run_cons hstep, StaysLow, ← hrun, List.map_cons, setRun]
      constructor
      · intro heq
        obtain ⟨results, hresults, heq⟩ := Option.map_eq_some_iff.1 heq
        obtain ⟨-, rfl⟩ := List.cons.inj heq
        exact ⟨hstays, hresults⟩
      · rintro ⟨-, hresults⟩
        rw [hresults, Option.map_some]
    · have hnone : LinkedSkipSet.run s ((call, d) :: calls) = none := by
        rw [LinkedSkipSet.run, h.step_none hd hlt hstays]
        rfl
      rw [hnone]
      exact iff_of_false (fun heq => nomatch heq) fun hlow => hstays hlow.1

/-- A list that is searched only after an insertion, and gets no node above its lowest level, keeps
    within its arrays and gives the results of a set; no other list does. -/
theorem set_in_bounds_iff [Inhabited α] {maxLevel : ℕ} (hlt : maxLevel < 2 ^ 64) (head : ℕ)
    {calls : List (SetCall α × Draw)} (hdrawn : Drawn maxLevel (init maxLevel head) calls) :
    run (init maxLevel head) calls = some (setRun ∅ (calls.map Prod.fst)) ↔
      StaysLow ∅ false calls := by
  rcases Nat.eq_zero_or_pos maxLevel with rfl | hmax
  · -- there is no level to draw
    cases calls with
    | nil => exact iff_of_true rfl trivial
    | cons head calls =>
      obtain ⟨⟨hpos, hle, -⟩, -⟩ := hdrawn
      exact absurd (hpos.trans_le hle) (lt_irrefl 0)
  · exact (Low.init hmax head).run hlt hdrawn

/-- Two elements on the lowest level, and one of them removed. -/
def lowCalls : List (SetCall ℕ × Draw) :=
  [(.size, ⟨1, 10⟩), (.remove 7, ⟨1, 10⟩), (.insert 7, ⟨1, 10⟩), (.insert 3, ⟨1, 11⟩),
    (.insert 7, ⟨2, 12⟩), (.find 3, ⟨1, 12⟩), (.remove 3, ⟨1, 12⟩), (.find 3, ⟨1, 12⟩),
    (.size, ⟨1, 12⟩), (.clear, ⟨1, 12⟩), (.size, ⟨1, 12⟩)]

theorem set_in_bounds_iff_lowCalls :
    run (init 8 0) lowCalls = some (setRun ∅ (lowCalls.map Prod.fst)) ↔ StaysLow ∅ false lowCalls :=
  set_in_bounds_iff (by decide) 0 (by decide +kernel)

/-- A second element that draws the second level. -/
def raisedCalls : List (SetCall ℕ × Draw) := [(.insert 1, ⟨1, 10⟩), (.insert 2, ⟨2, 11⟩)]

/-- Neither the second element nor a search of a new list keeps within the arrays. -/
theorem set_out_of_bounds :
    Drawn 8 (init 8 0) raisedCalls ∧ run (init 8 0) raisedCalls = none ∧
      Drawn 8 (init 8 0) [(.find (5 : ℕ), ⟨1, 10⟩)] ∧
      run (init 8 0) [(.find (5 : ℕ), ⟨1, 10⟩)] = none := by
  decide +kernel

end LinkedSkipSet

end RaftKVStorage
