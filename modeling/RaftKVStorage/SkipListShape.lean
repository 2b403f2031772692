import RaftKVStorage.SkipListCalls

set_option autoImplicit false

/-! # The shape of a skip list

What the levels of a skip list look like, read off the pointers alone: each is a list that ends, keys
ascending, and the nodes of a level are those of the level under it that are high enough. -/

namespace RaftKVStorage

open Towers

variable {κ υ : Type}

namespace LinkedSkipList

/-! ## The levels by their pointers -/

/-- From `start` the pointers of level `l` lead to these nodes, one after another, and then nowhere. -/
def LevelFrom (heap : Heap (κ × υ)) (l : ℕ) : Option ℕ → List ℕ → Prop
  | start, [] => start = none
  | start, a :: as => start = some a ∧ ∃ next, heap.next a l = some next ∧ LevelFrom heap l next as

/-- `level` of a node. -/
def height (s : LinkedSkipList κ υ) (a : ℕ) : ℕ :=
  match s.heap a with
  | none => 0
  | some node => node.forward.length

def key? (s : LinkedSkipList κ υ) (a : ℕ) : Option κ := (s.heap a).map fun node => node.data.1

/-- The lists that start at `forward` of the head node. -/
structure Levels [LinearOrder κ] (maxLevel : ℕ) (s : LinkedSkipList κ υ) (level : ℕ → List ℕ) :
    Prop where
  forward : ∀ l < maxLevel, ∃ start, s.heap.next s.head l = some start ∧
    LevelFrom s.heap l start (level l)
  higher : ∀ l, l + 1 < maxLevel → level (l + 1) = (level l).filter fun a => l + 1 < s.height a
  ascending : ∀ l < maxLevel, ∃ keys : List κ, (level l).map s.key? = keys.map some ∧
    keys.Pairwise (· < ·)
  lower : ∀ l < maxLevel, ∀ a ∈ level l, l < s.height a
  levelNow : s.levelNow = 1 ∨ ∃ a ∈ level 0, s.height a = s.levelNow
  levelNow_le : ∀ a ∈ level 0, s.height a ≤ s.levelNow
  above : ∀ l, s.levelNow ≤ l → l < maxLevel → s.heap.next s.head l = some none
  counter : s.counter = (level 0).length

/-- The lists of all levels are as they should be. -/
def Shaped [LinearOrder κ] (maxLevel : ℕ) (s : LinkedSkipList κ υ) : Prop :=
  ∃ level, s.Levels maxLevel level

/-! ## The level in use -/

/-- The level in use is the lowest, or the head node links to something on it. -/
def Reached (s : LinkedSkipList κ υ) : Prop :=
  s.levelNow = 1 ∨ ∃ a, s.heap.next s.head (s.levelNow - 1) = some (some a)

variable {maxLevel : ℕ} {s s' : LinkedSkipList κ υ} {heap : Heap (κ × υ)} {pre : List ℕ} {d : Draw}
  {k : κ} {v : υ} {chain : List (Cell (κ × υ))} {top : Cell (κ × υ)}

theorem lower_reached {head : ℕ} : ∀ {level level' : ℕ}, lower heap head level = some level' →
    level' ≤ 1 ∨ ∃ a, heap.next head (level' - 1) = some (some a) := by
  intro level
  induction level with
  | zero =>
    rintro _ ⟨⟩
    exact Or.inl (Nat.zero_le 1)
  | succ level ih =>
    intro level' h
    cases level with
    | zero =>
      obtain rfl := Option.some.inj h
      exact Or.inl le_rfl
    | succ level =>
      rw [lower] at h
      cases hnext : heap.next head (level + 1) with
      | none => simp [hnext] at h
      | some next =>
        cases next with
        | none => exact ih (by simpa [hnext] using h)
        | some a =>
          obtain rfl : level + 2 = level' := by simpa [hnext] using h
          exact Or.inr ⟨a, hnext⟩

theorem mInsert_levelNow (h : s.mInsert pre d k v = some s') :
    s'.levelNow = max s.levelNow d.level := by
  obtain ⟨heap, -, rfl⟩ := Option.map_eq_some_iff.1 h
  rfl

section Members

variable [LinearOrder κ]

/-- `operator[]` leaves the list as it is or runs `_M_insert`. -/
theorem access_levelNow [Inhabited υ] {a : ℕ} (h : s.access d k = some (s', a)) :
    s'.levelNow = s.levelNow ∨ s'.levelNow = max s.levelNow d.level := by
  simp only [access, Option.bind_eq_bind, Option.bind_eq_some_iff] at h
  obtain ⟨pre, -, found, -, hs'⟩ := h
  cases found with
  | none =>
    simp only [Option.bind_eq_some_iff] at hs'
    obtain ⟨s'', hs'', p, -, next, -, b, -, heq⟩ := hs'
    obtain ⟨rfl, -⟩ := Prod.mk.inj (Option.some.inj heq)
    exact Or.inr (mInsert_levelNow hs'')
  | some _ =>
    simp only [Option.bind_eq_some_iff] at hs'
    obtain ⟨s'', hs'', p, -, next, -, b, -, heq⟩ := hs'
    obtain ⟨rfl, -⟩ := Prod.mk.inj (Option.some.inj heq)
    obtain rfl := Option.some.inj hs''
    exact Or.inl rfl

theorem insert_levelNow {it : Option ℕ} (h : s.insert d k v = some (s', it)) :
    s'.levelNow = s.levelNow ∨ s'.levelNow = max s.levelNow d.level := by
  simp only [insert, Option.bind_eq_bind, Option.bind_eq_some_iff] at h
  obtain ⟨pre, -, found, -, hs'⟩ := h
  cases found with
  | none =>
    obtain ⟨s'', hs'', heq⟩ := Option.map_eq_some_iff.1 hs'
    obtain ⟨rfl, -⟩ := Prod.mk.inj heq
    exact Or.inr (mInsert_levelNow hs'')
  | some _ =>
    obtain ⟨rfl, -⟩ := Prod.mk.inj (Option.some.inj hs')
    exact Or.inl rfl

omit [LinearOrder κ] in
theorem write_levelNow {a : ℕ} (h : s.write a v = some s') : s'.levelNow = s.levelNow := by
  simp only [write, Option.bind_eq_bind, Option.bind_eq_some_iff] at h
  obtain ⟨node, -, heq⟩ := h
  obtain rfl := Option.some.inj heq
  rfl

omit [LinearOrder κ] in
theorem clear_levelNow (h : s.clear = some s') : s'.levelNow = 1 := by
  simp only [clear, Option.bind_eq_bind, Option.bind_eq_some_iff] at h
  obtain ⟨node, -, heap, -, heq⟩ := h
  obtain rfl := Option.some.inj heq
  rfl

/-- `remove` lowers the level after it has led all pointers past the node. -/
theorem remove_cases (h : s.remove k = some s') :
    s' = s ∨ ∃ heap rm, lower heap s.head s.levelNow = some s'.levelNow ∧
      s'.heap = Function.update heap rm none ∧ s'.head = s.head := by
  simp only [remove, Option.bind_eq_bind, Option.bind_eq_some_iff] at h
  obtain ⟨pre, -, found, -, hs'⟩ := h
  cases found with
  | none => exact Or.inl (Option.some.inj hs').symm
  | some rm =>
    simp only [Option.bind_eq_some_iff] at hs'
    obtain ⟨heap, -, level, hlower, heq⟩ := hs'
    obtain rfl := Option.some.inj heq
    exact Or.inr ⟨heap, rm, hlower, rfl, rfl⟩

end Members

section Rep

variable [LinearOrder κ]

/-- A node on a level is what the head node links to there, or comes behind it. -/
theorem Rep.next_head (h : Rep top s chain) {l : ℕ} (hl : l < top.height) :
    s.heap.next s.head l = some (nextAt nil l chain) := by
  rw [h.head]
  exact h.linked.next hl

theorem Rep.reached_iff (h : Rep top s chain) :
    s.Reached ↔ s.levelNow = 1 ∨ ∃ c ∈ chain, c.height = s.levelNow := by
  have hpos := h.levelNow_pos
  have hnext := h.next_head (l := s.levelNow - 1) (by have := h.levelNow_le; omega)
  constructor
  · rintro (hone | ⟨a, ha⟩)
    · exact Or.inl hone
    · right
      by_contra hnone
      have hlow : ∀ c ∈ chain, c.height ≤ s.levelNow - 1 := by
        intro c hc
        have hne : c.height ≠ s.levelNow := fun heq => hnone ⟨c, hc, heq⟩
        have hle := h.height_le c hc
        omega
      rw [hnext, nextAt_of_le hlow] at ha
      cases ha
  · rintro (hone | ⟨c, hc, hheight⟩)
    · exact Or.inl hone
    · right
      have hne : nextAt nil (s.levelNow - 1) chain ≠ none := nextAt_ne_none ⟨c, hc, by omega⟩
      obtain ⟨a, ha⟩ := Option.ne_none_iff_exists'.1 hne
      exact ⟨a, hnext.trans (congrArg some ha)⟩

/-- A node is inserted. -/
theorem Rep.reached_insert {before behind : List (Cell (κ × υ))} {c : Cell (κ × υ)}
    (h : Rep top s (before ++ behind)) (hreached : s.Reached) (h' : Rep top s' (before ++ c :: behind))
    (hlevel : s'.levelNow = s.levelNow ∨ s'.levelNow = max s.levelNow c.height) : s'.Reached := by
  have hmem : c ∈ before ++ c :: behind := List.mem_append_right _ (List.mem_cons_self ..)
  have hle := h'.height_le c hmem
  rw [h'.reached_iff]
  rcases Nat.lt_or_ge s.levelNow c.height with hlt | hge
  · right
    exact ⟨c, hmem, by omega⟩
  · have heq : s'.levelNow = s.levelNow := by omega
    rw [heq]
    rcases h.reached_iff.1 hreached with hone | ⟨c', hc', hheight⟩
    · exact Or.inl hone
    · right
      refine ⟨c', ?_, hheight⟩
      rcases List.mem_append.1 hc' with hc' | hc'
      · exact List.mem_append_left _ hc'
      · exact List.mem_append_right _ (List.mem_cons_of_mem _ hc')

/-- Something else is stored in a node. -/
theorem Rep.reached_write {before behind : List (Cell (κ × υ))} {c c' : Cell (κ × υ)}
    (h : Rep top s (before ++ c :: behind)) (hreached : s.Reached)
    (h' : Rep top s' (before ++ c' :: behind)) (hheight : c'.height = c.height)
    (hlevel : s'.levelNow = s.levelNow) : s'.Reached := by
  rw [h'.reached_iff, hlevel]
  rcases h.reached_iff.1 hreached with hone | ⟨e, he, heq⟩
  · exact Or.inl hone
  · right
    rcases List.mem_append.1 he with he | he
    · exact ⟨e, List.mem_append_left _ he, heq⟩
    · rcases List.mem_cons.1 he with rfl | he
      · exact ⟨c', List.mem_append_right _ (List.mem_cons_self ..), hheight.trans heq⟩
      · exact ⟨e, List.mem_append_right _ (List.mem_cons_of_mem _ he), heq⟩

theorem Rep.reached_remove (hreached : s.Reached) (h' : Rep top s' chain)
    (hremove : s.remove k = some s') : s'.Reached := by
  obtain rfl | ⟨heap, rm, hlower, hheap, hhead⟩ := remove_cases hremove
  · exact hreached
  · obtain hle | ⟨a, ha⟩ := lower_reached hlower
    · have hpos := h'.levelNow_pos
      exact Or.inl (by omega)
    · right
      have hne : s.head ≠ rm := by
        rintro rfl
        have hstored := h'.linked.1
        rw [← h'.head, hhead, hheap, Function.update_self] at hstored
        cases hstored
      refine ⟨a, ?_⟩
      rw [hhead, hheap, Heap.next, Function.update_of_ne hne]
      exact ha

/-! ## What the invariant says of the levels -/

/-- The nodes of a level. -/
def onLevel (chain : List (Cell (κ × υ))) (l : ℕ) : List (Cell (κ × υ)) :=
  chain.filter fun c => l < c.height

omit [LinearOrder κ] in
theorem levelFrom_of_linked (h : Linked heap nil chain) (l : ℕ) :
    LevelFrom heap l (nextAt nil l chain) ((onLevel chain l).map Cell.addr) := by
  induction chain with
  | nil => rfl
  | cons c chain ih =>
    rw [nextAt]
    by_cases hl : l < c.height
    · rw [if_pos hl, onLevel, List.filter_cons_of_pos (by simpa using hl), List.map_cons]
      exact ⟨rfl, _, h.next hl, ih h.2⟩
    · rw [if_neg hl, onLevel, List.filter_cons_of_neg (by simpa using hl)]
      exact ih h.2

theorem Rep.get (h : Rep top s chain) {c : Cell (κ × υ)} (hc : c ∈ chain) :
    s.height c.addr = c.height ∧ s.key? c.addr = some c.data.1 := by
  obtain ⟨before, behind, rfl⟩ := List.append_of_mem hc
  have hlinked : Linked s.heap nil ((top :: before) ++ c :: behind) := h.linked
  have hget := (Linked.append.1 hlinked).2.1
  constructor
  · simp [height, hget]
  · simp [key?, hget]

theorem Rep.levels (h : Rep top s chain) (hreached : s.Reached) :
    s.Levels top.height fun l => (onLevel chain l).map Cell.addr := by
  have hzero : onLevel chain 0 = chain := List.filter_eq_self.2 fun c hc => by
    simpa using h.height_pos c hc
  have hmem : ∀ l, ∀ a ∈ (onLevel chain l).map Cell.addr,
      ∃ c ∈ chain, c.addr = a ∧ l < c.height ∧ s.height a = c.height := by
    intro l a ha
    obtain ⟨c, hc, rfl⟩ := List.mem_map.1 ha
    obtain ⟨hchain, hl⟩ := List.mem_filter.1 hc
    exact ⟨c, hchain, rfl, by simpa using hl, (h.get hchain).1⟩
  constructor
  · intro l hl
    exact ⟨_, h.next_head hl, levelFrom_of_linked h.linked.2 l⟩
  · intro l _
    rw [List.filter_map, onLevel, onLevel, List.filter_filter]
    refine congrArg (List.map Cell.addr) (List.filter_congr fun c hc => ?_)
    simp only [Function.comp_apply, (h.get hc).1, ← Bool.decide_and, decide_eq_decide]
    omega
  · intro l _
    refine ⟨(onLevel chain l).map fun c => c.data.1, ?_, ?_⟩
    · rw [List.map_map, List.map_map]
      exact List.map_congr_left fun c hc => (h.get (List.mem_of_mem_filter hc)).2
    · have hsub : (onLevel chain l).Sublist chain := List.filter_sublist
      exact List.pairwise_map.2 ((List.pairwise_map.1 h.ascending).sublist hsub)
  · intro l _ a ha
    obtain ⟨c, -, -, hlt, hheight⟩ := hmem l a ha
    omega
  · rcases h.reached_iff.1 hreached with hone | ⟨c, hc, hheight⟩
    · exact Or.inl hone
    · right
      refine ⟨c.addr, ?_, (h.get hc).1.trans hheight⟩
      rw [hzero]
      exact List.mem_map_of_mem hc
  · intro a ha
    obtain ⟨c, hc, -, -, hheight⟩ := hmem 0 a ha
    rw [hheight]
    exact h.height_le c hc
  · intro l hle hl
    rw [h.next_head hl, nextAt_of_le fun c hc => (h.height_le c hc).trans hle]
  · rw [hzero, List.length_map, h.counter]

end Rep

end LinkedSkipList

/-! ## Runs -/

namespace SkipUser

open LinkedSkipList

variable [LinearOrder κ] [Inhabited υ]

/-- After a sequence of calls. -/
def after (u : SkipUser κ υ) : List (SkipCall κ υ × Draw) → Option (SkipUser κ υ)
  | [] => some u
  | (call, d) :: calls => do
      let (u, _) ← u.step d call
      u.after calls

variable {u u' : SkipUser κ υ} {top : Cell (κ × υ)} {m : Finmap fun _ : κ => υ} {d : Draw}

/-- Every call leaves the level in use at one that is reached. -/
theorem Refines.reached (h : Refines top u m) (hreached : u.list.Reached) (call : SkipCall κ υ)
    (hd : u.list.Admits top.height d) (h' : Refines top u' (mapStep m call).1)
    (hstep : u.step d call = some (u', (mapStep m call).2)) : u'.list.Reached := by
  obtain ⟨chain, hrep, -, hrefs⟩ := h
  obtain ⟨chain', hrep', -, -⟩ := h'
  cases call with
  | access k =>
    rcases hrep.access hd k with ⟨before, behind, s', rfl, -, -, haccess, hrepl⟩ |
      ⟨c, -, -, haccess⟩
    · simp only [SkipUser.step, haccess, Option.bind_eq_bind, Option.bind_some,
        Option.bind_eq_some_iff] at hstep
      obtain ⟨node, -, heq⟩ := hstep
      obtain ⟨rfl, -⟩ := Prod.mk.inj (Option.some.inj heq)
      exact hrep.reached_insert hreached hrepl (access_levelNow haccess)
    · simp only [SkipUser.step, haccess, Option.bind_eq_bind, Option.bind_some,
        Option.bind_eq_some_iff] at hstep
      obtain ⟨node, -, heq⟩ := hstep
      obtain ⟨rfl, -⟩ := Prod.mk.inj (Option.some.inj heq)
      exact hreached
  | assign k v =>
    simp only [SkipUser.step, Option.bind_eq_bind, Option.bind_eq_some_iff] at hstep
    obtain ⟨a, hk, s', hwrite, heq⟩ := hstep
    obtain ⟨rfl, -⟩ := Prod.mk.inj (Option.some.inj heq)
    obtain ⟨c, hc, rfl, rfl⟩ := hrefs k a hk
    obtain ⟨before, behind, rfl⟩ := List.append_of_mem hc
    obtain ⟨s'', hwrite', hrepl⟩ := hrep.write v
    obtain rfl := Option.some.inj (hwrite.symm.trans hwrite')
    exact hrep.reached_write hreached hrepl rfl (write_levelNow hwrite)
  | insert k v =>
    simp only [SkipUser.step, Option.bind_eq_bind, Option.bind_eq_some_iff] at hstep
    obtain ⟨⟨s', it⟩, hinsert, node, -, heq⟩ := hstep
    obtain ⟨rfl, -⟩ := Prod.mk.inj (Option.some.inj heq)
    rcases hrep.insert hd k v with ⟨before, behind, s'', rfl, -, -, hinsert', hrepl⟩ | ⟨-, hinsert'⟩
    · obtain ⟨rfl, -⟩ := Prod.mk.inj (Option.some.inj (hinsert.symm.trans hinsert'))
      exact hrep.reached_insert hreached hrepl (insert_levelNow hinsert)
    · obtain ⟨rfl, -⟩ := Prod.mk.inj (Option.some.inj (hinsert.symm.trans hinsert'))
      exact hreached
  | remove k =>
    simp only [SkipUser.step, Option.bind_eq_bind, Option.bind_eq_some_iff] at hstep
    obtain ⟨s', hremove, heq⟩ := hstep
    obtain ⟨rfl, -⟩ := Prod.mk.inj (Option.some.inj heq)
    exact Rep.reached_remove hreached hrep' hremove
  | find k =>
    simp only [SkipUser.step, Option.bind_eq_bind, Option.bind_eq_some_iff] at hstep
    obtain ⟨it, -, node, -, heq⟩ := hstep
    obtain ⟨rfl, -⟩ := Prod.mk.inj (Option.some.inj heq)
    exact hreached
  | clear =>
    simp only [SkipUser.step, Option.bind_eq_bind, Option.bind_eq_some_iff] at hstep
    obtain ⟨s', hclear, heq⟩ := hstep
    obtain ⟨rfl, -⟩ := Prod.mk.inj (Option.some.inj heq)
    exact Or.inl (clear_levelNow hclear)
  | size =>
    obtain ⟨rfl, -⟩ := Prod.mk.inj (Option.some.inj hstep)
    exact hreached
  | iterate =>
    simp only [SkipUser.step, Option.bind_eq_bind, Option.bind_eq_some_iff] at hstep
    obtain ⟨nodes, -, heq⟩ := hstep
    obtain ⟨rfl, -⟩ := Prod.mk.inj (Option.some.inj heq)
    exact hreached

theorem Refines.shaped {calls : List (SkipCall κ υ × Draw)} (h : Refines top u m)
    (hreached : u.list.Reached) (hlegal : Legal top.height u calls) :
    ∃ u', u.after calls = some u' ∧ u'.list.Shaped top.height := by
  induction calls generalizing u m with
  | nil =>
    obtain ⟨chain, hrep, -⟩ := h
    exact ⟨u, rfl, _, hrep.levels hreached⟩
  | cons head calls ih =>
    obtain ⟨call, d⟩ := head
    obtain ⟨hd, hheld, hrest⟩ := hlegal
    obtain ⟨u', hstep, hrefines⟩ := h.step call hd hheld
    obtain ⟨u'', hafter, hshaped⟩ := ih hrefines (h.reached hreached call hd hrefines hstep)
      (hrest _ hstep)
    refine ⟨u'', ?_, hshaped⟩
    simp only [after, Option.bind_eq_bind, hstep, Option.bind_some]
    exact hafter

/-- Whatever levels are drawn, after any calls the levels of a skip list have the shape they should
    have. -/
theorem list_shaped [Inhabited κ] {maxLevel : ℕ} (hmax : 0 < maxLevel) (head : ℕ)
    {calls : List (SkipCall κ υ × Draw)} (hlegal : Legal maxLevel (init maxLevel head) calls) :
    ∃ u, (init maxLevel head : SkipUser κ υ).after calls = some u ∧ u.list.Shaped maxLevel := by
  have hrefines : Refines ⟨head, (default, default), maxLevel⟩ (init maxLevel head : SkipUser κ υ) ∅ :=
    ⟨[], Rep.init hmax head, .empty, fun k a hk => by cases hk⟩
  exact hrefines.shaped (Or.inl rfl) hlegal

theorem list_shaped_exampleCalls :
    ∃ u, (init 3 0 : SkipUser ℕ ℕ).after exampleCalls = some u ∧ u.list.Shaped 3 :=
  list_shaped (by decide) 0 (by decide +kernel)

end SkipUser

end RaftKVStorage
