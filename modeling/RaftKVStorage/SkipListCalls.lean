import RaftKVStorage.KvSkipList
import RaftKVStorage.LinkedSkipList

set_option autoImplicit false

/-! # Calls on a skip list

Any sequence of calls on a skip list gives the results of the same calls on a finite map, and so does
`KvSkipList`, which knows the bottom level only. -/

namespace RaftKVStorage

open Towers

variable {κ υ : Type}

/-- A call of a member function. `assign k` assigns through what `operator[]` returned for `k`. -/
inductive SkipCall (κ υ : Type)
  | access (k : κ)
  | assign (k : κ) (v : υ)
  | insert (k : κ) (v : υ)
  | remove (k : κ)
  | find (k : κ)
  | clear
  | size
  | iterate

/-- What a caller sees of a result: of an iterator what it refers to, none at the end. -/
inductive SkipResult (κ υ : Type)
  | unit
  | value (v : υ)
  | iterator (node : Option (κ × υ))
  | size (size : ℕ)
  | nodes (nodes : List (κ × υ))
deriving DecidableEq

/-- A list and the references into it that the caller holds: the last result of `operator[]` for each
    key whose node is still there. -/
structure SkipUser (κ υ : Type) where
  list : LinkedSkipList κ υ
  refs : κ → Option ℕ

namespace SkipUser

open LinkedSkipList SortedMap

variable [LinearOrder κ] [Inhabited υ]

/-- What an iterator refers to. -/
def deref (s : LinkedSkipList κ υ) : Option ℕ → Option (Option (κ × υ))
  | none => some none
  | some a => (s.heap a).map fun node => some node.data

def step (u : SkipUser κ υ) (d : Draw) : SkipCall κ υ → Option (SkipUser κ υ × SkipResult κ υ)
  | .access k => do
      let (s, a) ← u.list.access d k
      let node ← s.heap a
      some (⟨s, Function.update u.refs k (some a)⟩, .value node.data.2)
  | .assign k v => do
      let s ← u.list.write (← u.refs k) v
      some ({ u with list := s }, .unit)
  | .insert k v => do
      let (s, it) ← u.list.insert d k v
      some ({ u with list := s }, .iterator (← deref s it))
  | .remove k => do
      let s ← u.list.remove k
      some (⟨s, Function.update u.refs k none⟩, .unit)
  | .find k => do
      let it ← u.list.find k
      some (u, .iterator (← deref u.list it))
  | .clear => do
      let s ← u.list.clear
      some (⟨s, fun _ => none⟩, .unit)
  | .size => some (u, .size u.list.counter)
  | .iterate => do
      let nodes ← u.list.nodes
      some (u, .nodes nodes)

/-- The results of a sequence of calls. -/
def run (u : SkipUser κ υ) : List (SkipCall κ υ × Draw) → Option (List (SkipResult κ υ))
  | [] => some []
  | (call, d) :: calls => do
      let (u, result) ← u.step d call
      let results ← u.run calls
      some (result :: results)

/-- An assignment needs a reference that the caller holds. -/
def Holding (u : SkipUser κ υ) : SkipCall κ υ → Prop
  | .assign k _ => u.refs k ≠ none
  | _ => True

/-- The draws are of levels there are and of free addresses, and the caller assigns through references
    that it holds. -/
def Legal (maxLevel : ℕ) : SkipUser κ υ → List (SkipCall κ υ × Draw) → Prop
  | _, [] => True
  | u, (call, d) :: calls =>
      u.list.Admits maxLevel d ∧ u.Holding call ∧ ∀ r ∈ u.step d call, Legal maxLevel r.1 calls

instance (s : LinkedSkipList κ υ) (maxLevel : ℕ) (d : Draw) : Decidable (s.Admits maxLevel d) :=
  decidable_of_iff (0 < d.level ∧ d.level ≤ maxLevel ∧ (s.heap d.addr).isNone = true) (by
    rw [Option.isNone_iff_eq_none]
    rfl)

instance (u : SkipUser κ υ) : (call : SkipCall κ υ) → Decidable (u.Holding call)
  | .assign k _ => inferInstanceAs (Decidable (u.refs k ≠ none))
  | .access _ | .insert _ _ | .remove _ | .find _ | .clear | .size | .iterate => .isTrue trivial

instance Legal.decidable (maxLevel : ℕ) :
    (u : SkipUser κ υ) → (calls : List (SkipCall κ υ × Draw)) → Decidable (Legal maxLevel u calls)
  | _, [] => .isTrue trivial
  | u, (call, d) :: calls =>
      have : ∀ r : SkipUser κ υ × SkipResult κ υ, Decidable (Legal maxLevel r.1 calls) :=
        fun r => Legal.decidable maxLevel r.1 calls
      inferInstanceAs (Decidable (u.list.Admits maxLevel d ∧ u.Holding call ∧
        ∀ r ∈ u.step d call, Legal maxLevel r.1 calls))

/-- The calls on a finite map. -/
def mapStep (m : Finmap fun _ : κ => υ) : SkipCall κ υ → (Finmap fun _ : κ => υ) × SkipResult κ υ
  | .access k =>
      match m.lookup k with
      | none => (m.insert k default, .value default)
      | some v => (m, .value v)
  | .assign k v => (m.insert k v, .unit)
  | .insert k v =>
      match m.lookup k with
      | none => (m.insert k v, .iterator (some (k, v)))
      | some _ => (m, .iterator none)
  | .remove k => (m.erase k, .unit)
  | .find k => (m, .iterator ((m.lookup k).map fun v => (k, v)))
  | .clear => (∅, .unit)
  | .size => (m, .size m.keys.card)
  | .iterate => (m, .nodes (entries m))

def mapRun (m : Finmap fun _ : κ => υ) : List (SkipCall κ υ) → List (SkipResult κ υ)
  | [] => []
  | call :: calls => (mapStep m call).2 :: mapRun (mapStep m call).1 calls

/-- The list has the entries of the map, and the references lead to the nodes of their keys. -/
def Refines (top : Cell (κ × υ)) (u : SkipUser κ υ) (m : Finmap fun _ : κ => υ) : Prop :=
  ∃ chain, Rep top u.list chain ∧ Holds m (chain.map Cell.data) ∧
    ∀ k a, u.refs k = some a → ∃ c ∈ chain, c.addr = a ∧ c.data.1 = k

variable {top : Cell (κ × υ)} {u : SkipUser κ υ} {m : Finmap fun _ : κ => υ} {d : Draw}

omit [LinearOrder κ] [Inhabited υ] in
theorem forall_mem_map_data {chain : List (Cell (κ × υ))} {q : κ → Prop}
    (h : ∀ c ∈ chain, q c.data.1) : ∀ e ∈ chain.map Cell.data, q e.1 := by
  intro e he
  obtain ⟨c, hc, rfl⟩ := List.mem_map.1 he
  exact h c hc

omit [Inhabited υ] in
/-- A node that is added where its key has its place. -/
theorem holds_insert {before behind : List (Cell (κ × υ))} {k : κ}
    (h : Holds m ((before ++ behind).map Cell.data)) (hbefore : ∀ c ∈ before, c.data.1 < k)
    (hbehind : ∀ c ∈ behind, k < c.data.1) (v : υ) (addr height : ℕ) :
    m.lookup k = none ∧
      Holds (m.insert k v) ((before ++ ⟨addr, (k, v), height⟩ :: behind).map Cell.data) := by
  rw [List.map_append] at h
  refine ⟨h.lookup_eq_none fun e he => ?_, ?_⟩
  · rcases List.mem_append.1 he with he | he
    · exact (forall_mem_map_data (q := (· < k)) hbefore e he).ne
    · exact (forall_mem_map_data (q := (k < ·)) hbehind e he).ne'
  · rw [List.map_append, List.map_cons]
    exact h.insert (forall_mem_map_data (q := (· < k)) hbefore)
      (forall_mem_map_data (q := (k < ·)) hbehind) v

theorem Refines.step (h : Refines top u m) (call : SkipCall κ υ) (hd : u.list.Admits top.height d)
    (hheld : u.Holding call) :
    ∃ u', u.step d call = some (u', (mapStep m call).2) ∧ Refines top u' (mapStep m call).1 := by
  obtain ⟨chain, hrep, hholds, hrefs⟩ := h
  cases call with
  | access k =>
    rcases hrep.access hd k with ⟨before, behind, s', rfl, hbefore, hbehind, haccess, hrep'⟩ |
      ⟨c, hc, rfl, haccess⟩
    · obtain ⟨hnone, hholds'⟩ := holds_insert hholds hbefore hbehind default d.addr d.level
      obtain ⟨forward, hget⟩ := hrep'.linked.get (c := ⟨d.addr, (k, default), d.level⟩) (by simp)
      refine ⟨⟨s', Function.update u.refs k (some d.addr)⟩, ?_, _, hrep', ?_, fun k' a ha => ?_⟩
      · simp [SkipUser.step, haccess, hget, mapStep, hnone]
      · simp only [mapStep, hnone]
        exact hholds'
      · by_cases hk : k' = k
        · subst hk
          simp only [Function.update_self, Option.some.injEq] at ha
          exact ⟨⟨d.addr, (k', default), d.level⟩, by simp, ha, rfl⟩
        · simp only [Function.update_of_ne hk] at ha
          obtain ⟨c, hc, hca, hck⟩ := hrefs k' a ha
          refine ⟨c, ?_, hca, hck⟩
          rcases List.mem_append.1 hc with hc | hc
          · exact List.mem_append_left _ hc
          · exact List.mem_append_right _ (List.mem_cons_of_mem _ hc)
    · have hlookup : m.lookup c.data.1 = some c.data.2 := (hholds _ _).2 (List.mem_map_of_mem hc)
      obtain ⟨forward, hget⟩ := hrep.linked.get (List.mem_cons_of_mem _ hc)
      refine ⟨⟨u.list, Function.update u.refs c.data.1 (some c.addr)⟩, ?_, chain, hrep, ?_,
        fun k' a ha => ?_⟩
      · simp [SkipUser.step, haccess, hget, mapStep, hlookup]
      · simp only [mapStep, hlookup]
        exact hholds
      · by_cases hk : k' = c.data.1
        · subst hk
          simp only [Function.update_self, Option.some.injEq] at ha
          exact ⟨c, hc, ha, rfl⟩
        · simp only [Function.update_of_ne hk] at ha
          exact hrefs k' a ha
  | assign k v =>
    cases hk : u.refs k with
    | none => exact absurd hk hheld
    | some a =>
      obtain ⟨c, hc, rfl, rfl⟩ := hrefs k a hk
      obtain ⟨before, behind, rfl⟩ := List.append_of_mem hc
      obtain ⟨s', hwrite, hrep'⟩ := hrep.write v
      have hasc := hrep.ascending
      rw [Ascending, List.map_append, List.map_cons, List.pairwise_append, List.pairwise_cons] at hasc
      rw [List.map_append, List.map_cons] at hholds
      refine ⟨{ u with list := s' }, ?_, _, hrep', ?_, fun k' a' ha => ?_⟩
      · simp [SkipUser.step, hk, hwrite, mapStep]
      · rw [List.map_append, List.map_cons]
        exact hholds.replace (fun e he => hasc.2.2 e he _ (List.mem_cons_self ..)) hasc.2.1.1 v
      · obtain ⟨c', hc', hca, hck⟩ := hrefs k' a' ha
        rcases List.mem_append.1 hc' with hc' | hc'
        · exact ⟨c', List.mem_append_left _ hc', hca, hck⟩
        · rcases List.mem_cons.1 hc' with rfl | hc'
          · exact ⟨{ c' with data := (c'.data.1, v) }, by simp, hca, hck⟩
          · exact ⟨c', List.mem_append_right _ (List.mem_cons_of_mem _ hc'), hca, hck⟩
  | insert k v =>
    rcases hrep.insert hd k v with ⟨before, behind, s', rfl, hbefore, hbehind, hinsert, hrep'⟩ |
      ⟨⟨c, hc, rfl⟩, hinsert⟩
    · obtain ⟨hnone, hholds'⟩ := holds_insert hholds hbefore hbehind v d.addr d.level
      obtain ⟨forward, hget⟩ := hrep'.linked.get (c := ⟨d.addr, (k, v), d.level⟩) (by simp)
      refine ⟨{ u with list := s' }, ?_, _, hrep', ?_, fun k' a ha => ?_⟩
      · simp [SkipUser.step, hinsert, deref, hget, mapStep, hnone]
      · simp only [mapStep, hnone]
        exact hholds'
      · obtain ⟨c, hc, hca, hck⟩ := hrefs k' a ha
        refine ⟨c, ?_, hca, hck⟩
        rcases List.mem_append.1 hc with hc | hc
        · exact List.mem_append_left _ hc
        · exact List.mem_append_right _ (List.mem_cons_of_mem _ hc)
    · have hlookup : m.lookup c.data.1 = some c.data.2 := (hholds _ _).2 (List.mem_map_of_mem hc)
      refine ⟨u, ?_, chain, hrep, ?_, hrefs⟩
      · simp [SkipUser.step, hinsert, deref, mapStep, hlookup]
      · simp only [mapStep, hlookup]
        exact hholds
  | remove k =>
    rcases hrep.found k with ⟨before, behind, pre, rfl, hloc, hgt, hfound⟩ |
      ⟨before, c, behind, pre, rfl, hloc, rfl, hgt, hfound⟩
    · have hremove := Rep.remove_absent hloc hfound
      refine ⟨⟨u.list, Function.update u.refs k none⟩, by simp [SkipUser.step, hremove, mapStep], _,
        hrep, hholds.erase_absent (forall_mem_map_data (q := (· ≠ k)) fun c hc => ?_),
        fun k' a ha => ?_⟩
      · rcases List.mem_append.1 hc with hc | hc
        · exact (hloc.before_lt c hc).ne
        · exact (hgt c hc).ne'
      · by_cases hk : k' = k
        · subst hk
          simp at ha
        · simp only [Function.update_of_ne hk] at ha
          exact hrefs k' a ha
    · obtain ⟨s', hremove, hrep'⟩ := hrep.remove hloc hfound
      rw [List.map_append, List.map_cons] at hholds
      refine ⟨⟨s', Function.update u.refs c.data.1 none⟩, by simp [SkipUser.step, hremove, mapStep], _,
        hrep', ?_, fun k' a ha => ?_⟩
      · rw [List.map_append]
        exact hholds.erase (forall_mem_map_data (q := (· < c.data.1)) hloc.before_lt)
          (forall_mem_map_data (q := (c.data.1 < ·)) hgt)
      · by_cases hk : k' = c.data.1
        · subst hk
          simp at ha
        · simp only [Function.update_of_ne hk] at ha
          obtain ⟨c', hc', hca, hck⟩ := hrefs k' a ha
          refine ⟨c', ?_, hca, hck⟩
          rcases List.mem_append.1 hc' with hc' | hc'
          · exact List.mem_append_left _ hc'
          · rcases List.mem_cons.1 hc' with rfl | hc'
            · exact absurd hck.symm hk
            · exact List.mem_append_right _ hc'
  | find k =>
    rcases hrep.find k with ⟨hfind, hne⟩ | ⟨c, hc, rfl, hfind⟩
    · have hnone := hholds.lookup_eq_none (forall_mem_map_data (q := (· ≠ k)) hne)
      exact ⟨u, by simp [SkipUser.step, hfind, deref, mapStep, hnone], chain, hrep, hholds, hrefs⟩
    · have hlookup : m.lookup c.data.1 = some c.data.2 := (hholds _ _).2 (List.mem_map_of_mem hc)
      obtain ⟨forward, hget⟩ := hrep.linked.get (List.mem_cons_of_mem _ hc)
      exact ⟨u, by simp [SkipUser.step, hfind, deref, hget, mapStep, hlookup], chain, hrep, hholds, hrefs⟩
  | clear =>
    obtain ⟨s', hclear, hrep'⟩ := hrep.clear
    refine ⟨⟨s', fun _ => none⟩, by simp [SkipUser.step, hclear, mapStep], [], hrep', .empty, ?_⟩
    intro k a hk
    cases hk
  | size =>
    refine ⟨u, ?_, chain, hrep, hholds, hrefs⟩
    rw [SkipUser.step, mapStep, hholds.card_keys hrep.ascending, hrep.counter, List.length_map]
  | iterate =>
    refine ⟨u, ?_, chain, hrep, hholds, hrefs⟩
    simp [SkipUser.step, mapStep, hrep.nodes, hholds.entries_eq hrep.ascending]

/-- Whatever levels are drawn, a skip list gives the results of a finite map. -/
theorem Refines.run {calls : List (SkipCall κ υ × Draw)} (h : Refines top u m)
    (hlegal : Legal top.height u calls) : u.run calls = some (mapRun m (calls.map Prod.fst)) := by
  induction calls generalizing u m with
  | nil => rfl
  | cons head calls ih =>
    obtain ⟨call, d⟩ := head
    obtain ⟨hd, hheld, hrest⟩ := hlegal
    obtain ⟨u', hstep, hrefines⟩ := h.step call hd hheld
    have hrun := ih hrefines (hrest _ hstep)
    simp only [SkipUser.run, Option.bind_eq_bind, hstep, Option.bind_some, hrun]
    rfl

/-- A list that was made just now. -/
def init [Inhabited κ] (maxLevel head : ℕ) : SkipUser κ υ where
  list := LinkedSkipList.init maxLevel head
  refs := fun _ => none

theorem results_eq_mapRun [Inhabited κ] {maxLevel : ℕ} (hmax : 0 < maxLevel) (head : ℕ)
    {calls : List (SkipCall κ υ × Draw)} (hlegal : Legal maxLevel (init maxLevel head) calls) :
    (init maxLevel head : SkipUser κ υ).run calls = some (mapRun ∅ (calls.map Prod.fst)) := by
  have hrefines : Refines ⟨head, (default, default), maxLevel⟩ (init maxLevel head : SkipUser κ υ) ∅ :=
    ⟨[], Rep.init hmax head, .empty, fun k a hk => by cases hk⟩
  exact hrefines.run hlegal

/-- The calls of `examples.cpp` on fewer keys, and a removal that lowers the level. -/
def exampleCalls : List (SkipCall ℕ ℕ × Draw) :=
  [(.access 0, ⟨1, 10⟩), (.assign 0 1, ⟨1, 11⟩), (.access 1, ⟨3, 11⟩), (.assign 1 1, ⟨1, 12⟩),
    (.access 0, ⟨1, 12⟩), (.insert 1 1000, ⟨2, 12⟩), (.insert 3 10, ⟨2, 12⟩), (.assign 0 2, ⟨1, 13⟩),
    (.size, ⟨1, 13⟩), (.iterate, ⟨1, 13⟩), (.remove 1, ⟨1, 13⟩), (.find 1, ⟨1, 13⟩),
    (.find 3, ⟨1, 13⟩), (.clear, ⟨1, 13⟩), (.iterate, ⟨1, 10⟩)]

theorem results_eq_mapRun_exampleCalls :
    (init 3 0 : SkipUser ℕ ℕ).run exampleCalls = some (mapRun ∅ (exampleCalls.map Prod.fst)) :=
  results_eq_mapRun (by decide) 0 (by decide +kernel)

end SkipUser

/-! ## The bottom level alone -/

namespace KvSkipList

open SortedMap

variable [LinearOrder κ] {m : Finmap fun _ : κ => υ}

theorem findNode_eq_some {l : List (κ × υ)} (hl : Ascending l) {k : κ} {v : υ} :
    findNode k l = some v ↔ (k, v) ∈ l := by
  induction l with
  | nil => simp [findNode]
  | cons e l ih =>
    obtain ⟨k', v'⟩ := e
    obtain ⟨hhead, htail⟩ := List.pairwise_cons.1 hl
    rw [findNode, List.mem_cons]
    rcases lt_trichotomy k' k with hlt | rfl | hgt
    · rw [if_pos hlt, ih htail]
      simp [hlt.ne']
    · have hnot : (k', v) ∉ l := fun hmem => absurd (hhead _ hmem) (lt_irrefl _)
      simp [hnot, eq_comm]
    · have hnot : (k, v) ∉ l := fun hmem => absurd (hhead _ hmem) hgt.not_gt
      simp [hgt, hgt.not_gt, hgt.ne, hnot]

/-- The list has the entries of a map if its `find` is the map's. -/
theorem holds_iff {t : KvSkipList κ υ} : Holds m t.nodes ↔ ∀ k, t.find k = m.lookup k := by
  have hfind : ∀ k v, t.find k = some v ↔ (k, v) ∈ t.nodes := fun k v => findNode_eq_some t.sorted
  constructor
  · intro h k
    refine Option.ext fun v => ?_
    rw [hfind k v, h k v]
  · intro h k v
    rw [← h k, hfind k v]

/-- Inserting does to it what it does to the map. -/
theorem holds_insert [Inhabited υ] {t : KvSkipList κ υ} (h : Holds m t.nodes) (k : κ) (v : υ) :
    Holds (SkipUser.mapStep m (.insert k v)).1 (t.insert k v).nodes := by
  refine holds_iff.2 fun k' => ?_
  rw [find_insert, holds_iff.1 h, holds_iff.1 h, SkipUser.mapStep]
  cases hlookup : m.lookup k with
  | none =>
    split_ifs with hk
    · rw [hk, Finmap.lookup_insert]
      rfl
    · rw [Finmap.lookup_insert_of_ne m hk]
  | some v' =>
    split_ifs with hk
    · rw [hk, hlookup]
      rfl
    · rfl

end KvSkipList

end RaftKVStorage
