import Mathlib.Data.Finmap
import Mathlib.Data.Finset.Sort

set_option autoImplicit false

/-! # Finite maps as ascending lists

A list of entries in ascending order of their keys stands for a finite map: changing the list where a
key has its place changes the map at that key, the length of the list counts the keys, and the list is
what the map enumerates to. -/

namespace SortedMap

variable {κ υ : Type} [LinearOrder κ]

/-- The entries of a map, each key once, keys ascending. -/
def entries (m : Finmap fun _ : κ => υ) : List (κ × υ) :=
  m.keys.sort.filterMap fun k => (m.lookup k).map fun v => (k, v)

def Ascending (l : List (κ × υ)) : Prop := l.Pairwise fun a b => a.1 < b.1

/-- The list has the entries of the map. -/
def Holds (m : Finmap fun _ : κ => υ) (l : List (κ × υ)) : Prop :=
  ∀ k v, m.lookup k = some v ↔ (k, v) ∈ l

variable {m : Finmap fun _ : κ => υ} {l before behind : List (κ × υ)} {k : κ} {v : υ}

theorem Holds.empty : Holds (∅ : Finmap fun _ : κ => υ) [] := by
  intro k v
  simp

theorem Holds.lookup_eq_none (h : Holds m l) (hk : ∀ e ∈ l, e.1 ≠ k) : m.lookup k = none := by
  cases hm : m.lookup k with
  | none => rfl
  | some v => exact absurd rfl (hk _ ((h k v).1 hm))

/-- An entry put where its key has its place. -/
theorem Holds.insert (h : Holds m (before ++ behind)) (hbefore : ∀ e ∈ before, e.1 < k)
    (hbehind : ∀ e ∈ behind, k < e.1) (v : υ) :
    Holds (m.insert k v) (before ++ (k, v) :: behind) := by
  intro k' v'
  by_cases hk : k' = k
  · subst hk
    rw [Finmap.lookup_insert]
    constructor
    · rintro ⟨⟩
      exact List.mem_append_right _ (List.mem_cons_self ..)
    · intro hmem
      rcases List.mem_append.1 hmem with hmem | hmem
      · exact absurd (hbefore _ hmem) (lt_irrefl _)
      · rcases List.mem_cons.1 hmem with heq | hmem
        · rw [(Prod.mk.inj heq).2]
        · exact absurd (hbehind _ hmem) (lt_irrefl _)
  · rw [Finmap.lookup_insert_of_ne m hk, h k' v']
    simp [hk]

/-- Whatever the entry of a key is, without it the rest is the map without the key. -/
theorem Holds.erase (h : Holds m (before ++ (k, v) :: behind))
    (hbefore : ∀ e ∈ before, e.1 < k) (hbehind : ∀ e ∈ behind, k < e.1) :
    Holds (m.erase k) (before ++ behind) := by
  intro k' v'
  by_cases hk : k' = k
  · subst hk
    rw [Finmap.lookup_erase]
    constructor
    · rintro ⟨⟩
    · intro hmem
      rcases List.mem_append.1 hmem with hmem | hmem
      · exact absurd (hbefore _ hmem) (lt_irrefl _)
      · exact absurd (hbehind _ hmem) (lt_irrefl _)
  · rw [Finmap.lookup_erase_ne hk, h k' v']
    simp [hk]

/-- An entry put in the place of another with its key. -/
theorem Holds.replace (h : Holds m (before ++ (k, v) :: behind)) (hbefore : ∀ e ∈ before, e.1 < k)
    (hbehind : ∀ e ∈ behind, k < e.1) (v' : υ) :
    Holds (m.insert k v') (before ++ (k, v') :: behind) := by
  have hinsert := (h.erase hbefore hbehind).insert hbefore hbehind v'
  intro k' w
  rw [← hinsert k' w]
  by_cases hk : k' = k
  · subst hk
    rw [Finmap.lookup_insert, Finmap.lookup_insert]
  · rw [Finmap.lookup_insert_of_ne _ hk, Finmap.lookup_insert_of_ne _ hk, Finmap.lookup_erase_ne hk]

/-- Erasing a key that has no entry changes nothing. -/
theorem Holds.erase_absent (h : Holds m l) (hk : ∀ e ∈ l, e.1 ≠ k) : Holds (m.erase k) l := by
  intro k' v'
  by_cases heq : k' = k
  · subst heq
    rw [Finmap.lookup_erase, ← h, h.lookup_eq_none hk]
  · rw [Finmap.lookup_erase_ne heq, h k' v']

theorem Ascending.nodup_keys (hl : Ascending l) : (l.map Prod.fst).Nodup :=
  List.nodup_iff_pairwise_ne.2 (List.pairwise_map.2 (hl.imp fun hlt => hlt.ne))

theorem Holds.keys_eq (h : Holds m l) : m.keys = (l.map Prod.fst).toFinset := by
  ext k
  rw [Finmap.mem_keys, Finmap.mem_iff, List.mem_toFinset, List.mem_map]
  constructor
  · rintro ⟨v, hv⟩
    exact ⟨(k, v), (h k v).1 hv, rfl⟩
  · rintro ⟨⟨k', v⟩, hmem, rfl⟩
    exact ⟨v, (h k' v).2 hmem⟩

theorem Holds.card_keys (h : Holds m l) (hl : Ascending l) : m.keys.card = l.length := by
  rw [h.keys_eq, List.toFinset_card_of_nodup hl.nodup_keys, List.length_map]

/-- The list is what the map enumerates to. -/
theorem Holds.entries_eq (h : Holds m l) (hl : Ascending l) : entries m = l := by
  have hsort : m.keys.sort = l.map Prod.fst := by
    rw [h.keys_eq, List.toFinset_sort (· ≤ ·) hl.nodup_keys]
    exact List.pairwise_map.2 (hl.imp fun hlt => hlt.le)
  rw [entries, hsort, List.filterMap_map]
  have hself : ∀ e ∈ l, ((fun k => (m.lookup k).map fun v => (k, v)) ∘ Prod.fst) e = some e := by
    intro e he
    have hlookup : m.lookup e.1 = some e.2 := (h e.1 e.2).2 he
    simp [hlookup]
  rw [List.filterMap_congr hself, List.filterMap_some]

/-- A key has its place in an ascending list. -/
theorem Ascending.split (hl : Ascending l) (k : κ) :
    ∃ before behind, l = before ++ behind ∧ (∀ e ∈ before, e.1 < k) ∧ ∀ e ∈ behind, k ≤ e.1 := by
  induction l with
  | nil => exact ⟨[], [], rfl, by simp, by simp⟩
  | cons e l ih =>
    obtain ⟨hhead, htail⟩ := List.pairwise_cons.1 hl
    by_cases hlt : e.1 < k
    · obtain ⟨before, behind, rfl, hbefore, hbehind⟩ := ih htail
      exact ⟨e :: before, behind, rfl, List.forall_mem_cons.2 ⟨hlt, hbefore⟩, hbehind⟩
    · refine ⟨[], e :: l, rfl, by simp, List.forall_mem_cons.2 ⟨not_lt.1 hlt, fun e' he' => ?_⟩⟩
      exact (not_lt.1 hlt).trans (hhead e' he').le

end SortedMap
