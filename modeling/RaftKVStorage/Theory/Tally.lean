import Mathlib.Data.List.GetD
import RaftKVStorage.Theory.LeaderLogs

set_option autoImplicit false
set_option linter.unusedSectionVars false

/-! # Counting the answers of rounds

Somebody opens rounds of requests to its peers and keeps one counter a round, which starts at one
for itself. A counter goes up when a peer says yes and may be set back to zero once the round is
won. `Sound` says why a counter that reaches a majority is worth one, and why a round is won once. -/

namespace Tally

open LeaderLogs (Majority)

variable {ι : Type} [Fintype ι] [DecidableEq ι]

/-- `Yes c q`: peer `q` is in favour of round `c`. `Won c`: the round was already won. `pending` are
    the open requests, `nums` the counters. The peers counted since a win are those of `D`, the
    peers counted before it those of `W`. -/
structure Sound (me : ι) (Yes : ℕ → ι → Prop) (Won : ℕ → Prop) (pending : List (ℕ × ι))
    (nums : List ℕ) : Prop where
  nodup : pending.Nodup
  inRange : ∀ x ∈ pending, x.1 < nums.length
  peer : ∀ x ∈ pending, x.2 ≠ me
  own : ∀ c < nums.length, Yes c me
  counted : ∀ c k, nums[c]? = some k → ∃ D W : Finset ι, Disjoint D W ∧ me ∉ D ∧ me ∉ W ∧
    (∀ q ∈ D, Yes c q) ∧ (∀ q, (c, q) ∈ pending → q ∉ D ∧ q ∉ W) ∧ k ≤ D.card + 1 ∧
    (Won c → Fintype.card ι / 2 ≤ W.card ∧ k ≤ D.card)

variable {me : ι} {Yes Yes' : ℕ → ι → Prop} {Won Won' : ℕ → Prop} {pending pending' : List (ℕ × ι)}
  {nums : List ℕ}

theorem Sound.nil : Sound me Yes Won [] [] :=
  ⟨List.nodup_nil, by simp, by simp, by simp, by simp⟩

/-- Approval may grow, and fewer rounds may count as won. -/
theorem Sound.mono (h : Sound me Yes Won pending nums)
    (hyes : ∀ c < nums.length, ∀ q, Yes c q → Yes' c q)
    (hwon : ∀ c < nums.length, Won' c → Won c) : Sound me Yes' Won' pending nums := by
  refine ⟨h.nodup, h.inRange, h.peer, fun c hc => hyes c hc me (h.own c hc), fun c k hk => ?_⟩
  have hc := (List.getElem?_eq_some_iff.1 hk).1
  obtain ⟨D, W, hdis, hD, hW, hall, hpend, hle, hw⟩ := h.counted c k hk
  exact ⟨D, W, hdis, hD, hW, fun q hq => hyes c hc q (hall q hq), hpend, hle,
    fun hwc => hw (hwon c hc hwc)⟩

/-- A request may be forgotten. -/
theorem Sound.sublist (h : Sound me Yes Won pending nums) (hsub : pending'.Sublist pending) :
    Sound me Yes Won pending' nums := by
  refine ⟨h.nodup.sublist hsub, fun x hx => h.inRange x (hsub.subset hx),
    fun x hx => h.peer x (hsub.subset hx), h.own, fun c k hk => ?_⟩
  obtain ⟨D, W, hdis, hD, hW, hall, hpend, hle, hw⟩ := h.counted c k hk
  exact ⟨D, W, hdis, hD, hW, hall, fun q hq => hpend q (hsub.subset hq), hle, hw⟩

/-- A new round. -/
theorem Sound.start (h : Sound me Yes Won pending nums) (peers : List ι) (hpeers : peers.Nodup)
    (hme : me ∉ peers) (hyes : Yes nums.length me) (hwon : ¬ Won nums.length) :
    Sound me Yes Won (pending ++ peers.map fun q => (nums.length, q)) (nums ++ [1]) := by
  refine ⟨?_, fun x hx => ?_, fun x hx => ?_, fun c hc => ?_, fun c k hk => ?_⟩
  · refine h.nodup.append (hpeers.map fun a b hab => (Prod.mk.inj hab).2) ?_
    intro x hx hx'
    obtain ⟨q, -, rfl⟩ := List.mem_map.1 hx'
    exact absurd (h.inRange _ hx) (lt_irrefl _)
  · rw [List.length_append, List.length_singleton]
    rcases List.mem_append.1 hx with hx | hx
    · exact (h.inRange x hx).trans (Nat.lt_succ_self _)
    · obtain ⟨q, -, rfl⟩ := List.mem_map.1 hx
      exact Nat.lt_succ_self _
  · rcases List.mem_append.1 hx with hx | hx
    · exact h.peer x hx
    · obtain ⟨q, hq, rfl⟩ := List.mem_map.1 hx
      exact fun heq => hme (heq ▸ hq)
  · rw [List.length_append, List.length_singleton] at hc
    rcases (Nat.lt_succ_iff.1 hc).lt_or_eq with hlt | rfl
    · exact h.own c hlt
    · exact hyes
  · rcases Nat.lt_or_ge c nums.length with hlt | hge
    · rw [List.getElem?_append_left hlt] at hk
      obtain ⟨D, W, hdis, hD, hW, hall, hpend, hle, hw⟩ := h.counted c k hk
      refine ⟨D, W, hdis, hD, hW, hall, fun q hq => ?_, hle, hw⟩
      rcases List.mem_append.1 hq with hq | hq
      · exact hpend q hq
      · obtain ⟨q', -, heq⟩ := List.mem_map.1 hq
        exact absurd (Prod.mk.inj heq).1 hlt.ne'
    · have hc : c = nums.length := by
        have := (List.getElem?_eq_some_iff.1 hk).1
        simp only [List.length_append, List.length_singleton] at this
        omega
      subst hc
      simp only [List.getElem?_concat_length, Option.some.injEq] at hk
      subst hk
      exact ⟨∅, ∅, by simp, by simp, by simp, by simp, by simp, by simp, fun hw => absurd hw hwon⟩

theorem Sound.not_mem_eraseIdx (h : Sound me Yes Won pending nums) {j : ℕ} {x : ℕ × ι}
    (hx : pending[j]? = some x) : x ∉ pending.eraseIdx j := by
  rw [List.mem_eraseIdx_iff_getElem?]
  rintro ⟨i, hi, hxi⟩
  obtain ⟨hj, hxj⟩ := List.getElem?_eq_some_iff.1 hx
  obtain ⟨hi', hxi⟩ := List.getElem?_eq_some_iff.1 hxi
  exact hi (h.nodup.getElem_inj_iff.1 (hxi.trans hxj.symm))

/-- A yes is counted: the counter of the round goes up by at most one. -/
theorem Sound.count (h : Sound me Yes Won pending nums) {j c x : ℕ} {q : ι}
    (hj : pending[j]? = some (c, q)) (hyes : Yes c q) (hx : x ≤ nums.getD c 0 + 1) :
    Sound me Yes Won (pending.eraseIdx j) (nums.set c x) := by
  have hnot := h.not_mem_eraseIdx hj
  have hq := List.mem_of_getElem? hj
  have hsub := h.sublist (List.eraseIdx_sublist pending j)
  refine ⟨hsub.nodup, by simpa using hsub.inRange, hsub.peer, by simpa using hsub.own,
    fun c' k hk => ?_⟩
  have hc : c < nums.length := h.inRange _ hq
  rcases eq_or_ne c c' with rfl | hne
  · rw [List.getElem?_set_self hc, Option.some.injEq] at hk
    subst hk
    obtain ⟨D, W, hdis, hD, hW, hall, hpend, hle, hw⟩ :=
      h.counted c _ (List.getElem?_eq_getElem hc)
    rw [List.getD_eq_getElem _ _ hc] at hx
    obtain ⟨hqD, hqW⟩ := hpend q hq
    have hcard := Finset.card_insert_of_notMem hqD
    refine ⟨insert q D, W, Finset.disjoint_insert_left.2 ⟨hqW, hdis⟩, ?_, hW, ?_, ?_, by omega, ?_⟩
    · rw [Finset.mem_insert, not_or]
      exact ⟨(h.peer _ hq).symm, hD⟩
    · intro v hv
      rcases Finset.mem_insert.1 hv with rfl | hv
      · exact hyes
      · exact hall v hv
    · intro v hv
      obtain ⟨hvD, hvW⟩ := hpend v (List.mem_of_mem_eraseIdx hv)
      refine ⟨fun hins => ?_, hvW⟩
      rcases Finset.mem_insert.1 hins with rfl | hins
      · exact hnot hv
      · exact hvD hins
    · intro hwc
      obtain ⟨h1, h2⟩ := hw hwc
      exact ⟨h1, by omega⟩
  · rw [List.getElem?_set_ne hne] at hk
    exact hsub.counted c' k hk

/-- A yes that wins the round: the counter starts over. -/
theorem Sound.win (h : Sound me Yes Won pending nums) {j c : ℕ} {q : ι}
    (hj : pending[j]? = some (c, q)) (hyes : Yes c q)
    (hmaj : Fintype.card ι / 2 + 1 ≤ nums.getD c 0 + 1)
    (hwon : ∀ c' < nums.length, Won' c' → Won c' ∨ c' = c) :
    Sound me Yes Won' (pending.eraseIdx j) (nums.set c 0) := by
  have hnot := h.not_mem_eraseIdx hj
  have hq := List.mem_of_getElem? hj
  have hsub := h.sublist (List.eraseIdx_sublist pending j)
  refine ⟨hsub.nodup, by simpa using hsub.inRange, hsub.peer, by simpa using hsub.own,
    fun c' k hk => ?_⟩
  have hc : c < nums.length := h.inRange _ hq
  rcases eq_or_ne c c' with rfl | hne
  · rw [List.getElem?_set_self hc, Option.some.injEq] at hk
    subst hk
    obtain ⟨D, W, hdis, hD, hW, hall, hpend, hle, hw⟩ :=
      h.counted c _ (List.getElem?_eq_getElem hc)
    rw [List.getD_eq_getElem _ _ hc] at hmaj
    obtain ⟨hqD, hqW⟩ := hpend q hq
    have hcard := Finset.card_insert_of_notMem hqD
    refine ⟨∅, insert q D, by simp, by simp, ?_, by simp, ?_, by simp, fun _ => ⟨by omega, by simp⟩⟩
    · rw [Finset.mem_insert, not_or]
      exact ⟨(h.peer _ hq).symm, hD⟩
    · intro v hv
      obtain ⟨hvD, hvW⟩ := hpend v (List.mem_of_mem_eraseIdx hv)
      refine ⟨by simp, fun hins => ?_⟩
      rcases Finset.mem_insert.1 hins with rfl | hins
      · exact hnot hv
      · exact hvD hins
  · rw [List.getElem?_set_ne hne] at hk
    have hc' := (List.getElem?_eq_some_iff.1 hk).1
    obtain ⟨D, W, hdis, hD, hW, hall, hpend, hle, hw⟩ := hsub.counted c' k hk
    refine ⟨D, W, hdis, hD, hW, hall, hpend, hle, fun hwc => hw ?_⟩
    exact (hwon c' hc' hwc).resolve_right hne.symm

/-- A counter that reaches half of the peers, one more yes and the opener make a majority. -/
theorem Sound.majority (h : Sound me Yes Won pending nums) {c : ℕ} {q : ι} (hq : (c, q) ∈ pending)
    (hyes : Yes c q) (hmaj : Fintype.card ι / 2 + 1 ≤ nums.getD c 0 + 1) :
    ∃ Q : Finset ι, Majority Q ∧ ∀ v ∈ Q, Yes c v := by
  have hc : c < nums.length := h.inRange _ hq
  obtain ⟨D, W, -, hD, -, hall, hpend, hle, -⟩ := h.counted c _ (List.getElem?_eq_getElem hc)
  rw [List.getD_eq_getElem _ _ hc] at hmaj
  have hqD := (hpend q hq).1
  refine ⟨insert me (insert q D), ?_, fun v hv => ?_⟩
  · have hme : me ∉ insert q D := by
      rw [Finset.mem_insert, not_or]
      exact ⟨(h.peer _ hq).symm, hD⟩
    unfold Majority
    rw [Finset.card_insert_of_notMem hme, Finset.card_insert_of_notMem hqD]
    omega
  · rcases Finset.mem_insert.1 hv with rfl | hv
    · exact h.own c hc
    rcases Finset.mem_insert.1 hv with rfl | hv
    · exact hyes
    · exact hall v hv

/-- A round is won once: after a win too few peers are left to reach the majority again. -/
theorem Sound.not_won (h : Sound me Yes Won pending nums) {c : ℕ} {q : ι} (hq : (c, q) ∈ pending)
    (hmaj : Fintype.card ι / 2 + 1 ≤ nums.getD c 0 + 1) : ¬ Won c := by
  intro hwon
  have hc : c < nums.length := h.inRange _ hq
  obtain ⟨D, W, hdis, hD, hW, -, hpend, -, hw⟩ := h.counted c _ (List.getElem?_eq_getElem hc)
  rw [List.getD_eq_getElem _ _ hc] at hmaj
  obtain ⟨hWcard, hDcard⟩ := hw hwon
  obtain ⟨hqD, hqW⟩ := hpend q hq
  have hq' : q ∉ D ∪ W := by simp [hqD, hqW]
  have hme : me ∉ insert q (D ∪ W) := by
    have := (h.peer _ hq).symm
    simp [this, hD, hW]
  have hcard : (insert me (insert q (D ∪ W))).card ≤ Fintype.card ι := Finset.card_le_univ _
  rw [Finset.card_insert_of_notMem hme, Finset.card_insert_of_notMem hq',
    Finset.card_union_of_disjoint hdis] at hcard
  omega

end Tally
