import RaftKVStorage.IndexInvariant

set_option autoImplicit false

/-! # What a follower's log becomes

`_L_appendEntries` writes the entries of a request over the log slot by slot and leaves what lies
behind them; `_L_installSnapshot` keeps every entry above the snapshot, whatever the term of its own
entry at `last_index`. -/

namespace RaftKVStorage

variable {n : ℕ} {s : Node n}

/-- The entry that `_M_logs` has at the slot of `index`. -/
def Node.entryAt (s : Node n) (index : Int) : Option LogEntry :=
  s.logAt (s.getSlicesIndexFromLogIndex index)

theorem Node.entryAt_of_le {index : Int} (h : index ≤ s.lastSnapshotIndex) :
    s.entryAt index = none := by
  rw [Node.entryAt, Node.logAt, Node.getSlicesIndexFromLogIndex, if_neg (by omega)]

/-- The entry `i` slots behind the snapshot. -/
theorem Node.entryAt_eq (s : Node n) (i : ℕ) :
    s.entryAt (s.lastSnapshotIndex + 1 + i) = s.logs[i]? := by
  rw [Node.entryAt, Node.logAt, Node.getSlicesIndexFromLogIndex, if_pos (by omega)]
  congr 1
  omega

theorem Node.Contiguous.entryAt_eq_none (h : s.Contiguous) {index : Int}
    (hlast : s.getLastLogIndex < index) : s.entryAt index = none := by
  rcases hx : s.entryAt index with _ | e
  · rfl
  · have := (h.index_of_logAt hx).2.2.1
    omega

theorem Node.Contiguous.isSome_entryAt (h : s.Contiguous) (index : Int)
    (hlo : s.lastSnapshotIndex < index) (hhi : index ≤ s.getLastLogIndex) :
    ∃ e, s.entryAt index = some e := by
  obtain ⟨e, he, -, -⟩ := h.logAt hlo hhi
  exact ⟨e, he⟩

/-! ## Requests -/

/-- An entry of the request meets one of the same index and another term. -/
def Node.TermConflict (s : Node n) (args : AppendEntriesArgs) : Prop :=
  ∃ e ∈ args.entries, ∃ own, s.entryAt e.index = some own ∧ own.term ≠ e.term

/-- The request is answered, and with success. -/
def Node.Accepts (s : Node n) (args : AppendEntriesArgs) : Prop :=
  (s.appendEntries args).fault = none ∧ (s.appendEntries args).ret.success = true

/-- What the log of `s'` has to be once `s` has taken over the entries of the request: the same up
    to `prev_log_index`, the entries of the request behind it, and behind them nothing if one of
    them was in conflict and everything as before if none was. -/
structure Node.AppendResult (s : Node n) (args : AppendEntriesArgs) (s' : Node n) : Prop where
  kept : ∀ index ≤ args.prevLogIndex, s'.entryAt index = s.entryAt index
  written : ∀ (j : ℕ) (e : LogEntry), args.entries[j]? = some e →
    s'.entryAt (args.prevLogIndex + 1 + j) = some e
  cut : s.TermConflict args → ∀ index > args.prevLogIndex + args.entries.length,
    s'.entryAt index = none
  tail : ¬s.TermConflict args → ∀ index > args.prevLogIndex + args.entries.length,
    s'.entryAt index = s.entryAt index

/-- The log that is left, slot by slot. -/
theorem Node.entryAt_appended {args : AppendEntriesArgs} (hlo : s.lastSnapshotIndex ≤ args.prevLogIndex)
    (hlen : (args.prevLogIndex - s.lastSnapshotIndex).toNat ≤ s.logs.length) (index : Int) :
    (s.appended args).entryAt index =
      if args.prevLogIndex < index ∧ index ≤ args.prevLogIndex + args.entries.length then
        args.entries[(index - args.prevLogIndex - 1).toNat]?
      else s.entryAt index := by
  have hsnap : (s.appended args).lastSnapshotIndex = s.lastSnapshotIndex := by simp [Node.appended]
  have hlogs : (s.appended args).logs = s.overlay args := rfl
  rcases le_or_gt index s.lastSnapshotIndex with hle | hgt
  · rw [Node.entryAt_of_le (hsnap ▸ hle), Node.entryAt_of_le hle, if_neg (by omega)]
  obtain ⟨i, rfl⟩ : ∃ i : ℕ, index = s.lastSnapshotIndex + 1 + i :=
    ⟨(index - s.lastSnapshotIndex - 1).toNat, by omega⟩
  have hleft : (s.appended args).entryAt (s.lastSnapshotIndex + 1 + i) = (s.overlay args)[i]? := by
    rw [← hsnap, Node.entryAt_eq, hlogs]
  obtain ⟨k, hk⟩ : ∃ k : ℕ, (args.prevLogIndex - s.lastSnapshotIndex).toNat = k := ⟨_, rfl⟩
  have hprev : args.prevLogIndex = s.lastSnapshotIndex + k := by omega
  rw [hleft, Node.entryAt_eq, Node.overlay, hk]
  have htake : (s.logs.take k).length = k := by
    rw [List.length_take]
    omega
  rcases lt_or_ge i k with hbelow | habove
  · rw [if_neg (by omega), List.append_assoc, List.getElem?_append_left (by omega),
      List.getElem?_take_of_lt hbelow]
  rcases lt_or_ge i (k + args.entries.length) with hin | hbehind
  · rw [if_pos (by omega), List.append_assoc, List.getElem?_append_right (by omega),
      List.getElem?_append_left (by omega), htake]
    congr 1
    omega
  · rw [if_neg (by omega), List.getElem?_append_right (by simp [htake]; omega), List.getElem?_drop]
    congr 1
    simp only [List.length_append, htake]
    omega

/-- A request that is answered with success leaves the log it should exactly if none of its entries
    was in conflict or its entries reach the end of the log. -/
theorem Node.append_result_iff (h : s.Contiguous) {args : AppendEntriesArgs}
    (hcons : Consecutive args.prevLogIndex args.entries) (hsuccess : s.Accepts args) :
    s.AppendResult args (s.appendEntries args).node ↔
      (s.TermConflict args → s.getLastLogIndex ≤ args.prevLogIndex + args.entries.length) := by
  obtain ⟨hfault, hsuccess⟩ := hsuccess
  rcases h.appendEntries_cases hcons with
    ⟨-, heq⟩ | ⟨-, _, heq, -⟩ | ⟨-, hlo, hhi, -, heq⟩ | ⟨-, -, _, _, _, _, -, -, -, -, -, -, -, hf, -⟩
  · rw [heq] at hsuccess
    cases hsuccess
  · rw [heq] at hsuccess
    cases hsuccess
  · have hlen : (args.prevLogIndex - s.lastSnapshotIndex).toNat ≤ s.logs.length := by
      have := h.getLastLogIndex
      omega
    have hat := fun index => Node.entryAt_appended (s := s) hlo hlen index
    rw [heq]
    constructor
    · intro hresult hconflict
      -- an entry behind the request would still be there
      by_contra hlast
      obtain ⟨e, he⟩ := h.isSome_entryAt s.getLastLogIndex (by omega) le_rfl
      have hnone := hresult.cut hconflict s.getLastLogIndex (by omega)
      rw [hat, if_neg (by omega), he] at hnone
      cases hnone
    · intro hreach
      constructor
      · intro index hindex
        rw [hat, if_neg (by omega)]
      · intro j e he
        have hj := (List.getElem?_eq_some_iff.1 he).1
        rw [hat, if_pos (by omega), ← he]
        congr 1
        omega
      · intro hconflict index hindex
        rw [hat, if_neg (by omega)]
        exact h.entryAt_eq_none (by have := hreach hconflict; omega)
      · intro _ index hindex
        rw [hat, if_neg (by omega)]
  · rw [hf] at hfault
    cases hfault

/-- A follower with one entry takes over a second one. -/
theorem Node.append_result_iff_second :
    let s : Node 3 := (Node.appendEntries (Node.new 0 Persister.new)
      ⟨1, 1, 0, 0, [⟨[7], 1, 1⟩], 0⟩).node
    let args : AppendEntriesArgs := ⟨1, 1, 1, 1, [⟨[8], 1, 2⟩], 0⟩
    s.AppendResult args (s.appendEntries args).node := by
  intro s args
  have hnew : (Node.new (0 : Fin 3) Persister.new).Contiguous := (Node.IndexInv.new 0).contiguous
  have hcont : s.Contiguous :=
    ((Node.IndexInv.new (0 : Fin 3)).appendEntries (by decide)).1.contiguous
  exact (Node.append_result_iff hcont (by decide) ⟨by decide, by decide⟩).2 fun _ => by decide

/-- A leader of term 2 replaces the first of two entries of term 1: the second stays. -/
theorem Node.append_keeps_stale_tail :
    let s : Node 3 := (Node.appendEntries (Node.new 0 Persister.new)
      ⟨1, 1, 0, 0, [⟨[7], 1, 1⟩, ⟨[8], 1, 2⟩], 0⟩).node
    let args : AppendEntriesArgs := ⟨2, 2, 0, 0, [⟨[9], 2, 1⟩], 0⟩
    Consecutive args.prevLogIndex args.entries ∧ s.Accepts args ∧
      ¬s.AppendResult args (s.appendEntries args).node := by
  intro s args
  refine ⟨by decide, ⟨by decide, by decide⟩, fun hresult => ?_⟩
  have hconflict : s.TermConflict args := ⟨⟨[9], 2, 1⟩, by decide, ⟨[7], 1, 1⟩, by decide, by decide⟩
  have hnone := hresult.cut hconflict 2 (by decide)
  exact absurd hnone (by decide)

/-! ## Snapshots -/

/-- The request is neither of an older term nor below the node's own snapshot. -/
def Node.InstallFresh (s : Node n) (args : InstallSnapshotArgs) : Prop :=
  s.term ≤ args.term ∧ s.lastSnapshotIndex < args.lastIndex

/-- The entry at `last_index` is the one the snapshot ends with. -/
def Node.HoldsLast (s : Node n) (args : InstallSnapshotArgs) : Prop :=
  ∃ own, s.entryAt args.lastIndex = some own ∧ own.term = args.lastTerm

/-- What is to be left of the log: what follows the snapshot if the log has its last entry, nothing
    otherwise. -/
def Node.Trimmed (s : Node n) (args : InstallSnapshotArgs) (s' : Node n) : Prop :=
  (s.HoldsLast args → s'.logs = s.logs.filter fun e => args.lastIndex < e.index) ∧
    (¬s.HoldsLast args → s'.logs = [])

/-- The entries above an index are those behind its slot. -/
theorem Node.Contiguous.filter_eq_drop (h : s.Contiguous) {index : Int}
    (hlo : s.lastSnapshotIndex ≤ index) :
    (s.logs.filter fun e => index < e.index) = s.logs.drop (index - s.lastSnapshotIndex).toNat := by
  obtain ⟨k, rfl⟩ : ∃ k : ℕ, index = s.lastSnapshotIndex + k :=
    ⟨(index - s.lastSnapshotIndex).toNat, by omega⟩
  have hk : (s.lastSnapshotIndex + k - s.lastSnapshotIndex).toNat = k := by omega
  have hbelow : (s.logs.take k).filter (fun e => s.lastSnapshotIndex + k < e.index) = [] := by
    rw [List.filter_eq_nil_iff]
    intro e he
    obtain ⟨i, hi, rfl⟩ := List.getElem_of_mem he
    have hlt : i < k := by
      rw [List.length_take] at hi
      omega
    have hget : s.logs[i]? = some (s.logs.take k)[i] := by
      rw [← List.getElem?_take_of_lt hlt, List.getElem?_eq_getElem hi]
    have hidx := h i _ hget
    simp only [decide_eq_true_eq]
    omega
  have habove : (s.logs.drop k).filter (fun e => s.lastSnapshotIndex + k < e.index) =
      s.logs.drop k := by
    rw [List.filter_eq_self]
    intro e he
    obtain ⟨i, hi, rfl⟩ := List.getElem_of_mem he
    have hget : s.logs[k + i]? = some (s.logs.drop k)[i] := by
      rw [← List.getElem?_drop, List.getElem?_eq_getElem hi]
    have hidx := h _ _ hget
    simp only [decide_eq_true_eq]
    omega
  rw [hk]
  conv_lhs => rw [← List.take_append_drop k s.logs]
  rw [List.filter_append, hbelow, habove, List.nil_append]

/-- An installed snapshot leaves what it should of the log exactly if the log has the last entry of
    the snapshot or nothing above it. -/
theorem Node.trimmed_iff (h : s.Contiguous) {args : InstallSnapshotArgs} (hfresh : s.InstallFresh args) :
    s.Trimmed args (s.installSnapshot args).node ↔
      s.HoldsLast args ∨ s.getLastLogIndex ≤ args.lastIndex := by
  obtain ⟨hterm, hindex⟩ := hfresh
  have hlen := h.getLastLogIndex
  have hlogs : (s.installSnapshot args).node.logs =
      s.logs.drop (args.lastIndex - s.lastSnapshotIndex).toNat := by
    rcases h.installSnapshot_cases args with ⟨hstale, -⟩ | ⟨-, hold, -⟩ | ⟨-, -, heq⟩
    · omega
    · omega
    · rw [heq]
      rfl
  rw [Node.Trimmed, hlogs, h.filter_eq_drop hindex.le]
  constructor
  · intro htrimmed
    by_cases hholds : s.HoldsLast args
    · exact Or.inl hholds
    · have hnil := List.drop_eq_nil_iff.1 (htrimmed.2 hholds)
      right
      omega
  · intro hcond
    refine ⟨fun _ => rfl, fun hholds => ?_⟩
    rw [List.drop_eq_nil_iff]
    have := hcond.resolve_left hholds
    omega

/-- A snapshot up to the first of two entries, which ends with the follower's own entry. -/
theorem Node.trimmed_iff_ownEntry :
    let s : Node 3 := (Node.appendEntries (Node.new 0 Persister.new)
      ⟨1, 1, 0, 0, [⟨[7], 1, 1⟩, ⟨[8], 1, 2⟩], 0⟩).node
    let args : InstallSnapshotArgs := ⟨1, 1, 1, 1, [5]⟩
    s.Trimmed args (s.installSnapshot args).node := by
  intro s args
  have hcont : s.Contiguous :=
    ((Node.IndexInv.new (0 : Fin 3)).appendEntries (by decide)).1.contiguous
  exact (Node.trimmed_iff hcont ⟨by decide, by decide⟩).2
    (Or.inl ⟨⟨[7], 1, 1⟩, by decide, by decide⟩)

/-- A snapshot that ends with an entry of term 2 leaves the entry of term 1 behind it. -/
theorem Node.install_keeps_other_history :
    let s : Node 3 := (Node.appendEntries (Node.new 0 Persister.new)
      ⟨1, 1, 0, 0, [⟨[7], 1, 1⟩, ⟨[8], 1, 2⟩], 0⟩).node
    let args : InstallSnapshotArgs := ⟨2, 2, 1, 2, [5]⟩
    s.InstallFresh args ∧ ¬s.Trimmed args (s.installSnapshot args).node := by
  intro s args
  refine ⟨⟨by decide, by decide⟩, fun htrimmed => ?_⟩
  have hnot : ¬s.HoldsLast args := by
    rintro ⟨own, hown, hterm⟩
    have heq : s.entryAt args.lastIndex = some ⟨[7], 1, 1⟩ := by decide
    rw [heq] at hown
    obtain rfl := Option.some.inj hown
    exact absurd hterm (by decide)
  exact absurd (htrimmed.2 hnot) (by decide)

end RaftKVStorage
