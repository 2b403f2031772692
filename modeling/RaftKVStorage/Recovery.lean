import RaftKVStorage.Durability
import RaftKVStorage.RaftIntSpec

set_option autoImplicit false

/-! # A node constructed over a dumped state

The constructor of `raft` with a persister that hands back what `_M_dump` produced. It takes over the
log and the snapshot position and raises `_M_appliedIndex` to the snapshot, but `_M_commitIndex`
stays 0, so a node that has compacted its log comes up with an applier that throws. -/

namespace RaftKVStorage

variable {n : ℕ}

/-- The constructor `raft::raft` over a persister whose `loadState` hands out `state`, `none` if the
    archive throws. -/
def Node.recover (boost : Boost) (me : Fin n) (pstr : Persister) (state : Bytes) :
    Option (Node n) :=
  (Node.loadString boost { Node.new me Persister.new with persister := pstr } state).map fun s =>
    if s.lastSnapshotIndex > 0 then { s with appliedIndex := s.lastSnapshotIndex } else s

/-- The node that comes up with the durable part `node`. -/
def Node.recovered (me : Fin n) (pstr : Persister) (node : PersistNode) : Node n :=
  let s := Node.load { Node.new me Persister.new with persister := pstr } (some node)
  if s.lastSnapshotIndex > 0 then { s with appliedIndex := s.lastSnapshotIndex } else s

/-- A dumped state is read back as it was. -/
theorem Node.recover_dump (boost : Boost) (me : Fin n) (pstr : Persister) (node : PersistNode) :
    Node.recover boost me pstr (boost.state.save node) = some (Node.recovered me pstr node) := by
  rw [Node.recover, Node.loadString, if_neg (boost.state.save_ne_nil node), boost.state.load_save]
  rfl

section Recovered

variable (me : Fin n) (pstr : Persister) (node : PersistNode)

@[simp] theorem Node.recovered_logs : (Node.recovered me pstr node).logs = node.logs := by
  unfold Node.recovered
  dsimp only
  split <;> rfl

@[simp] theorem Node.recovered_lastSnapshotIndex :
    (Node.recovered me pstr node).lastSnapshotIndex = node.lastSnapshotIndex := by
  unfold Node.recovered
  dsimp only
  split <;> rfl

@[simp] theorem Node.recovered_commitIndex : (Node.recovered me pstr node).commitIndex = 0 := by
  unfold Node.recovered
  dsimp only
  split <;> rfl

@[simp] theorem Node.recovered_matchIndex (i : Fin n) :
    (Node.recovered me pstr node).matchIndex i = 0 := by
  unfold Node.recovered
  dsimp only
  split <;> rfl

@[simp] theorem Node.recovered_nextIndex (i : Fin n) :
    (Node.recovered me pstr node).nextIndex i = 0 := by
  unfold Node.recovered
  dsimp only
  split <;> rfl

@[simp] theorem Node.recovered_term : (Node.recovered me pstr node).term = node.term := by
  unfold Node.recovered
  dsimp only
  split <;> rfl

/-- The one counter that is set from the snapshot. -/
theorem Node.recovered_appliedIndex :
    (Node.recovered me pstr node).appliedIndex = max 0 node.lastSnapshotIndex := by
  unfold Node.recovered
  dsimp only
  by_cases h : node.lastSnapshotIndex > 0
  · rw [if_pos (show (Node.load _ (some node)).lastSnapshotIndex > 0 from h)]
    exact (max_eq_right h.le).symm
  · rw [if_neg (show ¬ (Node.load _ (some node)).lastSnapshotIndex > 0 from h)]
    exact (max_eq_left (not_lt.1 h)).symm

end Recovered

/-- The indices are in order over a contiguous log, and the applier does not throw, now or after any
    further handlers that overflow no `int`. -/
structure Node.WellRecovered (s : Node n) : Prop where
  snapshotLeApplied : s.lastSnapshotIndex ≤ s.appliedIndex
  appliedLeCommit : s.appliedIndex ≤ s.commitIndex
  commitLeLast : s.commitIndex ≤ s.getLastLogIndex
  contiguous : s.Contiguous
  applier : ∀ P : Proc n,
    GuardedRun.Reach ({ node := s } : Proc n) (fun P input => (Machine.step P input).1)
      (fun P input => input.WellFormed ∧ Machine.Fits P input) P →
    (Machine.getApplyMessages P.node).fault = none

/-- A process over a well-formed node keeps its invariant, whatever handlers run. -/
theorem Node.IndexInv.wellRecovered {s : Node n} (h : s.IndexInv)
    (hint : Proc.InInt ({ node := s } : Proc n)) : s.WellRecovered where
  snapshotLeApplied := h.snapshotLeApplied
  appliedLeCommit := h.appliedLeCommit
  commitLeLast := h.commitLeLast
  contiguous := h.contiguous
  applier := by
    intro P hrun
    obtain ⟨hinv, hint'⟩ := Machine.reach_inv ⟨h, by simp, by simp, by simp⟩ hint hrun
    rw [Machine.getApplyMessages_eq hinv.node hint'.last]
    exact hinv.node.getApplyMessages.2.2

/-- Without a snapshot the counters start at 0 under any log. -/
theorem Node.IndexInv.recovered {s : Node n} (h : s.IndexInv) (me : Fin n) (pstr : Persister)
    (hsnap : s.lastSnapshotIndex = 0) : (Node.recovered me pstr s.dump).IndexInv := by
  have hlogs : (Node.recovered me pstr s.dump).logs = s.logs := Node.recovered_logs me pstr s.dump
  have hsnap' : (Node.recovered me pstr s.dump).lastSnapshotIndex = s.lastSnapshotIndex :=
    Node.recovered_lastSnapshotIndex me pstr s.dump
  have happlied : (Node.recovered me pstr s.dump).appliedIndex = 0 := by
    rw [Node.recovered_appliedIndex]
    exact (congrArg (max 0) hsnap).trans (max_self 0)
  have hlast : (Node.recovered me pstr s.dump).getLastLogIndex = s.getLastLogIndex := by
    simp only [Node.getLastLogIndex, hlogs, hsnap']
  refine ⟨?_, ?_, ?_, ?_, ?_, ?_⟩
  · intro i e he
    rw [hsnap']
    exact h.contiguous i e (hlogs ▸ he)
  · rw [hsnap', hsnap]
  · rw [hsnap', hsnap, happlied]
  · rw [happlied, Node.recovered_commitIndex]
  · rw [Node.recovered_commitIndex, hlast]
    exact h.lastNonneg
  · intro i
    rw [Node.recovered_matchIndex, hlast]
    exact h.lastNonneg

/-- The handlers are asked to overflow nothing: here the index of the new command is the smallest
    `int`, below the commit index. -/
example : (Machine.getApplyMessages (GuardedRun.exec (fun P input => (Machine.step P input).1)
    (Proc.new (0 : Fin 3)) [.installSnapshot ⟨1, 1, 2147483647, 1, []⟩, .stand4Election,
      .voteReply 0 ⟨2, true, .normal⟩, .execute [7]]).node).fault = some .commitAfterLastLog := by
  decide +kernel

/-- What was dumped are `int`s, and the counters start at 0. -/
theorem Proc.InInt.recovered {P : Proc n} (h : P.InInt) (me : Fin n) (pstr : Persister) :
    Proc.InInt ({ node := Node.recovered me pstr P.node.dump } : Proc n) := by
  refine ⟨fun e he => ?_, ?_, ?_, fun i => ?_, by simp, by simp⟩
  · rcases he with he | ⟨call, hcall, -⟩
    · rw [Node.recovered_logs] at he
      exact h.held e (Or.inl he)
    · simp at hcall
  · rw [Node.recovered_lastSnapshotIndex]
    exact h.position
  · rw [Node.recovered_term]
    exact h.term
  · simp

/-- Over the state of any node reached without overflow the constructor makes a well-formed one
    exactly when that node had not compacted its log. -/
theorem Node.recover_wellFormed_iff (boost : Boost) (me : Fin n) (pstr : Persister) {P : Proc n}
    (h : GuardedRun.Reach (Proc.new me) (fun P input => (Machine.step P input).1)
      (fun P input => input.WellFormed ∧ Machine.Fits P input) P) :
    ∃ s, Node.recover boost me pstr (boost.state.save P.node.dump) = some s ∧
      (s.WellRecovered ↔ P.node.lastSnapshotIndex = 0) := by
  obtain ⟨hinv, hint⟩ := Machine.reach_inv (.new me) (.new me) h
  refine ⟨_, Node.recover_dump boost me pstr P.node.dump, fun hwell => ?_, fun hsnap => ?_⟩
  · -- `_M_appliedIndex` is the snapshot index, `_M_commitIndex` is 0
    have hle := hwell.appliedLeCommit
    have hnonneg := hinv.node.snapshotNonneg
    rw [Node.recovered_appliedIndex, Node.recovered_commitIndex] at hle
    exact le_antisymm ((le_max_right 0 _).trans hle) hnonneg
  · exact (hinv.node.recovered me pstr hsnap).wellRecovered (hint.recovered me pstr)

/-- A follower that has voted and taken in an entry comes up well-formed, with its log. -/
theorem Node.recover_wellFormed_iff_votedAndAppended :
    ∃ s, Node.recover Boost.text (0 : Fin 3) Persister.new (Boost.text.state.save
        (GuardedRun.exec (fun (P : Proc 3) input => (Machine.step P input).1) (Proc.new 0)
          votedAndAppended).node.dump) = some s ∧ s.WellRecovered := by
  have hreach : GuardedRun.Reach (Proc.new (0 : Fin 3)) (fun P input => (Machine.step P input).1)
      (fun P input => input.WellFormed ∧ Machine.Fits P input)
      (GuardedRun.exec (fun (P : Proc 3) input => (Machine.step P input).1)
        (Proc.new 0) votedAndAppended) := .exec .init (by decide +kernel)
  obtain ⟨s, hs, hiff⟩ := Node.recover_wellFormed_iff Boost.text 0 Persister.new hreach
  exact ⟨s, hs, hiff.2 (by decide +kernel)⟩

/-- A follower takes in two entries, applies the first and compacts its log. -/
def takenAndCompacted : List (Input 3) :=
  [.appendEntries ⟨1, 1, 0, 0, [⟨[7], 1, 1⟩, ⟨[8], 1, 2⟩], 1⟩, .getApplyMessages, .persist 1 []]

/-- Over its state the constructor makes a node whose applier throws at once. -/
theorem Node.recover_takenAndCompacted :
    ¬ ∀ (boost : Boost) (n : ℕ) (me : Fin n) (pstr : Persister) (P : Proc n),
      GuardedRun.Reach (Proc.new me) (fun P input => (Machine.step P input).1)
        (fun P input => input.WellFormed ∧ Machine.Fits P input) P →
      ∃ s, Node.recover boost me pstr (boost.state.save P.node.dump) = some s ∧ s.WellRecovered := by
  intro h
  obtain ⟨s, hs, hwell⟩ := h Boost.text 3 0 Persister.new
    (GuardedRun.exec (fun P input => (Machine.step P input).1) (Proc.new 0) takenAndCompacted)
    (.exec .init (by decide +kernel))
  rw [Node.recover_dump] at hs
  obtain rfl := Option.some.inj hs
  exact absurd (hwell.applier _ .init) (by decide +kernel)

end RaftKVStorage
