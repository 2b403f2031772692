import RaftKVStorage.RaftSpec
import RaftKVStorage.Cluster

set_option autoImplicit false

/-! # The index invariant of a node

The four indices of a node stay ordered, its log stays contiguous, and no index ever falls, whatever
requests arrive: the only thing asked of the outside is that the entries of an appendEntries request
follow its `prevLogIndex` one by one. Under the invariant every access to `_M_logs` is in range. The
numbers are unbounded here; `RaftIntSpec` carries this over to `int`. -/

namespace RaftKVStorage

variable {n : ℕ}

/-- The indices are ordered, the log is contiguous, and no peer is noted to hold more than it. -/
structure Node.IndexInv (s : Node n) : Prop where
  contiguous : s.Contiguous
  snapshotNonneg : 0 ≤ s.lastSnapshotIndex
  snapshotLeApplied : s.lastSnapshotIndex ≤ s.appliedIndex
  appliedLeCommit : s.appliedIndex ≤ s.commitIndex
  commitLeLast : s.commitIndex ≤ s.getLastLogIndex
  matchLeLast : ∀ i, s.matchIndex i ≤ s.getLastLogIndex

/-- None of the four indices is smaller in `s'` than in `s`. -/
structure Node.Advances (s s' : Node n) : Prop where
  snapshot : s.lastSnapshotIndex ≤ s'.lastSnapshotIndex
  applied : s.appliedIndex ≤ s'.appliedIndex
  commit : s.commitIndex ≤ s'.commitIndex
  last : s.getLastLogIndex ≤ s'.getLastLogIndex

theorem Node.Advances.refl (s : Node n) : s.Advances s := ⟨le_rfl, le_rfl, le_rfl, le_rfl⟩

/-- The invariant speaks about the log, the counters and `matchIndex` only. -/
theorem Node.IndexInv.congr {s : Node n} (h : s.IndexInv) (s' : Node n) (hlogs : s'.logs = s.logs)
    (hsnap : s'.lastSnapshotIndex = s.lastSnapshotIndex)
    (happlied : s'.appliedIndex = s.appliedIndex) (hcommit : s'.commitIndex = s.commitIndex)
    (hmatch : ∀ i, s'.matchIndex i ≤ s.getLastLogIndex) : s'.IndexInv ∧ s.Advances s' := by
  have hlast : s'.getLastLogIndex = s.getLastLogIndex := by
    simp [Node.getLastLogIndex, hlogs, hsnap]
  refine ⟨⟨fun i e he => ?_, ?_, ?_, ?_, ?_, fun i => ?_⟩, ⟨?_, ?_, ?_, ?_⟩⟩
  · rw [hsnap]
    exact h.contiguous i e (hlogs ▸ he)
  · rw [hsnap]; exact h.snapshotNonneg
  · rw [hsnap, happlied]; exact h.snapshotLeApplied
  · rw [happlied, hcommit]; exact h.appliedLeCommit
  · rw [hcommit, hlast]; exact h.commitLeLast
  · rw [hlast]; exact hmatch i
  · exact hsnap.ge
  · exact happlied.ge
  · exact hcommit.ge
  · exact hlast.ge

theorem Node.IndexInv.lastNonneg {s : Node n} (h : s.IndexInv) : 0 ≤ s.getLastLogIndex :=
  h.snapshotNonneg.trans (h.snapshotLeApplied.trans (h.appliedLeCommit.trans h.commitLeLast))

/-- A fresh node. -/
theorem Node.IndexInv.new (me : Fin n) : (Node.new me Persister.new).IndexInv := by
  refine ⟨?_, le_rfl, le_rfl, le_rfl, le_rfl, fun _ => le_rfl⟩
  rintro i e he
  simp [Node.new, Node.load, Persister.new] at he

/-! ## Logs that the handlers build -/

theorem Node.Contiguous.push {s : Node n} (h : s.Contiguous) {e : LogEntry}
    (he : e.index = s.getNewCommandIndex) : Node.Contiguous { s with logs := s.logs ++ [e] } := by
  have hlast := h.getLastLogIndex
  rw [Node.getNewCommandIndex] at he
  intro i x hx
  rcases Nat.lt_or_ge i s.logs.length with hi | hi
  · rw [List.getElem?_append_left hi] at hx
    exact h i x hx
  · have hi' : i = s.logs.length := by
      have := (List.getElem?_eq_some_iff.1 hx).1
      simp only [List.length_append, List.length_singleton] at this
      omega
    subst hi'
    simp only [List.getElem?_concat_length, Option.some.injEq] at hx
    subst hx
    simp only
    omega

/-- Dropping the entries up to `index` leaves a contiguous log over a snapshot at `index`, which
    reaches as far as before. -/
theorem Node.Contiguous.drop {s : Node n} (h : s.Contiguous) (s' : Node n) {index : Int}
    (hlo : s.lastSnapshotIndex ≤ index)
    (hlogs : s'.logs = s.logs.drop (index - s.lastSnapshotIndex).toNat)
    (hsnap : s'.lastSnapshotIndex = index) :
    s'.Contiguous ∧ s'.getLastLogIndex = max s.getLastLogIndex index := by
  have hc : s'.Contiguous := by
    intro i e he
    rw [hlogs, List.getElem?_drop] at he
    have := h _ e he
    push_cast at this
    omega
  refine ⟨hc, ?_⟩
  rw [hc.getLastLogIndex, h.getLastLogIndex, hlogs, hsnap, List.length_drop]
  omega

/-- Laying consecutive entries over a contiguous log leaves it contiguous, and no shorter. -/
theorem Node.Contiguous.appended {s : Node n} (h : s.Contiguous) {args : AppendEntriesArgs}
    (hcons : Consecutive args.prevLogIndex args.entries)
    (hlo : s.lastSnapshotIndex ≤ args.prevLogIndex) (hhi : args.prevLogIndex ≤ s.getLastLogIndex) :
    (s.appended args).Contiguous ∧ (s.appended args).getLastLogIndex
      = max s.getLastLogIndex (args.prevLogIndex + args.entries.length) := by
  obtain ⟨k, hk⟩ : ∃ k : ℕ, args.prevLogIndex = s.lastSnapshotIndex + k :=
    ⟨(args.prevLogIndex - s.lastSnapshotIndex).toNat, by omega⟩
  have hkt : (args.prevLogIndex - s.lastSnapshotIndex).toNat = k := by omega
  have hlast := h.getLastLogIndex
  have hlogs : (s.appended args).logs
      = s.logs.take k ++ args.entries ++ s.logs.drop (k + args.entries.length) := by
    simp [Node.appended, Node.overlay, hkt]
  have hsnap : (s.appended args).lastSnapshotIndex = s.lastSnapshotIndex := by
    simp [Node.appended]
  have hc : (s.appended args).Contiguous := by
    intro i e he
    rw [hsnap]
    rw [hlogs] at he
    rcases Nat.lt_or_ge i (s.logs.take k ++ args.entries).length with hi | hi
    · rw [List.getElem?_append_left hi] at he
      rcases Nat.lt_or_ge i (s.logs.take k).length with hi' | hi'
      · rw [List.getElem?_append_left hi', List.getElem?_take_of_lt (by simp at hi'; omega)] at he
        exact h i e he
      · rw [List.getElem?_append_right hi'] at he
        have := hcons _ e he
        simp only [List.length_take] at this hi'
        omega
    · rw [List.getElem?_append_right hi, List.getElem?_drop] at he
      have := h _ e he
      simp only [List.length_append, List.length_take] at this hi
      omega
  refine ⟨hc, ?_⟩
  rw [hc.getLastLogIndex, hsnap, hlogs, hlast]
  simp only [List.length_append, List.length_take, List.length_drop]
  omega

/-! ## The handlers -/

theorem Node.IndexInv.execute {s : Node n} (h : s.IndexInv) (command : Bytes) :
    (s.execute command).1.IndexInv ∧ s.Advances (s.execute command).1 := by
  rcases s.execute_cases command with ⟨-, heq⟩ | ⟨-, heq⟩
  · rw [heq]
    have hc : Node.Contiguous (Node.mPersist { s with logs := s.logs ++ [s.newEntry command] }) :=
      h.contiguous.push rfl
    have hlast := h.contiguous.getLastLogIndex
    have hlast' : Node.getLastLogIndex
        (Node.mPersist { s with logs := s.logs ++ [s.newEntry command] })
        = s.getLastLogIndex + 1 := by
      rw [hc.getLastLogIndex]
      simp only [Node.mPersist_lastSnapshotIndex, Node.mPersist_logs, List.length_append,
        List.length_singleton]
      omega
    have hcommit := h.commitLeLast
    exact ⟨⟨hc, h.snapshotNonneg, h.snapshotLeApplied, h.appliedLeCommit,
      by rw [hlast']; exact hcommit.trans (by omega),
      fun i => (h.matchLeLast i).trans (by rw [hlast']; omega)⟩, ⟨le_rfl, le_rfl, le_rfl, by omega⟩⟩
  · rw [heq]
    exact ⟨h, .refl s⟩

theorem Node.IndexInv.persist {s : Node n} (h : s.IndexInv) (index : Int) (shot : Bytes) :
    (s.persist index shot).node.IndexInv ∧ s.Advances (s.persist index shot).node ∧
      (s.persist index shot).fault = none := by
  rcases h.contiguous.persist_cases h.commitLeLast index shot with heq | ⟨e, hlo, hhi, -, -, heq⟩
  · rw [heq]
    exact ⟨h, .refl s, rfl⟩
  · rw [heq]
    obtain ⟨hc, hlast⟩ := h.contiguous.drop (s.compacted index e.term shot) hlo.le rfl rfl
    obtain ⟨-, h0, h1, h2, h3, h4⟩ := h
    have hsnap : (s.compacted index e.term shot).lastSnapshotIndex = index := rfl
    have happlied : (s.compacted index e.term shot).appliedIndex = max s.appliedIndex index := rfl
    have hcommit : (s.compacted index e.term shot).commitIndex = s.commitIndex := rfl
    have hmatch : ∀ i, s.matchIndex i ≤ (s.compacted index e.term shot).getLastLogIndex := by
      intro i
      rw [hlast]
      exact (h4 i).trans (le_max_left _ _)
    refine ⟨⟨hc, ?_, ?_, ?_, ?_, hmatch⟩, ⟨?_, ?_, ?_, ?_⟩, rfl⟩
    all_goals simp only [hsnap, happlied, hcommit, hlast]; omega

theorem Node.IndexInv.getApplyMessages_eq {s : Node n} (h : s.IndexInv) :
    s.getApplyMessages = ⟨{ s with appliedIndex := s.commitIndex },
      ((s.logs.drop (s.appliedIndex - s.lastSnapshotIndex).toNat).take
        (s.commitIndex - s.appliedIndex).toNat).map LogEntry.toMessage, none⟩ := by
  obtain ⟨hc, -, h1, h2, h3, -⟩ := h
  rw [Node.getApplyMessages, if_neg (by omega), if_neg (by omega),
    hc.takeApplyMessages _ h1 (by omega)]
  have hnew : s.appliedIndex + ((s.commitIndex - s.appliedIndex).toNat : ℕ) = s.commitIndex := by
    omega
  rw [hnew]

theorem Node.IndexInv.getApplyMessages {s : Node n} (h : s.IndexInv) :
    s.getApplyMessages.node.IndexInv ∧ s.Advances s.getApplyMessages.node ∧
      s.getApplyMessages.fault = none := by
  rw [h.getApplyMessages_eq]
  exact ⟨⟨h.contiguous, h.snapshotNonneg, h.snapshotLeApplied.trans h.appliedLeCommit, le_rfl,
    h.commitLeLast, h.matchLeLast⟩, ⟨le_rfl, h.appliedLeCommit, le_rfl, le_rfl⟩, rfl⟩

theorem Node.IndexInv.stand4Election {s : Node n} (h : s.IndexInv) :
    s.stand4Election.1.IndexInv ∧ s.Advances s.stand4Election.1 := by
  rcases s.stand4Election_cases with ⟨-, heq⟩ | ⟨-, heq⟩
  · rw [heq]
    exact ⟨h, .refl s⟩
  · rw [heq]
    exact h.congr _ rfl rfl rfl rfl h.matchLeLast

theorem Node.IndexInv.requestVote {s : Node n} (h : s.IndexInv) (args : RequestVoteArgs) :
    (s.requestVote args).1.IndexInv ∧ s.Advances (s.requestVote args).1 := by
  rcases s.requestVote_cases args with ⟨-, heq | ⟨-, heq⟩⟩ | ⟨-, -, -, ⟨-, -, heq⟩ | ⟨-, heq⟩⟩
  all_goals
    rw [heq]
    exact h.congr _ rfl rfl rfl rfl h.matchLeLast

theorem Node.IndexInv.sendRequestVote {s : Node n} (h : s.IndexInv) (reply : RequestVoteReply)
    (num : ℕ) : (s.sendRequestVote reply num).1.IndexInv ∧
      s.Advances (s.sendRequestVote reply num).1 := by
  rcases s.sendRequestVote_cases reply num with
    ⟨-, heq⟩ | heq | ⟨-, -, ⟨-, heq⟩ | ⟨-, -, heq⟩ | ⟨-, -, heq⟩⟩
  · rw [heq]; exact h.congr _ rfl rfl rfl rfl h.matchLeLast
  · rw [heq]; exact h.congr _ rfl rfl rfl rfl h.matchLeLast
  · rw [heq]; exact h.congr _ rfl rfl rfl rfl h.matchLeLast
  · rw [heq]; exact h.congr _ rfl rfl rfl rfl h.matchLeLast
  · rw [heq]
    refine h.congr _ rfl rfl rfl rfl fun i => ?_
    rcases eq_or_ne i s.me with rfl | hi
    · simp [Node.becomeLeader]
    · simpa [Node.becomeLeader, hi] using h.lastNonneg

theorem Node.IndexInv.recordMatch {s : Node n} (h : s.IndexInv) (server : Fin n)
    {args : AppendEntriesArgs}
    (hargs : args.prevLogIndex + args.entries.length ≤ s.getLastLogIndex) :
    (s.recordMatch server args).IndexInv ∧ s.Advances (s.recordMatch server args) := by
  refine h.congr _ rfl rfl rfl rfl fun i => ?_
  rcases eq_or_ne i server with rfl | hi
  · simpa [Node.recordMatch] using ⟨h.matchLeLast i, hargs⟩
  · simpa [Node.recordMatch, hi] using h.matchLeLast i

theorem Node.IndexInv.sendAppendEntries {s : Node n} (h : s.IndexInv) {server : Fin n}
    {args : AppendEntriesArgs} (reply : AppendEntriesReply) (num : ℕ)
    (hargs : args.prevLogIndex + args.entries.length ≤ s.getLastLogIndex) :
    (s.sendAppendEntries server args reply num).node.IndexInv ∧
      s.Advances (s.sendAppendEntries server args reply num).node ∧
      (s.sendAppendEntries server args reply num).fault = none := by
  have hmax := h.recordMatch server hargs
  rcases s.sendAppendEntries_cases server args reply num h.commitLeLast
    (h.matchLeLast server) hargs with
    heq | ⟨-, heq⟩ | ⟨-, -, -, -, heq⟩ | ⟨-, -, -, ⟨-, heq⟩ | ⟨-, heq⟩⟩
  · rw [heq]; exact ⟨h, .refl s, rfl⟩
  · rw [heq]
    obtain ⟨h1, h2⟩ := h.congr (s.identityChange .follower reply.term (-1)) rfl rfl rfl rfl h.matchLeLast
    exact ⟨h1, h2, rfl⟩
  · rw [heq]
    obtain ⟨h1, h2⟩ := h.congr
      { s with nextIndex := Function.update s.nextIndex server reply.updateNextIndex }
      rfl rfl rfl rfl h.matchLeLast
    exact ⟨h1, h2, rfl⟩
  · rw [heq]
    exact ⟨hmax.1, hmax.2, rfl⟩
  · rw [heq]
    rcases (s.recordMatch server args).updateCommitIndex_cases args with heq' | ⟨-, heq'⟩
    · rw [heq']
      exact ⟨hmax.1, hmax.2, rfl⟩
    · rw [heq']
      obtain ⟨hc, h0, h1, h2, h3, h4⟩ := hmax.1
      exact ⟨⟨hc, h0, h1, le_max_of_le_left h2, max_le h3 hargs, h4⟩,
        ⟨le_rfl, le_rfl, le_max_left _ _, le_rfl⟩, rfl⟩

theorem Node.IndexInv.appendEntries {s : Node n} (h : s.IndexInv) {args : AppendEntriesArgs}
    (hcons : Consecutive args.prevLogIndex args.entries) :
    (s.appendEntries args).node.IndexInv ∧ s.Advances (s.appendEntries args).node ∧
      ∀ f, (s.appendEntries args).fault = some f → ∃ own e, e ∈ args.entries ∧ own ∈ s.logs ∧
        own.index = e.index ∧ own.term = e.term ∧ own.command ≠ e.command ∧
        f = .differentCommands s.me own.command args.leaderId e.command e.term e.index := by
  have hfollow : (s.followTerm args.term).mPersist.IndexInv ∧
      s.Advances (s.followTerm args.term).mPersist :=
    h.congr _ (by simp) (by simp) (by simp) (by simp) (by simpa using h.matchLeLast)
  rcases h.contiguous.appendEntries_cases hcons with
    ⟨-, heq⟩ | ⟨-, index, heq, -⟩ | ⟨-, hlo, hhi, -, heq⟩ |
      ⟨-, hlo, logs, own, e, j, hown, he, hterm, hcmd, hlen, hc, hnode, hfault, -⟩
  · rw [heq]
    exact ⟨h, .refl s, by simp⟩
  · rw [heq]
    exact ⟨hfollow.1, hfollow.2, by simp⟩
  · rw [heq]
    obtain ⟨hc, hlast⟩ := h.contiguous.appended hcons hlo hhi
    obtain ⟨-, h0, h1, h2, h3, h4⟩ := h
    have hsnap : (s.appended args).lastSnapshotIndex = s.lastSnapshotIndex := by
      simp [Node.appended]
    have happlied : (s.appended args).appliedIndex = s.appliedIndex := by simp [Node.appended]
    have hcommit : (s.appended args).commitIndex = if args.leaderCommit > s.commitIndex then
        min args.leaderCommit (max s.getLastLogIndex (args.prevLogIndex + args.entries.length))
        else s.commitIndex := rfl
    have hmatch : (s.appended args).matchIndex = s.matchIndex := by simp [Node.appended]
    have hmatch' : ∀ i, (s.appended args).matchIndex i ≤ (s.appended args).getLastLogIndex := by
      intro i
      rw [hmatch, hlast]
      exact (h4 i).trans (le_max_left _ _)
    refine ⟨⟨hc, ?_, ?_, ?_, ?_, hmatch'⟩, ⟨?_, ?_, ?_, ?_⟩, by simp⟩
    all_goals simp only [hsnap, happlied, hcommit, hlast]; omega
  · have hc' : Node.Contiguous (Node.mPersist { s.followTerm args.term with logs := logs }) := by
      intro i x hx
      have := hc i x hx
      simpa using this
    have hlast' : Node.getLastLogIndex (Node.mPersist { s.followTerm args.term with logs := logs })
        = s.lastSnapshotIndex + logs.length := by
      rw [hc'.getLastLogIndex]
      simp
    have hlast := h.contiguous.getLastLogIndex
    have hidx := h.contiguous _ own hown
    obtain ⟨-, h0, h1, h2, h3, h4⟩ := h
    rw [hnode, hfault]
    refine ⟨⟨hc', by simpa using h0, by simpa using h1, by simpa using h2, ?_, fun i => ?_⟩,
      ⟨by simp, by simp, by simp, by rw [hlast']; omega⟩, fun f hf => ?_⟩
    · rw [hlast']
      simp only [Node.mPersist_commitIndex, Node.followTerm_commitIndex]
      omega
    · rw [hlast']
      simp only [Node.mPersist_matchIndex, Node.followTerm_matchIndex]
      have := h4 i
      omega
    · refine ⟨own, e, List.mem_of_getElem? he, List.mem_of_getElem? hown, ?_, hterm, hcmd,
        (Option.some.inj hf).symm⟩
      rw [hcons j e he, hidx]
      push_cast
      omega

theorem Node.IndexInv.sendSnapshot {s : Node n} (h : s.IndexInv) (server : Fin n)
    {args : InstallSnapshotArgs} (reply : InstallSnapshotReply)
    (hargs : args.lastIndex ≤ s.getLastLogIndex) :
    (s.sendSnapshot server args reply).IndexInv ∧
      s.Advances (s.sendSnapshot server args reply) := by
  rcases s.sendSnapshot_cases server args reply with ⟨-, heq⟩ | heq | ⟨-, -, heq⟩
  · rw [heq]; exact h.congr _ rfl rfl rfl rfl h.matchLeLast
  · rw [heq]; exact h.congr _ rfl rfl rfl rfl h.matchLeLast
  · rw [heq]
    refine h.congr _ rfl rfl rfl rfl fun i => ?_
    rcases eq_or_ne i server with rfl | hi
    · simpa using hargs
    · simpa [hi] using h.matchLeLast i

theorem Node.IndexInv.installSnapshot {s : Node n} (h : s.IndexInv) (args : InstallSnapshotArgs) :
    (s.installSnapshot args).node.IndexInv ∧ s.Advances (s.installSnapshot args).node ∧
      (s.installSnapshot args).fault = none := by
  rcases h.contiguous.installSnapshot_cases args with ⟨-, heq⟩ | ⟨-, -, heq⟩ | ⟨-, hnew, heq⟩
  · rw [heq]
    exact ⟨h, .refl s, rfl⟩
  · rw [heq]
    obtain ⟨h1, h2⟩ := h.congr (s.followTerm args.term) (by simp) (by simp) (by simp) (by simp) (by simpa using h.matchLeLast)
    exact ⟨h1, h2, rfl⟩
  · rw [heq]
    obtain ⟨hc, hlast⟩ := h.contiguous.drop (s.installed args) hnew.le rfl rfl
    obtain ⟨-, h0, h1, h2, h3, h4⟩ := h
    have hsnap : (s.installed args).lastSnapshotIndex = args.lastIndex := rfl
    have happlied : (s.installed args).appliedIndex = max s.appliedIndex args.lastIndex := rfl
    have hcommit : (s.installed args).commitIndex = max s.commitIndex args.lastIndex := rfl
    have hmatch : (s.installed args).matchIndex = s.matchIndex := by simp [Node.installed]
    have hmatch' : ∀ i, (s.installed args).matchIndex i ≤ (s.installed args).getLastLogIndex := by
      intro i
      rw [hmatch, hlast]
      exact (h4 i).trans (le_max_left _ _)
    refine ⟨⟨hc, ?_, ?_, ?_, ?_, hmatch'⟩, ⟨?_, ?_, ?_, ?_⟩, rfl⟩
    all_goals simp only [hsnap, happlied, hcommit, hlast]; omega

/-! ## The process -/

/-- What the outside owes an input: the entries of an appendEntries request have no gaps. -/
def Input.WellFormed : Input n → Prop
  | .appendEntries args => Consecutive args.prevLogIndex args.entries
  | _ => True

instance (input : Input n) : Decidable input.WellFormed := by
  cases input <;> unfold Input.WellFormed <;> infer_instance

/-- The invariant of a process: that of its node, and what its own requests say about its log. -/
structure Proc.IndexInv (P : Proc n) : Prop where
  node : P.node.IndexInv
  appendConsecutive : ∀ call ∈ P.appendCalls, Consecutive call.args.prevLogIndex call.args.entries
  appendLeLast : ∀ call ∈ P.appendCalls,
    call.args.prevLogIndex + call.args.entries.length ≤ P.node.getLastLogIndex
  snapshotLeLast : ∀ call ∈ P.snapshotCalls, ∀ args, call.args = some args →
    args.lastIndex ≤ P.node.getLastLogIndex

theorem Proc.IndexInv.new (me : Fin n) : (Proc.new me).IndexInv :=
  ⟨Node.IndexInv.new me, by simp [Proc.new], by simp [Proc.new], by simp [Proc.new]⟩

/-- A step of the node that drops at most some calls keeps the invariant of the process. -/
theorem Proc.IndexInv.frame {P P' : Proc n} (h : P.IndexInv)
    (hnode : P'.node.IndexInv ∧ P.node.Advances P'.node)
    (happend : ∀ call ∈ P'.appendCalls, call ∈ P.appendCalls)
    (hsnap : ∀ call ∈ P'.snapshotCalls, call ∈ P.snapshotCalls) :
    P'.IndexInv ∧ P.node.Advances P'.node :=
  ⟨⟨hnode.1, fun call hc => h.appendConsecutive call (happend call hc),
    fun call hc => (h.appendLeLast call (happend call hc)).trans hnode.2.last,
    fun call hc args ha => (h.snapshotLeLast call (hsnap call hc) args ha).trans hnode.2.last⟩,
    hnode.2⟩

theorem mem_toAppendCall {cell : ℕ} {launches : List (Launch n)} {call : AppendCall n}
    (h : call ∈ launches.filterMap (Launch.toAppendCall cell)) :
    ∃ server args, .sendAppendEntries server args ∈ launches ∧
      call = { server := server, args := args, appendNum := cell } := by
  obtain ⟨launch, hl, hcall⟩ := List.mem_filterMap.1 h
  cases launch with
  | sendSnapshot server => simp [Launch.toAppendCall] at hcall
  | sendAppendEntries server args =>
      exact ⟨server, args, hl, (Option.some.inj hcall).symm⟩

theorem mem_toSnapshotCall {launches : List (Launch n)} {call : SnapshotCall n}
    (h : call ∈ launches.filterMap Launch.toSnapshotCall) : ∃ server, call = { server := server } := by
  obtain ⟨launch, hl, hcall⟩ := List.mem_filterMap.1 h
  cases launch with
  | sendSnapshot server => exact ⟨server, (Option.some.inj hcall).symm⟩
  | sendAppendEntries server args => simp [Launch.toSnapshotCall] at hcall

/-- The servers of a heartbeat's requests, each at most once and never the node itself. -/
theorem Node.heartBeatPeers_servers (s : Node n) (cell : ℕ) : ∀ peers : List (Fin n),
    (((s.heartBeatPeers peers).1.filterMap (Launch.toAppendCall cell)).map
      AppendCall.server).Sublist (peers.filter (· ≠ s.me)) := by
  intro peers
  induction peers with
  | nil => simp [Node.heartBeatPeers]
  | cons i rest ih =>
      rw [Node.heartBeatPeers]
      by_cases hme : i = s.me
      · simpa [hme] using ih
      rw [if_neg hme, List.filter_cons_of_pos (by simpa using hme)]
      split
      · rw [List.filterMap_cons_none (by rfl)]
        simpa using ih.cons i
      split
      · simp
      · simpa [Launch.toAppendCall] using ih

/-- A heartbeat starts requests that end at the sender's last entry. -/
theorem Proc.IndexInv.heartBeat {P : Proc n} (h : P.IndexInv) : P.heartBeat.IndexInv := by
  unfold Proc.heartBeat
  split
  swap
  · exact h
  rename_i hleader
  have hnew : ∀ call ∈ P.node.heartBeat.1.filterMap (Launch.toAppendCall P.appendNums.length),
      Consecutive call.args.prevLogIndex call.args.entries ∧
        call.args.prevLogIndex + call.args.entries.length ≤ P.node.getLastLogIndex := by
    intro call hcall
    obtain ⟨server, args, hmem, rfl⟩ := mem_toAppendCall hcall
    rw [Node.heartBeat, if_pos hleader] at hmem
    obtain ⟨-, -, -, hargs⟩ := Node.mem_heartBeatPeers hmem
    obtain ⟨-, -, -, hlo, hhi, -, hentries⟩ := h.node.contiguous.heartBeatArgs hargs
    obtain ⟨hcons, hlast⟩ := h.node.contiguous.heartBeatArgs_entries hlo hhi
    rw [hentries]
    exact ⟨hcons, hlast.le⟩
  refine ⟨h.node, fun call hcall => ?_, fun call hcall => ?_, fun call hcall args ha => ?_⟩
  · rcases List.mem_append.1 hcall with hc | hc
    · exact h.appendConsecutive call hc
    · exact (hnew call hc).1
  · rcases List.mem_append.1 hcall with hc | hc
    · exact h.appendLeLast call hc
    · exact (hnew call hc).2
  · rcases List.mem_append.1 hcall with hc | hc
    · exact h.snapshotLeLast call hc args ha
    · obtain ⟨server, rfl⟩ := mem_toSnapshotCall hc
      simp at ha

theorem Proc.IndexInv.readSnapshot {P : Proc n} (h : P.IndexInv) (k : ℕ) :
    (P.readSnapshot k).IndexInv := by
  unfold Proc.readSnapshot
  split
  · refine ⟨h.node, h.appendConsecutive, h.appendLeLast, fun call hcall args ha => ?_⟩
    rcases List.mem_or_eq_of_mem_set hcall with hc | rfl
    · exact h.snapshotLeLast call hc args ha
    · simp only [Option.some.injEq] at ha
      subst ha
      have hinv := h.node
      exact hinv.snapshotLeApplied.trans (hinv.appliedLeCommit.trans hinv.commitLeLast)
  · exact h

/-- One critical section keeps the invariant and lowers no index. It is cut short only while
    reading the next request of a heartbeat, or by two commands of the same index and term. -/
theorem Proc.IndexInv.step {P : Proc n} (h : P.IndexInv) {input : Input n}
    (hinput : input.WellFormed) :
    ((P.step input).1.IndexInv ∧ P.node.Advances (P.step input).1.node) ∧
      ((P.step input).2 = none ∨ input = .heartBeat ∨
        ∃ args, input = .appendEntries args ∧ ∃ own e, e ∈ args.entries ∧ own ∈ P.node.logs ∧
          own.index = e.index ∧ own.term = e.term ∧ own.command ≠ e.command ∧ (P.step input).2 = some
            (.differentCommands P.node.me own.command args.leaderId e.command e.term e.index)) := by
  cases input with
  | execute command =>
      exact ⟨h.frame (h.node.execute command) (fun _ hc => hc) (fun _ hc => hc), Or.inl rfl⟩
  | persist index shot =>
      obtain ⟨h1, h2, hf⟩ := h.node.persist index shot
      exact ⟨h.frame ⟨h1, h2⟩ (fun _ hc => hc) (fun _ hc => hc), Or.inl hf⟩
  | getApplyMessages =>
      obtain ⟨h1, h2, hf⟩ := h.node.getApplyMessages
      exact ⟨h.frame ⟨h1, h2⟩ (fun _ hc => hc) (fun _ hc => hc), Or.inl hf⟩
  | stand4Election =>
      refine ⟨?_, Or.inl rfl⟩
      have hnode := h.node.stand4Election
      show P.stand4Election.IndexInv ∧ P.node.Advances P.stand4Election.node
      unfold Proc.stand4Election
      split
      all_goals
        rename_i heq
        rw [heq] at hnode
        exact h.frame hnode (fun _ hc => hc) (fun _ hc => hc)
  | heartBeat =>
      refine ⟨⟨h.heartBeat, ?_⟩, Or.inr (Or.inl rfl)⟩
      show P.node.Advances P.heartBeat.node
      unfold Proc.heartBeat
      split <;> exact .refl P.node
  | requestVote args =>
      exact ⟨h.frame (h.node.requestVote args) (fun _ hc => hc) (fun _ hc => hc), Or.inl rfl⟩
  | appendEntries args =>
      obtain ⟨h1, h2, hf⟩ := h.node.appendEntries hinput
      refine ⟨h.frame ⟨h1, h2⟩ (fun _ hc => hc) (fun _ hc => hc), ?_⟩
      rcases hfault : (P.step (.appendEntries args)).2 with _ | f
      · exact Or.inl rfl
      · obtain ⟨own, e, he, hown, hidx, hterm, hcmd, rfl⟩ := hf f hfault
        exact Or.inr (Or.inr ⟨args, rfl, own, e, he, hown, hidx, hterm, hcmd, rfl⟩)
  | installSnapshot args =>
      obtain ⟨h1, h2, hf⟩ := h.node.installSnapshot args
      exact ⟨h.frame ⟨h1, h2⟩ (fun _ hc => hc) (fun _ hc => hc), Or.inl hf⟩
  | readSnapshot k =>
      refine ⟨⟨h.readSnapshot k, ?_⟩, Or.inl rfl⟩
      show P.node.Advances (P.readSnapshot k).node
      unfold Proc.readSnapshot
      split <;> exact .refl P.node
  | appendReply k reply =>
      show ((P.appendReply k reply).1.IndexInv ∧ P.node.Advances (P.appendReply k reply).1.node) ∧
        ((P.appendReply k reply).2 = none ∨ _)
      unfold Proc.appendReply
      split
      · exact ⟨⟨h, .refl P.node⟩, Or.inl rfl⟩
      · rename_i call hcall
        obtain ⟨h1, h2, hf⟩ := h.node.sendAppendEntries reply
          (P.appendNums.getD call.appendNum 0) (h.appendLeLast call (List.mem_of_getElem? hcall))
        exact ⟨h.frame ⟨h1, h2⟩ (fun _ hc => List.mem_of_mem_eraseIdx hc) (fun _ hc => hc),
          Or.inl hf⟩
  | voteReply k reply =>
      refine ⟨?_, Or.inl rfl⟩
      show (P.voteReply k reply).IndexInv ∧ P.node.Advances (P.voteReply k reply).node
      unfold Proc.voteReply
      split
      · exact ⟨h, .refl P.node⟩
      · exact h.frame (h.node.sendRequestVote reply _) (fun _ hc => hc) (fun _ hc => hc)
  | snapshotReply k reply =>
      refine ⟨?_, Or.inl rfl⟩
      show (P.snapshotReply k reply).IndexInv ∧ P.node.Advances (P.snapshotReply k reply).node
      unfold Proc.snapshotReply
      split
      · rename_i server args _ hcall
        exact h.frame (h.node.sendSnapshot server reply
            (h.snapshotLeLast _ (List.mem_of_getElem? hcall) args rfl))
          (fun _ hc => hc) (fun _ hc => List.mem_of_mem_eraseIdx hc)
      · exact ⟨h, .refl P.node⟩

/-! ## What a leader notes about its peers -/

/-- A leader's `nextIndex` is at most one past its own log. -/
def Node.NextInv (s : Node n) : Prop :=
  s.identity = .leader → ∀ i, s.nextIndex i ≤ s.getLastLogIndex + 1

theorem Node.NextInv.of_eq {s s' : Node n} (h : s.NextInv) (hadv : s.Advances s')
    (hid : s'.identity = .leader → s.identity = .leader) (hnext : s'.nextIndex = s.nextIndex) :
    s'.NextInv := by
  intro hl i
  rw [hnext]
  exact (h (hid hl) i).trans (by have := hadv.last; omega)

/-- Noting for one peer an index of its own log keeps a leader's `nextIndex` in bounds. -/
theorem Node.NextInv.update {s s' : Node n} (h : s.NextInv) {server : Fin n} {next : Int}
    (hlast : s'.getLastLogIndex = s.getLastLogIndex)
    (hid : s'.identity = .leader → s.identity = .leader)
    (hnext : s'.nextIndex = Function.update s.nextIndex server next)
    (hle : next ≤ s.getLastLogIndex + 1) : s'.NextInv := by
  intro hl i
  rw [hnext, hlast]
  rcases eq_or_ne i server with rfl | hi
  · simpa using hle
  · simpa [hi] using h (hid hl) i

theorem Node.NextInv.sendRequestVote {s : Node n} (h : s.NextInv) (reply : RequestVoteReply)
    (num : ℕ) (hadv : s.Advances (s.sendRequestVote reply num).1) :
    (s.sendRequestVote reply num).1.NextInv := by
  rcases s.sendRequestVote_cases reply num with
    ⟨-, heq⟩ | heq | ⟨-, -, ⟨-, heq⟩ | ⟨-, -, heq⟩ | ⟨-, -, heq⟩⟩
  · exact h.of_eq hadv (by simp [heq]) (by simp [heq])
  · exact h.of_eq hadv (by simp [heq]) (by simp [heq])
  · exact h.of_eq hadv (by simp [heq]) (by simp [heq])
  · exact h.of_eq hadv (by simp [heq]) (by simp [heq])
  · rw [heq]
    exact fun _ _ => le_rfl

/-- If the leader `s` takes a hint from `reply`, it is one past its log at most. -/
def Node.HintInRange (s : Node n) (reply : AppendEntriesReply) : Prop :=
  s.identity = .leader → reply.term = s.term → reply.success = false →
    reply.updateNextIndex ≠ invalidUpdateNextIndex → reply.updateNextIndex ≤ s.getLastLogIndex + 1

theorem Node.NextInv.sendAppendEntries {s : Node n} (h : s.NextInv) (hinv : s.IndexInv)
    {server : Fin n} {args : AppendEntriesArgs} {reply : AppendEntriesReply} (num : ℕ)
    (hargs : args.prevLogIndex + args.entries.length ≤ s.getLastLogIndex)
    (hreply : s.HintInRange reply) :
    (s.sendAppendEntries server args reply num).node.NextInv := by
  have hmax : max (s.matchIndex server) (args.prevLogIndex + args.entries.length) + 1
      ≤ s.getLastLogIndex + 1 := by
    have := hinv.matchLeLast server
    omega
  rcases s.sendAppendEntries_cases server args reply num hinv.commitLeLast
    (hinv.matchLeLast server) hargs with
    heq | ⟨-, heq⟩ | ⟨hterm, hid, hfail, hvalid, heq⟩ | ⟨-, -, -, ⟨-, heq⟩ | ⟨-, heq⟩⟩
  · rw [heq]; exact h
  · rw [heq]; exact fun hl => by simp at hl
  · rw [heq]; exact h.update rfl id rfl (hreply hid hterm hfail hvalid)
  · rw [heq]; exact h.update rfl id rfl hmax
  · rw [heq]
    rcases (s.recordMatch server args).updateCommitIndex_cases args with heq' | ⟨-, heq'⟩
    · rw [heq']; exact h.update rfl id rfl hmax
    · rw [heq']; exact h.update rfl id rfl hmax

/-- What a run of a single process may be fed: requests without gaps, and rejections that name an
    index of the log or the one after it. -/
def Proc.Legal (P : Proc n) : Input n → Prop
  | .appendEntries args => Consecutive args.prevLogIndex args.entries
  | .appendReply _ reply => reply.updateNextIndex = invalidUpdateNextIndex ∨
      1 ≤ reply.updateNextIndex ∧ reply.updateNextIndex ≤ P.node.getLastLogIndex + 1
  | _ => True

theorem Proc.Legal.wellFormed {P : Proc n} {input : Input n} (h : P.Legal input) :
    input.WellFormed := by
  cases input with
  | appendEntries args => exact h
  | _ => trivial

theorem Proc.Legal.hintInRange {P : Proc n} {k : ℕ} {reply : AppendEntriesReply}
    (h : P.Legal (.appendReply k reply)) : P.node.HintInRange reply :=
  fun _ _ _ hvalid => (h.resolve_left hvalid).2

theorem Proc.IndexInv.step_nextInv {P : Proc n} (h : P.IndexInv) (hnext : P.node.NextInv)
    {input : Input n} (hinput : input.WellFormed)
    (hhint : ∀ k reply, input = .appendReply k reply → P.node.HintInRange reply) :
    (P.step input).1.node.NextInv := by
  have hadv := (h.step hinput).1.2
  cases input with
  | execute command =>
      refine hnext.of_eq hadv ?_ ?_
      all_goals
        rcases P.node.execute_cases command with ⟨-, heq⟩ | ⟨-, heq⟩ <;> simp [Proc.step, heq]
  | persist index shot =>
      refine hnext.of_eq hadv ?_ ?_
      all_goals
        rcases h.node.contiguous.persist_cases h.node.commitLeLast index shot with
          heq | ⟨e, -, -, -, -, heq⟩ <;> simp [Proc.step, heq, Node.compacted]
  | getApplyMessages =>
      have heq := h.node.getApplyMessages_eq
      exact hnext.of_eq hadv (by simp [Proc.step, heq]) (by simp [Proc.step, heq])
  | stand4Election =>
      rcases P.node.stand4Election_cases with ⟨-, heq⟩ | ⟨-, heq⟩
      all_goals
        exact hnext.of_eq hadv (by simp [Proc.step, Proc.stand4Election, heq])
          (by simp [Proc.step, Proc.stand4Election, heq])
  | heartBeat =>
      refine hnext.of_eq hadv ?_ ?_
      all_goals simp only [Proc.step, Proc.heartBeat]; split <;> simp
  | requestVote args =>
      refine hnext.of_eq hadv ?_ ?_
      all_goals
        rcases P.node.requestVote_cases args with
          ⟨-, heq | ⟨-, heq⟩⟩ | ⟨-, -, -, ⟨-, -, heq⟩ | ⟨-, heq⟩⟩ <;> simp [Proc.step, heq]
  | appendEntries args =>
      refine hnext.of_eq hadv ?_ ?_
      all_goals
        rcases h.node.contiguous.appendEntries_cases hinput with
          ⟨-, heq⟩ | ⟨-, index, heq, -⟩ | ⟨-, -, -, -, heq⟩ | ⟨-, -, _, _, _, _, -, -, -, -, -, -, heq, -⟩
        <;> simp [Proc.step, heq, Node.appended]
  | installSnapshot args =>
      refine hnext.of_eq hadv ?_ ?_
      all_goals
        rcases h.node.contiguous.installSnapshot_cases args with
          ⟨-, heq⟩ | ⟨-, -, heq⟩ | ⟨-, -, heq⟩ <;> simp [Proc.step, heq, Node.installed]
  | readSnapshot k =>
      refine hnext.of_eq hadv ?_ ?_
      all_goals simp only [Proc.step, Proc.readSnapshot]; split <;> simp
  | appendReply k reply =>
      show (P.appendReply k reply).1.node.NextInv
      unfold Proc.appendReply
      split
      · exact hnext
      · rename_i call hcall
        exact hnext.sendAppendEntries h.node _ (h.appendLeLast call (List.mem_of_getElem? hcall))
          (hhint k reply rfl)
  | voteReply k reply =>
      show (P.voteReply k reply).node.NextInv
      unfold Proc.voteReply
      split
      · exact hnext
      · exact hnext.sendRequestVote reply _ (h.node.sendRequestVote reply _).2
  | snapshotReply k reply =>
      show (P.snapshotReply k reply).node.NextInv
      unfold Proc.snapshotReply
      split
      · rename_i server args _ hcall
        have hargs := h.snapshotLeLast _ (List.mem_of_getElem? hcall) args rfl
        rcases P.node.sendSnapshot_cases server args reply with ⟨-, heq⟩ | heq | ⟨-, -, heq⟩
        · rw [heq]; exact fun hl => by simp at hl
        · rw [heq]; exact hnext
        · rw [heq]; exact hnext.update rfl id rfl (by omega)
      · exact hnext

/-- With `nextIndex` in bounds every request of a heartbeat can be built. -/
theorem Node.IndexInv.heartBeat_fault {s : Node n} (h : s.IndexInv) (hnext : s.NextInv) :
    s.heartBeat.2 = none := by
  unfold Node.heartBeat
  split
  swap
  · rfl
  rename_i hleader
  refine Node.heartBeatPeers_fault fun i _ hlo => ?_
  have hhi := hnext hleader i
  unfold Node.heartBeatArgs Node.getPreviousLogInfo
  by_cases heq : s.nextIndex i = s.lastSnapshotIndex + 1
  · rw [if_pos heq]
    exact ⟨_, rfl⟩
  · obtain ⟨e, he, -, -⟩ := h.contiguous.logAt (by omega : s.lastSnapshotIndex < s.nextIndex i - 1)
      (by omega)
    rw [if_neg heq]
    simp only [he]
    exact ⟨_, rfl⟩

/-- What a step on legal input does: it lowers no index, and the only way it is cut short is an
    appendEntries request with another command for an index and term of the log. -/
theorem Proc.IndexInv.step_legal {P : Proc n} (h : P.IndexInv) (hnext : P.node.NextInv)
    {input : Input n} (hlegal : P.Legal input) :
    P.node.Advances (P.step input).1.node ∧
      ∀ fault, (P.step input).2 = some fault → ∃ args own e, input = .appendEntries args ∧
        e ∈ args.entries ∧ own ∈ P.node.logs ∧ own.index = e.index ∧ own.term = e.term ∧
        own.command ≠ e.command ∧ fault =
          .differentCommands P.node.me own.command args.leaderId e.command e.term e.index := by
  obtain ⟨⟨-, hadv⟩, hfault⟩ := h.step hlegal.wellFormed
  refine ⟨hadv, fun fault hf => ?_⟩
  rcases hfault with hnone | rfl | ⟨args, rfl, own, e, he, hown, hidx, hterm, hcmd, hsome⟩
  · rw [hnone] at hf
    simp at hf
  · have hnone : (P.step .heartBeat).2 = none := h.node.heartBeat_fault hnext
    rw [hnone] at hf
    simp at hf
  · rw [hsome] at hf
    exact ⟨args, own, e, rfl, he, hown, hidx, hterm, hcmd, (Option.some.inj hf).symm⟩

end RaftKVStorage
