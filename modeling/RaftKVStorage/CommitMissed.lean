import RaftKVStorage.CommitQuorum

set_option autoImplicit false

/-! # Commits a leader misses

`_M_matchIndex` remembers over all rounds how far each peer is, but the commit index is raised only
by the reply that completes the majority of one round, and only if that peer's own request carried
an entry of the leader's term. A reply can complete a majority in `_M_matchIndex` without being such
a reply (`Node.Lags`). In a run without replies of this kind no commit is ever missed, and the first
reply of this kind misses one. -/

namespace RaftKVStorage

variable {n : ℕ}

/-! ## Missed commits -/

/-- The peers whose `_M_matchIndex` is `index` or higher. -/
def Node.peersAt (s : Node n) (index : Int) : Finset (Fin n) :=
  Finset.univ.filter fun q => q ≠ s.me ∧ index ≤ s.matchIndex q

/-- Every entry of the present term that half of the peers hold is committed. -/
def Node.NoneMissed (s : Node n) : Prop :=
  ∀ e ∈ s.logs, e.term = s.term → n / 2 ≤ (s.peersAt e.index).card → e.index ≤ s.commitIndex

/-- `_L_sendAppendEntries` gets as far as `++(*appendNum)`. -/
def Node.Counts (s : Node n) (reply : AppendEntriesReply) : Prop :=
  reply.state ≠ .disconnected ∧ reply.term = s.term ∧ s.identity = .leader ∧ reply.success = true

/-- The reply completes its round, and the request it answers carried an entry of this term. -/
def Node.Commits (s : Node n) (server : Fin n) (args : AppendEntriesArgs)
    (reply : AppendEntriesReply) (appendNum : ℕ) : Prop :=
  s.EntersMajority server args reply appendNum ∧
    args.entries.getLast?.map LogEntry.term = some s.term

/-- The peers known to hold the log up to `index` now that `server` accepted the request. -/
def Node.peersWith (s : Node n) (server : Fin n) (args : AppendEntriesArgs) (index : Int) :
    Finset (Fin n) :=
  Finset.univ.filter fun q =>
    q ≠ s.me ∧ (index ≤ s.matchIndex q ∨ q = server ∧ index ≤ args.endIndex)

/-- The round lags behind `_M_matchIndex`: with this reply half of the peers hold an uncommitted
    entry of the present term, but the reply is not one that commits. -/
def Node.Lags (s : Node n) (server : Fin n) (args : AppendEntriesArgs)
    (reply : AppendEntriesReply) (appendNum : ℕ) : Prop :=
  s.Counts reply ∧ ¬ s.Commits server args reply appendNum ∧
    ∃ e ∈ s.logs, e.term = s.term ∧ s.commitIndex < e.index ∧
      n / 2 ≤ (s.peersWith server args e.index).card

instance (s : Node n) (server : Fin n) (args : AppendEntriesArgs) (reply : AppendEntriesReply)
    (appendNum : ℕ) : Decidable (s.Commits server args reply appendNum) :=
  inferInstanceAs (Decidable (_ ∧ _))

instance (s : Node n) : Decidable s.NoneMissed := by
  unfold Node.NoneMissed
  infer_instance

instance (s : Node n) (server : Fin n) (args : AppendEntriesArgs) (reply : AppendEntriesReply)
    (appendNum : ℕ) : Decidable (s.Lags server args reply appendNum) := by
  unfold Node.Lags Node.Counts
  infer_instance

/-- The action takes in a reply that lags. -/
def Cluster.Lags (σ : Cluster n) : Action n → Prop
  | .returnAppend p k =>
      match (σ.procs p).appendCalls[k]? with
      | some ⟨server, args, cell, some reply⟩ =>
          (σ.procs p).node.Lags server args reply ((σ.procs p).appendNums.getD cell 0)
      | _ => False
  | _ => False

/-- The action has process `p` take in a reply. -/
def Cluster.TakesReply (σ : Cluster n) (p : Fin n) : Action n → Prop
  | .returnAppend q k => q = p ∧ ∃ reply, (σ.procs p).Returns (.appendReply k reply)
  | .returnVote q k => q = p ∧ ∃ reply, (σ.procs p).Returns (.voteReply k reply)
  | .returnSnapshot q k => q = p ∧ ∃ reply, (σ.procs p).Returns (.snapshotReply k reply)
  | _ => False

/-! ## A reply to an appendEntries request -/

/-- The commit index rises, entries go away, and no peer is newly noted at an uncommitted entry. -/
theorem Node.NoneMissed.mono {s s' : Node n} (h : s.NoneMissed) (hterm : s'.term = s.term)
    (hlogs : ∀ e ∈ s'.logs, e ∈ s.logs) (hcommit : s.commitIndex ≤ s'.commitIndex)
    (hpeers : ∀ e ∈ s'.logs, s'.commitIndex < e.index → s'.peersAt e.index ⊆ s.peersAt e.index) :
    s'.NoneMissed := by
  intro e he hterm' hhalf
  by_cases hle : e.index ≤ s'.commitIndex
  · exact hle
  · have hsub := Finset.card_le_card (hpeers e he (not_le.1 hle))
    exact (h e (hlogs e he) (hterm'.trans hterm) (hhalf.trans hsub)).trans hcommit

section Reply

variable {s : Node n} {server : Fin n} {args : AppendEntriesArgs} {reply : AppendEntriesReply}
  {num : ℕ}

theorem Node.updateCommitIndex_commitIndex (s : Node n) (args : AppendEntriesArgs) :
    (s.updateCommitIndex args).commitIndex =
      if args.entries.getLast?.map LogEntry.term = some s.term then
        max s.commitIndex args.endIndex
      else s.commitIndex := by
  unfold Node.updateCommitIndex
  cases args.entries.getLast? with
  | none => simp
  | some e =>
      by_cases hterm : e.term = s.term
      · simp [hterm, AppendEntriesArgs.endIndex]
      · simp [hterm]

/-- A counted reply: the peer is noted, and the commit index is raised if the reply commits. -/
theorem Node.Counts.sendAppendEntries (h : s.Counts reply) :
    (s.sendAppendEntries server args reply num).node =
      { s.recordMatch server args with
        commitIndex :=
          if s.Commits server args reply num then max s.commitIndex args.endIndex
          else s.commitIndex } := by
  by_cases henters : s.EntersMajority server args reply num
  · rw [henters.sendAppendEntries.1]
    rcases (s.recordMatch server args).updateCommitIndex_cases args with heq | ⟨⟨e, he, ht⟩, heq⟩
    · have hcommit := (s.recordMatch server args).updateCommitIndex_commitIndex args
      simp only [Node.Commits, henters, true_and]
      rw [heq] at hcommit ⊢
      exact congrArg (fun c => { s.recordMatch server args with commitIndex := c }) hcommit
    · have hlast : args.entries.getLast?.map LogEntry.term = some s.term := by
        rw [he, Option.map_some, ht]
        rfl
      rw [heq, if_pos ⟨henters, hlast⟩]
      rfl
  · rw [if_neg fun hcommits => henters hcommits.1]
    obtain ⟨hstate, hterm, hid, hsuccess⟩ := h
    have hlast : (s.recordMatch server args).getLastLogIndex = s.getLastLogIndex := rfl
    unfold Node.sendAppendEntries
    rw [if_neg hstate, if_neg (by omega), if_neg (by simp [hterm, hid]), if_neg (by simp [hsuccess])]
    dsimp only
    rw [hlast]
    split
    · rfl
    · rename_i hnext
      have hover : ¬ num + 1 ≥ n / 2 + 1 := fun hover =>
        henters ⟨hstate, by omega, by simp [hterm, hid], hsuccess, hnext, hover⟩
      rw [if_neg hover]
      rfl

/-- A reply that is not counted changes no match index and no commit index of a leader. -/
theorem Node.sendAppendEntries_of_not_counts (h : ¬ s.Counts reply)
    (hid : (s.sendAppendEntries server args reply num).node.identity = .leader) :
    ∃ nextIndex, (s.sendAppendEntries server args reply num).node =
      { s with nextIndex := nextIndex } := by
  revert hid
  unfold Node.sendAppendEntries
  split
  · exact fun _ => ⟨s.nextIndex, rfl⟩
  split
  · intro hid
    cases hid
  split
  · exact fun _ => ⟨s.nextIndex, rfl⟩
  split
  · split
    · exact fun _ => ⟨_, rfl⟩
    · exact fun _ => ⟨s.nextIndex, rfl⟩
  · rename_i hstate hnewer hstale hsuccess
    push Not at hstale
    exact absurd ⟨hstate, by omega, hstale.2, by simpa using hsuccess⟩ h

/-- The peers at an index once the reply is counted. -/
theorem Node.recordMatch_peersAt (s : Node n) (server : Fin n) (args : AppendEntriesArgs)
    (index : Int) : (s.recordMatch server args).peersAt index = s.peersWith server args index := by
  ext q
  simp only [Node.peersAt, Node.peersWith, Finset.mem_filter, Finset.mem_univ, true_and]
  by_cases hq : q = server
  · subst hq
    simp [Node.recordMatch, AppendEntriesArgs.endIndex]
  · simp [Node.recordMatch, hq]

/-- A leader that has missed nothing misses something exactly if the reply lags. -/
theorem Node.NoneMissed.sendAppendEntries (h : s.NoneMissed)
    (hid : (s.sendAppendEntries server args reply num).node.identity = .leader) :
    (s.sendAppendEntries server args reply num).node.NoneMissed ↔
      ¬ s.Lags server args reply num := by
  by_cases hcounts : s.Counts reply
  swap
  · obtain ⟨nextIndex, heq⟩ := Node.sendAppendEntries_of_not_counts hcounts hid
    rw [heq]
    exact ⟨fun _ hlags => hcounts hlags.1, fun _ => h⟩
  have hpeers : ∀ index, (s.sendAppendEntries server args reply num).node.peersAt index
      = s.peersWith server args index := by
    intro index
    rw [hcounts.sendAppendEntries]
    exact s.recordMatch_peersAt server args index
  have hlogs : (s.sendAppendEntries server args reply num).node.logs = s.logs := by
    rw [hcounts.sendAppendEntries]
    rfl
  have hterm : (s.sendAppendEntries server args reply num).node.term = s.term := by
    rw [hcounts.sendAppendEntries]
    rfl
  have hcommit : (s.sendAppendEntries server args reply num).node.commitIndex =
      if s.Commits server args reply num then max s.commitIndex args.endIndex
      else s.commitIndex := by
    rw [hcounts.sendAppendEntries]
  constructor
  · rintro hmiss ⟨-, hnot, e, he, heterm, hlt, hhalf⟩
    have := hmiss e (hlogs ▸ he) (by rw [hterm]; exact heterm) (by rw [hpeers]; exact hhalf)
    rw [hcommit, if_neg hnot] at this
    omega
  · intro hlags e he heterm hhalf
    rw [hlogs] at he
    rw [hterm] at heterm
    rw [hpeers] at hhalf
    rw [hcommit]
    by_cases hle : e.index ≤ s.commitIndex
    · split
      · exact hle.trans (le_max_left _ _)
      · exact hle
    have hcommits : s.Commits server args reply num := by
      by_contra hnot
      exact hlags ⟨hcounts, hnot, e, he, heterm, not_le.1 hle, hhalf⟩
    rw [if_pos hcommits]
    by_cases hend : e.index ≤ args.endIndex
    · exact hend.trans (le_max_right _ _)
    · -- the request does not reach the entry, so the peers were known before
      have hsame : s.peersWith server args e.index = s.peersAt e.index := by
        simp [Node.peersWith, Node.peersAt, hend]
      rw [hsame] at hhalf
      exact absurd (h e he heterm hhalf) hle

end Reply

/-! ## The other steps -/

section Steps

variable {s : Node n} {P : Proc n}

/-- A new entry is one no peer holds. -/
theorem Node.NoneMissed.execute (h : s.NoneMissed) (hinv : s.IndexInv) (hn : 2 ≤ n)
    (command : Bytes) : (s.execute command).1.NoneMissed := by
  rcases s.execute_cases command with ⟨-, heq⟩ | ⟨-, heq⟩
  swap
  · rw [heq]
    exact h
  rw [heq]
  intro e he hterm hhalf
  rcases List.mem_append.1 he with he | he
  · exact h e he hterm hhalf
  · have hnew : e.index = s.getLastLogIndex + 1 := by
      rw [List.mem_singleton.1 he]
      rfl
    have hnone : s.peersAt e.index = ∅ := by
      refine Finset.filter_eq_empty_iff.2 fun q _ hq => ?_
      have := hinv.matchLeLast q
      omega
    have hcard : n / 2 ≤ (s.peersAt e.index).card := hhalf
    rw [hnone, Finset.card_empty] at hcard
    omega

/-- Dropping what a snapshot covers. -/
theorem Node.NoneMissed.persist (h : s.NoneMissed) (hinv : s.IndexInv) (index : Int)
    (shot : Bytes) : (s.persist index shot).node.NoneMissed := by
  rcases hinv.contiguous.persist_cases hinv.commitLeLast index shot with
    heq | ⟨e, -, -, hle, -, heq⟩
  · rw [heq]
    exact h
  · rw [heq]
    refine h.mono rfl (fun e he => List.mem_of_mem_drop he) ?_ fun _ _ _ => Finset.Subset.refl _
    exact le_rfl

/-- A new leader knows nothing about its peers, and every entry has a positive index. -/
theorem Node.IndexInv.becomeLeader_noneMissed (h : s.IndexInv) (hn : 2 ≤ n) :
    s.becomeLeader.NoneMissed := by
  intro e he _ hhalf
  obtain ⟨i, hi⟩ := List.mem_iff_getElem?.1 he
  have hidx := h.contiguous i e hi
  have hnonneg := h.snapshotNonneg
  have hnone : s.becomeLeader.peersAt e.index = ∅ := by
    refine Finset.filter_eq_empty_iff.2 fun q _ hq => ?_
    have hme : q ≠ s.me := hq.1
    have hle : e.index ≤ Function.update (fun _ => (0 : Int)) s.me s.getLastLogIndex q := hq.2
    rw [Function.update_of_ne hme] at hle
    omega
  rw [hnone, Finset.card_empty] at hhalf
  omega

/-- A snapshot the leader sent covers nothing that it has not committed. -/
theorem Node.NoneMissed.sendSnapshot (h : s.NoneMissed) (hinv : s.IndexInv) {server : Fin n}
    {args : InstallSnapshotArgs} (hargs : args.lastIndex ≤ s.lastSnapshotIndex)
    (reply : InstallSnapshotReply)
    (hid : (s.sendSnapshot server args reply).identity = .leader) :
    (s.sendSnapshot server args reply).NoneMissed := by
  rcases s.sendSnapshot_cases server args reply with ⟨-, heq⟩ | heq | ⟨-, -, heq⟩
  · rw [heq] at hid
    cases hid
  · rw [heq]
    exact h
  · rw [heq]
    refine h.mono rfl (fun _ he => he) le_rfl fun e _ hlt q hq => ?_
    have hcover := hinv.snapshotLeApplied.trans hinv.appliedLeCommit
    have hlt : s.commitIndex < e.index := hlt
    simp only [Node.peersAt, Finset.mem_filter, Finset.mem_univ, true_and] at hq ⊢
    by_cases hserver : q = server
    · subst hserver
      rw [Function.update_self] at hq
      omega
    · rw [Function.update_of_ne hserver] at hq
      exact hq

/-- One step of a process whose leader missed nothing, up to the reply that lags. -/
theorem Proc.IndexInv.step_noneMissed (hinv : P.IndexInv) {input : Input n}
    (hinput : input.WellFormed) (hn : 2 ≤ n)
    (hsnap : ∀ call ∈ P.snapshotCalls, ∀ args, call.args = some args →
      args.lastIndex ≤ P.node.lastSnapshotIndex)
    (h : P.node.identity = .leader → P.node.NoneMissed)
    (hlags : ∀ k reply call, input = .appendReply k reply → P.appendCalls[k]? = some call →
      ¬ P.node.Lags call.server call.args reply (P.appendNums.getD call.appendNum 0))
    (hid : (P.step input).1.node.identity = .leader) : (P.step input).1.node.NoneMissed := by
  have hleads := ((hinv.voteStep hinput).leads hid).2
  have hmiss : (∀ k reply, input ≠ .voteReply k reply) → P.node.NoneMissed := by
    intro hne
    rcases hleads with hl | ⟨k, reply, heq⟩
    · exact h hl
    · exact absurd heq (hne k reply)
  cases input with
  | execute command => exact (hmiss (by simp)).execute hinv.node hn command
  | persist index shot => exact (hmiss (by simp)).persist hinv.node index shot
  | getApplyMessages =>
      simp only [Proc.step, hinv.node.getApplyMessages_eq]
      exact hmiss (by simp)
  | stand4Election =>
      rcases P.node.stand4Election_cases with ⟨-, heq⟩ | ⟨-, heq⟩
      all_goals simp only [Proc.step, Proc.stand4Election, heq] at hid ⊢
      · exact hmiss (by simp)
      · cases hid
  | heartBeat =>
      simp only [Proc.step, Proc.heartBeat]
      split <;> exact hmiss (by simp)
  | requestVote args =>
      simp only [Proc.step] at hid ⊢
      rcases P.node.requestVote_cases args with
        ⟨-, heq | ⟨-, heq⟩⟩ | ⟨-, -, -, ⟨-, -, heq⟩ | ⟨-, heq⟩⟩
      all_goals rw [heq] at hid ⊢
      · exact hmiss (by simp)
      · cases hid
      · exact hmiss (by simp)
      · cases hid
  | appendEntries args =>
      simp only [Proc.step] at hid ⊢
      rcases hinv.node.contiguous.appendEntries_cases hinput with
        ⟨-, heq⟩ | ⟨-, index, heq, -⟩ | ⟨-, -, -, -, heq⟩ |
          ⟨-, -, logs, _, _, _, -, -, -, -, -, -, heq, -⟩
      · rw [heq]
        exact hmiss (by simp)
      all_goals
        rw [heq] at hid
        simp [Node.appended, Node.followTerm] at hid
  | installSnapshot args =>
      simp only [Proc.step] at hid ⊢
      rcases hinv.node.contiguous.installSnapshot_cases args with
        ⟨-, heq⟩ | ⟨-, -, heq⟩ | ⟨-, -, heq⟩
      · rw [heq]
        exact hmiss (by simp)
      all_goals
        rw [heq] at hid
        simp [Node.installed, Node.followTerm] at hid
  | readSnapshot k =>
      simp only [Proc.step, Proc.readSnapshot]
      split <;> exact hmiss (by simp)
  | appendReply k reply =>
      simp only [Proc.step, Proc.appendReply] at hid ⊢
      split
      · exact hmiss (by simp)
      · rename_i call hcall
        rw [hcall] at hid
        exact ((hmiss (by simp)).sendAppendEntries hid).2 (hlags k reply call rfl hcall)
  | voteReply k reply =>
      simp only [Proc.step, Proc.voteReply] at hid ⊢
      split
      · rename_i hcall
        rw [hcall] at hid
        exact h hid
      · rename_i call hcall
        rw [hcall] at hid
        rcases P.node.sendRequestVote_cases reply (P.voteNums.getD call.voteNum 0) with
          ⟨-, heq⟩ | heq | ⟨-, -, ⟨-, heq⟩ | ⟨-, -, heq⟩ | ⟨-, -, heq⟩⟩
        all_goals simp only [heq] at hid ⊢
        · cases hid
        · exact h hid
        · exact h hid
        · exact h hid
        · exact hinv.node.becomeLeader_noneMissed hn
  | snapshotReply k reply =>
      simp only [Proc.step, Proc.snapshotReply] at hid ⊢
      split
      · rename_i server args _ hcall
        rw [hcall] at hid
        exact (hmiss (by simp)).sendSnapshot hinv.node
          (hsnap _ (List.mem_of_getElem? hcall) args rfl) reply hid
      · exact hmiss (by simp)

end Steps

/-! ## Along a run -/

/-- A snapshot on its way is one the process has, and a leader has missed no commit. -/
structure Proc.CommitInv (P : Proc n) : Prop where
  snapshot : ∀ call ∈ P.snapshotCalls, ∀ args, call.args = some args →
    args.lastIndex ≤ P.node.lastSnapshotIndex
  leader : P.node.identity = .leader → 2 ≤ n ∧ P.node.NoneMissed

section Run

variable {P P' : Proc n} {σ σ' : Cluster n}

theorem Proc.CommitInv.new (me : Fin n) : (Proc.new me).CommitInv :=
  ⟨by simp [Proc.new], fun hid => by cases hid⟩

/-- Noting a reply. -/
theorem Proc.CommitInv.answer (h : P.CommitInv) (hnode : P'.node = P.node)
    (hsnap : ∀ call ∈ P'.snapshotCalls, ∃ call' ∈ P.snapshotCalls, call.args = call'.args) :
    P'.CommitInv := by
  refine ⟨fun call hc args ha => ?_, by rw [hnode]; exact h.leader⟩
  obtain ⟨call', hc', heq⟩ := hsnap call hc
  rw [hnode]
  exact h.snapshot call' hc' args (heq ▸ ha)

theorem Proc.CommitInv.step_snapshot (h : P.CommitInv) (hinv : P.IndexInv) {input : Input n}
    (hinput : input.WellFormed) (call : SnapshotCall n)
    (hc : call ∈ (P.step input).1.snapshotCalls) (args : InstallSnapshotArgs)
    (ha : call.args = some args) :
    args.lastIndex ≤ (P.step input).1.node.lastSnapshotIndex := by
  have hle := (hinv.step hinput).1.2.snapshot
  have hold : call ∈ P.snapshotCalls →
      args.lastIndex ≤ (P.step input).1.node.lastSnapshotIndex := fun hc =>
    (h.snapshot call hc args ha).trans hle
  cases input with
  | stand4Election =>
      refine hold ?_
      simp only [Proc.step, Proc.stand4Election] at hc
      split at hc <;> exact hc
  | heartBeat =>
      simp only [Proc.step, Proc.heartBeat] at hc
      split at hc
      · rcases List.mem_append.1 hc with hc | hc
        · exact hold hc
        · obtain ⟨server, rfl⟩ := mem_toSnapshotCall hc
          cases ha
      · exact hold hc
  | readSnapshot k =>
      simp only [Proc.step, Proc.readSnapshot] at hc ⊢
      split at hc
      · rcases List.mem_or_eq_of_mem_set hc with hc | rfl
        · exact h.snapshot call hc args ha
        · cases ha
          exact le_rfl
      · exact h.snapshot call hc args ha
  | appendReply k reply =>
      refine hold ?_
      simp only [Proc.step, Proc.appendReply] at hc
      split at hc <;> exact hc
  | voteReply k reply =>
      refine hold ?_
      simp only [Proc.step, Proc.voteReply] at hc
      split at hc <;> exact hc
  | snapshotReply k reply =>
      refine hold ?_
      simp only [Proc.step, Proc.snapshotReply] at hc
      split at hc
      · exact List.mem_of_mem_eraseIdx hc
      · exact hc
  | _ => exact hold hc

/-- Whoever asks for votes asks another node. -/
theorem Proc.VoteInv.two_le {V : Fin n → Int → Prop} {E : Int → Prop} (h : P.VoteInv V E)
    {call : VoteCall n} (hcall : call ∈ P.voteCalls) : 2 ≤ n := by
  obtain ⟨T, -, -, -, hsound⟩ := h.rounds
  have hne : call.server ≠ P.node.me := hsound.peer (call.voteNum, call.server)
    (List.mem_map_of_mem (f := fun call : VoteCall n => (call.voteNum, call.server)) hcall)
  have hval : call.server.val ≠ P.node.me.val := fun heq => hne (Fin.ext heq)
  have := call.server.isLt
  have := P.node.me.isLt
  omega

theorem Cluster.feed_commitInv (h : ∀ q, (σ.procs q).CommitInv)
    (hinv : ∀ q, (σ.procs q).IndexInv) (helect : σ.ElectionInv) (p : Fin n) (input : Input n)
    (hwf : input.WellFormed) (hret : (σ.procs p).Returns input)
    (hlags : ∀ k reply call, input = .appendReply k reply →
      (σ.procs p).appendCalls[k]? = some call → ¬ (σ.procs p).node.Lags call.server call.args reply
        ((σ.procs p).appendNums.getD call.appendNum 0)) :
    ∀ q, ((σ.feed p input).procs q).CommitInv := by
  refine σ.forall_setProc p (I := fun _ P => P.CommitInv) h
    ⟨(h p).step_snapshot (hinv p) hwf, fun hid => ?_⟩
  have hn : 2 ≤ n := by
    rcases (((hinv p).voteStep hwf).leads hid).2 with hl | ⟨k, reply, rfl⟩
    · exact ((h p).leader hl).1
    · obtain ⟨call, hcall, -⟩ := hret
      exact (helect.votes p).two_le (List.mem_of_getElem? hcall)
  exact ⟨hn, (hinv p).step_noneMissed hwf hn (h p).snapshot (fun hl => ((h p).leader hl).2) hlags
    hid⟩

theorem Cluster.lags_returnAppend {p : Fin n} {k : ℕ} {call : AppendCall n}
    {reply : AppendEntriesReply} (hcall : (σ.procs p).appendCalls[k]? = some call)
    (hreply : call.reply = some reply) : σ.Lags (.returnAppend p k) ↔
      (σ.procs p).node.Lags call.server call.args reply
        ((σ.procs p).appendNums.getD call.appendNum 0) := by
  obtain ⟨server, args, cell, reply'⟩ := call
  simp only at hreply
  subst hreply
  simp [Cluster.Lags, hcall]

instance (σ : Cluster n) : (a : Action n) → Decidable (σ.Lags a)
  | .returnAppend p k =>
      match hcall : (σ.procs p).appendCalls[k]? with
      | none => isFalse fun hlags => by simp [Cluster.Lags, hcall] at hlags
      | some ⟨_, _, _, none⟩ => isFalse fun hlags => by simp [Cluster.Lags, hcall] at hlags
      | some ⟨_, _, _, some _⟩ => decidable_of_iff _ (Cluster.lags_returnAppend hcall rfl).symm
  | .execute _ _ => isFalse id
  | .persist _ _ _ => isFalse id
  | .getApplyMessages _ => isFalse id
  | .stand4Election _ => isFalse id
  | .heartBeat _ => isFalse id
  | .readSnapshot _ _ => isFalse id
  | .deliverAppend _ _ => isFalse id
  | .deliverVote _ _ => isFalse id
  | .deliverSnapshot _ _ => isFalse id
  | .returnVote _ _ => isFalse id
  | .returnSnapshot _ _ => isFalse id

theorem Cluster.Move.commitInv {a : Action n} (hmove : σ.Move a σ') (hlags : ¬ σ.Lags a)
    (h : ∀ q, (σ.procs q).CommitInv) (hinv : ∀ q, (σ.procs q).IndexInv)
    (helect : σ.ElectionInv) : ∀ q, (σ'.procs q).CommitInv := by
  cases hmove with
  | idle => exact h
  | run _ p hlocal =>
      refine σ.feed_commitInv h hinv helect p _ hlocal.wellFormed hlocal.returns
        fun k reply call heq => ?_
      subst heq
      exact absurd hlocal id
  | apply p _ =>
      exact σ.feed_commitInv h hinv helect p .getApplyMessages trivial trivial (by simp)
  | @deliverAppend p k call hcall _ _ =>
      have hf := σ.feed_commitInv h hinv helect call.server (.appendEntries call.args)
        ((hinv p).appendConsecutive call (List.mem_of_getElem? hcall)) trivial (by simp)
      refine Cluster.forall_setProc _ p (I := fun _ P => P.CommitInv) hf ((hf p).answer ?_ ?_)
      · rfl
      · exact fun c hc => ⟨c, hc, rfl⟩
  | @loseAppend p k call _ hcall _ _ =>
      have hf := σ.feed_commitInv h hinv helect call.server (.appendEntries call.args)
        ((hinv p).appendConsecutive call (List.mem_of_getElem? hcall)) trivial (by simp)
      refine Cluster.forall_setProc _ p (I := fun _ P => P.CommitInv) hf ((hf p).answer ?_ ?_)
      · rfl
      · exact fun c hc => ⟨c, hc, rfl⟩
  | @deliverVote p k call _ =>
      have hf := σ.feed_commitInv h hinv helect call.server (.requestVote call.args) trivial trivial
        (by simp)
      refine Cluster.forall_setProc _ p (I := fun _ P => P.CommitInv) hf ((hf p).answer ?_ ?_)
      · rfl
      · exact fun c hc => ⟨c, hc, rfl⟩
  | @deliverSnapshot p k call args hcall _ _ =>
      have hf := σ.feed_commitInv h hinv helect call.server (.installSnapshot args) trivial trivial
        (by simp)
      rw [← (σ.feed_request p call.server (.installSnapshot args) trivial).2.2.1] at hcall
      refine Cluster.forall_setProc _ p (I := fun _ P => P.CommitInv) hf ((hf p).answer ?_ ?_)
      · rfl
      · exact fun c hc => exists_of_mem_set (f := SnapshotCall.args) hcall hc rfl
  | @loseSnapshot p k call args _ _ _ _ =>
      have hf := σ.feed_commitInv h hinv helect call.server (.installSnapshot args) trivial trivial
        (by simp)
      refine Cluster.forall_setProc _ p (I := fun _ P => P.CommitInv) hf ((hf p).answer ?_ ?_)
      · rfl
      · exact fun c hc => ⟨c, List.mem_of_mem_eraseIdx hc, rfl⟩
  | @returnAppend p k call reply hcall hreply =>
      refine σ.feed_commitInv h hinv helect p (.appendReply k reply) trivial ⟨_, hcall, hreply⟩ ?_
      intro k' reply' call' heq hcall'
      cases heq
      rw [hcall] at hcall'
      cases hcall'
      rwa [Cluster.lags_returnAppend hcall hreply] at hlags
  | @returnVote p k _ reply hcall hreply =>
      exact σ.feed_commitInv h hinv helect p (.voteReply k reply) trivial ⟨_, hcall, hreply⟩ (by simp)
  | @returnSnapshot p k _ reply hcall hreply =>
      exact σ.feed_commitInv h hinv helect p (.snapshotReply k reply) trivial ⟨_, hcall, hreply⟩
        (by simp)

/-- In a run without a lagging reply the invariant holds of every process. -/
theorem Cluster.commitInv
    (h : GuardedRun.Reach (Cluster.new n) Cluster.step (fun σ a => ¬ σ.Lags a) σ) :
    ∀ q, (σ.procs q).CommitInv := by
  refine GuardedRun.Reach.invariant (P := fun σ => ∀ q, (σ.procs q).CommitInv)
    (fun q => .new q) (fun σ a hreach hσ hlags => ?_) h
  have hreach : σ.Reachable := hreach.mono fun _ _ _ => trivial
  exact (σ.step_move a).commitInv hlags hσ hreach.indexInv hreach.electionInv

/-- In a run without a lagging reply so far, a leader that takes in a reply has then committed every
    entry of its term that half of its peers are known to hold, exactly if the reply did not lag. -/
theorem commit_not_missed
    (h : GuardedRun.Reach (Cluster.new n) Cluster.step (fun σ a => ¬ σ.Lags a) σ) {p : Fin n}
    {a : Action n} (htakes : σ.TakesReply p a)
    (hid : ((σ.step a).procs p).node.identity = .leader) :
    ((σ.step a).procs p).node.NoneMissed ↔ ¬ σ.Lags a := by
  have hreach : σ.Reachable := h.mono fun _ _ _ => trivial
  have hinv := Cluster.commitInv h
  refine ⟨fun hmiss => ?_, fun hlags => ?_⟩
  · cases a with
    | returnAppend q k =>
        obtain ⟨rfl, reply, call, hcall, hreply⟩ := htakes
        have hnode : ((σ.step (.returnAppend q k)).procs q).node =
            ((σ.procs q).node.sendAppendEntries call.server call.args reply
              ((σ.procs q).appendNums.getD call.appendNum 0)).node := by
          simp [Cluster.step_returnAppend hcall hreply, Proc.step, Proc.appendReply, hcall]
        rw [Cluster.lags_returnAppend hcall hreply]
        rw [hnode] at hid hmiss
        have hwf : (Input.appendReply k reply : Input n).WellFormed := trivial
        have hleads := ((hreach.indexInv q).voteStep hwf).leads
        simp only [Proc.step, Proc.appendReply, hcall] at hleads
        rcases (hleads hid).2 with hl | ⟨_, _, heq⟩
        · exact (((hinv q).leader hl).2.sendAppendEntries hid).1 hmiss
        · cases heq
    | _ => exact id
  · exact ((Cluster.commitInv (h.step a hlags) p).leader hid).2

/-- Node 0 of three leads and takes in the success of node 1, which commits. -/
theorem commit_not_missed_three :
    ((GuardedRun.exec Cluster.step (Cluster.new 3)
      [.stand4Election 0, .deliverVote 0 0, .returnVote 0 0, .execute 0 [1], .heartBeat 0,
        .deliverAppend 0 0, .returnAppend 0 0]).procs 0).node.NoneMissed := by
  have hreach : GuardedRun.Reach (Cluster.new 3) Cluster.step (fun σ a => ¬ σ.Lags a)
      (GuardedRun.exec Cluster.step (Cluster.new 3)
        [.stand4Election 0, .deliverVote 0 0, .returnVote 0 0, .execute 0 [1], .heartBeat 0,
          .deliverAppend 0 0]) :=
    .exec .init ⟨id, id, id, id, id, id, trivial⟩
  refine (commit_not_missed hreach (p := 0) (a := .returnAppend 0 0) ⟨rfl, _, _, rfl, rfl⟩ ?_).2 ?_
  · decide +kernel
  · decide +kernel

/-- Node 0 of five leads and sends its entry in two rounds, to which nodes 1 and 2 answer in one
    each: half of the peers hold the entry, and it is not committed. -/
theorem commit_missed :
    ∃ (σ : Cluster 5) (p : Fin 5) (a : Action 5), σ.Reachable ∧ σ.TakesReply p a ∧
      ((σ.step a).procs p).node.identity = .leader ∧ ¬ ((σ.step a).procs p).node.NoneMissed := by
  refine ⟨GuardedRun.exec Cluster.step (Cluster.new 5)
    [.stand4Election 0, .deliverVote 0 0, .returnVote 0 0, .deliverVote 0 0, .returnVote 0 0,
      .execute 0 [1], .heartBeat 0, .deliverAppend 0 0, .returnAppend 0 0, .heartBeat 0,
      .deliverAppend 0 4], 0, .returnAppend 0 4, ?_, ⟨rfl, _, _, rfl, rfl⟩, ?_, ?_⟩
  · exact .exec .init (.of_forall (fun _ _ => trivial) _ _)
  · decide +kernel
  · decide +kernel

end Run

end RaftKVStorage
