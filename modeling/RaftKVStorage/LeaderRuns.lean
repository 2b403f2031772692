import RaftKVStorage.Safety
import RaftKVStorage.SentEntries

set_option autoImplicit false

/-! # A node along a run

What one node goes through between two states of a run: what it never takes back, what a leader does
to its log, and how it stops being one. A leader steps down without a later term only for a snapshot
of a node that does not lead: `_L_sendSnapshot` reads its term when the thread runs, which may be
after its node has lost the term it led. -/

namespace RaftKVStorage

variable {n : ℕ}

/-! ## One process in a step of the cluster -/

/-- `P'` is `P` with replies noted or calls gone. -/
structure Proc.Noted (P P' : Proc n) : Prop where
  node : P'.node = P.node
  append : ∀ call ∈ P'.appendCalls, ∃ call' ∈ P.appendCalls, call'.server = call.server
  snapshot : ∀ call ∈ P'.snapshotCalls, ∃ call' ∈ P.snapshotCalls, call'.server = call.server

theorem Proc.Noted.refl (P : Proc n) : P.Noted P :=
  ⟨rfl, fun call hc => ⟨call, hc, rfl⟩, fun call hc => ⟨call, hc, rfl⟩⟩

/-- The requests among the inputs of `q` come out of the action: they are those of a call to `q`. -/
def Cluster.Brings (σ : Cluster n) (a : Action n) (q : Fin n) : Input n → Prop
  | .appendEntries args => ∃ p k call, a = .deliverAppend p k ∧
      (σ.procs p).appendCalls[k]? = some call ∧ call.server = q ∧ call.args = args
  | .requestVote args => ∃ p k call, a = .deliverVote p k ∧
      (σ.procs p).voteCalls[k]? = some call ∧ call.server = q ∧ call.args = args
  | .installSnapshot args => ∃ p k call, a = .deliverSnapshot p k ∧
      (σ.procs p).snapshotCalls[k]? = some call ∧ call.server = q ∧ call.args = some args
  | _ => True

theorem Input.Local.brings {input : Input n} (h : input.Local) (σ : Cluster n) (a : Action n)
    (q : Fin n) : σ.Brings a q input := by
  cases input with
  | appendEntries => exact absurd h id
  | requestVote => exact absurd h id
  | installSnapshot => exact absurd h id
  | _ => trivial

/-- What becomes of process `q` in a step: it takes an input or not, and replies are noted. -/
inductive Cluster.StepAt (σ : Cluster n) (a : Action n) (q : Fin n) (P' : Proc n) : Prop
  | idle (hnoted : (σ.procs q).Noted P')
  | run (input : Input n) (hwf : input.WellFormed) (hret : (σ.procs q).Returns input)
      (hbrings : σ.Brings a q input) (hnoted : ((σ.procs q).step input).1.Noted P')

theorem Cluster.stepAt_feed {σ : Cluster n} {a : Action n} (p : Fin n) (input : Input n)
    (hwf : input.WellFormed) (hret : (σ.procs p).Returns input) (hbrings : σ.Brings a p input)
    (q : Fin n) : σ.StepAt a q ((σ.feed p input).procs q) := by
  rcases eq_or_ne q p with rfl | hq
  · rw [σ.feed_procs_self]
    exact .run input hwf hret hbrings (.refl _)
  · rw [σ.feed_procs_ne p input hq]
    exact .idle (.refl _)

/-- Noting a reply at `p`, once a request has been fed. -/
theorem Cluster.StepAt.setProc {σ σ' : Cluster n} {a : Action n} {q : Fin n}
    (h : σ.StepAt a q (σ'.procs q)) (p : Fin n) {P : Proc n} (hP : (σ'.procs p).Noted P) :
    σ.StepAt a q ((σ'.setProc p P).procs q) := by
  rcases eq_or_ne q p with rfl | hq
  · have hself : (σ'.setProc q P).procs q = P := by simp [Cluster.setProc]
    rw [hself]
    have htrans : ∀ P₀ : Proc n, P₀.Noted (σ'.procs q) → P₀.Noted P := by
      intro P₀ h₀
      refine ⟨hP.node.trans h₀.node, fun call hc => ?_, fun call hc => ?_⟩
      · obtain ⟨call₁, hc₁, heq₁⟩ := hP.append call hc
        obtain ⟨call₂, hc₂, heq₂⟩ := h₀.append call₁ hc₁
        exact ⟨call₂, hc₂, heq₂.trans heq₁⟩
      · obtain ⟨call₁, hc₁, heq₁⟩ := hP.snapshot call hc
        obtain ⟨call₂, hc₂, heq₂⟩ := h₀.snapshot call₁ hc₁
        exact ⟨call₂, hc₂, heq₂.trans heq₁⟩
    cases h with
    | idle hnoted => exact .idle (htrans _ hnoted)
    | run input hwf hret hbrings hnoted => exact .run input hwf hret hbrings (htrans _ hnoted)
  · have hother : (σ'.setProc p P).procs q = σ'.procs q := by simp [Cluster.setProc, hq]
    rw [hother]
    exact h

theorem Cluster.Move.stepAt {σ σ' : Cluster n} {a : Action n} (hmove : σ.Move a σ')
    (hinv : ∀ p, (σ.procs p).IndexInv) (q : Fin n) : σ.StepAt a q (σ'.procs q) := by
  cases hmove with
  | idle => exact .idle (.refl _)
  | run _ p hlocal => exact σ.stepAt_feed p _ hlocal.wellFormed hlocal.returns (hlocal.brings σ _ p) q
  | apply p _ => exact σ.stepAt_feed p .getApplyMessages trivial trivial trivial q
  | @deliverAppend p k call hcall _ _ =>
      have hf := σ.stepAt_feed (a := .deliverAppend p k) call.server
        (.appendEntries call.args)
        ((hinv p).appendConsecutive call (List.mem_of_getElem? hcall)) trivial
        ⟨p, k, call, rfl, hcall, rfl, rfl⟩ q
      rw [← (σ.feed_request p call.server (.appendEntries call.args) trivial).1] at hcall
      refine hf.setProc p ⟨rfl, fun c hc => ?_, fun c hc => ⟨c, hc, rfl⟩⟩
      obtain ⟨c', hc', heq⟩ := exists_of_mem_set (f := AppendCall.server) hcall hc rfl
      exact ⟨c', hc', heq.symm⟩
  | @loseAppend p k call _ hcall _ _ =>
      have hf := σ.stepAt_feed (a := .deliverAppend p k) call.server
        (.appendEntries call.args)
        ((hinv p).appendConsecutive call (List.mem_of_getElem? hcall)) trivial
        ⟨p, k, call, rfl, hcall, rfl, rfl⟩ q
      exact hf.setProc p
        ⟨rfl, fun c hc => ⟨c, List.mem_of_mem_eraseIdx hc, rfl⟩, fun c hc => ⟨c, hc, rfl⟩⟩
  | @deliverVote p k call hcall =>
      have hf := σ.stepAt_feed (a := .deliverVote p k) call.server
        (.requestVote call.args) trivial trivial ⟨p, k, call, rfl, hcall, rfl, rfl⟩ q
      exact hf.setProc p ⟨rfl, fun c hc => ⟨c, hc, rfl⟩, fun c hc => ⟨c, hc, rfl⟩⟩
  | @deliverSnapshot p k call args hcall hargs _ =>
      have hf := σ.stepAt_feed (a := .deliverSnapshot p k) call.server
        (.installSnapshot args) trivial trivial ⟨p, k, call, rfl, hcall, rfl, hargs⟩ q
      rw [← (σ.feed_request p call.server (.installSnapshot args) trivial).2.2.1] at hcall
      refine hf.setProc p ⟨rfl, fun c hc => ⟨c, hc, rfl⟩, fun c hc => ?_⟩
      obtain ⟨c', hc', heq⟩ := exists_of_mem_set (f := SnapshotCall.server) hcall hc rfl
      exact ⟨c', hc', heq.symm⟩
  | @loseSnapshot p k call args _ hcall hargs _ =>
      have hf := σ.stepAt_feed (a := .deliverSnapshot p k) call.server
        (.installSnapshot args) trivial trivial ⟨p, k, call, rfl, hcall, rfl, hargs⟩ q
      exact hf.setProc p
        ⟨rfl, fun c hc => ⟨c, hc, rfl⟩, fun c hc => ⟨c, List.mem_of_mem_eraseIdx hc, rfl⟩⟩
  | @returnAppend p k _ reply hcall hreply =>
      exact σ.stepAt_feed p (.appendReply k reply) trivial ⟨_, hcall, hreply⟩ trivial q
  | @returnVote p k _ reply hcall hreply =>
      exact σ.stepAt_feed p (.voteReply k reply) trivial ⟨_, hcall, hreply⟩ trivial q
  | @returnSnapshot p k _ reply hcall hreply =>
      exact σ.stepAt_feed p (.snapshotReply k reply) trivial ⟨_, hcall, hreply⟩ trivial q

/-- The node of a process in a step. -/
theorem Cluster.Reachable.node_step {σ : Cluster n} (h : σ.Reachable) (a : Action n) (q : Fin n) :
    ((σ.step a).procs q).node = (σ.procs q).node ∨
      ∃ input, Input.WellFormed input ∧ (σ.procs q).Returns input ∧ σ.Brings a q input ∧
        ((σ.step a).procs q).node = ((σ.procs q).step input).1.node := by
  cases (σ.step_move a).stepAt h.indexInv q with
  | idle hnoted => exact Or.inl hnoted.node
  | run input hwf hret hbrings hnoted => exact Or.inr ⟨input, hwf, hret, hbrings, hnoted.node⟩

/-! ## What a node never takes back -/

/-- `s'` is a later state of the node in `s`. -/
structure Node.Later (s s' : Node n) : Prop where
  term : s.term ≤ s'.term
  vote : s'.term = s.term → s.vote4 ≠ -1 → s'.vote4 = s.vote4
  commit : s.commitIndex ≤ s'.commitIndex
  applied : s.appliedIndex ≤ s'.appliedIndex
  snapshot : s.lastSnapshotIndex ≤ s'.lastSnapshotIndex
  last : s.getLastLogIndex ≤ s'.getLastLogIndex

theorem Node.Later.refl (s : Node n) : s.Later s :=
  ⟨le_rfl, fun _ _ => rfl, le_rfl, le_rfl, le_rfl, le_rfl⟩

theorem Node.Later.trans {s s' s'' : Node n} (h : s.Later s') (h' : s'.Later s'') : s.Later s'' := by
  refine ⟨h.term.trans h'.term, fun hterm hvote => ?_, h.commit.trans h'.commit,
    h.applied.trans h'.applied, h.snapshot.trans h'.snapshot, h.last.trans h'.last⟩
  have hle := h.term
  have hle' := h'.term
  have hvote' := h.vote (by omega) hvote
  rw [h'.vote (by omega) (hvote' ▸ hvote), hvote']

theorem Proc.IndexInv.step_later {P : Proc n} (h : P.IndexInv) {input : Input n}
    (hinput : input.WellFormed) : P.node.Later (P.step input).1.node := by
  have hadv := (h.step hinput).1.2
  have hvote := h.voteStep hinput
  exact ⟨hvote.term, hvote.vote, hadv.commit, hadv.applied, hadv.snapshot, hadv.last⟩

/-- Along every run the term and the four indices of a node never fall, and a vote it has given
    stays its vote for the rest of the term. -/
theorem node_later {σ σ' : Cluster n} (h : σ.Reachable)
    (h' : GuardedRun.Reach σ Cluster.step (fun _ _ => True) σ') (q : Fin n) :
    (σ.procs q).node.Later (σ'.procs q).node := by
  refine GuardedRun.Reach.invariant (P := fun σ' => (σ.procs q).node.Later (σ'.procs q).node)
    (.refl _) (fun σ₁ a hσ₁ hlater _ => ?_) h'
  have hreach : σ₁.Reachable := h.trans hσ₁
  rcases hreach.node_step a q with heq | ⟨input, hwf, -, -, heq⟩
  · rw [heq]
    exact hlater
  · rw [heq]
    exact hlater.trans ((hreach.indexInv q).step_later hwf)

/-- The vote node 1 of three gave to node 0 is still its vote after the first commands. -/
theorem node_later_three :
    let σ := GuardedRun.exec Cluster.step (Cluster.new 3) [.stand4Election 0, .deliverVote 0 0]
    let σ' := GuardedRun.exec Cluster.step σ
      [.returnVote 0 0, .execute 0 [1], .heartBeat 0, .deliverAppend 0 0]
    (σ.procs 1).node.vote4 = 0 ∧ (σ.procs 1).node.Later (σ'.procs 1).node := by
  intro σ σ'
  have hreach : σ.Reachable := .exec .init (.of_forall (fun _ _ => trivial) _ _)
  exact ⟨by decide +kernel, node_later hreach (.exec .init (.of_forall (fun _ _ => trivial) _ _)) 1⟩

/-! ## How a leader steps down -/

/-- A leader that no longer leads, in the same term, has followed another node's request. -/
theorem Proc.IndexInv.steps_down {P : Proc n} (h : P.IndexInv) {input : Input n}
    (hinput : input.WellFormed) (hid : P.node.identity = .leader)
    (hid' : (P.step input).1.node.identity ≠ .leader)
    (hterm : (P.step input).1.node.term = P.node.term) :
    (∃ args, input = .appendEntries args ∧ args.term = P.node.term) ∨
      ∃ args, input = .installSnapshot args ∧ args.term = P.node.term := by
  cases input with
  | execute command =>
      refine absurd ?_ hid'
      rcases P.node.execute_cases command with ⟨-, heq⟩ | ⟨-, heq⟩
      all_goals
        simp only [Proc.step, heq]
        exact hid
  | persist index shot =>
      refine absurd ?_ hid'
      rcases h.node.contiguous.persist_cases h.node.commitLeLast index shot with
        heq | ⟨_, -, -, -, -, heq⟩
      all_goals
        simp only [Proc.step, heq]
        exact hid
  | getApplyMessages =>
      refine absurd ?_ hid'
      simp only [Proc.step, h.node.getApplyMessages_eq]
      exact hid
  | stand4Election =>
      refine absurd ?_ hid'
      rcases P.node.stand4Election_cases with ⟨-, heq⟩ | ⟨hne, -⟩
      · simp only [Proc.step, Proc.stand4Election, heq]
        exact hid
      · exact absurd hid hne
  | heartBeat =>
      refine absurd ?_ hid'
      simp only [Proc.step, Proc.heartBeat]
      split <;> exact hid
  | requestVote args =>
      rcases P.node.requestVote_cases args with
        ⟨-, heq | ⟨hlt, heq⟩⟩ | ⟨-, -, -, ⟨-, -, heq⟩ | ⟨hlt, heq⟩⟩
      all_goals simp only [Proc.step, heq] at hid' hterm
      · exact absurd hid hid'
      · simp only [Node.mPersist_term, Node.identityChange_term] at hterm
        omega
      · exact absurd hid hid'
      · simp only [Node.mPersist_term, Node.identityChange_term] at hterm
        omega
  | appendEntries args =>
      left
      refine ⟨args, rfl, ?_⟩
      simp only [Proc.step] at hid' hterm
      have hvote := Node.VoteStep.appendEntries h.node hinput (.appendEntries args)
      rcases h.node.contiguous.appendEntries_cases hinput with
        ⟨-, heq⟩ | ⟨hle, _, heq, -⟩ | ⟨hle, -, -, -, heq⟩ | ⟨hle, -, _, _, _, _, -, -, -, -, -, -, heq, -⟩
      · rw [heq] at hid'
        exact absurd hid hid'
      all_goals
        have hfollow := Node.followTerm_term P.node args.term hle
        rw [heq] at hterm
        exact hfollow.symm.trans hterm
  | installSnapshot args =>
      right
      refine ⟨args, rfl, ?_⟩
      simp only [Proc.step] at hid' hterm
      rcases h.node.contiguous.installSnapshot_cases args with
        ⟨-, heq⟩ | ⟨hle, -, heq⟩ | ⟨hle, -, heq⟩
      · rw [heq] at hid'
        exact absurd hid hid'
      all_goals
        have hfollow := Node.followTerm_term P.node args.term hle
        rw [heq] at hterm
        exact hfollow.symm.trans hterm
  | readSnapshot k =>
      refine absurd ?_ hid'
      simp only [Proc.step, Proc.readSnapshot]
      split <;> exact hid
  | appendReply k reply =>
      simp only [Proc.step, Proc.appendReply] at hid' hterm
      split at hid'
      · exact absurd hid hid'
      rename_i call hcall
      simp only [hcall] at hterm
      rcases P.node.sendAppendEntries_cases call.server call.args reply
        (P.appendNums.getD call.appendNum 0) h.node.commitLeLast (h.node.matchLeLast _)
        (h.appendLeLast call (List.mem_of_getElem? hcall)) with
        heq | ⟨hlt, heq⟩ | ⟨-, -, -, -, heq⟩ | ⟨-, -, -, ⟨-, heq⟩ | ⟨-, heq⟩⟩
      all_goals simp only [heq] at hid' hterm
      · exact absurd hid hid'
      · simp only [Node.identityChange_term] at hterm
        omega
      · exact absurd hid hid'
      · exact absurd hid hid'
      · rcases (P.node.recordMatch call.server call.args).updateCommitIndex_cases call.args with
          heq' | ⟨-, heq'⟩
        all_goals
          rw [heq'] at hid'
          exact absurd hid hid'
  | voteReply k reply =>
      simp only [Proc.step, Proc.voteReply] at hid' hterm
      split at hid'
      · exact absurd hid hid'
      rename_i call hcall
      simp only [hcall] at hterm
      rcases P.node.sendRequestVote_cases reply (P.voteNums.getD call.voteNum 0) with
        ⟨hlt, heq⟩ | heq | ⟨-, -, ⟨-, heq⟩ | ⟨-, -, heq⟩ | ⟨-, -, heq⟩⟩
      all_goals simp only [heq] at hid' hterm
      · simp only [Node.identityChange_term] at hterm
        omega
      · exact absurd hid hid'
      · exact absurd hid hid'
      · exact absurd hid hid'
      · exact absurd rfl hid'
  | snapshotReply k reply =>
      simp only [Proc.step, Proc.snapshotReply] at hid' hterm
      split at hid'
      · rename_i server args _ hcall
        simp only [hcall] at hterm
        rcases P.node.sendSnapshot_cases server args reply with ⟨hlt, heq⟩ | heq | ⟨-, -, heq⟩
        all_goals simp only [heq] at hid' hterm
        · simp only [Node.identityChange_term] at hterm
          omega
        · exact absurd hid hid'
        · exact absurd hid hid'
      · exact absurd hid hid'

/-- A process calls its peers, never itself. -/
structure Proc.CallsPeers (P : Proc n) : Prop where
  append : ∀ call ∈ P.appendCalls, call.server ≠ P.node.me
  snapshot : ∀ call ∈ P.snapshotCalls, call.server ≠ P.node.me

theorem Node.heartBeatPeers_snapshots {s : Node n} {peers : List (Fin n)} {server : Fin n}
    (h : .sendSnapshot server ∈ (s.heartBeatPeers peers).1) : server ≠ s.me := by
  induction peers with
  | nil => simp [Node.heartBeatPeers] at h
  | cons i rest ih =>
      rw [Node.heartBeatPeers] at h
      split at h
      · exact ih h
      split at h
      · rcases List.mem_cons.1 h with heq | h
        · obtain rfl := Launch.sendSnapshot.inj heq
          assumption
        · exact ih h
      · split at h
        · simp at h
        · exact ih (by simpa using h)

theorem Proc.CallsPeers.noted {P P' : Proc n} (h : P.CallsPeers) (hnoted : P.Noted P') :
    P'.CallsPeers := by
  refine ⟨fun call hc => ?_, fun call hc => ?_⟩
  · obtain ⟨call', hc', heq⟩ := hnoted.append call hc
    rw [← heq, hnoted.node]
    exact h.append call' hc'
  · obtain ⟨call', hc', heq⟩ := hnoted.snapshot call hc
    rw [← heq, hnoted.node]
    exact h.snapshot call' hc'

/-- Only a heartbeat and a returning reply touch the snapshot threads, up to their arguments. -/
theorem Proc.mem_snapshotCalls_step (P : Proc n) {input : Input n} (hbeat : input ≠ .heartBeat)
    {call : SnapshotCall n} (hc : call ∈ (P.step input).1.snapshotCalls) :
    ∃ call' ∈ P.snapshotCalls, call'.server = call.server := by
  cases input with
  | heartBeat => exact absurd rfl hbeat
  | stand4Election =>
      simp only [Proc.step, Proc.stand4Election] at hc
      split at hc <;> exact ⟨call, hc, rfl⟩
  | readSnapshot k =>
      simp only [Proc.step, Proc.readSnapshot] at hc
      split at hc
      · rename_i hcall
        obtain ⟨call', hc', heq⟩ := exists_of_mem_set (f := SnapshotCall.server) hcall hc rfl
        exact ⟨call', hc', heq.symm⟩
      · exact ⟨call, hc, rfl⟩
  | appendReply k reply =>
      simp only [Proc.step, Proc.appendReply] at hc
      split at hc <;> exact ⟨call, hc, rfl⟩
  | voteReply k reply =>
      simp only [Proc.step, Proc.voteReply] at hc
      split at hc <;> exact ⟨call, hc, rfl⟩
  | snapshotReply k reply =>
      simp only [Proc.step, Proc.snapshotReply] at hc
      split at hc
      · exact ⟨call, List.mem_of_mem_eraseIdx hc, rfl⟩
      · exact ⟨call, hc, rfl⟩
  | _ => exact ⟨call, hc, rfl⟩

theorem Proc.CallsPeers.step {P : Proc n} (h : P.CallsPeers) (hinv : P.IndexInv) {input : Input n}
    (hinput : input.WellFormed) : (P.step input).1.CallsPeers := by
  have hme := (hinv.voteStep hinput).me
  by_cases hbeat : input = .heartBeat
  · subst hbeat
    by_cases hid : P.node.identity = .leader
    swap
    · simpa only [Proc.step, Proc.heartBeat, if_neg hid] using h
    simp only [Proc.step, Proc.heartBeat, if_pos hid]
    refine ⟨fun call hc => ?_, fun call hc => ?_⟩
    · rcases List.mem_append.1 hc with hc | hc
      · exact h.append call hc
      · obtain ⟨server, args, hmem, rfl⟩ := mem_toAppendCall hc
        rw [Node.heartBeat, if_pos hid] at hmem
        exact (Node.mem_heartBeatPeers hmem).2.1
    · rcases List.mem_append.1 hc with hc | hc
      · exact h.snapshot call hc
      · obtain ⟨launch, hmem, hcall⟩ := List.mem_filterMap.1 hc
        rw [Node.heartBeat, if_pos hid] at hmem
        cases launch with
        | sendSnapshot server =>
            obtain rfl := Option.some.inj hcall
            exact Node.heartBeatPeers_snapshots hmem
        | sendAppendEntries server args => simp [Launch.toSnapshotCall] at hcall
  refine ⟨fun call hc => ?_, fun call hc => ?_⟩
  · rw [hme]
    by_cases hreply : ∃ k reply, input = .appendReply k reply
    · obtain ⟨k, reply, rfl⟩ := hreply
      simp only [Proc.step, Proc.appendReply] at hc
      split at hc
      · exact h.append call hc
      · exact h.append call (List.mem_of_mem_eraseIdx hc)
    · push Not at hreply
      rw [(P.step_appendCalls hbeat hreply).1] at hc
      exact h.append call hc
  · obtain ⟨call', hc', heq⟩ := P.mem_snapshotCalls_step hbeat hc
    rw [hme, ← heq]
    exact h.snapshot call' hc'

theorem Cluster.Reachable.callsPeers {σ : Cluster n} (h : σ.Reachable) (q : Fin n) :
    (σ.procs q).CallsPeers := by
  refine GuardedRun.Reach.invariant (P := fun σ => ∀ q, (σ.procs q).CallsPeers) (fun q => ?_)
    (fun σ a hreach hσ _ q => ?_) h q
  · have hnew : (Cluster.new n).procs q = Proc.new q := rfl
    rw [hnew]
    refine ⟨?_, ?_⟩
    · simp [Proc.new]
    · simp [Proc.new]
  · have hinv := Cluster.Reachable.indexInv hreach
    cases (σ.step_move a).stepAt hinv q with
    | idle hnoted => exact (hσ q).noted hnoted
    | run input hwf _ _ hnoted => exact ((hσ q).step (hinv q) hwf).noted hnoted

/-- The only way a leader steps down within its term: it is handed a snapshot in the name of its
    term by a node that was not elected in it. -/
theorem leader_steps_down {σ : Cluster n} (h : σ.Reachable) {a : Action n} {q : Fin n}
    (hid : (σ.procs q).node.identity = .leader)
    (hid' : ((σ.step a).procs q).node.identity ≠ .leader)
    (hterm : ((σ.step a).procs q).node.term = (σ.procs q).node.term) :
    ∃ p k call args, a = .deliverSnapshot p k ∧ (σ.procs p).snapshotCalls[k]? = some call ∧
      call.server = q ∧ call.args = some args ∧ args.term = (σ.procs q).node.term ∧
      ¬ σ.Elected p args.term := by
  have helect := h.electionInv
  -- the other process is another one, so the term is not its own
  have hother : ∀ p, q ≠ p → ¬ σ.Elected p (σ.procs q).node.term := fun p hne hp =>
    hne (helect.unique (helect.leader q hid) hp)
  rcases h.node_step a q with heq | ⟨input, hwf, -, hbrings, heq⟩
  · rw [heq] at hid'
    exact absurd hid hid'
  rw [heq] at hid' hterm
  rcases (h.indexInv q).steps_down hwf hid hid' hterm with ⟨args, rfl, hargs⟩ | ⟨args, rfl, hargs⟩
  · obtain ⟨p, k, call, -, hcall, hserver, rfl⟩ := hbrings
    have hmem := List.mem_of_getElem? hcall
    have hne : q ≠ p := by
      rw [← hserver, ← helect.me p]
      exact (h.callsPeers p).append call hmem
    exact absurd (hargs ▸ (h.sentInv p).elected call hmem) (hother p hne)
  · obtain ⟨p, k, call, rfl, hcall, hserver, hcargs⟩ := hbrings
    have hmem := List.mem_of_getElem? hcall
    have hne : q ≠ p := by
      rw [← hserver, ← helect.me p]
      exact (h.callsPeers p).snapshot call hmem
    exact ⟨p, k, call, args, rfl, hcall, hserver, hcargs, hargs, hargs.symm ▸ hother p hne⟩

/-- Node `p` leads term 1 and starts a snapshot thread for `q`; `q` wins term 2, and `p` hears of it
    before the thread reads its arguments. -/
def lateSnapshotRun (p q : Fin 3) : List (Action 3) :=
  [ .stand4Election p, .deliverVote p 0, .returnVote p 0,
    .execute p [1], .heartBeat p, .deliverAppend p 0, .deliverAppend p 1, .returnAppend p 1,
    .persist p 1 [7], .heartBeat p,
    .stand4Election q, .deliverVote q 1, .deliverVote q 0, .returnVote q 1, .readSnapshot p 0 ]

theorem leader_steps_down_late :
    let σ := GuardedRun.exec Cluster.step (Cluster.new 3) (lateSnapshotRun 0 1)
    ∃ p k call args, (.deliverSnapshot 0 0 : Action 3) = .deliverSnapshot p k ∧
      (σ.procs p).snapshotCalls[k]? = some call ∧ call.server = 1 ∧ call.args = some args ∧
      args.term = (σ.procs 1).node.term ∧ ¬ σ.Elected p args.term := by
  intro σ
  have hreach : σ.Reachable := .exec .init (.of_forall (fun _ _ => trivial) _ _)
  exact leader_steps_down hreach (a := .deliverSnapshot 0 0) (q := 1) (by decide +kernel)
    (by decide +kernel) (by decide +kernel)

/-! ## What a leader does to its log -/

theorem Cluster.history_setProc (σ : Cluster n) (p : Fin n) (P : Proc n) :
    σ.history <+: (σ.setProc p P).history := List.prefix_append _ _

theorem Cluster.Move.history {σ σ' : Cluster n} {a : Action n} (hmove : σ.Move a σ') :
    σ.history <+: σ'.history := by
  cases hmove with
  | idle => exact List.prefix_rfl
  | apply p _ => exact (σ.history_setProc p _).trans (List.prefix_append _ _)
  | deliverAppend p k _ _ _ => exact (σ.history_setProc _ _).trans (Cluster.history_setProc _ p _)
  | loseAppend p k _ _ _ => exact (σ.history_setProc _ _).trans (Cluster.history_setProc _ p _)
  | deliverVote p k _ => exact (σ.history_setProc _ _).trans (Cluster.history_setProc _ p _)
  | deliverSnapshot p k _ _ _ => exact (σ.history_setProc _ _).trans (Cluster.history_setProc _ p _)
  | loseSnapshot p k _ _ _ => exact (σ.history_setProc _ _).trans (Cluster.history_setProc _ p _)
  | _ => exact σ.history_setProc _ _

/-- `s'` has the log of `s` with entries of the term at its end, from its own snapshot on. -/
structure Node.LogExtends (s s' : Node n) : Prop where
  snapshot : s.lastSnapshotIndex ≤ s'.lastSnapshotIndex
  logs : ∃ added : List LogEntry, (∀ e ∈ added, e.term = s.term) ∧
    s'.lastSnapshotIndex - s.lastSnapshotIndex ≤ s.logs.length + added.length ∧
    s'.logs = (s.logs ++ added).drop (s'.lastSnapshotIndex - s.lastSnapshotIndex).toNat

theorem Node.LogExtends.of_eq {s s' : Node n} (hsnap : s'.lastSnapshotIndex = s.lastSnapshotIndex)
    (hlogs : s'.logs = s.logs) : s.LogExtends s' := by
  refine ⟨hsnap.ge, [], by simp, ?_, ?_⟩
  · rw [hsnap, sub_self]
    omega
  · rw [hsnap, sub_self, hlogs, List.append_nil, Int.toNat_zero, List.drop_zero]

theorem Node.LogExtends.trans {s s' s'' : Node n} (h : s.LogExtends s') (h' : s'.LogExtends s'')
    (hterm : s'.term = s.term) : s.LogExtends s'' := by
  obtain ⟨hsnap, added, hadded, hle, hlogs⟩ := h
  obtain ⟨hsnap', added', hadded', hle', hlogs'⟩ := h'
  have hlen : s'.logs.length =
      s.logs.length + added.length - (s'.lastSnapshotIndex - s.lastSnapshotIndex).toNat := by
    rw [hlogs, List.length_drop, List.length_append]
  refine ⟨hsnap.trans hsnap', added ++ added', fun e he => ?_, ?_, ?_⟩
  · rcases List.mem_append.1 he with he | he
    · exact hadded e he
    · exact (hadded' e he).trans hterm
  · rw [List.length_append]
    omega
  · have hk : (s''.lastSnapshotIndex - s.lastSnapshotIndex).toNat =
        (s'.lastSnapshotIndex - s.lastSnapshotIndex).toNat +
          (s''.lastSnapshotIndex - s'.lastSnapshotIndex).toNat := by omega
    have hdrop : (s'.lastSnapshotIndex - s.lastSnapshotIndex).toNat ≤ (s.logs ++ added).length := by
      rw [List.length_append]
      omega
    rw [hlogs', hlogs, hk, ← List.append_assoc, ← List.drop_drop,
      List.drop_append_of_le_length hdrop]

/-- A critical section of a leader that still leads afterwards. -/
theorem Proc.IndexInv.step_extends {P : Proc n} (h : P.IndexInv) {input : Input n}
    (hinput : input.WellFormed) (hid : (P.step input).1.node.identity = .leader) :
    P.node.LogExtends (P.step input).1.node := by
  cases input with
  | execute command =>
      rcases P.node.execute_cases command with ⟨-, heq⟩ | ⟨-, heq⟩
      all_goals simp only [Proc.step, heq]
      · refine ⟨le_rfl, [P.node.newEntry command], by simp [Node.newEntry], ?_, ?_⟩
        · simp only [Node.mPersist_lastSnapshotIndex, sub_self]
          omega
        · simp only [Node.mPersist_lastSnapshotIndex, Node.mPersist_logs, sub_self, Int.toNat_zero,
            List.drop_zero]
      · exact .of_eq rfl rfl
  | persist index shot =>
      rcases h.node.contiguous.persist_cases h.node.commitLeLast index shot with
        heq | ⟨e, hlo, hhi, -, -, heq⟩
      all_goals simp only [Proc.step, heq]
      · exact .of_eq rfl rfl
      · have hlast := h.node.contiguous.getLastLogIndex
        have hcommit := h.node.commitLeLast
        refine ⟨hlo.le, [], by simp, ?_, ?_⟩
        · simp only [Node.compacted, List.length_nil]
          omega
        · simp only [Node.compacted, List.append_nil]
  | getApplyMessages =>
      simp only [Proc.step, h.node.getApplyMessages_eq]
      exact .of_eq rfl rfl
  | stand4Election =>
      rcases P.node.stand4Election_cases with ⟨-, heq⟩ | ⟨-, heq⟩
      all_goals
        simp only [Proc.step, Proc.stand4Election, heq]
        exact .of_eq rfl rfl
  | heartBeat =>
      simp only [Proc.step, Proc.heartBeat]
      split <;> exact .of_eq rfl rfl
  | requestVote args =>
      rcases P.node.requestVote_cases args with
        ⟨-, heq | ⟨-, heq⟩⟩ | ⟨-, -, -, ⟨-, -, heq⟩ | ⟨-, heq⟩⟩
      all_goals
        simp only [Proc.step, heq]
        exact .of_eq rfl rfl
  | appendEntries args =>
      -- only a stale request leaves a leader
      simp only [Proc.step] at hid ⊢
      rcases h.node.contiguous.appendEntries_cases hinput with
        ⟨-, heq⟩ | ⟨-, index, heq, -⟩ | ⟨-, -, -, -, heq⟩ |
          ⟨-, -, logs, _, _, _, -, -, -, -, -, -, heq, -⟩
      · rw [heq]
        exact .of_eq rfl rfl
      all_goals
        rw [heq] at hid
        simp [Node.appended, Node.followTerm] at hid
  | installSnapshot args =>
      simp only [Proc.step] at hid ⊢
      rcases h.node.contiguous.installSnapshot_cases args with
        ⟨-, heq⟩ | ⟨-, -, heq⟩ | ⟨-, -, heq⟩
      · rw [heq]
        exact .of_eq rfl rfl
      all_goals
        rw [heq] at hid
        simp [Node.installed, Node.followTerm] at hid
  | readSnapshot k =>
      simp only [Proc.step, Proc.readSnapshot]
      split <;> exact .of_eq rfl rfl
  | appendReply k reply =>
      simp only [Proc.step, Proc.appendReply]
      split
      · exact .of_eq rfl rfl
      · rename_i call hcall
        rcases P.node.sendAppendEntries_cases call.server call.args reply
          (P.appendNums.getD call.appendNum 0) h.node.commitLeLast (h.node.matchLeLast call.server)
          (h.appendLeLast call (List.mem_of_getElem? hcall)) with
          heq | ⟨-, heq⟩ | ⟨-, -, -, -, heq⟩ | ⟨-, -, -, ⟨-, heq⟩ | ⟨-, heq⟩⟩
        all_goals rw [heq]
        · exact .of_eq rfl rfl
        · exact .of_eq rfl rfl
        · exact .of_eq rfl rfl
        · exact .of_eq rfl rfl
        · rcases (P.node.recordMatch call.server call.args).updateCommitIndex_cases call.args with
            heq' | ⟨-, heq'⟩
          all_goals
            rw [heq']
            exact .of_eq rfl rfl
  | voteReply k reply =>
      simp only [Proc.step, Proc.voteReply]
      split
      · exact .of_eq rfl rfl
      · rename_i call hcall
        rcases P.node.sendRequestVote_cases reply (P.voteNums.getD call.voteNum 0) with
          ⟨-, heq⟩ | heq | ⟨-, -, ⟨-, heq⟩ | ⟨-, -, heq⟩ | ⟨-, -, heq⟩⟩
        all_goals
          rw [heq]
          exact .of_eq rfl rfl
  | snapshotReply k reply =>
      simp only [Proc.step, Proc.snapshotReply]
      split
      · rename_i server args _ hcall
        rcases P.node.sendSnapshot_cases server args reply with ⟨-, heq⟩ | heq | ⟨-, -, heq⟩
        all_goals
          rw [heq]
          exact .of_eq rfl rfl
      · exact .of_eq rfl rfl

/-- Between two moments at which it leads the same term, a node has only added entries of that term
    to its log and dropped what its snapshot covers. -/
theorem leader_append_only {σ σ' : Cluster n} (h : σ.Reachable)
    (h' : GuardedRun.Reach σ Cluster.step (fun _ _ => True) σ') {q : Fin n}
    (hid : (σ.procs q).node.identity = .leader) (hid' : (σ'.procs q).node.identity = .leader)
    (hterm : (σ'.procs q).node.term = (σ.procs q).node.term) :
    (σ.procs q).node.LogExtends (σ'.procs q).node := by
  have hled : ∀ σ₁ : Cluster n, GuardedRun.Reach σ Cluster.step (fun _ _ => True) σ₁ →
      σ.history <+: σ₁.history := fun σ₁ hσ₁ =>
    GuardedRun.Reach.invariant (P := fun σ₁ : Cluster n => σ.history <+: σ₁.history)
      List.prefix_rfl (fun σ₁ a _ hpre _ => hpre.trans (σ₁.step_move a).history) hσ₁
  refine GuardedRun.Reach.invariant
    (P := fun σ₁ : Cluster n => (σ₁.procs q).node.identity = .leader →
      (σ₁.procs q).node.term = (σ.procs q).node.term →
      (σ.procs q).node.LogExtends (σ₁.procs q).node)
    (fun _ _ => .of_eq rfl rfl) (fun σ₁ a hσ₁ ih _ hid₂ hterm₂ => ?_) h' hid' hterm
  have hreach : σ₁.Reachable := h.trans hσ₁
  have hle := (node_later h hσ₁ q).term
  rcases hreach.node_step a q with heq | ⟨input, hwf, hret, -, heq⟩
  · rw [heq] at hid₂ hterm₂ ⊢
    exact ih hid₂ hterm₂
  rw [heq] at hid₂ hterm₂ ⊢
  have hinv := hreach.indexInv q
  have hle₂ := (hinv.step_later hwf).term
  have hterm₁ : (σ₁.procs q).node.term = (σ.procs q).node.term := by omega
  -- no term is won twice
  have hid₁ : (σ₁.procs q).node.identity = .leader := by
    by_contra hid₁
    obtain ⟨s, hs, hsterm⟩ := h.electionInv.leader q hid
    exact (hreach.electionInv.elected hreach.indexInv q hwf hret hid₁ hid₂).1.2
      ⟨s, (hled σ₁ hσ₁).subset hs, hsterm.trans hterm₁.symm⟩
  exact (ih hid₁ hterm₁).trans (hinv.step_extends hwf hid₂) hterm₁

/-- The leader of `lateSnapshotRun` between its election and its snapshot. -/
theorem leader_append_only_late :
    let σ := GuardedRun.exec Cluster.step (Cluster.new 3) ((lateSnapshotRun 0 1).take 3)
    let σ' := GuardedRun.exec Cluster.step σ (((lateSnapshotRun 0 1).drop 3).take 6)
    (σ.procs 0).node.LogExtends (σ'.procs 0).node := by
  intro σ σ'
  have hreach : σ.Reachable := .exec .init (.of_forall (fun _ _ => trivial) _ _)
  exact leader_append_only hreach (.exec .init (.of_forall (fun _ _ => trivial) _ _))
    (by decide +kernel) (by decide +kernel) (by decide +kernel)

/-! ## Committed entries -/

/-- Without a delivery over a stale tail, an entry at or below the commit index of a node stays in
    its log as long as no snapshot covers it. -/
theorem committed_entries_stay {σ σ' : Cluster n}
    (h : GuardedRun.Reach (Cluster.new n) Cluster.step Cluster.NoStaleTail σ)
    (h' : GuardedRun.Reach σ Cluster.step Cluster.NoStaleTail σ') {q : Fin n} {e : LogEntry}
    (he : e ∈ (σ.procs q).node.logs) (hcommit : e.index ≤ (σ.procs q).node.commitIndex)
    (hsnap : (σ'.procs q).node.lastSnapshotIndex < e.index) : e ∈ (σ'.procs q).node.logs := by
  obtain ⟨hreach, S, hS⟩ := Cluster.exists_sim h
  obtain ⟨S', hS', g⟩ := hS.run_sim hreach h'
  have hreach' : σ'.Reachable := hreach.trans (h'.mono fun _ _ _ => trivial)
  have hinv := (hreach.indexInv q).node
  have hinv' := (hreach'.indexInv q).node
  have hlater := node_later hreach (h'.mono fun _ _ _ => trivial) q
  obtain ⟨K, hK, hKlen, hKlogs, -⟩ := (hS.node q).commit
  obtain ⟨K', hK', hKlen', hKlogs', -⟩ := (hS'.node q).commit
  -- what was certified then is a prefix of what is certified now
  have hpre : K <+: K' := by
    rcases (hK.mono g le_rfl).comparable hK' hS'.inv with hpre | hpre
    · exact hpre
    · have hlen := hpre.length_le
      have hle := hlater.commit
      have h0 := hinv.snapshotNonneg
      rw [hpre.eq_of_length (by omega)]
  obtain ⟨j, hj⟩ := List.mem_iff_getElem?.1 he
  have hidx := hinv.contiguous j e hj
  have hsnap0 := hinv.snapshotNonneg
  have hsnap0' := hinv'.snapshotNonneg
  have hle := hlater.snapshot
  have hK : K[(σ.procs q).node.lastSnapshotIndex.toNat + j]? = some e := by
    have hget : (K.drop (σ.procs q).node.lastSnapshotIndex.toNat)[j]? = some e := by
      obtain ⟨r, hr⟩ := hKlogs
      rw [← hr, List.getElem?_append_left (by rw [List.length_drop]; omega)] at hj
      exact hj
    rwa [List.getElem?_drop] at hget
  refine hKlogs'.subset (List.mem_of_getElem? (i := (e.index - 1).toNat -
    (σ'.procs q).node.lastSnapshotIndex.toNat) ?_)
  obtain ⟨r, rfl⟩ := hpre
  have hi : (σ'.procs q).node.lastSnapshotIndex.toNat + ((e.index - 1).toNat -
      (σ'.procs q).node.lastSnapshotIndex.toNat) =
      (σ.procs q).node.lastSnapshotIndex.toNat + j := by omega
  rw [List.getElem?_drop, hi, List.getElem?_append_left (List.getElem?_eq_some_iff.1 hK).1, hK]

theorem committed_entries_stay_twoTermRun :
    let σ := GuardedRun.exec Cluster.step (Cluster.new 3) (twoTermRun.take 7)
    let σ' := GuardedRun.exec Cluster.step σ (twoTermRun.drop 7)
    (⟨[1], 1, 1⟩ : LogEntry) ∈ (σ'.procs 0).node.logs := by
  intro σ σ'
  have hσ : GuardedRun.Reach (Cluster.new 3) Cluster.step Cluster.NoStaleTail σ :=
    .exec .init (by decide +kernel)
  have hσ' : GuardedRun.Reach σ Cluster.step Cluster.NoStaleTail σ' := .exec .init (by decide +kernel)
  exact committed_entries_stay hσ hσ' (q := 0) (by decide +kernel) (by decide +kernel)
    (by decide +kernel)

end RaftKVStorage
