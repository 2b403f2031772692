import RaftKVStorage.Election

set_option autoImplicit false

/-! # The entries a leader sent

A leader only ever adds to its log and drops what a snapshot covers, and it sent nothing in a term
before it was elected in it. So whatever entry is on its way in its requests of the present term,
the leader has it or a snapshot of it. -/

namespace RaftKVStorage

variable {n : ℕ}

/-- Only a heartbeat and a returning reply touch the appendEntries threads and their counters. -/
theorem Proc.step_appendCalls (P : Proc n) {input : Input n} (hbeat : input ≠ .heartBeat)
    (hreply : ∀ k reply, input ≠ .appendReply k reply) :
    (P.step input).1.appendCalls = P.appendCalls ∧ (P.step input).1.appendNums = P.appendNums := by
  cases input with
  | heartBeat => exact absurd rfl hbeat
  | appendReply k reply => exact absurd rfl (hreply k reply)
  | stand4Election =>
      simp only [Proc.step, Proc.stand4Election]
      split <;> exact ⟨rfl, rfl⟩
  | readSnapshot k =>
      simp only [Proc.step, Proc.readSnapshot]
      split <;> exact ⟨rfl, rfl⟩
  | voteReply k reply =>
      simp only [Proc.step, Proc.voteReply]
      split <;> exact ⟨rfl, rfl⟩
  | snapshotReply k reply =>
      simp only [Proc.step, Proc.snapshotReply]
      split <;> exact ⟨rfl, rfl⟩
  | _ => exact ⟨rfl, rfl⟩

/-- The threads a step adds carry what the heartbeat built for their server, and have no reply yet. -/
theorem Proc.mem_step_appendCalls (P : Proc n) (input : Input n) {call : AppendCall n}
    (h : call ∈ (P.step input).1.appendCalls) : call ∈ P.appendCalls ∨
      call.reply = none ∧ P.node.heartBeatArgs call.server = .ok call.args := by
  by_cases hbeat : input = .heartBeat
  · subst hbeat
    by_cases hid : P.node.identity = .leader
    · simp only [Proc.step, Proc.heartBeat, if_pos hid] at h
      rcases List.mem_append.1 h with h | h
      · exact Or.inl h
      · obtain ⟨server, args, hmem, rfl⟩ := mem_toAppendCall h
        rw [Node.heartBeat, if_pos hid] at hmem
        exact Or.inr ⟨rfl, (Node.mem_heartBeatPeers hmem).2.2.2⟩
    · simp only [Proc.step, Proc.heartBeat, if_neg hid] at h
      exact Or.inl h
  by_cases hreply : ∀ k reply, input ≠ .appendReply k reply
  · rw [(P.step_appendCalls hbeat hreply).1] at h
    exact Or.inl h
  · push Not at hreply
    obtain ⟨k, reply, rfl⟩ := hreply
    simp only [Proc.step, Proc.appendReply] at h
    split at h
    · exact Or.inl h
    · exact Or.inl (List.mem_of_mem_eraseIdx h)

/-! ## The log of a leader -/

/-- A node that leads after a step has every entry it had, unless a snapshot covers it. -/
theorem Proc.IndexInv.step_keeps {P : Proc n} (h : P.IndexInv) {input : Input n}
    (hinput : input.WellFormed) (hid : (P.step input).1.node.identity = .leader) {e : LogEntry}
    (he : e ∈ P.node.logs) :
    e ∈ (P.step input).1.node.logs ∨ e.index ≤ (P.step input).1.node.lastSnapshotIndex := by
  cases input with
  | execute command =>
      left
      rcases P.node.execute_cases command with ⟨-, heq⟩ | ⟨-, heq⟩
      all_goals simp only [Proc.step, heq]
      · exact List.mem_append_left _ he
      · exact he
  | persist index shot =>
      rcases h.node.contiguous.persist_cases h.node.commitLeLast index shot with
        heq | ⟨e', -, hlo, hhi, -, heq⟩
      all_goals simp only [Proc.step, heq]
      · exact Or.inl he
      · -- the entries up to `index` are those dropped
        obtain ⟨i, hi⟩ := List.mem_iff_getElem?.1 he
        have hidx := h.node.contiguous i e hi
        simp only [Node.compacted]
        by_cases hle : e.index ≤ index
        · exact Or.inr hle
        · left
          refine List.mem_iff_getElem?.2 ⟨i - (index - P.node.lastSnapshotIndex).toNat, ?_⟩
          rw [List.getElem?_drop, ← hi]
          congr 1
          omega
  | getApplyMessages =>
      left
      simp only [Proc.step, h.node.getApplyMessages_eq]
      exact he
  | stand4Election =>
      left
      rcases P.node.stand4Election_cases with ⟨-, heq⟩ | ⟨-, heq⟩
      all_goals
        simp only [Proc.step, Proc.stand4Election, heq]
        exact he
  | heartBeat =>
      left
      simp only [Proc.step, Proc.heartBeat]
      split <;> exact he
  | requestVote args =>
      left
      rcases P.node.requestVote_cases args with
        ⟨-, heq | ⟨-, heq⟩⟩ | ⟨-, -, -, ⟨-, -, heq⟩ | ⟨-, heq⟩⟩
      all_goals
        simp only [Proc.step, heq]
        exact he
  | appendEntries args =>
      -- only a stale request leaves a leader
      left
      simp only [Proc.step] at hid ⊢
      rcases h.node.contiguous.appendEntries_cases hinput with
        ⟨-, heq⟩ | ⟨-, index, heq, -⟩ | ⟨-, -, -, -, heq⟩ |
          ⟨-, -, logs, _, _, _, -, -, -, -, -, -, heq, -⟩
      · rw [heq]
        exact he
      all_goals
        rw [heq] at hid
        simp [Node.appended, Node.followTerm] at hid
  | installSnapshot args =>
      left
      simp only [Proc.step] at hid ⊢
      rcases h.node.contiguous.installSnapshot_cases args with
        ⟨-, heq⟩ | ⟨-, -, heq⟩ | ⟨-, -, heq⟩
      · rw [heq]
        exact he
      all_goals
        rw [heq] at hid
        simp [Node.installed, Node.followTerm] at hid
  | readSnapshot k =>
      left
      simp only [Proc.step, Proc.readSnapshot]
      split <;> exact he
  | appendReply k reply =>
      left
      simp only [Proc.step, Proc.appendReply]
      split
      · exact he
      · rename_i call hcall
        rcases P.node.sendAppendEntries_cases call.server call.args reply
          (P.appendNums.getD call.appendNum 0) h.node.commitLeLast (h.node.matchLeLast call.server)
          (h.appendLeLast call (List.mem_of_getElem? hcall)) with
          heq | ⟨-, heq⟩ | ⟨-, -, -, -, heq⟩ | ⟨-, -, -, ⟨-, heq⟩ | ⟨-, heq⟩⟩
        all_goals rw [heq]
        · exact he
        · exact he
        · exact he
        · exact he
        · rcases (P.node.recordMatch call.server call.args).updateCommitIndex_cases call.args with
            heq' | ⟨-, heq'⟩
          all_goals
            rw [heq']
            exact he
  | voteReply k reply =>
      left
      simp only [Proc.step, Proc.voteReply]
      split
      · exact he
      · rename_i call hcall
        rcases P.node.sendRequestVote_cases reply (P.voteNums.getD call.voteNum 0) with
          ⟨-, heq⟩ | heq | ⟨-, -, ⟨-, heq⟩ | ⟨-, -, heq⟩ | ⟨-, -, heq⟩⟩
        all_goals
          rw [heq]
          exact he
  | snapshotReply k reply =>
      left
      simp only [Proc.step, Proc.snapshotReply]
      split
      · rename_i server args _ hcall
        rcases P.node.sendSnapshot_cases server args reply with ⟨-, heq⟩ | heq | ⟨-, -, heq⟩
        all_goals
          rw [heq]
          exact he
      · exact he

/-- Requests are sent by leaders only (`E T`: the process was elected in term `T`), and a leader
    still has the entries it sent in its term. -/
structure Proc.SentInv (E : Int → Prop) (P : Proc n) : Prop where
  elected : ∀ call ∈ P.appendCalls, E call.args.term
  kept : P.node.identity = .leader → ∀ call ∈ P.appendCalls, call.args.term = P.node.term →
    ∀ e ∈ call.args.entries, e ∈ P.node.logs ∨ e.index ≤ P.node.lastSnapshotIndex

section SentInv

variable {E E' : Int → Prop} {P P' : Proc n}

/-- Calls of the same arguments and a node in the same state. -/
theorem Proc.SentInv.congr (h : P.SentInv E) (hE : ∀ T, E T → E' T) (hnode : P'.node = P.node)
    (hcalls : ∀ call ∈ P'.appendCalls, ∃ call' ∈ P.appendCalls, call.args = call'.args) :
    P'.SentInv E' := by
  refine ⟨fun call hc => ?_, fun hid call hc => ?_⟩
  · obtain ⟨call', hc', heq⟩ := hcalls call hc
    rw [heq]
    exact hE _ (h.elected call' hc')
  · obtain ⟨call', hc', heq⟩ := hcalls call hc
    rw [heq, hnode]
    exact h.kept (hnode ▸ hid) call' hc'

theorem Proc.SentInv.heartBeat (h : P.SentInv E) (hinv : P.IndexInv)
    (hE : P.node.identity = .leader → E P.node.term) : P.heartBeat.SentInv E := by
  by_cases hid : P.node.identity = .leader
  swap
  · rw [Proc.heartBeat, if_neg hid]
    exact h
  have hnew : ∀ call ∈ P.node.heartBeat.1.filterMap (Launch.toAppendCall P.appendNums.length),
      call.args.term = P.node.term ∧ ∀ e ∈ call.args.entries, e ∈ P.node.logs := by
    intro call hcall
    obtain ⟨server, args, hmem, rfl⟩ := mem_toAppendCall hcall
    rw [Node.heartBeat, if_pos hid] at hmem
    obtain ⟨-, -, -, hargs⟩ := Node.mem_heartBeatPeers hmem
    obtain ⟨hterm, -, -, -, -, -, hentries⟩ := hinv.node.contiguous.heartBeatArgs hargs
    refine ⟨hterm, fun e he => ?_⟩
    rw [hentries] at he
    exact List.mem_of_mem_drop he
  rw [Proc.heartBeat, if_pos hid]
  refine ⟨fun call hc => ?_, fun _ call hc hterm e he => ?_⟩
  · rcases List.mem_append.1 hc with hc | hc
    · exact h.elected call hc
    · rw [(hnew call hc).1]
      exact hE hid
  · rcases List.mem_append.1 hc with hc | hc
    · exact h.kept hid call hc hterm e he
    · exact Or.inl ((hnew call hc).2 e he)

/-- Any other step: a leader has what it had, and a new leader has sent nothing in its term. -/
theorem Proc.SentInv.step (h : P.SentInv E) (hinv : P.IndexInv) {input : Input n}
    (hinput : input.WellFormed) (hE : ∀ T, E T → E' T)
    (hcalls : ∀ call ∈ (P.step input).1.appendCalls, call ∈ P.appendCalls)
    (helected : P.node.identity ≠ .leader → (P.step input).1.node.identity = .leader →
      ¬ E P.node.term) : (P.step input).1.SentInv E' := by
  refine ⟨fun call hc => hE _ (h.elected call (hcalls call hc)), fun hid call hc hterm e he => ?_⟩
  have hc := hcalls call hc
  rw [((hinv.voteStep hinput).leads hid).1] at hterm
  by_cases hid' : P.node.identity = .leader
  · rcases h.kept hid' call hc hterm e he with hmem | hle
    · exact hinv.step_keeps hinput hid hmem
    · exact Or.inr (hle.trans (hinv.step hinput).1.2.snapshot)
  · exact absurd (hterm ▸ h.elected call hc) (helected hid' hid)

end SentInv

/-! ## Along a run -/

theorem Cluster.feed_sentInv {σ : Cluster n} (h : ∀ q, (σ.procs q).SentInv (σ.Elected q))
    (hinv : ∀ q, (σ.procs q).IndexInv) (helect : σ.ElectionInv) (p : Fin n) (input : Input n)
    (hwf : input.WellFormed) (hret : (σ.procs p).Returns input) (q : Fin n) :
    ((σ.feed p input).procs q).SentInv ((σ.feed p input).Elected q) := by
  have hE : ∀ T, σ.Elected q T → (σ.feed p input).Elected q T := fun T hT =>
    (σ.elected_feed p input).2 (Or.inl hT)
  by_cases hq : q = p
  swap
  · rw [σ.feed_procs_ne p input hq]
    exact (h q).congr hE rfl fun call hc => ⟨call, hc, rfl⟩
  subst hq
  rw [σ.feed_procs_self q input]
  by_cases hbeat : input = .heartBeat
  · subst hbeat
    have hbeat := (h q).heartBeat (hinv q) (helect.leader q)
    exact hbeat.congr hE rfl fun call hc => ⟨call, hc, rfl⟩
  refine (h q).step (hinv q) hwf hE ?_ fun hid hid' =>
    (helect.elected hinv q hwf hret hid hid').1.2
  intro call hc
  cases input with
  | appendReply k reply =>
      simp only [Proc.step, Proc.appendReply] at hc
      split at hc
      · exact hc
      · exact List.mem_of_mem_eraseIdx hc
  | _ =>
      rw [((σ.procs q).step_appendCalls hbeat (by simp)).1] at hc
      exact hc

theorem Cluster.setProc_sentInv {σ : Cluster n} (h : ∀ q, (σ.procs q).SentInv (σ.Elected q))
    (p : Fin n) {P : Proc n} (hnode : P.node = (σ.procs p).node)
    (hcalls : ∀ call ∈ P.appendCalls, ∃ call' ∈ (σ.procs p).appendCalls, call.args = call'.args) :
    ∀ q, ((σ.setProc p P).procs q).SentInv ((σ.setProc p P).Elected q) := by
  have helected : (σ.setProc p P).Elected = σ.Elected := by
    funext q T
    rw [Cluster.Elected, σ.setProc_history p hnode, Cluster.Elected]
  rw [helected]
  exact σ.forall_setProc p (I := fun q P => P.SentInv (σ.Elected q)) h
    ((h p).congr (fun _ hT => hT) hnode hcalls)

theorem Cluster.Move.sentInv {σ σ' : Cluster n} {a : Action n} (hmove : σ.Move a σ')
    (h : ∀ q, (σ.procs q).SentInv (σ.Elected q)) (hinv : ∀ q, (σ.procs q).IndexInv)
    (helect : σ.ElectionInv) (q : Fin n) : (σ'.procs q).SentInv (σ'.Elected q) := by
  cases hmove with
  | idle => exact h q
  | run _ p hlocal => exact σ.feed_sentInv h hinv helect p _ hlocal.wellFormed hlocal.returns q
  | apply p _ =>
      rw [Cluster.record_elected]
      exact σ.feed_sentInv h hinv helect p .getApplyMessages trivial trivial q
  | @deliverAppend p k call hcall _ _ =>
      have hf := σ.feed_sentInv h hinv helect call.server (.appendEntries call.args)
        ((hinv p).appendConsecutive call (List.mem_of_getElem? hcall)) trivial
      rw [← (σ.feed_request p call.server (.appendEntries call.args) trivial).1] at hcall
      refine Cluster.setProc_sentInv hf p ?_ (fun c hc => ?_) q
      · rfl
      · exact exists_of_mem_set (f := AppendCall.args) hcall hc rfl
  | @loseAppend p k call _ hcall _ _ =>
      have hf := σ.feed_sentInv h hinv helect call.server (.appendEntries call.args)
        ((hinv p).appendConsecutive call (List.mem_of_getElem? hcall)) trivial
      refine Cluster.setProc_sentInv hf p ?_ (fun c hc => ?_) q
      · rfl
      · exact ⟨c, List.mem_of_mem_eraseIdx hc, rfl⟩
  | @deliverVote p k call _ =>
      have hf := σ.feed_sentInv h hinv helect call.server (.requestVote call.args)
        trivial trivial
      refine Cluster.setProc_sentInv hf p ?_ (fun c hc => ?_) q
      · rfl
      · exact ⟨c, hc, rfl⟩
  | @deliverSnapshot p k call args _ _ _ =>
      have hf := σ.feed_sentInv h hinv helect call.server (.installSnapshot args)
        trivial trivial
      refine Cluster.setProc_sentInv hf p ?_ (fun c hc => ?_) q
      · rfl
      · exact ⟨c, hc, rfl⟩
  | @loseSnapshot p k call args _ _ _ _ =>
      have hf := σ.feed_sentInv h hinv helect call.server (.installSnapshot args)
        trivial trivial
      refine Cluster.setProc_sentInv hf p ?_ (fun c hc => ?_) q
      · rfl
      · exact ⟨c, hc, rfl⟩
  | @returnAppend p k _ reply hcall hreply =>
      exact σ.feed_sentInv h hinv helect p (.appendReply k reply) trivial ⟨_, hcall, hreply⟩ q
  | @returnVote p k _ reply hcall hreply =>
      exact σ.feed_sentInv h hinv helect p (.voteReply k reply) trivial ⟨_, hcall, hreply⟩ q
  | @returnSnapshot p k _ reply hcall hreply =>
      exact σ.feed_sentInv h hinv helect p (.snapshotReply k reply) trivial ⟨_, hcall, hreply⟩ q

theorem Cluster.Reachable.sentInv {σ : Cluster n} (h : σ.Reachable) (q : Fin n) :
    (σ.procs q).SentInv (σ.Elected q) := by
  refine GuardedRun.Reach.invariant (P := fun σ => ∀ q, (σ.procs q).SentInv (σ.Elected q))
    (fun q => ?_) (fun σ a hreach hσ _ => ?_) h q
  · have hcalls : ((Cluster.new n).procs q).appendCalls = [] := rfl
    refine ⟨?_, ?_⟩
    · simp [hcalls]
    · simp [hcalls]
  · exact (σ.step_move a).sentInv hσ (Cluster.Reachable.indexInv hreach)
      (Cluster.Reachable.electionInv hreach)

end RaftKVStorage
