import RaftKVStorage.SentEntries
import RaftKVStorage.Safety

set_option autoImplicit false

/-! # What a leader notes about its peers stays in range

A leader takes over whatever `update_nextIndex` a rejection of its term names. The follower names
the index after its last entry, after its snapshot, or one at or below `prev_log_index`; in the
abstract protocol each of them lies in the leader log of the request's term, or right behind it.
With a stale tail in the cluster a follower may have a snapshot of more than the leader has. -/

namespace RaftKVStorage

open LeaderLogs

variable {n : ℕ}

/-- The hint of a rejection points into the leader log of its term, or right behind it. -/
def HintSim (S : Ghost n) (reply : AppendEntriesReply) : Prop :=
  reply.success = false → reply.updateNextIndex ≠ invalidUpdateNextIndex →
    S.led reply.term ∧ reply.updateNextIndex ≤ (S.lead reply.term).length + 1

theorem HintSim.mono {S S' : Ghost n} {reply : AppendEntriesReply} (h : HintSim S reply)
    (g : Grows S S') : HintSim S' reply := by
  intro hfail hvalid
  obtain ⟨hled, hle⟩ := h hfail hvalid
  have hlen := g.length_lead hled
  exact ⟨g.led _ hled, by omega⟩

/-- The hint in an answer to a request of a leader log. -/
theorem NodeSim.appendEntries_hint {S : Ghost n} {p : Fin n} {s : Node n} (h : NodeSim S p s)
    (hinv : s.IndexInv) (hS : Inv LogEntry.term S) {args : AppendEntriesArgs}
    (hargs : AppendSim S args) (hcons : Consecutive args.prevLogIndex args.entries)
    (hfault : (s.appendEntries args).fault = none) : HintSim S (s.appendEntries args).ret := by
  have h0 := hargs.prevNonneg
  have hlen := hargs.lenLe
  rcases hinv.contiguous.appendEntries_cases hcons with
    ⟨-, heq⟩ | ⟨hle, index, heq, hindex⟩ | ⟨-, -, -, -, heq⟩ |
      ⟨-, -, _, _, _, _, -, -, -, -, -, -, -, hf, -⟩
  · rw [heq]
    exact fun _ hvalid => absurd rfl hvalid
  · rw [heq]
    intro _ _
    refine ⟨hargs.led, ?_⟩
    show index ≤ (S.lead args.term).length + 1
    rcases hindex with ⟨hlt, rfl⟩ | ⟨-, rfl⟩ | ⟨-, -, -, rfl | ⟨-, hindex⟩⟩
    · omega
    · -- what the snapshot covers is committed, hence in the leader log
      obtain ⟨hcommit, -⟩ := h.commit_lead hS hinv hargs.led hle
      have hsnap := hinv.snapshotLeApplied.trans hinv.appliedLeCommit
      omega
    · omega
    · omega
  · rw [heq]
    intro hfail
    cases hfail
  · rw [hf] at hfault
    cases hfault

/-- A leader takes over only hints of its own term, about its own log. -/
theorem NodeSim.hintInRange {S : Ghost n} {p : Fin n} {s : Node n} (h : NodeSim S p s)
    (hinv : s.IndexInv) (hS : Inv LogEntry.term S) {reply : AppendEntriesReply}
    (hhint : HintSim S reply) : s.HintInRange reply := by
  intro hid hterm hfail hvalid
  obtain ⟨-, hle⟩ := hhint hfail hvalid
  obtain ⟨-, hlog⟩ := h.leader hS hid
  rw [hterm] at hle
  rw [h.getLastLogIndex hinv, hlog]
  exact hle

/-! ## Runs -/

/-- Every hint under way points into a leader log, and every leader's notes are in range. -/
structure Cluster.NextSim (σ : Cluster n) (S : Ghost n) : Prop where
  hints : ∀ p, ∀ call ∈ (σ.procs p).appendCalls, ∀ reply, call.reply = some reply →
    HintSim S reply
  next : ∀ p, (σ.procs p).node.NextInv

section Step

variable {σ : Cluster n} {S : Ghost n}

theorem Cluster.NextSim.mono {S' : Ghost n} (h : σ.NextSim S) (g : Grows S S') : σ.NextSim S' :=
  ⟨fun p call hcall reply hreply => (h.hints p call hcall reply hreply).mono g, h.next⟩

theorem Cluster.NextSim.feed (h : σ.NextSim S) (hinv : ∀ p, (σ.procs p).IndexInv) (p : Fin n)
    (input : Input n) (hinput : input.WellFormed)
    (hhint : ∀ k reply, input = .appendReply k reply → (σ.procs p).node.HintInRange reply) :
    (σ.feed p input).NextSim S := by
  refine ⟨fun q call hcall reply hreply => ?_, ?_⟩
  · by_cases hq : q = p
    · subst hq
      rw [σ.feed_procs_self] at hcall
      rcases (σ.procs q).mem_step_appendCalls input hcall with hmem | ⟨hnone, -⟩
      · exact h.hints q call hmem reply hreply
      · rw [hnone] at hreply
        cases hreply
    · rw [σ.feed_procs_ne p input hq] at hcall
      exact h.hints q call hcall reply hreply
  · exact σ.forall_setProc p (I := fun _ P => P.node.NextInv) h.next
      ((hinv p).step_nextInv (h.next p) hinput hhint)

/-- Threads change, the nodes do not. -/
theorem Cluster.NextSim.setProc (h : σ.NextSim S) (p : Fin n) {P : Proc n}
    (hnode : P.node = (σ.procs p).node)
    (hcalls : ∀ call ∈ P.appendCalls, ∀ reply, call.reply = some reply → HintSim S reply) :
    (σ.setProc p P).NextSim S := by
  refine ⟨?_, ?_⟩
  · exact σ.forall_setProc p (I := fun _ P => ∀ call ∈ P.appendCalls, ∀ reply,
      call.reply = some reply → HintSim S reply) h.hints hcalls
  · intro q
    rw [σ.setProc_node p hnode q]
    exact h.next q

/-- A request of another kind of call is handled, and its thread gets the answer. -/
theorem Cluster.NextSim.request (h : σ.NextSim S) (hinv : ∀ p, (σ.procs p).IndexInv)
    (server p : Fin n) (input : Input n) (hinput : input.WellFormed) (hrequest : input.Request)
    {P : Proc n} (hnode : P.node = ((σ.feed server input).procs p).node)
    (hcalls : P.appendCalls = ((σ.feed server input).procs p).appendCalls) :
    ((σ.feed server input).setProc p P).NextSim S := by
  have hf : (σ.feed server input).NextSim S := h.feed hinv server input hinput fun k reply heq => by
    subst heq
    exact absurd hrequest id
  refine hf.setProc p hnode ?_
  rw [hcalls]
  exact hf.hints p

/-- One step, to the abstract state it leads to. -/
theorem Cluster.NextSim.step (h : σ.NextSim S) (hsim : σ.Sim S) (hreach : σ.Reachable)
    {a : Action n} {S' : Ghost n} (g : Grows S S') : (σ.step a).NextSim S' := by
  have hinv := hreach.indexInv
  have hmove := σ.step_move a
  have h' := h.mono g
  generalize σ.step a = σ' at hmove
  cases hmove with
  | idle => exact h'
  | run _ p hlocal =>
      refine h'.feed hinv p _ hlocal.wellFormed fun k reply heq => ?_
      subst heq
      exact absurd hlocal id
  | apply p _ =>
      have hf := h'.feed hinv p .getApplyMessages trivial
        fun k reply heq => by cases heq
      exact ⟨hf.hints, hf.next⟩
  | @deliverAppend p k call hcall _ hfault =>
      have hmem := List.mem_of_getElem? hcall
      have hf := h'.feed hinv call.server (.appendEntries call.args)
        ((hinv p).appendConsecutive call hmem) fun k reply heq => by cases heq
      have hhint := (hsim.node call.server).appendEntries_hint (hinv call.server).node hsim.inv
        ((hsim.calls p).append call hmem) ((hinv p).appendConsecutive call hmem) hfault
      refine hf.setProc p rfl fun c hc reply hreply => ?_
      rcases List.mem_or_eq_of_mem_set hc with hc | rfl
      · exact hf.hints p c hc reply hreply
      · obtain rfl := Option.some.inj hreply
        exact hhint.mono g
  | @loseAppend p k call _ hcall _ _ =>
      have hf := h'.feed hinv call.server (.appendEntries call.args)
        ((hinv p).appendConsecutive call (List.mem_of_getElem? hcall))
        fun k reply heq => by cases heq
      exact hf.setProc p rfl fun c hc => hf.hints p c (List.mem_of_mem_eraseIdx hc)
  | @deliverVote p k call _ =>
      exact h'.request hinv call.server p (.requestVote call.args) trivial trivial rfl rfl
  | @deliverSnapshot p k call args _ _ _ =>
      exact h'.request hinv call.server p (.installSnapshot args) trivial trivial rfl rfl
  | @loseSnapshot p k call args _ _ _ _ =>
      exact h'.request hinv call.server p (.installSnapshot args) trivial trivial rfl rfl
  | @returnAppend p k call reply hcall hreply =>
      have hmem := List.mem_of_getElem? hcall
      refine h'.feed hinv p _ trivial fun k' reply' heq => ?_
      cases heq
      exact (hsim.node p).hintInRange (hinv p).node hsim.inv (h.hints p call hmem reply hreply)
  | returnVote p k _ _ => exact h'.feed hinv p _ trivial fun k reply heq => by cases heq
  | returnSnapshot p k _ _ => exact h'.feed hinv p _ trivial fun k reply heq => by cases heq

end Step

/-! ## The bookkeeping of a leader -/

/-- What a leader notes about its peers lies in its log or right behind it. The next heartbeat reads
    the entry before each `nextIndex` and copies its log from a slot that is not negative. -/
def Node.BookkeepingInRange (s : Node n) : Prop :=
  s.identity = .leader →
    (∀ i, s.nextIndex i ≤ s.getLastLogIndex + 1 ∧ s.matchIndex i ≤ s.getLastLogIndex) ∧
    s.heartBeat.2 = none ∧
    ∀ launch ∈ s.heartBeat.1, ∀ i args, launch = .sendAppendEntries i args →
      0 ≤ s.getSlicesIndexFromLogIndex args.prevLogIndex + 1

/-- Without a delivery over a stale tail, every leader's bookkeeping stays in range. -/
theorem bookkeeping_in_range {σ : Cluster n}
    (h : GuardedRun.Reach (Cluster.new n) Cluster.step Cluster.NoStaleTail σ) (p : Fin n) :
    (σ.procs p).node.BookkeepingInRange := by
  obtain ⟨S, -, hnext⟩ : ∃ S, σ.Sim S ∧ σ.NextSim S := by
    refine GuardedRun.Reach.invariant (P := fun σ => ∃ S, σ.Sim S ∧ σ.NextSim S)
      ⟨State.start 0, .new, by simp [Cluster.new, Proc.new], fun p hl => ?_⟩
      (fun σ a hσ ⟨S, hsim, hnext⟩ hok => ?_) h
    · simp [Cluster.new, Proc.new, Node.new, Node.load, Persister.new] at hl
    · have hreach : σ.Reachable := hσ.mono fun _ _ _ => trivial
      obtain ⟨S', hsim', g⟩ := hsim.step hreach hok
      exact ⟨S', hsim', hnext.step hsim hreach g⟩
  have hreach : σ.Reachable := h.mono fun _ _ _ => trivial
  have hinv := (hreach.indexInv p).node
  intro hid
  refine ⟨fun i => ⟨hnext.next p hid i, hinv.matchLeLast i⟩, hinv.heartBeat_fault (hnext.next p), ?_⟩
  intro launch hlaunch i args heq
  subst heq
  rw [Node.heartBeat, if_pos hid] at hlaunch
  obtain ⟨-, -, -, hargs⟩ := Node.mem_heartBeatPeers hlaunch
  obtain ⟨-, -, -, hlo, -⟩ := hinv.contiguous.heartBeatArgs hargs
  rw [Node.getSlicesIndexFromLogIndex]
  omega

theorem bookkeeping_in_range_twoTermRun :
    ((GuardedRun.exec Cluster.step (Cluster.new 3) twoTermRun).procs 1).node.BookkeepingInRange :=
  bookkeeping_in_range (.exec .init (by decide +kernel)) 1

/-- Five nodes. Node 0 leads term 1 and leaves three entries on 3. Node 1 leads term 2 and commits
    two entries with 3, where the third entry of term 1 stays behind them, and with 4, which compacts
    its log. Node 3 votes by the entry that stayed, so node 2 wins term 3 with one entry; its request to
    4 is answered with the index behind the snapshot. -/
def snapshotAheadRun (p₀ p₁ p₂ p₄ : Fin 5) : List (Action 5) :=
  [ .stand4Election p₀, .deliverVote p₀ 0, .deliverVote p₀ 1, .returnVote p₀ 0, .returnVote p₀ 0,
    .execute p₀ [1], .execute p₀ [2], .execute p₀ [3], .heartBeat p₀, .deliverAppend p₀ 2,
    .stand4Election p₁, .deliverVote p₁ 1, .deliverVote p₁ 3, .returnVote p₁ 1, .returnVote p₁ 2,
    .execute p₁ [4], .heartBeat p₁, .deliverAppend p₁ 1,
    .execute p₁ [5], .heartBeat p₁, .deliverAppend p₁ 6, .deliverAppend p₁ 7, .returnAppend p₁ 6,
    .returnAppend p₁ 6, .heartBeat p₁, .deliverAppend p₁ 9, .getApplyMessages p₄, .persist p₄ 2 [],
    .stand4Election p₂, .deliverVote p₂ 0, .deliverVote p₂ 2, .returnVote p₂ 0, .returnVote p₂ 1,
    .heartBeat p₂, .deliverAppend p₂ 3, .returnAppend p₂ 3 ]

theorem bookkeeping_in_range_snapshotAhead :
    ¬ ∀ (n : ℕ) (σ : Cluster n), σ.Reachable → ∀ p, (σ.procs p).node.BookkeepingInRange := by
  intro h
  have hreach : (GuardedRun.exec Cluster.step (Cluster.new 5)
      (snapshotAheadRun 0 1 2 4)).Reachable :=
    .exec .init (.of_forall (fun _ _ => trivial) _ _)
  have hrange := (h 5 _ hreach 2 (by decide +kernel)).1 4
  exact absurd hrange.1 (by decide +kernel)

end RaftKVStorage
