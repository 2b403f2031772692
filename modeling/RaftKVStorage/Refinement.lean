import RaftKVStorage.Simulation

set_option autoImplicit false

/-! # The cluster refines `LeaderLogs`

`Cluster.Sim σ S` relates a state of the cluster to a state of the abstract protocol, the history
included. As long as no request is delivered over a stale tail, every step of the cluster is matched
by steps of the abstract protocol (`Cluster.Sim.step`). -/

namespace RaftKVStorage

open LeaderLogs

variable {n : ℕ}

/-! ## Events -/

/-- A leader that raised its commit index holds a committed part of its leader log. -/
def CommittedSim (S : Ghost n) (s : Node n) : Prop :=
  S.led s.term ∧ Certified S s.term ((S.lead s.term).take s.commitIndex.toNat) ∧
    s.commitIndex.toNat ≤ (S.lead s.term).length

/-- A node that was just elected holds the leader log as it was then. -/
def ElectedSim (S : Ghost n) (s : Node n) : Prop :=
  S.led s.term ∧ s.IndexInv ∧ s.lastSnapshotIndex.toNat ≤ S.base s.term ∧
    s.logs = ((S.lead s.term).take (S.base s.term)).drop s.lastSnapshotIndex.toNat

/-- Commands handed out are those of a committed log at their indices. -/
def AppliedSim (S : Ghost n) (messages : List ApplyMessage) : Prop :=
  ∃ B K, Certified S B K ∧ ∀ m ∈ messages, ∃ (i : ℕ) (e : LogEntry), K[i]? = some e ∧
    m = .ofCommand (i + 1) e.command

section Events

variable {S S' : Ghost n}

theorem CommittedSim.mono {s : Node n} (h : CommittedSim S s) (g : Grows S S') :
    CommittedSim S' s := by
  obtain ⟨hled, hcert, hlen⟩ := h
  refine ⟨g.led _ hled, ?_, hlen.trans (g.length_lead hled)⟩
  rw [g.take_lead hled hlen]
  exact hcert.mono g le_rfl

theorem ElectedSim.mono {s : Node n} (h : ElectedSim S s) (hS : Inv LogEntry.term S)
    (g : Grows S S') : ElectedSim S' s := by
  obtain ⟨hled, hinv, hsnap, hlogs⟩ := h
  refine ⟨g.led _ hled, hinv, by rw [g.base _ hled]; exact hsnap, ?_⟩
  rw [g.base _ hled, g.take_lead hled (hS.baseLe _ hled)]
  exact hlogs

theorem AppliedSim.mono {messages : List ApplyMessage} (h : AppliedSim S messages)
    (g : Grows S S') : AppliedSim S' messages := by
  obtain ⟨B, K, hK, hall⟩ := h
  exact ⟨B, K, hK.mono g le_rfl, hall⟩

/-- The commands a node hands out are committed. -/
theorem NodeSim.getApplyMessages {p : Fin n} {s : Node n} (h : NodeSim S p s) (hinv : s.IndexInv) :
    AppliedSim S s.getApplyMessages.ret := by
  obtain ⟨K, hK, hlen, hpre, -⟩ := h.commit
  refine ⟨s.term, K, hK, fun m hm => ?_⟩
  rw [hinv.getApplyMessages_eq] at hm
  obtain ⟨e, he, rfl⟩ := List.mem_map.1 hm
  obtain ⟨j, hj⟩ := List.mem_iff_getElem?.1 he
  obtain ⟨hc, h0, h1, h2, h3, -⟩ := hinv
  have hjlt : j < (s.commitIndex - s.appliedIndex).toNat := by
    have := (List.getElem?_eq_some_iff.1 hj).1
    rw [List.length_take] at this
    omega
  rw [List.getElem?_take_of_lt hjlt, List.getElem?_drop] at hj
  have hidx := hc _ e hj
  have hlt : (s.appliedIndex - s.lastSnapshotIndex).toNat + j
      < (K.drop s.lastSnapshotIndex.toNat).length := by
    rw [List.length_drop]
    omega
  refine ⟨s.appliedIndex.toNat + j, e, ?_, ?_⟩
  · rw [show s.appliedIndex.toNat + j = s.lastSnapshotIndex.toNat +
      ((s.appliedIndex - s.lastSnapshotIndex).toNat + j) by omega, ← List.getElem?_drop,
      List.getElem?_eq_getElem hlt, hpre.getElem hlt, ← List.getElem?_eq_getElem, hj]
  · simp only [LogEntry.toMessage, hidx]
    congr 1
    push_cast
    omega

end Events

/-! ## The relation -/

structure Cluster.Sim (σ : Cluster n) (S : Ghost n) : Prop where
  inv : LeaderLogs.Inv LogEntry.term S
  node : ∀ p, NodeSim S p (σ.procs p).node
  calls : ∀ p, CallsSim S p (σ.procs p)
  vote : ∀ v T (c : Fin n), S.vote v T = some c ↔ σ.Voted v T (c : ℕ)
  led : ∀ T, S.led T ↔ ∃ p, σ.Elected p T
  ledNonneg : ∀ T, S.led T → 0 ≤ T
  committed : ∀ p s, .committed p s ∈ σ.history → CommittedSim S s
  elected : ∀ p s, .elected p s ∈ σ.history → ElectedSim S s
  applied : ∀ p messages, .applied p messages ∈ σ.history → AppliedSim S messages

theorem Cluster.Sim.new : (Cluster.new n).Sim (State.start 0) := by
  have hprocs : ∀ p, (Cluster.new n).procs p = Proc.new p := fun _ => rfl
  refine ⟨Inv.start 0, fun p => ?_, fun p => ?_, ?_, ?_, ?_, ?_, ?_, ?_⟩
  · refine ⟨rfl, le_rfl, by simp [hprocs, Proc.new, Node.new, Node.load, Persister.new, State.start],
      rfl, le_rfl, fun _ => rfl, [], Or.inl rfl, rfl, ?_, rfl⟩
    exact List.nil_prefix
  · refine ⟨?_, ?_, ⟨fun _ => 0, fun _ => 0, ?_, Tally.Sound.nil⟩, ?_, ?_⟩
    all_goals simp [hprocs, Proc.new]
  · simp [State.start, Cluster.Voted, Cluster.new]
  · simp [State.start, Cluster.Elected, Cluster.new]
  · simp [State.start]
  · simp [Cluster.new]
  · simp [Cluster.new]
  · simp [Cluster.new]

section Feed

variable {σ : Cluster n} {S S' : Ghost n}

theorem Cluster.mem_committed_feed (σ : Cluster n) (p : Fin n) (input : Input n) {q : Fin n}
    {s : Node n} (h : .committed q s ∈ (σ.feed p input).history) : .committed q s ∈ σ.history ∨
      q = p ∧ s = ((σ.procs p).step input).1.node ∧ s.identity = .leader := by
  rw [Cluster.feed_history, List.mem_append] at h
  refine h.imp_right fun h => ?_
  simp only [observe, List.mem_append] at h
  rcases h with (h | h) | h
  · split at h <;> simp at h
  · split at h <;> simp at h
  · split at h
    · rename_i hid
      simp only [List.mem_singleton, Event.committed.injEq] at h
      exact ⟨h.1, h.2, h.2 ▸ hid.1⟩
    · simp at h

theorem Cluster.mem_applied_feed (σ : Cluster n) (p : Fin n) (input : Input n) {q : Fin n}
    {messages : List ApplyMessage} (h : .applied q messages ∈ (σ.feed p input).history) :
    .applied q messages ∈ σ.history := by
  rw [Cluster.feed_history, List.mem_append] at h
  refine h.resolve_right fun h => ?_
  simp only [observe, List.mem_append] at h
  rcases h with (h | h) | h <;> split at h <;> simp at h

/-- A step of process `p`, matched by steps of node `p`, keeps the relation. -/
theorem Cluster.Sim.feed (h : σ.Sim S) (p : Fin n) (input : Input n)
    (hinv : ((σ.procs p).step input).1.IndexInv)
    (hsim : SimStep S S' p (σ.procs p).node ((σ.procs p).step input).1.node)
    (hcalls : CallsSim S' p ((σ.procs p).step input).1) :
    (σ.feed p input).Sim S' ∧ Grows S S' := by
  obtain ⟨hS', g⟩ := h.inv.steps hsim.steps
  refine ⟨⟨hS', fun q => ?_, fun q => ?_, fun v T c => ?_, fun T => ?_, fun T hT => ?_,
    fun q s hs => ?_, fun q s hs => ?_, fun q ms hms => ?_⟩, g⟩
  · rcases eq_or_ne q p with rfl | hq
    · rw [σ.feed_procs_self]
      exact hsim.node
    · rw [σ.feed_procs_ne p input hq]
      obtain ⟨h1, h2, h3, -⟩ := hsim.steps.frame LogEntry.term S hq
      exact (h.node q).frame g h1 h2 h3
  · rcases eq_or_ne q p with rfl | hq
    · rw [σ.feed_procs_self]
      exact hcalls
    · rw [σ.feed_procs_ne p input hq]
      exact (h.calls q).mono g
  · rw [hsim.vote, σ.voted_feed, h.vote]
    refine or_congr_right (and_congr_right fun _ => and_congr_right fun _ => and_congr_left fun _ => ?_)
    exact eq_comm
  · rw [hsim.led, h.led]
    simp only [Cluster.elected_feed]
    constructor
    · rintro (⟨q, hq⟩ | ⟨hT, hl, hl'⟩)
      · exact ⟨q, Or.inl hq⟩
      · exact ⟨p, Or.inr ⟨rfl, hT, hl, hl'⟩⟩
    · rintro ⟨q, hq | ⟨-, hT, hl, hl'⟩⟩
      · exact Or.inl ⟨q, hq⟩
      · exact Or.inr ⟨hT, hl, hl'⟩
  · rcases (hsim.led T).1 hT with hT | ⟨rfl, -, -⟩
    · exact h.ledNonneg T hT
    · exact hsim.node.termNonneg
  · rcases σ.mem_committed_feed p input hs with hs | ⟨rfl, rfl, hid⟩
    · exact (h.committed q s hs).mono g
    · obtain ⟨hled, hlog⟩ := hsim.node.leader hS' hid
      obtain ⟨hle, hcert, -, -⟩ := hsim.node.commit_lead hS' hinv.node hled le_rfl
      exact ⟨hled, hcert, hle⟩
  · rcases (σ.mem_elected_feed p input).1 hs with hs | ⟨rfl, rfl, hid, hid'⟩
    · exact (h.elected q s hs).mono h.inv g
    · obtain ⟨hled, hlog⟩ := hsim.node.leader hS' hid
      have hbase := hsim.base hid hid'
      refine ⟨hled, hinv.node, ?_, ?_⟩
      · rw [hbase, ← hlog]
        exact hsim.node.snapLe
      · rw [hbase, List.take_length, ← hlog]
        exact hsim.node.logs
  · exact (h.applied q ms (σ.mem_applied_feed p input hms)).mono g

/-- The relation reads the nodes, the calls and the history only. -/
theorem Cluster.Sim.congr {σ' : Cluster n} (h : σ.Sim S)
    (hnode : ∀ q, (σ'.procs q).node = (σ.procs q).node) (hcalls : ∀ q, CallsSim S q (σ'.procs q))
    (hhist : σ'.history = σ.history) : σ'.Sim S := by
  refine ⟨h.inv, ?_, hcalls, ?_, ?_, h.ledNonneg, ?_, ?_, ?_⟩
  · simpa only [hnode] using h.node
  · simpa only [Cluster.Voted, hhist] using h.vote
  · simpa only [Cluster.Elected, hhist] using h.led
  · simpa only [hhist] using h.committed
  · simpa only [hhist] using h.elected
  · simpa only [hhist] using h.applied

theorem Cluster.Sim.setProc (h : σ.Sim S) (p : Fin n) {P : Proc n}
    (hnode : P.node = (σ.procs p).node) (hcalls : CallsSim S p P) : (σ.setProc p P).Sim S :=
  h.congr (σ.setProc_node p hnode)
    (σ.forall_setProc p (I := fun q P => CallsSim S q P) h.calls hcalls) (σ.setProc_history p hnode)

theorem Cluster.Sim.record (h : σ.Sim S) (p : Fin n) {messages : List ApplyMessage}
    (happlied : AppliedSim S messages) : (σ.record p messages).Sim S := by
  refine ⟨h.inv, h.node, h.calls, ?_, ?_, h.ledNonneg, fun q s hs => ?_, fun q s hs => ?_,
    fun q ms hms => ?_⟩
  · rw [Cluster.record_voted]; exact h.vote
  · rw [Cluster.record_elected]; exact h.led
  · exact h.committed q s (by simpa [Cluster.record] using hs)
  · exact h.elected q s (by simpa [Cluster.record] using hs)
  · simp only [Cluster.record, List.mem_append, List.mem_singleton, Event.applied.injEq] at hms
    rcases hms with hms | ⟨rfl, rfl⟩
    · exact h.applied q ms hms
    · exact happlied

end Feed

/-! ## What the calls say after a step -/

section Calls

variable {S : Ghost n} {p : Fin n} {P : Proc n}

/-- A round starts: its requests all end where the leader log does. -/
theorem CallsSim.heartBeat (h : CallsSim S p P) (hS : Inv LogEntry.term S) (hinv : P.IndexInv)
    (hnode : NodeSim S p P.node) (hme : P.node.me = p) (hid : P.node.identity = .leader)
    (hack : Acked S p P.node.term (S.lead P.node.term).length) : CallsSim S p P.heartBeat := by
  obtain ⟨T, N, hcalls, hsound⟩ := h.rounds
  have hnew : ∀ call ∈ P.node.heartBeat.1.filterMap (Launch.toAppendCall P.appendNums.length),
      call.appendNum = P.appendNums.length ∧ call.reply = none ∧ AppendSim S call.args ∧
        call.args.term = P.node.term ∧ call.args.prevLogIndex.toNat + call.args.entries.length
          = (S.lead P.node.term).length := by
    intro call hcall
    obtain ⟨server, args, hmem, rfl⟩ := mem_toAppendCall hcall
    rw [Node.heartBeat, if_pos hid] at hmem
    obtain ⟨-, -, -, hargs⟩ := Node.mem_heartBeatPeers hmem
    obtain ⟨hsim, hterm, hend⟩ := hnode.heartBeatArgs hinv.node hS hid hargs
    exact ⟨rfl, rfl, hsim, hterm, hend⟩
  have hP : P.heartBeat =
      { P with
        appendNums := P.appendNums ++ [1]
        appendCalls := P.appendCalls ++
          P.node.heartBeat.1.filterMap (Launch.toAppendCall P.appendNums.length)
        snapshotCalls := P.snapshotCalls ++ P.node.heartBeat.1.filterMap Launch.toSnapshotCall } := by
    rw [Proc.heartBeat, if_pos hid]
  rw [hP]
  refine ⟨fun call hc => ?_, fun call hc reply hr hs => ?_,
    ⟨Function.update T P.appendNums.length P.node.term,
      Function.update N P.appendNums.length (S.lead P.node.term).length, fun call hc => ?_, ?_⟩,
    h.vote, fun call hc args ha => ?_⟩
  · rcases List.mem_append.1 hc with hc | hc
    · exact h.append call hc
    · exact (hnew call hc).2.2.1
  · rcases List.mem_append.1 hc with hc | hc
    · exact h.appendReply call hc reply hr hs
    · rw [(hnew call hc).2.1] at hr
      simp at hr
  · rcases List.mem_append.1 hc with hc | hc
    · have hlt := hsound.inRange _ (List.mem_map_of_mem hc)
      rw [Function.update_of_ne hlt.ne, Function.update_of_ne hlt.ne]
      exact hcalls call hc
    · obtain ⟨hnum, -, -, hterm, hend⟩ := hnew call hc
      rw [hnum, Function.update_self, Function.update_self]
      exact ⟨hterm, hend⟩
  · have hold : Tally.Sound p (fun c q => Acked S q
        (Function.update T P.appendNums.length P.node.term c)
        (Function.update N P.appendNums.length (S.lead P.node.term).length c)) (fun _ => False)
        (P.appendCalls.map fun call => (call.appendNum, call.server)) P.appendNums :=
      hsound.mono (fun c hc q hq => by
        rwa [Function.update_of_ne hc.ne, Function.update_of_ne hc.ne]) fun _ _ hw => hw
    have hsub := P.node.heartBeatPeers_servers P.appendNums.length (List.finRange n)
    have hstart := hold.start
      ((P.node.heartBeat.1.filterMap (Launch.toAppendCall P.appendNums.length)).map
        AppendCall.server)
      (by
        rw [Node.heartBeat, if_pos hid]
        exact ((List.nodup_finRange n).filter _).sublist hsub)
      (by
        rw [Node.heartBeat, if_pos hid, ← hme]
        intro hmem
        simpa using hsub.subset hmem)
      (by rw [Function.update_self, Function.update_self]; exact hack) id
    have hmap : (P.node.heartBeat.1.filterMap (Launch.toAppendCall P.appendNums.length)).map
        (fun call => (call.appendNum, call.server)) =
        ((P.node.heartBeat.1.filterMap (Launch.toAppendCall P.appendNums.length)).map
          AppendCall.server).map fun q => (P.appendNums.length, q) := by
      rw [List.map_map]
      exact List.map_congr_left fun call hc => by rw [(hnew call hc).1]; rfl
    rw [List.map_append, hmap]
    exact hstart
  · rcases List.mem_append.1 hc with hc | hc
    · exact h.snapshot call hc args ha
    · obtain ⟨server, rfl⟩ := mem_toSnapshotCall hc
      simp at ha

theorem CallsSim.stand4Election (h : CallsSim S p P) {args : RequestVoteArgs}
    (hoffer : OfferSim S p args) {s : Node n} (hstand : P.node.stand4Election = (s, some args)) :
    CallsSim S p P.stand4Election := by
  have hP : P.stand4Election =
      { P with
        node := s
        voteNums := P.voteNums ++ [1]
        voteCalls := P.voteCalls ++ ((List.finRange n).filter (· ≠ P.node.me)).map fun i =>
          { server := i, args := args, voteNum := P.voteNums.length } } := by
    simp [Proc.stand4Election, hstand]
  rw [hP]
  refine ⟨h.append, h.appendReply, h.rounds, fun call hc => ?_, h.snapshot⟩
  rcases List.mem_append.1 hc with hc | hc
  · exact h.vote call hc
  · obtain ⟨i, -, rfl⟩ := List.mem_map.1 hc
    exact hoffer

theorem CallsSim.readSnapshot (h : CallsSim S p P) (hsnap : SnapSim S P.node.snapshotArgs)
    (k : ℕ) : CallsSim S p (P.readSnapshot k) := by
  unfold Proc.readSnapshot
  split
  · refine ⟨h.append, h.appendReply, h.rounds, h.vote, fun call hc args ha => ?_⟩
    rcases List.mem_or_eq_of_mem_set hc with hc | rfl
    · exact h.snapshot call hc args ha
    · simp only [Option.some.injEq] at ha
      exact ha ▸ hsnap
  · exact h

/-- A reply noted with its call. -/
theorem CallsSim.answerAppend (h : CallsSim S p P) {k : ℕ} {call : AppendCall n}
    {reply : AppendEntriesReply} (hcall : P.appendCalls[k]? = some call)
    (hreply : reply.success = true → reply.term = call.args.term ∧
      Acked S call.server call.args.term
        (call.args.prevLogIndex.toNat + call.args.entries.length)) :
    CallsSim S p
      { P with appendCalls := P.appendCalls.set k { call with reply := some reply } } := by
  obtain ⟨T, N, hcalls, hsound⟩ := h.rounds
  refine ⟨fun c hc => ?_, fun c hc r hr hs => ?_, ⟨T, N, fun c hc => ?_, ?_⟩, h.vote, h.snapshot⟩
  · obtain ⟨c', hc', heq⟩ := exists_of_mem_set (f := AppendCall.args) hcall hc rfl
    rw [heq]
    exact h.append c' hc'
  · rcases List.mem_or_eq_of_mem_set hc with hc | rfl
    · exact h.appendReply c hc r hr hs
    · simp only [Option.some.injEq] at hr
      subst hr
      exact hreply hs
  · obtain ⟨c', hc', heq⟩ := exists_of_mem_set
      (f := fun call : AppendCall n => (call.args, call.appendNum)) hcall hc rfl
    simp only [Prod.mk.injEq] at heq
    rw [heq.1, heq.2]
    exact hcalls c' hc'
  · have hmap : (P.appendCalls.set k { call with reply := some reply }).map
        (fun call => (call.appendNum, call.server))
        = P.appendCalls.map fun call => (call.appendNum, call.server) := map_set_eq_map hcall rfl
    simp only [hmap]
    exact hsound

/-- A reply to an appendEntries call is taken in. -/
theorem CallsSim.appendReply_step (h : CallsSim S p P) (hS : Inv LogEntry.term S)
    (hinv : P.IndexInv) (hnode : NodeSim S p P.node) {k : ℕ} {call : AppendCall n}
    {reply : AppendEntriesReply} (hcall : P.appendCalls[k]? = some call)
    (hreply : call.reply = some reply) : ∃ S',
      SimStep S S' p P.node (P.appendReply k reply).1.node ∧ CallsSim S p (P.appendReply k reply).1 := by
  obtain ⟨T, N, hcalls, hsound⟩ := h.rounds
  have hmem := List.mem_of_getElem? hcall
  have hpend : (P.appendCalls.map fun call => (call.appendNum, call.server))[k]?
      = some (call.appendNum, call.server) := by simp [hcall]
  have hlt := hsound.inRange _ (List.mem_of_getElem? hpend)
  have hsame : P.appendNums.set call.appendNum (P.appendNums.getD call.appendNum 0)
      = P.appendNums := by
    rw [List.getD_eq_getElem _ _ hlt, List.set_getElem_self]
  -- whatever becomes of the counter, the rest is inherited
  have hdone : ∀ (s : Node n) (x : ℕ),
      Tally.Sound p (fun c q => Acked S q (T c) (N c)) (fun _ => False)
        ((P.appendCalls.map fun call => (call.appendNum, call.server)).eraseIdx k)
        (P.appendNums.set call.appendNum x) →
      CallsSim S p
        { P with
          node := s
          appendNums := P.appendNums.set call.appendNum x
          appendCalls := P.appendCalls.eraseIdx k } := by
    intro s x hs
    refine ⟨fun c hc => h.append c (List.mem_of_mem_eraseIdx hc),
      fun c hc => h.appendReply c (List.mem_of_mem_eraseIdx hc),
      ⟨T, N, fun c hc => hcalls c (List.mem_of_mem_eraseIdx hc), ?_⟩, h.vote, h.snapshot⟩
    rw [List.eraseIdx_map] at hs
    exact hs
  have hstep : (P.appendReply k reply).1 =
      { P with
        node := (P.node.sendAppendEntries call.server call.args reply
          (P.appendNums.getD call.appendNum 0)).node
        appendNums := P.appendNums.set call.appendNum (P.node.sendAppendEntries call.server
          call.args reply (P.appendNums.getD call.appendNum 0)).ret
        appendCalls := P.appendCalls.eraseIdx k } := by simp [Proc.appendReply, hcall]
  rw [hstep]
  rcases P.node.sendAppendEntries_cases call.server call.args reply
    (P.appendNums.getD call.appendNum 0) hinv.node.commitLeLast (hinv.node.matchLeLast _)
    (hinv.appendLeLast call hmem) with
    heq | ⟨hterm, heq⟩ | ⟨-, -, -, -, heq⟩ | ⟨hterm, hid, hsucc, ⟨-, heq⟩ | ⟨hmaj, heq⟩⟩
  · rw [heq]
    refine ⟨S, .stay hnode rfl rfl rfl rfl rfl rfl rfl, hdone _ _ ?_⟩
    rw [hsame]
    exact hsound.sublist (List.eraseIdx_sublist _ _)
  · rw [heq]
    refine ⟨_, .stepDown hnode hterm, hdone _ _ ?_⟩
    rw [hsame]
    exact hsound.sublist (List.eraseIdx_sublist _ _)
  · rw [heq]
    refine ⟨S, .stay hnode rfl rfl rfl rfl rfl rfl rfl, hdone _ _ ?_⟩
    rw [hsame]
    exact hsound.sublist (List.eraseIdx_sublist _ _)
  all_goals
    obtain ⟨hreplyTerm, hack⟩ := h.appendReply call hmem reply hreply hsucc
    obtain ⟨hT, hN⟩ := hcalls call hmem
    have hyes : Acked S call.server (T call.appendNum) (N call.appendNum) := by
      rw [← hT, ← hN]
      exact hack
  · rw [heq]
    exact ⟨S, .stay hnode rfl rfl rfl rfl rfl rfl rfl, hdone _ _ (hsound.count hpend hyes le_rfl)⟩
  · rw [heq]
    obtain ⟨Q, hQ, hall⟩ := hsound.majority (List.mem_of_getElem? hpend) hyes (by simpa using hmaj)
    have hargsTerm : call.args.term = P.node.term := by rw [← hreplyTerm, hterm]
    have hrec : NodeSim S p (P.node.recordMatch call.server call.args) :=
      hnode.congr rfl Iff.rfl rfl rfl rfl rfl
    have hnode' := hrec.updateCommitIndex
      (hinv.node.recordMatch call.server (hinv.appendLeLast call hmem)).1 hS hid
      (h.append call hmem) hargsTerm hQ (fun v hv => by
        show Acked S v P.node.term _
        rw [← hargsTerm, hT, hN]
        exact hall v hv)
    have hkeep : ((P.node.recordMatch call.server call.args).updateCommitIndex call.args).term
          = P.node.term ∧
        ((P.node.recordMatch call.server call.args).updateCommitIndex call.args).vote4
          = P.node.vote4 := by
      rcases (P.node.recordMatch call.server call.args).updateCommitIndex_cases call.args with
        heq' | ⟨-, heq'⟩
      all_goals
        rw [heq']
        exact ⟨rfl, rfl⟩
    exact ⟨S, .quiet .refl hnode' rfl rfl (Or.inr hkeep) fun _ => hid,
      hdone _ _ (hsound.count hpend hyes (Nat.zero_le _))⟩

end Calls

/-! ## Steps -/

/-- No request is delivered over a stale tail. -/
def Cluster.NoStaleTail (σ : Cluster n) : Action n → Prop
  | .deliverAppend p k => ∀ call ∈ (σ.procs p).appendCalls[k]?, call.reply = none →
      ¬ (σ.procs call.server).node.StaleTail call.args
  | _ => True

instance (σ : Cluster n) (a : Action n) : Decidable (σ.NoStaleTail a) :=
  match a with
  | .deliverAppend p k =>
      inferInstanceAs (Decidable (∀ call ∈ (σ.procs p).appendCalls[k]?, call.reply = none →
        ¬ (σ.procs call.server).node.StaleTail call.args))
  | .execute _ _ => isTrue trivial
  | .persist _ _ _ => isTrue trivial
  | .getApplyMessages _ => isTrue trivial
  | .stand4Election _ => isTrue trivial
  | .heartBeat _ => isTrue trivial
  | .readSnapshot _ _ => isTrue trivial
  | .deliverVote _ _ => isTrue trivial
  | .deliverSnapshot _ _ => isTrue trivial
  | .returnAppend _ _ => isTrue trivial
  | .returnVote _ _ => isTrue trivial
  | .returnSnapshot _ _ => isTrue trivial

section Step

variable {σ : Cluster n} {S : Ghost n}

/-- The vote of a node in its own term is the one it holds. -/
theorem Cluster.Sim.vote_iff (h : σ.Sim S) (helect : σ.ElectionInv) (p c : Fin n) :
    S.vote p (σ.procs p).node.term = some c ↔ (σ.procs p).node.vote4 = (c : ℕ) := by
  rw [h.vote]
  constructor
  · exact fun hv => (helect.votedTerm p _ _ hv).2 rfl (by omega)
  · intro hv
    rw [← hv]
    exact helect.vote p (by rw [hv]; omega)

theorem Cluster.Sim.run (h : σ.Sim S) (helect : σ.ElectionInv) (hinv : ∀ p, (σ.procs p).IndexInv)
    (p : Fin n) {input : Input n} (hlocal : input.Local) :
    ∃ S', (σ.feed p input).Sim S' ∧ Grows S S' := by
  have hinv' := ((hinv p).step hlocal.wellFormed).1.1
  -- where no thread is started, only the node has to be looked at
  have hquiet : ∀ S', SimStep S S' p (σ.procs p).node ((σ.procs p).step input).1.node →
      ((σ.procs p).step input).1.appendCalls = (σ.procs p).appendCalls →
      ((σ.procs p).step input).1.appendNums = (σ.procs p).appendNums →
      ((σ.procs p).step input).1.voteCalls = (σ.procs p).voteCalls →
      ((σ.procs p).step input).1.snapshotCalls = (σ.procs p).snapshotCalls →
      ∃ S', (σ.feed p input).Sim S' ∧ Grows S S' := by
    intro S' hsim ha hn hv hs
    exact ⟨S', h.feed p input hinv' hsim (((h.calls p).mono (h.inv.steps hsim.steps).2).congr ha hn
      (fun c hc => ⟨c, hv ▸ hc, rfl⟩) fun c hc => ⟨c, hs ▸ hc, rfl⟩)⟩
  have hstay : ((σ.procs p).step input).1.node = (σ.procs p).node →
      SimStep S S p (σ.procs p).node ((σ.procs p).step input).1.node := by
    intro heq
    rw [heq]
    exact .stay (h.node p) rfl rfl rfl rfl rfl rfl rfl
  cases input with
  | execute command =>
      obtain ⟨S', hsim⟩ := sim_execute (h.node p) h.inv command
      exact hquiet S' hsim rfl rfl rfl rfl
  | persist index shot => exact hquiet S (sim_persist (h.node p) (hinv p).node index shot) rfl rfl rfl rfl
  | getApplyMessages => exact hquiet S (sim_getApplyMessages (h.node p) (hinv p).node) rfl rfl rfl rfl
  | stand4Election =>
      rcases (σ.procs p).node.stand4Election_cases with ⟨-, heq⟩ | ⟨-, heq⟩
      · have hP : ((σ.procs p).step .stand4Election).1 = σ.procs p := by
          simp [Proc.step, Proc.stand4Election, heq]
        exact hquiet S (hstay (by rw [hP])) (by rw [hP]) (by rw [hP]) (by rw [hP]) (by rw [hP])
      · have hsim := sim_stand4Election (h.node p) h.inv (helect.me p)
        have hnode : ((σ.procs p).step .stand4Election).1.node = (σ.procs p).node.identityChange
            .candidate ((σ.procs p).node.term + 1) (σ.procs p).node.me := by
          simp [Proc.step, Proc.stand4Election, heq]
        have hoffer : OfferSim (S.stand p ((σ.procs p).node.term + 1)) p
            { term := (σ.procs p).node.term + 1
              candidateId := (σ.procs p).node.me
              lastLogIndex := (σ.procs p).node.getLastLogIndex
              lastLogTerm := (σ.procs p).node.getLastLogTerm } :=
          ⟨S.log p, by simp [State.stand], (h.node p).getLastLogIndex (hinv p).node,
            (h.node p).getLastLogTerm⟩
        exact ⟨_, h.feed p .stand4Election hinv' (by rw [hnode]; exact hsim)
          (((h.calls p).mono (h.inv.steps hsim.steps).2).stand4Election hoffer heq)⟩
  | heartBeat =>
      by_cases hid : (σ.procs p).node.identity = .leader
      · obtain ⟨S', hsim, hlead, hack⟩ := sim_heartBeat (h.node p) h.inv hid
        obtain ⟨hS', g⟩ := h.inv.steps hsim.steps
        have hnode : ((σ.procs p).step .heartBeat).1.node = (σ.procs p).node := by
          simp [Proc.step, Proc.heartBeat, hid]
        rw [← hlead] at hack
        exact ⟨S', h.feed p .heartBeat hinv' (by rw [hnode]; exact hsim)
          (((h.calls p).mono g).heartBeat hS' (hinv p) hsim.node (helect.me p) hid hack)⟩
      · have hP : ((σ.procs p).step .heartBeat).1 = σ.procs p := by
          simp [Proc.step, Proc.heartBeat, hid]
        exact hquiet S (hstay (by rw [hP])) (by rw [hP]) (by rw [hP]) (by rw [hP]) (by rw [hP])
  | readSnapshot k =>
      have hnode : ((σ.procs p).step (.readSnapshot k)).1.node = (σ.procs p).node := by
        simp only [Proc.step, Proc.readSnapshot]
        split <;> rfl
      exact ⟨S, h.feed p (.readSnapshot k) hinv' (hstay hnode)
        ((h.calls p).readSnapshot ((h.node p).snapshotArgs (hinv p).node) k)⟩
  | _ => exact absurd hlocal id

theorem Cluster.Sim.requestVote (h : σ.Sim S) (helect : σ.ElectionInv)
    (hinv : ∀ p, (σ.procs p).IndexInv) {p : Fin n} {call : VoteCall n}
    (hcall : call ∈ (σ.procs p).voteCalls) :
    ∃ S', (σ.feed call.server (.requestVote call.args)).Sim S' ∧ Grows S S' := by
  have hcand : call.args.candidateId = (p : ℕ) := by
    rw [(helect.votes p).candidate call hcall, helect.me]
  obtain ⟨S', hsim⟩ := sim_requestVote (h.node call.server) (hinv call.server).node h.inv
    h.ledNonneg (h.vote_iff helect call.server) ((h.calls p).vote call hcall) hcand
  have hwf : (Input.requestVote call.args : Input n).WellFormed := trivial
  exact ⟨S', h.feed call.server (.requestVote call.args) ((hinv call.server).step hwf).1.1 hsim
    (((h.calls call.server).mono (h.inv.steps hsim.steps).2).congr rfl rfl
      (fun c hc => ⟨c, hc, rfl⟩) fun c hc => ⟨c, hc, rfl⟩)⟩

theorem Cluster.Sim.appendEntries (h : σ.Sim S) (hinv : ∀ p, (σ.procs p).IndexInv) {p : Fin n}
    {call : AppendCall n} (hcall : call ∈ (σ.procs p).appendCalls)
    (hstale : ¬ (σ.procs call.server).node.StaleTail call.args)
    (hfault : ((σ.procs call.server).node.appendEntries call.args).fault = none) :
    ∃ S', ((σ.feed call.server (.appendEntries call.args)).Sim S' ∧ Grows S S') ∧
      (((σ.procs call.server).node.appendEntries call.args).ret.success = true →
        ((σ.procs call.server).node.appendEntries call.args).ret.term = call.args.term ∧
          Acked S' call.server call.args.term
            (call.args.prevLogIndex.toNat + call.args.entries.length)) := by
  have hwf : (Input.appendEntries call.args : Input n).WellFormed :=
    (hinv p).appendConsecutive call hcall
  obtain ⟨S', hsim, hreply⟩ := sim_appendEntries (h.node call.server) (hinv call.server).node h.inv
    ((h.calls p).append call hcall) hwf hstale hfault
  exact ⟨S', h.feed call.server (.appendEntries call.args) ((hinv call.server).step hwf).1.1 hsim
    (((h.calls call.server).mono (h.inv.steps hsim.steps).2).congr rfl rfl
      (fun c hc => ⟨c, hc, rfl⟩) fun c hc => ⟨c, hc, rfl⟩), hreply⟩

theorem Cluster.Sim.installSnapshot (h : σ.Sim S) (hinv : ∀ p, (σ.procs p).IndexInv) {p : Fin n}
    {call : SnapshotCall n} (hcall : call ∈ (σ.procs p).snapshotCalls) {args : InstallSnapshotArgs}
    (hargs : call.args = some args) :
    ∃ S', (σ.feed call.server (.installSnapshot args)).Sim S' ∧ Grows S S' := by
  have hwf : (Input.installSnapshot args : Input n).WellFormed := trivial
  obtain ⟨S', hsim⟩ := sim_installSnapshot (h.node call.server) (hinv call.server).node h.inv
    ((h.calls p).snapshot call hcall args hargs)
  exact ⟨S', h.feed call.server (.installSnapshot args) ((hinv call.server).step hwf).1.1 hsim
    (((h.calls call.server).mono (h.inv.steps hsim.steps).2).congr rfl rfl
      (fun c hc => ⟨c, hc, rfl⟩) fun c hc => ⟨c, hc, rfl⟩)⟩

theorem Cluster.Sim.appendReply (h : σ.Sim S) (hinv : ∀ p, (σ.procs p).IndexInv) {p : Fin n}
    {k : ℕ} {call : AppendCall n} {reply : AppendEntriesReply}
    (hcall : (σ.procs p).appendCalls[k]? = some call) (hreply : call.reply = some reply) :
    ∃ S', (σ.feed p (.appendReply k reply)).Sim S' ∧ Grows S S' := by
  have hwf : (Input.appendReply k reply : Input n).WellFormed := trivial
  obtain ⟨S', hsim, hcalls⟩ :=
    (h.calls p).appendReply_step h.inv (hinv p) (h.node p) hcall hreply
  exact ⟨S', h.feed p (.appendReply k reply) ((hinv p).step hwf).1.1 hsim
    (hcalls.mono (h.inv.steps hsim.steps).2)⟩

/-- A new leader's term had no leader: it would have to be the new one itself. -/
theorem Cluster.Sim.not_led (h : σ.Sim S) (helect : σ.ElectionInv)
    (hinv : ∀ p, (σ.procs p).IndexInv) {p : Fin n} {k : ℕ} {reply : RequestVoteReply}
    (hret : (σ.procs p).Returns (.voteReply k reply)) (hid : (σ.procs p).node.identity ≠ .leader)
    (hid' : ((σ.procs p).step (.voteReply k reply)).1.node.identity = .leader) :
    ¬ S.led (σ.procs p).node.term := by
  have hwf : (Input.voteReply k reply : Input n).WellFormed := trivial
  obtain ⟨⟨-, hnew⟩, -⟩ := helect.elected hinv p hwf hret hid hid'
  intro hled
  obtain ⟨q, hq⟩ := (h.led _).1 hled
  have hterm := (((hinv p).voteStep hwf).leads hid').1
  have hp : (σ.feed p (.voteReply k reply)).Elected p (σ.procs p).node.term :=
    (σ.elected_feed p _).2 (Or.inr ⟨rfl, hterm.symm, hid', hid⟩)
  have hq' : (σ.feed p (.voteReply k reply)).Elected q (σ.procs p).node.term :=
    (σ.elected_feed p _).2 (Or.inl hq)
  obtain rfl := (helect.feed hinv p _ hwf hret).unique hp hq'
  exact hnew hq

theorem Cluster.Sim.voteReply (h : σ.Sim S) (helect : σ.ElectionInv)
    (hinv : ∀ p, (σ.procs p).IndexInv) {p : Fin n} {k : ℕ} {call : VoteCall n}
    {reply : RequestVoteReply} (hcall : (σ.procs p).voteCalls[k]? = some call)
    (hreply : call.reply = some reply) :
    ∃ S', (σ.feed p (.voteReply k reply)).Sim S' ∧ Grows S S' := by
  have hwf : (Input.voteReply k reply : Input n).WellFormed := trivial
  have hret : (σ.procs p).Returns (.voteReply k reply) := ⟨call, hcall, hreply⟩
  have hnode : ((σ.procs p).step (.voteReply k reply)).1.node = ((σ.procs p).node.sendRequestVote
      reply ((σ.procs p).voteNums.getD call.voteNum 0)).1 := by
    simp [Proc.step, Proc.voteReply, hcall]
  have hcalls : ∀ S', CallsSim S' p (σ.procs p) →
      CallsSim S' p ((σ.procs p).step (.voteReply k reply)).1 := by
    intro S' hS'
    have hP : ((σ.procs p).step (.voteReply k reply)).1 =
        { σ.procs p with
          node := ((σ.procs p).step (.voteReply k reply)).1.node
          voteNums := (σ.procs p).voteNums.set call.voteNum ((σ.procs p).node.sendRequestVote reply
            ((σ.procs p).voteNums.getD call.voteNum 0)).2
          voteCalls := (σ.procs p).voteCalls.eraseIdx k } := by
      simp [Proc.step, Proc.voteReply, hcall]
    rw [hP]
    exact hS'.congr rfl rfl (fun c hc => ⟨c, List.mem_of_mem_eraseIdx hc, rfl⟩)
      fun c hc => ⟨c, hc, rfl⟩
  have hdone : ∀ S', SimStep S S' p (σ.procs p).node
      ((σ.procs p).step (.voteReply k reply)).1.node →
      ∃ S', (σ.feed p (.voteReply k reply)).Sim S' ∧ Grows S S' := fun S' hsim =>
    ⟨S', h.feed p _ ((hinv p).step hwf).1.1 hsim
      (hcalls S' ((h.calls p).mono (h.inv.steps hsim.steps).2))⟩
  rcases (σ.procs p).node.sendRequestVote_cases reply
    ((σ.procs p).voteNums.getD call.voteNum 0) with
    ⟨hlt, heq⟩ | heq | ⟨-, -, ⟨-, heq⟩ | ⟨-, -, heq⟩ | ⟨-, hid, heq⟩⟩
  · refine hdone (S.follow p reply.term) ?_
    rw [hnode, heq]
    exact .stepDown (h.node p) hlt
  · refine hdone S ?_
    rw [hnode, heq]
    exact .stay (h.node p) rfl rfl rfl rfl rfl rfl rfl
  · refine hdone S ?_
    rw [hnode, heq]
    exact .stay (h.node p) rfl rfl rfl rfl rfl rfl rfl
  · refine hdone S ?_
    rw [hnode, heq]
    exact .stay (h.node p) rfl rfl rfl rfl rfl rfl rfl
  · have hid' : ((σ.procs p).step (.voteReply k reply)).1.node.identity = .leader := by
      rw [hnode, heq]
      rfl
    obtain ⟨⟨⟨Q, hQ, hall⟩, -⟩, -⟩ := helect.elected hinv p hwf hret hid hid'
    refine hdone (S.elect p) ?_
    rw [hnode, heq]
    exact sim_becomeLeader (h.node p) hid hQ (fun v hv => (h.vote v _ p).2 (hall v hv))
      (h.not_led helect hinv hret hid hid')

theorem Cluster.Sim.snapshotReply (h : σ.Sim S) (hinv : ∀ p, (σ.procs p).IndexInv) (p : Fin n)
    (k : ℕ) (reply : InstallSnapshotReply) :
    ∃ S', (σ.feed p (.snapshotReply k reply)).Sim S' ∧ Grows S S' := by
  have hwf : (Input.snapshotReply k reply : Input n).WellFormed := trivial
  have hinv' := ((hinv p).step hwf).1.1
  have hdone : ∃ S', SimStep S S' p (σ.procs p).node ((σ.procs p).snapshotReply k reply).node ∧
      ∀ S', CallsSim S' p (σ.procs p) → CallsSim S' p ((σ.procs p).snapshotReply k reply) := by
    unfold Proc.snapshotReply
    split
    · rename_i server args _ _
      obtain ⟨S', hsim⟩ := sim_sendSnapshot (h.node p) server args reply
      exact ⟨S', hsim, fun S' hS' => hS'.congr rfl rfl (fun c hc => ⟨c, hc, rfl⟩)
        fun c hc => ⟨c, List.mem_of_mem_eraseIdx hc, rfl⟩⟩
    · exact ⟨S, .stay (h.node p) rfl rfl rfl rfl rfl rfl rfl, fun S' hS' => hS'⟩
  obtain ⟨S', hsim, hcalls⟩ := hdone
  exact ⟨S', h.feed p (.snapshotReply k reply) hinv' hsim
    (hcalls S' ((h.calls p).mono (h.inv.steps hsim.steps).2))⟩

/-- Every step that delivers nothing over a stale tail is matched by steps of the abstract
    protocol. -/
theorem Cluster.Sim.step (h : σ.Sim S) (hreach : σ.Reachable) {a : Action n}
    (hok : σ.NoStaleTail a) : ∃ S', (σ.step a).Sim S' ∧ Grows S S' := by
  have hinv := hreach.indexInv
  have helect := hreach.electionInv
  have hmove := σ.step_move a
  generalize σ.step a = σ' at hmove
  cases hmove with
  | idle => exact ⟨S, h, .refl S⟩
  | run _ p hlocal => exact h.run helect hinv p hlocal
  | apply p _ =>
      obtain ⟨S', h', g⟩ := h.run helect hinv p
        (show Input.Local .getApplyMessages from trivial)
      exact ⟨S', h'.record p (((h.node p).getApplyMessages (hinv p).node).mono g), g⟩
  | @deliverAppend p k call hcall hreply hfault =>
      obtain ⟨S', ⟨h', g⟩, hack⟩ := h.appendEntries hinv (List.mem_of_getElem? hcall)
        (hok call hcall hreply) hfault
      refine ⟨S', h'.setProc p rfl ((h'.calls p).answerAppend ?_ hack), g⟩
      rw [(σ.feed_request p call.server (.appendEntries call.args) trivial).1]
      exact hcall
  | @loseAppend p k call _ hcall _ hfault =>
      rw [hreach.entryInv.appendEntries_fault hinv (List.mem_of_getElem? hcall)] at hfault
      simp at hfault
  | @deliverVote p k call hcall =>
      obtain ⟨S', h', g⟩ := h.requestVote helect hinv (List.mem_of_getElem? hcall)
      have hmem : ((σ.feed call.server (.requestVote call.args)).procs p).voteCalls[k]?
          = some call := by
        rw [(σ.feed_request p call.server (.requestVote call.args) trivial).2.1]
        exact hcall
      exact ⟨S', h'.setProc p rfl ((h'.calls p).congr rfl rfl
        (fun c hc => exists_of_mem_set (f := VoteCall.args) hmem hc rfl)
        fun c hc => ⟨c, hc, rfl⟩), g⟩
  | @deliverSnapshot p k call args hcall hargs _ =>
      obtain ⟨S', h', g⟩ := h.installSnapshot hinv (List.mem_of_getElem? hcall) hargs
      have hmem : ((σ.feed call.server (.installSnapshot args)).procs p).snapshotCalls[k]?
          = some call := by
        rw [(σ.feed_request p call.server (.installSnapshot args) trivial).2.2.1]
        exact hcall
      exact ⟨S', h'.setProc p rfl ((h'.calls p).congr rfl rfl (fun c hc => ⟨c, hc, rfl⟩)
        fun c hc => exists_of_mem_set (f := SnapshotCall.args) hmem hc rfl), g⟩
  | @loseSnapshot p k call args _ hcall hargs _ =>
      obtain ⟨S', h', g⟩ := h.installSnapshot hinv (List.mem_of_getElem? hcall) hargs
      exact ⟨S', h'.setProc p rfl ((h'.calls p).congr rfl rfl (fun c hc => ⟨c, hc, rfl⟩)
        fun c hc => ⟨c, List.mem_of_mem_eraseIdx hc, rfl⟩), g⟩
  | returnAppend p k hcall hreply => exact h.appendReply hinv hcall hreply
  | returnVote p k hcall hreply => exact h.voteReply helect hinv hcall hreply
  | @returnSnapshot p k _ reply _ _ => exact h.snapshotReply hinv p k reply

end Step

/-- In a run that delivers nothing over a stale tail, the cluster goes where the abstract protocol
    can go, and the abstract state only grows. -/
theorem Cluster.Sim.run_sim {σ σ' : Cluster n} {S : Ghost n} (h : σ.Sim S) (hreach : σ.Reachable)
    (hrun : GuardedRun.Reach σ Cluster.step Cluster.NoStaleTail σ') :
    ∃ S', σ'.Sim S' ∧ Grows S S' := by
  refine GuardedRun.Reach.invariant (P := fun σ' => ∃ S', σ'.Sim S' ∧ Grows S S')
    ⟨S, h, .refl S⟩ (fun σ₁ a hσ₁ ⟨S₁, h₁, g₁⟩ hok => ?_) hrun
  obtain ⟨S₂, h₂, g₂⟩ := h₁.step (hreach.trans (hσ₁.mono fun _ _ _ => trivial)) hok
  exact ⟨S₂, h₂, g₁.trans g₂⟩

end RaftKVStorage
