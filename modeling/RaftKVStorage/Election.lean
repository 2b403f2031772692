import RaftKVStorage.ClusterSpec
import RaftKVStorage.Theory.Tally

set_option autoImplicit false

/-! # Elections

A node's vote in a term is never changed, and a candidate's counter counts granted votes only, so
two winners of a term would share a voter. The reply handler checks neither the identity nor the
term of the call; that it can only ever win in the term it stood for follows from the replies. -/

namespace RaftKVStorage

variable {n : ℕ}

/-! ## What a step does to term, vote and identity -/

/-- Terms only rise, a vote given in a term stays, and nobody leads without an election. -/
structure Node.VoteStep (s s' : Node n) (input : Input n) : Prop where
  me : s'.me = s.me
  term : s.term ≤ s'.term
  vote : s'.term = s.term → s.vote4 ≠ -1 → s'.vote4 = s.vote4
  leads : s'.identity = .leader → s'.term = s.term ∧ (s.identity = .leader ∨
    ∃ k reply, input = .voteReply k reply)

theorem Node.VoteStep.of_eq {s s' : Node n} {input : Input n} (hme : s'.me = s.me)
    (hterm : s'.term = s.term) (hvote : s'.vote4 = s.vote4)
    (hid : s'.identity = .leader → s.identity = .leader) : s.VoteStep s' input :=
  ⟨hme, hterm.ge, fun _ _ => hvote, fun h => ⟨hterm, Or.inl (hid h)⟩⟩

/-- A step into a later term after which the node does not lead. -/
theorem Node.VoteStep.of_lt {s s' : Node n} {input : Input n} (hme : s'.me = s.me)
    (hterm : s.term < s'.term) (hid : s'.identity ≠ .leader) : s.VoteStep s' input :=
  ⟨hme, hterm.le, fun h => absurd h hterm.ne', fun h => absurd h hid⟩

theorem Node.VoteStep.followTerm {s s' : Node n} {input : Input n} {term : Int}
    (hle : s.term ≤ term) (hme : s'.me = s.me) (hterm : s'.term = (s.followTerm term).term)
    (hvote : s'.vote4 = (s.followTerm term).vote4) (hid : s'.identity = .follower) :
    s.VoteStep s' input := by
  rw [Node.followTerm_term s term hle] at hterm
  rw [Node.followTerm_vote4] at hvote
  rcases hle.lt_or_eq with hlt | heq
  · exact .of_lt hme (hterm ▸ hlt) (by simp [hid])
  · rw [if_neg (by omega)] at hvote
    exact .of_eq hme (hterm.trans heq.symm) hvote (by simp [hid])

theorem Node.VoteStep.requestVote (s : Node n) (args : RequestVoteArgs) :
    s.VoteStep (s.requestVote args).1 (.requestVote args) := by
  rcases s.requestVote_cases args with
    ⟨-, heq | ⟨hlt, heq⟩⟩ | ⟨-, -, -, ⟨hterm, hfree, heq⟩ | ⟨hlt, heq⟩⟩
  · rw [heq]; exact .of_eq rfl rfl rfl id
  · rw [heq]; exact .of_lt rfl hlt (by simp)
  · rw [heq]
    refine ⟨rfl, le_rfl, fun _ hne => ?_, fun h => ⟨rfl, Or.inl h⟩⟩
    exact (hfree.resolve_left hne).symm
  · rw [heq]; exact .of_lt rfl hlt (by simp)

theorem Node.VoteStep.sendRequestVote (s : Node n) (reply : RequestVoteReply) (num k : ℕ) :
    s.VoteStep (s.sendRequestVote reply num).1 (.voteReply k reply) := by
  rcases s.sendRequestVote_cases reply num with
    ⟨hlt, heq⟩ | heq | ⟨-, -, ⟨-, heq⟩ | ⟨-, -, heq⟩ | ⟨-, -, heq⟩⟩
  · rw [heq]; exact .of_lt rfl hlt (by simp)
  · rw [heq]; exact .of_eq rfl rfl rfl id
  · rw [heq]; exact .of_eq rfl rfl rfl id
  · rw [heq]; exact .of_eq rfl rfl rfl id
  · rw [heq]; exact ⟨rfl, le_rfl, fun _ _ => rfl, fun _ => ⟨rfl, Or.inr ⟨k, reply, rfl⟩⟩⟩

theorem Node.VoteStep.sendAppendEntries {s : Node n} (h : s.IndexInv) {server : Fin n}
    {args : AppendEntriesArgs} (reply : AppendEntriesReply) (num : ℕ) (input : Input n)
    (hargs : args.prevLogIndex + args.entries.length ≤ s.getLastLogIndex) :
    s.VoteStep (s.sendAppendEntries server args reply num).node input := by
  rcases s.sendAppendEntries_cases server args reply num h.commitLeLast (h.matchLeLast server)
    hargs with heq | ⟨hlt, heq⟩ | ⟨-, -, -, -, heq⟩ | ⟨-, -, -, ⟨-, heq⟩ | ⟨-, heq⟩⟩
  · rw [heq]; exact .of_eq rfl rfl rfl id
  · rw [heq]; exact .of_lt rfl hlt (by simp)
  · rw [heq]; exact .of_eq rfl rfl rfl id
  · rw [heq]; exact .of_eq rfl rfl rfl id
  · rw [heq]
    rcases (s.recordMatch server args).updateCommitIndex_cases args with heq' | ⟨-, heq'⟩
    · rw [heq']; exact .of_eq rfl rfl rfl id
    · rw [heq']; exact .of_eq rfl rfl rfl id

theorem Node.VoteStep.appendEntries {s : Node n} (h : s.IndexInv) {args : AppendEntriesArgs}
    (hcons : Consecutive args.prevLogIndex args.entries) (input : Input n) :
    s.VoteStep (s.appendEntries args).node input := by
  rcases h.contiguous.appendEntries_cases hcons with
    ⟨-, heq⟩ | ⟨hle, index, heq, -⟩ | ⟨hle, -, -, -, heq⟩ |
      ⟨hle, -, logs, _, _, _, -, -, -, -, -, -, heq, -⟩
  · rw [heq]; exact .of_eq rfl rfl rfl id
  · rw [heq]; exact .followTerm hle (by simp) rfl rfl rfl
  · rw [heq]; exact .followTerm hle (by simp [Node.appended]) rfl rfl rfl
  · rw [heq]; exact .followTerm hle (by simp) rfl rfl rfl

theorem Node.VoteStep.installSnapshot {s : Node n} (h : s.IndexInv) (args : InstallSnapshotArgs)
    (input : Input n) : s.VoteStep (s.installSnapshot args).node input := by
  rcases h.contiguous.installSnapshot_cases args with ⟨-, heq⟩ | ⟨hle, -, heq⟩ | ⟨hle, -, heq⟩
  · rw [heq]; exact .of_eq rfl rfl rfl id
  · rw [heq]; exact .followTerm hle (by simp) rfl rfl rfl
  · rw [heq]; exact .followTerm hle (by simp [Node.installed]) rfl rfl rfl

theorem Proc.IndexInv.voteStep {P : Proc n} (h : P.IndexInv) {input : Input n}
    (hinput : input.WellFormed) : P.node.VoteStep (P.step input).1.node input := by
  cases input with
  | execute command =>
      rcases P.node.execute_cases command with ⟨-, heq⟩ | ⟨-, heq⟩
      all_goals
        simp only [Proc.step, heq]
        exact .of_eq rfl rfl rfl id
  | persist index shot =>
      rcases h.node.contiguous.persist_cases h.node.commitLeLast index shot with
        heq | ⟨e, -, -, -, -, heq⟩
      all_goals
        simp only [Proc.step, heq]
        exact .of_eq rfl rfl rfl id
  | getApplyMessages =>
      simp only [Proc.step, h.node.getApplyMessages_eq]
      exact .of_eq rfl rfl rfl id
  | stand4Election =>
      rcases P.node.stand4Election_cases with ⟨-, heq⟩ | ⟨-, heq⟩
      all_goals simp only [Proc.step, Proc.stand4Election, heq]
      · exact .of_eq rfl rfl rfl id
      · exact .of_lt rfl (by simp) (by simp)
  | heartBeat =>
      simp only [Proc.step, Proc.heartBeat]
      split <;> exact .of_eq rfl rfl rfl id
  | requestVote args => exact .requestVote P.node args
  | appendEntries args => exact .appendEntries h.node hinput _
  | installSnapshot args => exact .installSnapshot h.node args _
  | readSnapshot k =>
      simp only [Proc.step, Proc.readSnapshot]
      split <;> exact .of_eq rfl rfl rfl id
  | appendReply k reply =>
      simp only [Proc.step, Proc.appendReply]
      split
      · exact .of_eq rfl rfl rfl id
      · rename_i call hcall
        exact .sendAppendEntries h.node reply _ _ (h.appendLeLast call (List.mem_of_getElem? hcall))
  | voteReply k reply =>
      simp only [Proc.step, Proc.voteReply]
      split
      · exact .of_eq rfl rfl rfl id
      · exact .sendRequestVote P.node reply _ k
  | snapshotReply k reply =>
      simp only [Proc.step, Proc.snapshotReply]
      split
      · rename_i server args _ hcall
        rcases P.node.sendSnapshot_cases server args reply with ⟨hlt, heq⟩ | heq | ⟨-, -, heq⟩
        · rw [heq]; exact .of_lt rfl hlt (by simp)
        · rw [heq]; exact .of_eq rfl rfl rfl id
        · rw [heq]; exact .of_eq rfl rfl rfl id
      · exact .of_eq rfl rfl rfl id

/-! ## The vote counters -/

/-- What a process knows about its elections, where `V q T` says that `q` voted for it in term `T`
    and `E T` that it was elected in term `T`: a reply that grants a vote is of the term of its
    call, and the counter of every election is sound. -/
structure Proc.VoteInv (V : Fin n → Int → Prop) (E : Int → Prop) (P : Proc n) : Prop where
  candidate : ∀ call ∈ P.voteCalls, call.args.candidateId = P.node.me
  granted : ∀ call ∈ P.voteCalls, ∀ reply, call.reply = some reply → reply.voteGranted = true →
    reply.term = call.args.term ∧ V call.server call.args.term
  rounds : ∃ T : ℕ → Int, (∀ call ∈ P.voteCalls, call.args.term = T call.voteNum) ∧
    (∀ c < P.voteNums.length, T c ≤ P.node.term) ∧
    (∀ c < P.voteNums.length, ∀ c' < P.voteNums.length, T c = T c' → c = c') ∧
    Tally.Sound P.node.me (fun c q => V q (T c)) (fun c => E (T c))
      (P.voteCalls.map fun call => (call.voteNum, call.server)) P.voteNums

section VoteInv

variable {V V' : Fin n → Int → Prop} {E E' : Int → Prop} {P P' : Proc n}

theorem Proc.VoteInv.mono (h : P.VoteInv V E) (hV : ∀ q T, V q T → V' q T)
    (hE : ∀ T, E' T → E T) : P.VoteInv V' E' := by
  obtain ⟨T, hcalls, hterm, hinj, hsound⟩ := h.rounds
  exact ⟨h.candidate,
    fun call hc reply hr hg => ⟨(h.granted call hc reply hr hg).1, hV _ _ (h.granted call hc reply hr hg).2⟩,
    T, hcalls, hterm, hinj, hsound.mono (fun _ _ q => hV q _) fun _ _ => hE _⟩

/-- A step that leaves the election threads alone. -/
theorem Proc.VoteInv.frame (h : P.VoteInv V E) (hme : P'.node.me = P.node.me)
    (hterm : P.node.term ≤ P'.node.term) (hcalls : P'.voteCalls = P.voteCalls)
    (hnums : P'.voteNums = P.voteNums) : P'.VoteInv V E := by
  obtain ⟨T, hT, hle, hinj, hsound⟩ := h.rounds
  refine ⟨?_, ?_, T, ?_, ?_, ?_, ?_⟩
  · rw [hcalls, hme]; exact h.candidate
  · rw [hcalls]; exact h.granted
  · rw [hcalls]; exact hT
  · rw [hnums]; exact fun c hc => (hle c hc).trans hterm
  · rw [hnums]; exact hinj
  · rw [hme, hcalls, hnums]; exact hsound

/-- A new election: its counter starts at the node's own vote. -/
theorem Proc.VoteInv.stand4Election (h : P.VoteInv V E)
    (hV : P.stand4Election.node.term ≠ P.node.term → V P.node.me P.stand4Election.node.term)
    (hE : ∀ T, E T → T ≤ P.node.term) : P.stand4Election.VoteInv V E := by
  rcases P.node.stand4Election_cases with ⟨-, heq⟩ | ⟨-, heq⟩
  · have hP : P.stand4Election = P := by simp [Proc.stand4Election, heq]
    rw [hP]
    exact h
  have hP : P.stand4Election =
      { P with
        node := P.node.identityChange .candidate (P.node.term + 1) P.node.me
        voteNums := P.voteNums ++ [1]
        voteCalls := P.voteCalls ++ ((List.finRange n).filter (· ≠ P.node.me)).map fun i =>
          { server := i
            args :=
              { term := P.node.term + 1
                candidateId := P.node.me
                lastLogIndex := P.node.getLastLogIndex
                lastLogTerm := P.node.getLastLogTerm }
            voteNum := P.voteNums.length } } := by
    simp [Proc.stand4Election, heq]
  rw [hP] at hV ⊢
  obtain ⟨T, hT, hle, hinj, hsound⟩ := h.rounds
  have hold : ∀ c < P.voteNums.length, Function.update T P.voteNums.length (P.node.term + 1) c = T c :=
    fun c hc => Function.update_of_ne hc.ne _ _
  have hlen : ∀ c, c < (P.voteNums ++ [1]).length → c < P.voteNums.length ∨ c = P.voteNums.length := by
    intro c hc
    rw [List.length_append, List.length_singleton] at hc
    omega
  refine ⟨fun call hc => ?_, fun call hc reply hr hg => ?_,
    Function.update T P.voteNums.length (P.node.term + 1), fun call hc => ?_, fun c hc => ?_,
    fun c hc c' hc' heqT => ?_, ?_⟩
  · rcases List.mem_append.1 hc with hc | hc
    · exact h.candidate call hc
    · obtain ⟨i, -, rfl⟩ := List.mem_map.1 hc
      rfl
  · rcases List.mem_append.1 hc with hc | hc
    · exact h.granted call hc reply hr hg
    · obtain ⟨i, -, rfl⟩ := List.mem_map.1 hc
      simp at hr
  · rcases List.mem_append.1 hc with hc | hc
    · rw [hold _ (hsound.inRange _ (List.mem_map_of_mem hc)), hT call hc]
    · obtain ⟨i, -, rfl⟩ := List.mem_map.1 hc
      simp
  · rcases hlen c hc with hlt | rfl
    · rw [hold c hlt, Node.identityChange_term]
      have := hle c hlt
      omega
    · simp
  · rcases hlen c hc with hlt | rfl <;> rcases hlen c' hc' with hlt' | rfl
    · rw [hold c hlt, hold c' hlt'] at heqT
      exact hinj c hlt c' hlt' heqT
    · rw [hold c hlt, Function.update_self] at heqT
      have := hle c hlt
      omega
    · rw [hold c' hlt', Function.update_self] at heqT
      have := hle c' hlt'
      omega
    · rfl
  · have hmono : Tally.Sound P.node.me
        (fun c q => V q (Function.update T P.voteNums.length (P.node.term + 1) c))
        (fun c => E (Function.update T P.voteNums.length (P.node.term + 1) c))
        (P.voteCalls.map fun call => (call.voteNum, call.server)) P.voteNums :=
      hsound.mono (fun c hc q hq => by rwa [hold c hc]) fun c hc hw => by rwa [hold c hc] at hw
    have hnew := hmono.start ((List.finRange n).filter (· ≠ P.node.me))
      ((List.nodup_finRange n).filter _) (by simp)
      (by simpa using hV (by simp)) fun hw => by
        rw [Function.update_self] at hw
        have := hE _ hw
        omega
    rw [List.map_append, List.map_map]
    exact hnew

/-- A reply noted with its call. -/
theorem Proc.VoteInv.answer (h : P.VoteInv V E) {k : ℕ} {call : VoteCall n} {reply : RequestVoteReply}
    (hcall : P.voteCalls[k]? = some call)
    (hreply : reply.voteGranted = true →
      reply.term = call.args.term ∧ V call.server call.args.term) :
    Proc.VoteInv V E
      { P with voteCalls := P.voteCalls.set k { call with reply := some reply } } := by
  obtain ⟨T, hT, hle, hinj, hsound⟩ := h.rounds
  refine ⟨fun c hc => ?_, fun c hc r hr hg => ?_, T, fun c hc => ?_, hle, hinj, ?_⟩
  · obtain ⟨c', hc', heq⟩ := exists_of_mem_set (f := VoteCall.args) hcall hc rfl
    rw [heq]
    exact h.candidate c' hc'
  · rcases List.mem_or_eq_of_mem_set hc with hc | rfl
    · exact h.granted c hc r hr hg
    · simp only [Option.some.injEq] at hr
      subst hr
      exact hreply hg
  · obtain ⟨c', hc', heq⟩ := exists_of_mem_set
      (f := fun call : VoteCall n => (call.args.term, call.voteNum)) hcall hc rfl
    simp only [Prod.mk.injEq] at heq
    rw [heq.1, heq.2]
    exact hT c' hc'
  · have hmap : (P.voteCalls.set k { call with reply := some reply }).map
        (fun call => (call.voteNum, call.server))
        = P.voteCalls.map fun call => (call.voteNum, call.server) := map_set_eq_map hcall rfl
    simp only [hmap]
    exact hsound

/-- A reply is taken in. The node is elected in the term of its node or not at all. -/
theorem Proc.VoteInv.voteReply (h : P.VoteInv V E) {k : ℕ} {call : VoteCall n}
    {reply : RequestVoteReply} (hcall : P.voteCalls[k]? = some call)
    (hreply : call.reply = some reply)
    (hE : ∀ T, E' T → E T ∨ T = P.node.term ∧ P.node.identity ≠ .leader ∧
      (P.voteReply k reply).node.identity = .leader) : (P.voteReply k reply).VoteInv V E' := by
  obtain ⟨T, hT, hle, hinj, hsound⟩ := h.rounds
  have hmem := List.mem_of_getElem? hcall
  have hmap : (P.voteCalls.eraseIdx k).map (fun call => (call.voteNum, call.server))
      = (P.voteCalls.map fun call => (call.voteNum, call.server)).eraseIdx k := by
    rw [List.eraseIdx_map]
  have hpend : (P.voteCalls.map fun call => (call.voteNum, call.server))[k]?
      = some (call.voteNum, call.server) := by simp [hcall]
  -- whatever becomes of the counter, the rest is inherited
  have hdone : ∀ (s : Node n) (x : ℕ), s.me = P.node.me → P.node.term ≤ s.term →
      Tally.Sound P.node.me (fun c q => V q (T c)) (fun c => E' (T c))
        ((P.voteCalls.map fun call => (call.voteNum, call.server)).eraseIdx k)
        (P.voteNums.set call.voteNum x) →
      Proc.VoteInv V E'
        { P with
          node := s
          voteNums := P.voteNums.set call.voteNum x
          voteCalls := P.voteCalls.eraseIdx k } := by
    intro s x hme hterm hs
    refine ⟨fun c hc => ?_, fun c hc => h.granted c (List.mem_of_mem_eraseIdx hc), T,
      fun c hc => hT c (List.mem_of_mem_eraseIdx hc), fun c hc => ?_, fun c hc c' hc' => ?_, ?_⟩
    · rw [hme]; exact h.candidate c (List.mem_of_mem_eraseIdx hc)
    · exact (hle c (by simpa using hc)).trans hterm
    · exact hinj c (by simpa using hc) c' (by simpa using hc')
    · simp only [hmap, hme]
      exact hs
  have hnode : (P.voteReply k reply).node
      = (P.node.sendRequestVote reply (P.voteNums.getD call.voteNum 0)).1 := by
    simp [Proc.voteReply, hcall]
  have hstep : P.voteReply k reply =
      { P with
        node := (P.node.sendRequestVote reply (P.voteNums.getD call.voteNum 0)).1
        voteNums := P.voteNums.set call.voteNum
          (P.node.sendRequestVote reply (P.voteNums.getD call.voteNum 0)).2
        voteCalls := P.voteCalls.eraseIdx k } := by simp [Proc.voteReply, hcall]
  rw [hnode] at hE
  rw [hstep]
  -- without an election no round is newly won
  have hkeep : ∀ s : Node n, (s.identity = .leader → P.node.identity = .leader) →
      (∀ T, E' T → E T ∨ T = P.node.term ∧ P.node.identity ≠ .leader ∧ s.identity = .leader) →
      Tally.Sound P.node.me (fun c q => V q (T c)) (fun c => E' (T c))
        (P.voteCalls.map fun call => (call.voteNum, call.server)) P.voteNums := by
    intro s hid hE
    refine hsound.mono (fun _ _ _ h => h) fun c _ hw => ?_
    rcases hE _ hw with he | ⟨-, hne, hl⟩
    · exact he
    · exact absurd (hid hl) hne
  have hsame : P.voteNums.set call.voteNum (P.voteNums.getD call.voteNum 0) = P.voteNums := by
    have hlt := hsound.inRange _ (List.mem_of_getElem? hpend)
    rw [List.getD_eq_getElem _ _ hlt, List.set_getElem_self]
  rcases P.node.sendRequestVote_cases reply (P.voteNums.getD call.voteNum 0) with
    ⟨hlt, heq⟩ | heq | ⟨hterm, hgrant, ⟨-, heq⟩ | ⟨hmaj, hid, heq⟩ | ⟨hmaj, hid, heq⟩⟩
  · rw [heq] at hE ⊢
    refine hdone _ _ rfl (by simpa using hlt.le) ?_
    rw [hsame]
    exact (hkeep _ (by simp) hE).sublist (List.eraseIdx_sublist _ _)
  · rw [heq] at hE ⊢
    refine hdone _ _ rfl le_rfl ?_
    rw [hsame]
    exact (hkeep _ id hE).sublist (List.eraseIdx_sublist _ _)
  all_goals
    have hyes : V call.server (T call.voteNum) := by
      rw [← hT call hmem]
      exact (h.granted call hmem reply hreply hgrant).2
  · rw [heq] at hE ⊢
    exact hdone _ _ rfl le_rfl ((hkeep _ id hE).count hpend hyes le_rfl)
  · rw [heq] at hE ⊢
    exact hdone _ _ rfl le_rfl ((hkeep _ id hE).count hpend hyes (Nat.zero_le _))
  · rw [heq] at hE ⊢
    refine hdone _ _ rfl le_rfl (hsound.win hpend hyes (by simpa using hmaj) fun c hc hw => ?_)
    rcases hE _ hw with he | ⟨he, -, -⟩
    · exact Or.inl he
    · right
      refine hinj c hc call.voteNum (hsound.inRange _ (List.mem_of_getElem? hpend)) ?_
      rw [he, ← hterm, (h.granted call hmem reply hreply hgrant).1, hT call hmem]

/-- Whoever is elected has a majority of votes in its term, in which it was not elected before. -/
theorem Proc.VoteInv.elected (h : P.VoteInv V E) {k : ℕ} {call : VoteCall n}
    {reply : RequestVoteReply} (hcall : P.voteCalls[k]? = some call)
    (hreply : call.reply = some reply) (hid : P.node.identity ≠ .leader)
    (hid' : (P.voteReply k reply).node.identity = .leader) :
    (∃ Q : Finset (Fin n), LeaderLogs.Majority Q ∧ ∀ v ∈ Q, V v P.node.term) ∧
      ¬ E P.node.term ∧ (P.voteReply k reply).node = P.node.becomeLeader := by
  obtain ⟨T, hT, hle, hinj, hsound⟩ := h.rounds
  have hmem := List.mem_of_getElem? hcall
  have hpend : (call.voteNum, call.server) ∈
      P.voteCalls.map fun call => (call.voteNum, call.server) :=
    List.mem_map_of_mem (f := fun call : VoteCall n => (call.voteNum, call.server)) hmem
  have hnode : (P.voteReply k reply).node
      = (P.node.sendRequestVote reply (P.voteNums.getD call.voteNum 0)).1 := by
    simp [Proc.voteReply, hcall]
  rw [hnode] at hid' ⊢
  rcases P.node.sendRequestVote_cases reply (P.voteNums.getD call.voteNum 0) with
    ⟨-, heq⟩ | heq | ⟨hterm, hgrant, ⟨-, heq⟩ | ⟨-, hid, heq⟩ | ⟨hmaj, -, heq⟩⟩
  · rw [heq] at hid'
    simp at hid'
  · rw [heq] at hid'
    exact absurd hid' hid
  · rw [heq] at hid'
    exact absurd hid' hid
  · contradiction
  · have hT' : T call.voteNum = P.node.term := by
      rw [← hT call hmem, ← (h.granted call hmem reply hreply hgrant).1, hterm]
    have hyes : V call.server (T call.voteNum) := by
      rw [← hT call hmem]
      exact (h.granted call hmem reply hreply hgrant).2
    refine ⟨?_, ?_, by rw [heq]⟩
    · rw [← hT']
      exact hsound.majority hpend hyes (by simpa using hmaj)
    · rw [← hT']
      exact hsound.not_won hpend (by simpa using hmaj)

end VoteInv

/-! ## The election invariant -/

/-- `q` set its vote in term `T` to `v`. -/
def Cluster.Voted (σ : Cluster n) (q : Fin n) (T v : Int) : Prop := .voted q T v ∈ σ.history

/-- `p` became leader in term `T`. -/
def Cluster.Elected (σ : Cluster n) (p : Fin n) (T : Int) : Prop :=
  ∃ s, .elected p s ∈ σ.history ∧ s.term = T

structure Cluster.ElectionInv (σ : Cluster n) : Prop where
  me : ∀ p, (σ.procs p).node.me = p
  vote : ∀ q, (σ.procs q).node.vote4 ≠ -1 →
    σ.Voted q (σ.procs q).node.term (σ.procs q).node.vote4
  votedTerm : ∀ q T v, σ.Voted q T v → T ≤ (σ.procs q).node.term ∧
    (T = (σ.procs q).node.term → v ≠ -1 → (σ.procs q).node.vote4 = v)
  votedOnce : ∀ q T v v', σ.Voted q T v → σ.Voted q T v' → v ≠ -1 → v' ≠ -1 → v = v'
  votes : ∀ p, (σ.procs p).VoteInv (fun q T => σ.Voted q T (p : ℕ)) (σ.Elected p)
  electedTerm : ∀ p T, σ.Elected p T → T ≤ (σ.procs p).node.term
  electedQuorum : ∀ p T, σ.Elected p T →
    ∃ Q : Finset (Fin n), LeaderLogs.Majority Q ∧ ∀ v ∈ Q, σ.Voted v T (p : ℕ)
  leader : ∀ p, (σ.procs p).node.identity = .leader → σ.Elected p (σ.procs p).node.term

/-- A reply that is fed to a process is one its call has received. -/
def Proc.Returns (P : Proc n) : Input n → Prop
  | .appendReply k reply => ∃ call, P.appendCalls[k]? = some call ∧ call.reply = some reply
  | .voteReply k reply => ∃ call, P.voteCalls[k]? = some call ∧ call.reply = some reply
  | .snapshotReply k reply => ∃ call, P.snapshotCalls[k]? = some call ∧ call.reply = some reply
  | _ => True

theorem Input.Local.returns {P : Proc n} {input : Input n} (h : input.Local) : P.Returns input := by
  cases input with
  | appendReply => exact absurd h id
  | voteReply => exact absurd h id
  | snapshotReply => exact absurd h id
  | _ => trivial

section Events

variable (σ : Cluster n) (p : Fin n) (input : Input n)

theorem Cluster.voted_feed {q : Fin n} {T v : Int} : (σ.feed p input).Voted q T v ↔
    σ.Voted q T v ∨ q = p ∧ T = ((σ.procs p).step input).1.node.term ∧
      v = ((σ.procs p).step input).1.node.vote4 ∧
      (((σ.procs p).step input).1.node.term ≠ (σ.procs p).node.term ∨
        ((σ.procs p).step input).1.node.vote4 ≠ (σ.procs p).node.vote4) := by
  rw [Cluster.Voted, Cluster.feed_history, List.mem_append]
  refine or_congr_right ?_
  simp only [observe, List.mem_append]
  constructor
  · rintro ((h | h) | h)
    · split at h
      · rename_i hne
        simp only [List.mem_singleton, Event.voted.injEq] at h
        exact ⟨h.1, h.2.1, h.2.2, hne⟩
      · simp at h
    · split at h <;> simp at h
    · split at h <;> simp at h
  · rintro ⟨rfl, rfl, rfl, hne⟩
    exact Or.inl (Or.inl (by rw [if_pos hne]; simp))

theorem Cluster.mem_elected_feed {q : Fin n} {s : Node n} :
    .elected q s ∈ (σ.feed p input).history ↔ .elected q s ∈ σ.history ∨
      q = p ∧ s = ((σ.procs p).step input).1.node ∧ s.identity = .leader ∧
        (σ.procs p).node.identity ≠ .leader := by
  rw [Cluster.feed_history, List.mem_append]
  refine or_congr_right ?_
  simp only [observe, List.mem_append]
  constructor
  · rintro ((h | h) | h)
    · split at h <;> simp at h
    · split at h
      · rename_i hid
        simp only [List.mem_singleton, Event.elected.injEq] at h
        exact ⟨h.1, h.2, h.2 ▸ hid.1, hid.2⟩
      · simp at h
    · split at h <;> simp at h
  · rintro ⟨rfl, rfl, hid, hid'⟩
    exact Or.inl (Or.inr (by rw [if_pos ⟨hid, hid'⟩]; simp))

theorem Cluster.elected_feed {q : Fin n} {T : Int} : (σ.feed p input).Elected q T ↔
    σ.Elected q T ∨ q = p ∧ T = ((σ.procs p).step input).1.node.term ∧
      ((σ.procs p).step input).1.node.identity = .leader ∧
      (σ.procs p).node.identity ≠ .leader := by
  simp only [Cluster.Elected, Cluster.mem_elected_feed]
  constructor
  · rintro ⟨s, hs | ⟨rfl, rfl, hid, hid'⟩, rfl⟩
    · exact Or.inl ⟨s, hs, rfl⟩
    · exact Or.inr ⟨rfl, rfl, hid, hid'⟩
  · rintro (⟨s, hs, rfl⟩ | ⟨rfl, rfl, hid, hid'⟩)
    · exact ⟨s, Or.inl hs, rfl⟩
    · exact ⟨_, Or.inr ⟨rfl, rfl, hid, hid'⟩, rfl⟩

end Events

theorem Cluster.ElectionInv.new : (Cluster.new n).ElectionInv := by
  have hvoted : ∀ q T v, ¬ (Cluster.new n).Voted q T v := by simp [Cluster.Voted, Cluster.new]
  have helected : ∀ q T, ¬ (Cluster.new n).Elected q T := by simp [Cluster.Elected, Cluster.new]
  have hprocs : ∀ p, (Cluster.new n).procs p = Proc.new p := fun _ => rfl
  refine ⟨fun _ => rfl, fun q hq => ?_, fun q T v h => absurd h (hvoted q T v),
    fun q T v _ h => absurd h (hvoted q T v), fun p => ⟨?_, ?_, fun _ => 0, ?_, ?_, ?_, ?_⟩,
    fun p T h => absurd h (helected p T), fun p T h => absurd h (helected p T), fun p hp => ?_⟩
  · exact absurd rfl hq
  · simp [hprocs, Proc.new]
  · simp [hprocs, Proc.new]
  · simp [hprocs, Proc.new]
  · simp [hprocs, Proc.new]
  · simp [hprocs, Proc.new]
  · exact Tally.Sound.nil
  · simp [hprocs, Proc.new, Node.new, Node.load, Persister.new] at hp

/-- Nobody is elected twice in a term, and only with a majority. -/
theorem Cluster.ElectionInv.elected {σ : Cluster n} (h : σ.ElectionInv)
    (hinv : ∀ p, (σ.procs p).IndexInv) (p : Fin n) {input : Input n} (hwf : input.WellFormed)
    (hret : (σ.procs p).Returns input) (hid : (σ.procs p).node.identity ≠ .leader)
    (hid' : ((σ.procs p).step input).1.node.identity = .leader) :
    ((∃ Q : Finset (Fin n), LeaderLogs.Majority Q ∧
        ∀ v ∈ Q, σ.Voted v (σ.procs p).node.term (p : ℕ)) ∧
      ¬ σ.Elected p (σ.procs p).node.term) ∧
      ((σ.procs p).step input).1.node = (σ.procs p).node.becomeLeader := by
  obtain ⟨-, hl | ⟨k, reply, rfl⟩⟩ := ((hinv p).voteStep hwf).leads hid'
  · exact absurd hl hid
  obtain ⟨call, hcall, hreply⟩ := hret
  obtain ⟨hQ, hnew, hnode⟩ := (h.votes p).elected hcall hreply hid hid'
  exact ⟨⟨hQ, hnew⟩, hnode⟩

theorem Cluster.ElectionInv.feed {σ : Cluster n} (h : σ.ElectionInv)
    (hinv : ∀ p, (σ.procs p).IndexInv) (p : Fin n) (input : Input n) (hwf : input.WellFormed)
    (hret : (σ.procs p).Returns input) : (σ.feed p input).ElectionInv := by
  have hstep := (hinv p).voteStep hwf
  have hself : (σ.feed p input).procs p = ((σ.procs p).step input).1 := σ.feed_procs_self p input
  have hother : ∀ q, q ≠ p → (σ.feed p input).procs q = σ.procs q :=
    fun q hq => σ.feed_procs_ne p input hq
  have hvoted : ∀ {q T v}, σ.Voted q T v → (σ.feed p input).Voted q T v :=
    fun hv => (σ.voted_feed p input).2 (Or.inl hv)
  have hvotedTerm : ∀ q T v, (σ.feed p input).Voted q T v →
      T ≤ ((σ.feed p input).procs q).node.term ∧
        (T = ((σ.feed p input).procs q).node.term → v ≠ -1 →
          ((σ.feed p input).procs q).node.vote4 = v) := by
    intro q T v hv
    rcases (σ.voted_feed p input).1 hv with hv | ⟨rfl, rfl, rfl, -⟩
    · obtain ⟨hle, heq⟩ := h.votedTerm q T v hv
      rcases eq_or_ne q p with rfl | hq
      · rw [hself]
        refine ⟨hle.trans hstep.term, fun hT hne => ?_⟩
        have hsame := le_antisymm (hT ▸ hle) hstep.term
        have hvote := heq (hT.trans hsame) hne
        rw [hstep.vote hsame (by rw [hvote]; exact hne), hvote]
      · rw [hother q hq]
        exact ⟨hle, heq⟩
    · rw [hself]
      exact ⟨le_rfl, fun _ _ => rfl⟩
  refine ⟨fun q => ?_, fun q hq => ?_, hvotedTerm, fun q T v v' hv hv' hne hne' => ?_, fun q => ?_,
    fun q T hT => ?_, fun q T hT => ?_, fun q hq => ?_⟩
  · rcases eq_or_ne q p with rfl | hqp
    · rw [hself, hstep.me, h.me]
    · rw [hother q hqp, h.me]
  · rcases eq_or_ne q p with rfl | hqp
    · rw [hself] at hq ⊢
      by_cases hch : ((σ.procs q).step input).1.node.term ≠ (σ.procs q).node.term ∨
          ((σ.procs q).step input).1.node.vote4 ≠ (σ.procs q).node.vote4
      · exact (σ.voted_feed q input).2 (Or.inr ⟨rfl, rfl, rfl, hch⟩)
      · push Not at hch
        rw [hch.1, hch.2]
        exact hvoted (h.vote q (hch.2 ▸ hq))
    · rw [hother q hqp] at hq ⊢
      exact hvoted (h.vote q hq)
  · -- a vote that is new is the one the node now holds
    rcases (σ.voted_feed p input).1 hv with hold | ⟨rfl, rfl, rfl, -⟩
    · rcases (σ.voted_feed p input).1 hv' with hold' | ⟨rfl, rfl, rfl, -⟩
      · exact h.votedOnce q T v v' hold hold' hne hne'
      · have := (hvotedTerm q _ v hv).2 (by rw [hself]) hne
        rw [hself] at this
        exact this.symm
    · have := (hvotedTerm q _ v' hv').2 (by rw [hself]) hne'
      rw [hself] at this
      exact this
  · rcases eq_or_ne q p with rfl | hqp
    · rw [hself]
      have hmono : (σ.procs q).VoteInv (fun v T => (σ.feed q input).Voted v T (q : ℕ)) (σ.Elected q) :=
        (h.votes q).mono (fun _ _ => hvoted) fun _ hT => hT
      -- outside a vote reply nobody is elected
      have hsame : (∀ k reply, input ≠ .voteReply k reply) →
          ∀ T, (σ.feed q input).Elected q T → σ.Elected q T := by
        intro hne T hT
        rcases (σ.elected_feed q input).1 hT with hT | ⟨-, -, hl, hl'⟩
        · exact hT
        · obtain ⟨-, hl'' | ⟨k, reply, heq⟩⟩ := hstep.leads hl
          · exact absurd hl'' hl'
          · exact absurd heq (hne k reply)
      have hframe : (∀ k reply, input ≠ .voteReply k reply) →
          ((σ.procs q).step input).1.voteCalls = (σ.procs q).voteCalls →
          ((σ.procs q).step input).1.voteNums = (σ.procs q).voteNums →
          ((σ.procs q).step input).1.VoteInv (fun v T => (σ.feed q input).Voted v T (q : ℕ))
            ((σ.feed q input).Elected q) := fun hne hc hn =>
        (hmono.mono (fun _ _ hv => hv) (hsame hne)).frame hstep.me hstep.term hc hn
      cases input with
      | stand4Election =>
          refine (hmono.mono (fun _ _ hv => hv) (hsame (by simp))).stand4Election (fun hne => ?_)
            fun T hT => h.electedTerm q T (hsame (by simp) T hT)
          have hvote : (σ.procs q).stand4Election.node.vote4 = (q : ℕ) := by
            rcases (σ.procs q).node.stand4Election_cases with ⟨-, heq⟩ | ⟨-, heq⟩
            · simp [Proc.stand4Election, heq] at hne
            · simp [Proc.stand4Election, heq, h.me]
          rw [h.me]
          exact (σ.voted_feed q .stand4Election).2 (Or.inr ⟨rfl, rfl, hvote.symm, Or.inl hne⟩)
      | voteReply k reply =>
          obtain ⟨call, hcall, hreply⟩ := hret
          refine hmono.voteReply hcall hreply fun T hT => ?_
          rcases (σ.elected_feed q _).1 hT with hT | ⟨-, hT, hl, hl'⟩
          · exact Or.inl hT
          · exact Or.inr ⟨hT.trans (hstep.leads hl).1, hl', hl⟩
      | heartBeat =>
          refine hframe (by simp) ?_ ?_
          all_goals simp only [Proc.step, Proc.heartBeat]; split <;> rfl
      | readSnapshot k =>
          refine hframe (by simp) ?_ ?_
          all_goals simp only [Proc.step, Proc.readSnapshot]; split <;> rfl
      | appendReply k reply =>
          refine hframe (by simp) ?_ ?_
          all_goals simp only [Proc.step, Proc.appendReply]; split <;> rfl
      | snapshotReply k reply =>
          refine hframe (by simp) ?_ ?_
          all_goals simp only [Proc.step, Proc.snapshotReply]; split <;> rfl
      | _ => exact hframe (by simp) rfl rfl
    · rw [hother q hqp]
      refine (h.votes q).mono (fun _ _ => hvoted) fun T hT => ?_
      exact ((σ.elected_feed p input).1 hT).resolve_right fun hnew => hqp hnew.1
  · rcases (σ.elected_feed p input).1 hT with hold | ⟨rfl, rfl, -, -⟩
    · rcases eq_or_ne q p with rfl | hqp
      · rw [hself]
        exact (h.electedTerm q T hold).trans hstep.term
      · rw [hother q hqp]
        exact h.electedTerm q T hold
    · rw [hself]
  · rcases (σ.elected_feed p input).1 hT with hT | ⟨rfl, rfl, hl, hl'⟩
    · obtain ⟨Q, hQ, hall⟩ := h.electedQuorum q T hT
      exact ⟨Q, hQ, fun v hv => hvoted (hall v hv)⟩
    · obtain ⟨⟨⟨Q, hQ, hall⟩, -⟩, -⟩ := h.elected hinv q hwf hret hl' hl
      rw [(hstep.leads hl).1]
      exact ⟨Q, hQ, fun v hv => hvoted (hall v hv)⟩
  · rcases eq_or_ne q p with rfl | hqp
    · rw [hself] at hq ⊢
      refine (σ.elected_feed q input).2 ?_
      by_cases hl : (σ.procs q).node.identity = .leader
      · left
        rw [(hstep.leads hq).1]
        exact h.leader q hl
      · exact Or.inr ⟨rfl, rfl, hq, hl⟩
    · rw [hother q hqp] at hq ⊢
      exact (σ.elected_feed p input).2 (Or.inl (h.leader q hq))

/-- The invariant reads the nodes, the votes and the elections only. -/
theorem Cluster.ElectionInv.congr {σ σ' : Cluster n} (h : σ.ElectionInv)
    (hnode : ∀ q, (σ'.procs q).node = (σ.procs q).node) (hvoted : σ'.Voted = σ.Voted)
    (helected : σ'.Elected = σ.Elected)
    (hvotes : ∀ q, (σ'.procs q).VoteInv (fun v T => σ.Voted v T (q : ℕ)) (σ.Elected q)) :
    σ'.ElectionInv := by
  refine ⟨?_, ?_, ?_, ?_, ?_, ?_, ?_, ?_⟩
  · simpa only [hnode] using h.me
  · simpa only [hnode, hvoted] using h.vote
  · simpa only [hnode, hvoted] using h.votedTerm
  · simpa only [hvoted] using h.votedOnce
  · simpa only [hvoted, helected] using hvotes
  · simpa only [hnode, helected] using h.electedTerm
  · simpa only [hvoted, helected] using h.electedQuorum
  · simpa only [hnode, helected] using h.leader

/-- Changing the calls of a process. -/
theorem Cluster.ElectionInv.setProc {σ : Cluster n} (h : σ.ElectionInv) (p : Fin n) {P : Proc n}
    (hnode : P.node = (σ.procs p).node)
    (hvotes : P.VoteInv (fun q T => σ.Voted q T (p : ℕ)) (σ.Elected p)) :
    (σ.setProc p P).ElectionInv := by
  have hhist : (σ.setProc p P).history = σ.history := σ.setProc_history p hnode
  refine h.congr (σ.setProc_node p hnode) ?_ ?_ ?_
  · funext q T v
    rw [Cluster.Voted, hhist, Cluster.Voted]
  · funext q T
    rw [Cluster.Elected, hhist, Cluster.Elected]
  · exact σ.forall_setProc p (I := fun q P => P.VoteInv (fun v T => σ.Voted v T (q : ℕ)) (σ.Elected q))
      h.votes hvotes

theorem Cluster.record_voted (σ : Cluster n) (p : Fin n) (messages : List ApplyMessage) :
    (σ.record p messages).Voted = σ.Voted := by
  funext q T v
  simp [Cluster.Voted, Cluster.record]

theorem Cluster.record_elected (σ : Cluster n) (p : Fin n) (messages : List ApplyMessage) :
    (σ.record p messages).Elected = σ.Elected := by
  funext q T
  simp [Cluster.Elected, Cluster.record]

/-- The `candidateId` of a vote request is the caller's, so a granted vote is one for the caller. -/
theorem Cluster.ElectionInv.granted {σ : Cluster n} (h : σ.ElectionInv)
    (hinv : ∀ p, (σ.procs p).IndexInv) {p : Fin n} {call : VoteCall n}
    (hcall : call ∈ (σ.procs p).voteCalls)
    (hgrant : ((σ.procs call.server).node.requestVote call.args).2.voteGranted = true) :
    ((σ.procs call.server).node.requestVote call.args).2.term = call.args.term ∧
      (σ.feed call.server (.requestVote call.args)).Voted call.server call.args.term (p : ℕ) := by
  have hcand : call.args.candidateId = (p : ℕ) := by
    rw [(h.votes p).candidate call hcall, h.me]
  have hvote := (h.feed hinv call.server (.requestVote call.args) trivial trivial).vote
    call.server
  rw [Cluster.feed_procs_self] at hvote
  rcases (σ.procs call.server).node.requestVote_cases call.args with
    ⟨hno, -⟩ | ⟨-, hterm, -, ⟨heq, -, hnode⟩ | ⟨-, hnode⟩⟩
  · rw [hno] at hgrant
    simp at hgrant
  all_goals
    refine ⟨hterm, ?_⟩
    simp only [Proc.step, hnode, Node.mPersist_vote4, Node.mPersist_term,
      Node.identityChange_term] at hvote
    rw [hcand] at hvote
  · rw [← heq]
    exact hvote (by omega)
  · exact hvote (by omega)

theorem Cluster.Move.electionInv {σ σ' : Cluster n} {a : Action n} (hmove : σ.Move a σ') (h : σ.ElectionInv)
    (hinv : ∀ p, (σ.procs p).IndexInv) : σ'.ElectionInv := by
  cases hmove with
  | idle => exact h
  | run _ p hlocal => exact h.feed hinv p _ hlocal.wellFormed hlocal.returns
  | apply p _ =>
      have hf := h.feed hinv p .getApplyMessages trivial trivial
      exact hf.congr (fun _ => rfl) (Cluster.record_voted _ p _) (Cluster.record_elected _ p _) hf.votes
  | @deliverAppend p k call hcall _ _ =>
      have hf := h.feed hinv call.server (.appendEntries call.args)
        ((hinv p).appendConsecutive call (List.mem_of_getElem? hcall)) trivial
      exact hf.setProc p rfl ((hf.votes p).frame rfl le_rfl rfl rfl)
  | @loseAppend p k call _ hcall _ _ =>
      have hf := h.feed hinv call.server (.appendEntries call.args)
        ((hinv p).appendConsecutive call (List.mem_of_getElem? hcall)) trivial
      exact hf.setProc p rfl ((hf.votes p).frame rfl le_rfl rfl rfl)
  | @deliverVote p k call hcall =>
      have hf := h.feed hinv call.server (.requestVote call.args) trivial trivial
      refine hf.setProc p rfl ((hf.votes p).answer ?_ ?_)
      · rw [(σ.feed_request p call.server (.requestVote call.args) trivial).2.1]
        exact hcall
      · exact h.granted hinv (List.mem_of_getElem? hcall)
  | @deliverSnapshot p k call args _ _ _ =>
      have hf := h.feed hinv call.server (.installSnapshot args) trivial trivial
      exact hf.setProc p rfl ((hf.votes p).frame rfl le_rfl rfl rfl)
  | @loseSnapshot p k call args _ _ _ _ =>
      have hf := h.feed hinv call.server (.installSnapshot args) trivial trivial
      exact hf.setProc p rfl ((hf.votes p).frame rfl le_rfl rfl rfl)
  | returnAppend p k hcall hreply => exact h.feed hinv p _ trivial ⟨_, hcall, hreply⟩
  | returnVote p k hcall hreply => exact h.feed hinv p _ trivial ⟨_, hcall, hreply⟩
  | returnSnapshot p k hcall hreply => exact h.feed hinv p _ trivial ⟨_, hcall, hreply⟩

theorem Cluster.Reachable.electionInv {σ : Cluster n} (h : σ.Reachable) : σ.ElectionInv :=
  GuardedRun.Reach.invariant .new
    (fun σ a hreach hσ _ => (σ.step_move a).electionInv hσ (Cluster.Reachable.indexInv hreach)) h

/-- Two nodes elected in the same term are the same: their majorities share a voter. -/
theorem Cluster.ElectionInv.unique {σ : Cluster n} (h : σ.ElectionInv) {p q : Fin n} {T : Int}
    (hp : σ.Elected p T) (hq : σ.Elected q T) : p = q := by
  obtain ⟨Q, hQ, hall⟩ := h.electedQuorum p T hp
  obtain ⟨R, hR, hall'⟩ := h.electedQuorum q T hq
  obtain ⟨v, hvQ, hvR⟩ := hQ.inter hR
  have := h.votedOnce v T p q (hall v hvQ) (hall' v hvR) (by omega) (by omega)
  exact Fin.ext (by exact_mod_cast this)

/-- Election safety: in every run, at most one node becomes leader in a term. -/
theorem election_safety {σ : Cluster n} (h : σ.Reachable) {p q : Fin n} {s s' : Node n}
    (hp : .elected p s ∈ σ.history) (hq : .elected q s' ∈ σ.history) (hterm : s.term = s'.term) :
    p = q :=
  h.electionInv.unique ⟨s, hp, rfl⟩ ⟨s', hq, hterm.symm⟩

/-- Node 0 of three is elected on the vote of node 1, and no other node is in its term. -/
theorem election_safety_three :
    let σ := GuardedRun.exec Cluster.step (Cluster.new 3)
      [.stand4Election 0, .deliverVote 0 0, .returnVote 0 0]
    ∃ s, .elected 0 s ∈ σ.history ∧
      ∀ q s', .elected q s' ∈ σ.history → s'.term = s.term → (0 : Fin 3) = q := by
  intro σ
  have hreach : σ.Reachable := .exec .init (.of_forall (fun _ _ => trivial) _ _)
  have helected : .elected 0 (σ.procs 0).node ∈ σ.history :=
    List.mem_of_getElem? (i := 2) rfl
  exact ⟨_, helected, fun q s' hq hterm => election_safety hreach helected hq hterm.symm⟩

end RaftKVStorage
