import RaftKVStorage.Election
import Mathlib.Data.Prod.Lex

set_option autoImplicit false

/-! # A majority can elect a leader

No run gets stuck: whatever the nodes have come to, any majority of them can go on to elect a leader
among themselves, with the others down. The member with the most recent log stands for election until its
term is above those of all members, and then every member votes for it. -/

namespace RaftKVStorage

open GuardedRun

variable {n : ℕ} {σ σ' : Cluster n} {p q : Fin n}

/-! ## What an election leaves alone -/

/-- The node has kept what it has, its term, vote and role apart. -/
structure Node.KeepsLog (s s' : Node n) : Prop where
  me : s'.me = s.me
  logs : s'.logs = s.logs
  commitIndex : s'.commitIndex = s.commitIndex
  appliedIndex : s'.appliedIndex = s.appliedIndex
  lastSnapshotIndex : s'.lastSnapshotIndex = s.lastSnapshotIndex
  lastSnapshotTerm : s'.lastSnapshotTerm = s.lastSnapshotTerm

namespace Node.KeepsLog

variable {s s' s'' : Node n}

theorem refl (s : Node n) : s.KeepsLog s := ⟨rfl, rfl, rfl, rfl, rfl, rfl⟩

theorem trans (h : s.KeepsLog s') (h' : s'.KeepsLog s'') : s.KeepsLog s'' :=
  ⟨h'.me.trans h.me, h'.logs.trans h.logs, h'.commitIndex.trans h.commitIndex,
    h'.appliedIndex.trans h.appliedIndex, h'.lastSnapshotIndex.trans h.lastSnapshotIndex,
    h'.lastSnapshotTerm.trans h.lastSnapshotTerm⟩

theorem getLastLogIndex (h : s.KeepsLog s') : s'.getLastLogIndex = s.getLastLogIndex := by
  rw [Node.getLastLogIndex, Node.getLastLogIndex, h.logs, h.lastSnapshotIndex]

theorem getLastLogTerm (h : s.KeepsLog s') : s'.getLastLogTerm = s.getLastLogTerm := by
  rw [Node.getLastLogTerm, Node.getLastLogTerm, h.logs, h.lastSnapshotTerm]

theorem receiveVote (h : s.KeepsLog s') (index term : Int) :
    s'.receiveVote index term = s.receiveVote index term := by
  rw [Node.receiveVote, Node.receiveVote, h.getLastLogIndex, h.getLastLogTerm]

theorem identityChange (s : Node n) (iden : Identity) (term vote : Int) :
    s.KeepsLog (s.identityChange iden term vote) := ⟨rfl, rfl, rfl, rfl, rfl, rfl⟩

theorem requestVote (s : Node n) (args : RequestVoteArgs) : s.KeepsLog (s.requestVote args).1 := by
  rcases s.requestVote_cases args with ⟨-, heq | ⟨-, heq⟩⟩ | ⟨-, -, -, ⟨-, -, heq⟩ | ⟨-, heq⟩⟩
  all_goals
    rw [heq]
    exact ⟨rfl, rfl, rfl, rfl, rfl, rfl⟩

end Node.KeepsLog

/-- The actions of an election. -/
def Action.Electoral : Action n → Prop
  | .stand4Election _ => True
  | .deliverVote _ _ => True
  | .returnVote _ _ => True
  | _ => False

/-- The actions `as` of an election involve members of `Q` only, and nobody's log. -/
structure Cluster.Polled (Q : Finset (Fin n)) (σ : Cluster n) (as : List (Action n)) : Prop where
  electoral : ∀ a ∈ as, a.Electoral
  others : ∀ q ∉ Q, (exec Cluster.step σ as).procs q = σ.procs q
  logs : ∀ q, (σ.procs q).node.KeepsLog ((exec Cluster.step σ as).procs q).node

namespace Cluster.Polled

variable {Q : Finset (Fin n)} {as as' : List (Action n)}

theorem nil (Q : Finset (Fin n)) (σ : Cluster n) : Polled Q σ [] :=
  ⟨fun _ ha => absurd ha List.not_mem_nil, fun _ _ => rfl, fun _ => .refl _⟩

theorem append (h : Polled Q σ as) (h' : Polled Q (exec Cluster.step σ as) as') :
    Polled Q σ (as ++ as') := by
  refine ⟨fun a ha => (List.mem_append.1 ha).elim (h.electoral a) (h'.electoral a), ?_, ?_⟩
  · intro q hq
    rw [exec_append]
    exact (h'.others q hq).trans (h.others q hq)
  · intro q
    rw [exec_append]
    exact (h.logs q).trans (h'.logs q)

/-- A member stands for election. -/
theorem stand4Election (hp : p ∈ Q)
    (hlog : (σ.procs p).node.KeepsLog (σ.procs p).stand4Election.node) :
    Polled Q σ [.stand4Election p] := by
  refine ⟨?_, fun q hq => ?_, fun q => ?_⟩
  · intro a ha
    rw [List.mem_singleton.1 ha]
    trivial
  · exact σ.feed_procs_ne p .stand4Election fun heq => hq (heq ▸ hp)
  · show (σ.procs q).node.KeepsLog ((σ.feed p .stand4Election).procs q).node
    by_cases hq : q = p
    · rw [hq, σ.feed_procs_self]
      exact hlog
    · rw [σ.feed_procs_ne p _ hq]
      exact .refl _

/-- Two members deal with a vote. -/
theorem of_update_two (has : ∀ a ∈ as, a.Electoral) (hp : p ∈ Q) (hq : q ∈ Q) (hne : q ≠ p)
    {P P' : Proc n}
    (hprocs : (exec Cluster.step σ as).procs = Function.update (Function.update σ.procs q P) p P')
    (hlog : (σ.procs q).node.KeepsLog P.node) (hlog' : (σ.procs p).node.KeepsLog P'.node) :
    Polled Q σ as := by
  refine ⟨has, fun x hx => ?_, fun x => ?_⟩
  · have hxp : x ≠ p := fun heq => hx (heq ▸ hp)
    have hxq : x ≠ q := fun heq => hx (heq ▸ hq)
    rw [hprocs, Function.update_of_ne hxp, Function.update_of_ne hxq]
  · rw [hprocs]
    rcases eq_or_ne x p with rfl | hxp
    · rw [Function.update_self]
      exact hlog'
    rw [Function.update_of_ne hxp]
    rcases eq_or_ne x q with rfl | hxq
    · rw [Function.update_self]
      exact hlog
    · rw [Function.update_of_ne hxq]
      exact .refl _

end Cluster.Polled

/-! ## Standing for election -/

/-- The request a node sends when it stands for election. -/
def Node.voteArgs (s : Node n) : RequestVoteArgs :=
  { term := s.term
    candidateId := s.me
    lastLogIndex := s.getLastLogIndex
    lastLogTerm := s.getLastLogTerm }

/-- `p` has stood for election, and nobody has been asked yet; its counter is in `cell`. -/
structure Proc.Stands (P : Proc n) (cell : ℕ) : Prop where
  identity : P.node.identity ≠ .leader
  counter : P.voteNums[cell]? = some 1
  calls : ∀ q, q ≠ P.node.me → ⟨q, P.node.voteArgs, cell, none⟩ ∈ P.voteCalls

theorem Proc.stand4Election_spec {P : Proc n} (h : P.node.identity ≠ .leader) :
    P.stand4Election.Stands P.voteNums.length ∧
      P.stand4Election.node.term = P.node.term + 1 ∧ P.node.KeepsLog P.stand4Election.node := by
  have hcases := P.node.stand4Election_cases
  rw [or_iff_right fun hl => h hl.1] at hcases
  rw [Proc.stand4Election, hcases.2]
  refine ⟨⟨?_, ?_, fun q hq => ?_⟩, rfl, .identityChange _ _ _ _⟩
  · show Identity.candidate ≠ .leader
    decide
  · exact List.getElem?_concat_length
  · refine List.mem_append_right _ (List.mem_map.2 ⟨q, ?_, rfl⟩)
    rw [List.mem_filter]
    exact ⟨List.mem_finRange q, decide_eq_true hq⟩

/-- A node that does not lead can get above any term. -/
theorem Cluster.exists_stands {Q : Finset (Fin n)} (hp : p ∈ Q) (bound : Int) (k : ℕ) :
    ∀ {σ : Cluster n}, (σ.procs p).node.identity ≠ .leader →
      bound < (σ.procs p).node.term + 1 + k →
      ∃ as cell, Polled Q σ as ∧
        (∀ q, q ≠ p → (exec Cluster.step σ as).procs q = σ.procs q) ∧
        ((exec Cluster.step σ as).procs p).Stands cell ∧
        bound < ((exec Cluster.step σ as).procs p).node.term := by
  induction k with
  | zero =>
    intro σ hid hbound
    obtain ⟨hstands, hterm, hlog⟩ := Proc.stand4Election_spec hid
    refine ⟨[.stand4Election p], (σ.procs p).voteNums.length, .stand4Election hp hlog,
      fun q hq => σ.feed_procs_ne p .stand4Election hq, ?_, ?_⟩
    · show ((σ.feed p .stand4Election).procs p).Stands _
      rw [Cluster.feed_procs_self]
      exact hstands
    · show bound < ((σ.feed p .stand4Election).procs p).node.term
      rw [Cluster.feed_procs_self]
      show bound < (σ.procs p).stand4Election.node.term
      omega
  | succ k ih =>
    intro σ hid hbound
    obtain ⟨hstands, hterm, hlog⟩ := Proc.stand4Election_spec hid
    have hself : (σ.feed p .stand4Election).procs p = (σ.procs p).stand4Election :=
      σ.feed_procs_self p .stand4Election
    obtain ⟨as, cell, hpolled, hne, hrest⟩ := ih (σ := σ.feed p .stand4Election)
      (by rw [hself]; exact hstands.identity) (by rw [hself, hterm]; push_cast at hbound; omega)
    refine ⟨.stand4Election p :: as, cell, (Polled.stand4Election hp hlog).append hpolled,
      fun q hq => ?_, hrest⟩
    exact (hne q hq).trans (σ.feed_procs_ne p .stand4Election hq)

/-! ## Asking for votes -/

/-- A call for a vote arrives. -/
theorem Cluster.step_deliverVote {args : RequestVoteArgs} {cell k : ℕ} (hq : q ≠ p)
    (hk : (σ.procs p).voteCalls[k]? = some ⟨q, args, cell, none⟩) {s : Node n} {reply : RequestVoteReply}
    (hvote : (σ.procs q).node.requestVote args = (s, reply)) :
    (σ.step (.deliverVote p k)).procs = Function.update
      (Function.update σ.procs q { σ.procs q with node := s }) p
      { σ.procs p with voteCalls := (σ.procs p).voteCalls.set k ⟨q, args, cell, some reply⟩ } := by
  simp only [Cluster.step, Cluster.deliverVote, hk, Cluster.setProc, Cluster.feed_procs,
    Function.update_of_ne hq.symm, Proc.step, hvote]

theorem Cluster.step_returnVote {args : RequestVoteArgs} {cell k : ℕ} {reply : RequestVoteReply}
    (hk : (σ.procs p).voteCalls[k]? = some ⟨q, args, cell, some reply⟩) :
    σ.step (.returnVote p k) = σ.feed p (.voteReply k reply) := by
  rw [Cluster.step, hk]

/-- It arrives and is answered. -/
theorem Cluster.askVote {args : RequestVoteArgs} {cell k : ℕ} (hq : q ≠ p)
    (hk : (σ.procs p).voteCalls[k]? = some ⟨q, args, cell, none⟩) {s s' : Node n}
    {reply : RequestVoteReply} {votes : ℕ} (hvote : (σ.procs q).node.requestVote args = (s, reply))
    (hsend : (σ.procs p).node.sendRequestVote reply ((σ.procs p).voteNums.getD cell 0) = (s', votes)) :
    (exec Cluster.step σ [.deliverVote p k, .returnVote p k]).procs = Function.update
      (Function.update σ.procs q { σ.procs q with node := s }) p
      { σ.procs p with
        node := s'
        voteNums := (σ.procs p).voteNums.set cell votes
        voteCalls := (σ.procs p).voteCalls.eraseIdx k } := by
  have hdeliver := σ.step_deliverVote hq hk hvote
  have hself : ((σ.step (.deliverVote p k)).procs p).voteCalls[k]? =
      some ⟨q, args, cell, some reply⟩ := by
    rw [hdeliver, Function.update_self]
    exact List.getElem?_set_self (List.getElem?_eq_some_iff.1 hk).1
  show ((σ.step (.deliverVote p k)).step (.returnVote p k)).procs = _
  rw [Cluster.step_returnVote hself, Cluster.feed_procs, Proc.step, Proc.voteReply, hself]
  dsimp only
  rw [hdeliver, Function.update_self, Function.update_idem]
  dsimp only
  rw [hsend, List.eraseIdx_set_eq]

/-- A node of an older term votes for a candidate whose log is at least as recent as its own. -/
theorem Node.requestVote_grants {s : Node n} {args : RequestVoteArgs} (hterm : s.term < args.term)
    (hlog : s.receiveVote args.lastLogIndex args.lastLogTerm = true) :
    ∃ s', s.requestVote args = (s', { term := args.term, state := .normal, voteGranted := true }) ∧
      s'.term = args.term ∧ s.KeepsLog s' := by
  have hnot : ¬args.term < s.term := by omega
  have hrec : (s.identityChange .follower args.term (-1)).receiveVote args.lastLogIndex
      args.lastLogTerm = true := hlog
  refine ⟨Node.mPersist { s.identityChange .follower args.term (-1) with vote4 := args.candidateId },
    ?_, rfl, ⟨rfl, rfl, rfl, rfl, rfl, rfl⟩⟩
  · rw [Node.requestVote, if_neg hnot, if_pos hterm]
    dsimp only
    rw [hrec, if_neg (by simp), if_neg (by simp)]
    rfl

/-- What a candidate of the voter's term makes of a vote. -/
theorem Node.sendRequestVote_granted {s : Node n} {reply : RequestVoteReply} (votes : ℕ)
    (hterm : reply.term = s.term) (hgranted : reply.voteGranted = true)
    (hleader : s.identity ≠ .leader) :
    s.sendRequestVote reply votes =
      (if n / 2 + 1 ≤ votes + 1 then s.becomeLeader else s,
        if n / 2 + 1 ≤ votes + 1 then 0 else votes + 1) := by
  rw [Node.sendRequestVote, if_neg (by omega), if_neg (by simp [hterm, hgranted])]
  by_cases hmaj : n / 2 + 1 ≤ votes + 1
  · rw [if_pos hmaj, if_pos hmaj, if_pos hmaj, if_neg hleader]
  · rw [if_neg hmaj, if_neg hmaj, if_neg hmaj]

/-- `p` stands for election in the term of `args` with `votes` votes, and each of `voters` is still to be
    asked and would vote for it. -/
structure Cluster.Polling (σ : Cluster n) (p : Fin n) (args : RequestVoteArgs) (cell votes : ℕ)
    (voters : List (Fin n)) : Prop where
  identity : (σ.procs p).node.identity ≠ .leader
  term : (σ.procs p).node.term = args.term
  counter : (σ.procs p).voteNums[cell]? = some votes
  voters : ∀ q ∈ voters, q ≠ p ∧ (σ.procs q).node.term < args.term ∧
    (σ.procs q).node.receiveVote args.lastLogIndex args.lastLogTerm = true ∧
    ⟨q, args, cell, none⟩ ∈ (σ.procs p).voteCalls

/-- `p` has come to lead in the term of `args`, and no term has passed it. -/
structure Cluster.Won (Q : Finset (Fin n)) (args : RequestVoteArgs) (p : Fin n) (σ : Cluster n)
    (as : List (Action n)) : Prop where
  polled : Polled Q σ as
  leader : ((exec Cluster.step σ as).procs p).node.identity = .leader
  term : ((exec Cluster.step σ as).procs p).node.term = args.term
  terms : ∀ q, ((exec Cluster.step σ as).procs q).node.term ≤ max (σ.procs q).node.term args.term

/-- A voter is asked and votes. -/
theorem Cluster.Polling.ask {Q : Finset (Fin n)} {args : RequestVoteArgs} {cell votes : ℕ}
    {voters : List (Fin n)} (h : σ.Polling p args cell votes (q :: voters)) (hp : p ∈ Q) (hq : q ∈ Q) :
    ∃ as, Polled Q σ as ∧
      ((exec Cluster.step σ as).procs q).node.term = args.term ∧
      (∀ x, x ≠ p → x ≠ q → (exec Cluster.step σ as).procs x = σ.procs x) ∧
      ((exec Cluster.step σ as).procs p).node =
        (if n / 2 + 1 ≤ votes + 1 then (σ.procs p).node.becomeLeader else (σ.procs p).node) ∧
      (¬n / 2 + 1 ≤ votes + 1 → ((exec Cluster.step σ as).procs p).voteNums[cell]? = some (votes + 1)) ∧
      ∀ x, x ≠ q → ⟨x, args, cell, none⟩ ∈ (σ.procs p).voteCalls →
        ⟨x, args, cell, none⟩ ∈ ((exec Cluster.step σ as).procs p).voteCalls := by
  obtain ⟨hne, hterm, hlog, hcall⟩ := h.voters q (List.mem_cons_self ..)
  obtain ⟨k, hk⟩ := List.mem_iff_getElem?.1 hcall
  obtain ⟨s, hvote, hsterm, hslog⟩ := Node.requestVote_grants hterm hlog
  have hcounter : (σ.procs p).voteNums.getD cell 0 = votes := by
    rw [List.getD_eq_getElem?_getD, h.counter, Option.getD_some]
  have hreply : (⟨args.term, true, .normal⟩ : RequestVoteReply).term = (σ.procs p).node.term :=
    h.term.symm
  have hsend := Node.sendRequestVote_granted votes hreply rfl h.identity
  rw [← hcounter] at hsend
  have hprocs := σ.askVote hne hk hvote hsend
  refine ⟨[.deliverVote p k, .returnVote p k],
    .of_update_two (by simp [Action.Electoral]) hp hq hne hprocs hslog ?_, ?_, ?_, ?_, ?_, ?_⟩
  · dsimp only
    split <;> exact ⟨rfl, rfl, rfl, rfl, rfl, rfl⟩
  · rw [hprocs, Function.update_of_ne hne, Function.update_self]
    exact hsterm
  · intro x hxp hxq
    rw [hprocs, Function.update_of_ne hxp, Function.update_of_ne hxq]
  · rw [hprocs, Function.update_self, hcounter]
  · intro hmin
    rw [hprocs, Function.update_self, hcounter]
    dsimp only
    rw [if_neg hmin]
    exact List.getElem?_set_self (List.getElem?_eq_some_iff.1 h.counter).1
  · intro x hx hmem
    rw [hprocs, Function.update_self]
    obtain ⟨hlt, hget⟩ := List.getElem?_eq_some_iff.1 hk
    have hperm := List.getElem_cons_eraseIdx_perm hlt
    rw [hget] at hperm
    refine (List.mem_cons.1 (hperm.mem_iff.2 hmem)).resolve_left fun heq => hx ?_
    exact congrArg VoteCall.server heq

/-- One voter after the other is asked, until the votes make a majority. -/
theorem Cluster.Polling.exists_won {Q : Finset (Fin n)} {args : RequestVoteArgs} {cell : ℕ} (hp : p ∈ Q)
    {voters : List (Fin n)} : ∀ {σ : Cluster n} {votes : ℕ}, voters.Nodup → (∀ q ∈ voters, q ∈ Q) →
      votes < n / 2 + 1 → n / 2 + 1 ≤ votes + voters.length → σ.Polling p args cell votes voters →
      ∃ as, Won Q args p σ as := by
  induction voters with
  | nil =>
    intro σ votes _ _ hlt hle
    exact absurd hle (not_le.2 hlt)
  | cons q voters ih =>
    intro σ votes hnodup hQ hlt hle h
    obtain ⟨hq, hnodup⟩ := List.nodup_cons.1 hnodup
    obtain ⟨as, hpolled, hterm, hothers, hnode, hcounter, hcalls⟩ :=
      h.ask hp (hQ q (List.mem_cons_self ..))
    have hterms : ∀ x, ((exec Cluster.step σ as).procs x).node.term ≤
        max (σ.procs x).node.term args.term := by
      intro x
      rcases eq_or_ne x p with rfl | hxp
      · rw [hnode]
        split <;> exact le_max_left _ _
      · rcases eq_or_ne x q with rfl | hxq
        · exact hterm.le.trans (le_max_right _ _)
        · rw [hothers x hxp hxq]
          exact le_max_left _ _
    by_cases hmaj : n / 2 + 1 ≤ votes + 1
    · rw [if_pos hmaj] at hnode
      refine ⟨as, hpolled, ?_, ?_, hterms⟩
      · rw [hnode]
        rfl
      · rw [hnode]
        exact h.term
    · rw [if_neg hmaj] at hnode
      have hpolling : (exec Cluster.step σ as).Polling p args cell (votes + 1) voters := by
        refine ⟨by rw [hnode]; exact h.identity, by rw [hnode]; exact h.term, hcounter hmaj,
          fun x hx => ?_⟩
        obtain ⟨hxp, hxterm, hxlog, hxcall⟩ := h.voters x (List.mem_cons_of_mem _ hx)
        have hxq : x ≠ q := fun heq => hq (heq ▸ hx)
        rw [hothers x hxp hxq]
        exact ⟨hxp, hxterm, hxlog, hcalls x hxq hxcall⟩
      rw [List.length_cons] at hle
      obtain ⟨as', hwon⟩ := ih hnodup (fun x hx => hQ x (List.mem_cons_of_mem _ hx)) (by omega)
        (by omega) hpolling
      refine ⟨as ++ as', hpolled.append hwon.polled, ?_, ?_, fun x => ?_⟩
      · rw [exec_append]
        exact hwon.leader
      · rw [exec_append]
        exact hwon.term
      · rw [exec_append]
        exact (hwon.terms x).trans (max_le (hterms x) (le_max_right _ _))

/-! ## The candidate -/

/-- How recent a log is. -/
def Node.recency (s : Node n) : Int ×ₗ Int := toLex (s.getLastLogTerm, s.getLastLogIndex)

theorem Node.KeepsLog.recency {s s' : Node n} (h : s.KeepsLog s') : s'.recency = s.recency := by
  rw [Node.recency, Node.recency, h.getLastLogTerm, h.getLastLogIndex]

theorem Node.receiveVote_of_le {s s' : Node n} (h : s.recency ≤ s'.recency) :
    s.receiveVote s'.voteArgs.lastLogIndex s'.voteArgs.lastLogTerm = true := by
  rw [Node.recency, Node.recency, Prod.Lex.toLex_le_toLex] at h
  rw [Node.receiveVote, Bool.or_eq_true, Bool.and_eq_true]
  rcases h with hlt | ⟨heq, hle⟩
  · exact .inl (decide_eq_true hlt)
  · exact .inr ⟨decide_eq_true heq.symm, decide_eq_true hle⟩

/-- A request of a later term makes a follower of whoever receives it. -/
theorem Node.requestVote_stepsDown {s : Node n} {args : RequestVoteArgs} (hterm : s.term < args.term) :
    (s.requestVote args).1.identity = .follower := by
  have hnot : ¬args.term < s.term := by omega
  rw [Node.requestVote, if_neg hnot, if_pos hterm]
  dsimp only
  split
  · rfl
  · split <;> rfl

/-- A leader that another member has left behind steps down. -/
theorem Cluster.exists_stepsDown {Q : Finset (Fin n)} (hme : ∀ q, (σ.procs q).node.me = q) (hp : p ∈ Q)
    (hq : q ∈ Q) (hidentity : (σ.procs q).node.identity ≠ .leader)
    (hterm : (σ.procs p).node.term < (σ.procs q).node.term) :
    ∃ as, Polled Q σ as ∧ ((exec Cluster.step σ as).procs p).node.identity ≠ .leader := by
  have hne : p ≠ q := by
    rintro rfl
    exact lt_irrefl _ hterm
  obtain ⟨hstands, hgrown, hlog⟩ := Proc.stand4Election_spec hidentity
  have hpolled : Polled Q σ [.stand4Election q] := .stand4Election hq hlog
  have hself := σ.feed_procs_self q .stand4Election
  have hother := σ.feed_procs_ne q .stand4Election hne
  have hcall := hstands.calls p (by rw [hlog.me, hme]; exact hne)
  obtain ⟨k, hk⟩ := List.mem_iff_getElem?.1 hcall
  have hargs : (σ.procs p).node.term < (σ.procs q).stand4Election.node.voteArgs.term := by
    show (σ.procs p).node.term < (σ.procs q).stand4Election.node.term
    omega
  have hdown := Node.requestVote_stepsDown hargs
  have hkeep := Node.KeepsLog.requestVote (σ.procs p).node (σ.procs q).stand4Election.node.voteArgs
  have hdeliver := (σ.feed q .stand4Election).step_deliverVote (q := p) (p := q) hne (by rw [hself]; exact hk)
    (by rw [hother])
  have hasked : (σ.feed q .stand4Election).Polled Q [.deliverVote q k] :=
    .of_update_two (by simp [Action.Electoral]) hq hp hne hdeliver (by rw [hother]; exact hkeep)
      ⟨rfl, rfl, rfl, rfl, rfl, rfl⟩
  refine ⟨[.stand4Election q] ++ [.deliverVote q k], hpolled.append hasked, ?_⟩
  show (((σ.feed q .stand4Election).step (.deliverVote q k)).procs p).node.identity ≠ .leader
  rw [hdeliver, Function.update_of_ne hne, Function.update_self]
  dsimp only
  rw [hdown]
  decide

/-- A majority can have a leader of its own whose term none of its members has passed. -/
theorem Cluster.Reachable.exists_leader (h : σ.Reachable) (hn : 2 ≤ n) {Q : Finset (Fin n)}
    (hQ : n < 2 * Q.card) :
    ∃ as, ∃ p ∈ Q, ((exec Cluster.step σ as).procs p).node.identity = .leader ∧
      (∀ q ∈ Q, ((exec Cluster.step σ as).procs q).node.term ≤
        ((exec Cluster.step σ as).procs p).node.term) ∧
      σ.Polled Q as := by
  have hme := h.electionInv.me
  have hnonempty : Q.Nonempty := Finset.card_pos.1 (by omega)
  by_cases hlead : ∃ p ∈ Q, (σ.procs p).node.identity = .leader ∧
      ∀ q ∈ Q, (σ.procs q).node.term ≤ (σ.procs p).node.term
  · obtain ⟨p, hp, hleader, hterms⟩ := hlead
    exact ⟨[], p, hp, hleader, hterms, .nil Q σ⟩
  obtain ⟨p, hp, hrecent⟩ := Q.exists_max_image (fun q => (σ.procs q).node.recency) hnonempty
  -- first the candidate must not lead in a term that is over
  obtain ⟨as, hpolled, hidentity⟩ : ∃ as, σ.Polled Q as ∧
      ((exec Cluster.step σ as).procs p).node.identity ≠ .leader := by
    by_cases hleader : (σ.procs p).node.identity = .leader
    · obtain ⟨q, hq, hlatest⟩ := Q.exists_max_image (fun q => (σ.procs q).node.term) hnonempty
      refine Cluster.exists_stepsDown hme hp hq (fun hl => hlead ⟨q, hq, hl, hlatest⟩) ?_
      refine lt_of_le_of_ne (hlatest p hp) fun heq => hlead ⟨p, hp, hleader, ?_⟩
      rw [heq]
      exact hlatest
    · exact ⟨[], .nil Q σ, hleader⟩
  -- then it stands until its term is the latest
  obtain ⟨q, -, hlatest⟩ := Q.exists_max_image
    (fun q => ((exec Cluster.step σ as).procs q).node.term) hnonempty
  obtain ⟨as', cell, hpolled', hothers, hstands, hbound⟩ := Cluster.exists_stands hp
    ((exec Cluster.step σ as).procs q).node.term
    (((exec Cluster.step σ as).procs q).node.term - ((exec Cluster.step σ as).procs p).node.term).toNat
    hidentity (by omega)
  rw [← exec_append] at hothers hstands hbound
  have hkept := hpolled.append hpolled'
  have hpolling : (exec Cluster.step σ (as ++ as')).Polling p
      ((exec Cluster.step σ (as ++ as')).procs p).node.voteArgs cell 1 (Q.erase p).toList := by
    refine ⟨hstands.identity, rfl, hstands.counter, fun x hx => ?_⟩
    obtain ⟨hxp, hxQ⟩ := Finset.mem_erase.1 (Finset.mem_toList.1 hx)
    refine ⟨hxp, ?_, ?_, hstands.calls x ?_⟩
    · rw [hothers x hxp]
      exact (hlatest x hxQ).trans_lt hbound
    · refine Node.receiveVote_of_le ?_
      rw [(hkept.logs x).recency, (hkept.logs p).recency]
      exact hrecent x hxQ
    · rwa [(hkept.logs p).me, hme]
  have hcard : (Q.erase p).toList.length + 1 = Q.card := by
    rw [Finset.length_toList, Finset.card_erase_add_one hp]
  obtain ⟨as'', hwon⟩ := hpolling.exists_won hp (Finset.nodup_toList _)
    (fun x hx => Finset.mem_of_mem_erase (Finset.mem_toList.1 hx)) (by omega) (by omega)
  refine ⟨as ++ as' ++ as'', p, hp, ?_, fun x hx => ?_, ?_⟩
  · rw [exec_append]
    exact hwon.leader
  · rw [exec_append, hwon.term]
    refine (hwon.terms x).trans (max_le ?_ le_rfl)
    rcases eq_or_ne x p with rfl | hxp
    · exact le_rfl
    · rw [hothers x hxp]
      exact (hlatest x hx).trans hbound.le
  · exact hkept.append hwon.polled

/-- Whatever state a run has come to, any majority can go on to have a leader of its own whose term none
    of its members has passed, by an election of its own in which no node loses or gains an entry or a
    commit. -/
theorem leader_electable (h : σ.Reachable) (hn : 2 ≤ n) {Q : Finset (Fin n)} (hQ : n < 2 * Q.card) :
    ∃ as : List (Action n), (∀ a ∈ as, a.Electoral) ∧
      (∃ p ∈ Q, ((exec Cluster.step σ as).procs p).node.identity = .leader ∧
        ∀ q ∈ Q, ((exec Cluster.step σ as).procs q).node.term ≤
          ((exec Cluster.step σ as).procs p).node.term) ∧
      (∀ q ∉ Q, (exec Cluster.step σ as).procs q = σ.procs q) ∧
      ∀ q, ((exec Cluster.step σ as).procs q).node.logs = (σ.procs q).node.logs ∧
        ((exec Cluster.step σ as).procs q).node.commitIndex = (σ.procs q).node.commitIndex ∧
        ((exec Cluster.step σ as).procs q).node.lastSnapshotIndex =
          (σ.procs q).node.lastSnapshotIndex := by
  obtain ⟨as, p, hp, hleader, hterms, hpolled⟩ := h.exists_leader hn hQ
  refine ⟨as, hpolled.electoral, ⟨p, hp, hleader, hterms⟩, hpolled.others, fun q => ?_⟩
  have hkept := hpolled.logs q
  exact ⟨hkept.logs, hkept.commitIndex, hkept.lastSnapshotIndex⟩

/-- Node 1 leads and has taken in a command when it goes down. -/
theorem leader_electable_three :
    let σ := exec Cluster.step (Cluster.new 3)
      [.stand4Election 1, .deliverVote 1 0, .returnVote 1 0, .execute 1 [7]]
    ∃ as : List (Action 3), (∀ a ∈ as, a.Electoral) ∧
      (∃ p ∈ ({0, 2} : Finset (Fin 3)), ((exec Cluster.step σ as).procs p).node.identity = .leader ∧
        ∀ q ∈ ({0, 2} : Finset (Fin 3)), ((exec Cluster.step σ as).procs q).node.term ≤
          ((exec Cluster.step σ as).procs p).node.term) ∧
      (∀ q ∉ ({0, 2} : Finset (Fin 3)), (exec Cluster.step σ as).procs q = σ.procs q) ∧
      ∀ q, ((exec Cluster.step σ as).procs q).node.logs = (σ.procs q).node.logs ∧
        ((exec Cluster.step σ as).procs q).node.commitIndex = (σ.procs q).node.commitIndex ∧
        ((exec Cluster.step σ as).procs q).node.lastSnapshotIndex =
          (σ.procs q).node.lastSnapshotIndex :=
  leader_electable (.exec .init (.of_forall (fun _ _ => trivial) _ _)) (by decide) (by decide)

/-! ## A cluster of one -/

/-- A process that is alone asks nobody for a vote, and so is not elected. -/
theorem Proc.IndexInv.step_alone {P : Proc 1} (h : P.IndexInv) (hcalls : P.voteCalls = [])
    (hidentity : P.node.identity ≠ .leader) {input : Input 1} (hinput : input.WellFormed) :
    (P.step input).1.voteCalls = [] ∧ (P.step input).1.node.identity ≠ .leader := by
  have hnone : ∀ k : ℕ, P.voteCalls[k]? = none := fun k => by rw [hcalls]; rfl
  constructor
  · cases input with
    | stand4Election =>
        have hpeers : (List.finRange 1).filter (· ≠ P.node.me) = [] := by
          rw [List.filter_eq_nil_iff]
          intro i _
          simp [Subsingleton.elim i P.node.me]
        simp only [Proc.step, Proc.stand4Election]
        split
        · exact hcalls
        · rw [hpeers, hcalls]
          rfl
    | heartBeat =>
        simp only [Proc.step, Proc.heartBeat]
        split <;> exact hcalls
    | readSnapshot k =>
        simp only [Proc.step, Proc.readSnapshot]
        split <;> exact hcalls
    | appendReply k reply =>
        simp only [Proc.step, Proc.appendReply]
        split <;> exact hcalls
    | voteReply k reply =>
        simp only [Proc.step, Proc.voteReply, hnone]
        exact hcalls
    | snapshotReply k reply =>
        simp only [Proc.step, Proc.snapshotReply]
        split <;> exact hcalls
    | _ => exact hcalls
  · intro hleader
    rcases ((h.voteStep hinput).leads hleader).2 with hl | ⟨k, reply, rfl⟩
    · exact hidentity hl
    · simp only [Proc.step, Proc.voteReply, hnone] at hleader
      exact hidentity hleader

/-- Nobody has been asked for a vote, and nobody leads. -/
def Cluster.Leaderless (σ : Cluster 1) : Prop :=
  ∀ p, (σ.procs p).voteCalls = [] ∧ (σ.procs p).node.identity ≠ .leader

theorem Cluster.Leaderless.feed {σ : Cluster 1} (h : σ.Leaderless) (hinv : ∀ p, (σ.procs p).IndexInv)
    (p : Fin 1) (input : Input 1) (hinput : input.WellFormed) : (σ.feed p input).Leaderless :=
  σ.forall_setProc p (I := fun _ P => P.voteCalls = [] ∧ P.node.identity ≠ .leader) h
    ((hinv p).step_alone (h p).1 (h p).2 hinput)

theorem Cluster.Move.leaderless {σ σ' : Cluster 1} {a : Action 1} (hmove : σ.Move a σ')
    (hinv : ∀ p, (σ.procs p).IndexInv) (h : σ.Leaderless) : σ'.Leaderless := by
  have hset : ∀ {σ : Cluster 1} {p : Fin 1} {P : Proc 1}, σ.Leaderless →
      P.voteCalls = (σ.procs p).voteCalls → P.node = (σ.procs p).node → (σ.setProc p P).Leaderless := by
    intro σ p P h hcalls hnode
    refine σ.forall_setProc p (I := fun _ P => P.voteCalls = [] ∧ P.node.identity ≠ .leader) h ⟨?_, ?_⟩
    · rw [hcalls]
      exact (h p).1
    · rw [hnode]
      exact (h p).2
  cases hmove with
  | idle => exact h
  | run _ p hlocal => exact h.feed hinv p _ hlocal.wellFormed
  | apply p _ => exact h.feed hinv p .getApplyMessages trivial
  | @deliverAppend p k call hcall _ _ =>
      exact hset (h.feed hinv call.server _
        ((hinv p).appendConsecutive call (List.mem_of_getElem? hcall))) rfl rfl
  | @loseAppend p k call _ hcall _ _ =>
      exact hset (h.feed hinv call.server _
        ((hinv p).appendConsecutive call (List.mem_of_getElem? hcall))) rfl rfl
  | deliverVote p k hcall =>
      rw [(h p).1] at hcall
      cases hcall
  | @deliverSnapshot p k call args _ _ _ =>
      exact hset (h.feed hinv call.server (.installSnapshot args) trivial) rfl rfl
  | @loseSnapshot p k call args _ _ _ _ =>
      exact hset (h.feed hinv call.server (.installSnapshot args) trivial) rfl rfl
  | returnAppend p k _ _ => exact h.feed hinv p _ trivial
  | returnVote p k _ _ => exact h.feed hinv p _ trivial
  | returnSnapshot p k _ _ => exact h.feed hinv p _ trivial

/-- A cluster of one node never has a leader. -/
theorem single_never_leads {σ : Cluster 1} (h : σ.Reachable) (p : Fin 1) :
    (σ.procs p).node.identity ≠ .leader := by
  have hstart : (Cluster.new 1).Leaderless := fun p =>
    ⟨rfl, by simp [Cluster.new, Proc.new, Node.new, Node.load, Persister.new]⟩
  have hrun : σ.Leaderless :=
    h.invariant hstart fun σ a hreach hσ _ =>
      (σ.step_move a).leaderless (fun p => Cluster.Reachable.indexInv hreach p) hσ
  exact (hrun p).2

end RaftKVStorage
