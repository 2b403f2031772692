import RaftKVStorage.Archive
import RaftKVStorage.Election

set_option autoImplicit false

/-! # What survives a restart

Every critical section hands over what it has changed of the term, the vote, the log and the
snapshot position before it releases `_M_mutex`. Nothing of it is read back, since the constructor
of `persister` empties the files. -/

namespace RaftKVStorage

variable {n : ℕ}

/-! ## Write-through -/

/-- Between two releases of `_M_mutex` nothing durable has changed and nothing was handed over, or
    what was handed over last is the state at the release. -/
def Node.WritesThrough (s s' : Node n) : Prop :=
  (s'.dump = s.dump ∧ s'.persister.state = s.persister.state) ∨ s'.persister.state = some s'.dump

theorem Node.WritesThrough.refl (s : Node n) : s.WritesThrough s := .inl ⟨rfl, rfl⟩

theorem Node.WritesThrough.trans {s s' s'' : Node n} (h : s.WritesThrough s')
    (h' : s'.WritesThrough s'') : s.WritesThrough s'' := by
  rcases h' with ⟨hdump, hstate⟩ | hstate
  · rcases h with ⟨hdump', hstate'⟩ | hstate'
    · exact .inl ⟨hdump.trans hdump', hstate.trans hstate'⟩
    · exact .inr (by rw [hstate, hstate', hdump])
  · exact .inr hstate

/-- `_M_persist` just before the release, as in every `DEFER{_M_persist();}`. -/
theorem Node.WritesThrough.mPersist (s s' : Node n) : s.WritesThrough s'.mPersist := .inr rfl

theorem Node.WritesThrough.identityChange (s : Node n) (iden : Identity) (term vote : Int) :
    s.WritesThrough (s.identityChange iden term vote) := .inr rfl

/-- Nothing durable is assigned. -/
theorem Node.WritesThrough.of_eq {s s' : Node n} (hdump : s'.dump = s.dump)
    (hpersister : s'.persister = s.persister) : s.WritesThrough s' :=
  .inl ⟨hdump, congrArg Persister.state hpersister⟩

theorem Node.WritesThrough.execute (s : Node n) (command : Bytes) :
    s.WritesThrough (s.execute command).1 := by
  rcases s.execute_cases command with ⟨-, heq⟩ | ⟨-, heq⟩
  · rw [heq]; exact .mPersist s _
  · rw [heq]; exact .refl s

theorem Node.WritesThrough.persist (s : Node n) (index : Int) (shot : Bytes) :
    s.WritesThrough (s.persist index shot).node := by
  unfold Node.persist
  split
  · exact .refl s
  · dsimp only
    cases s.logAt (s.getSlicesIndexFromLogIndex index) with
    | none => exact .refl s
    | some entry => exact .inr rfl

theorem Node.WritesThrough.takeApplyMessages (k : ℕ) :
    ∀ s : Node n, s.WritesThrough (s.takeApplyMessages k).node := by
  induction k with
  | zero => exact .refl
  | succ k ih =>
      intro s
      simp only [Node.takeApplyMessages]
      split
      · exact .of_eq rfl rfl
      · exact (Node.WritesThrough.of_eq rfl rfl).trans (ih _)

theorem Node.WritesThrough.getApplyMessages (s : Node n) :
    s.WritesThrough s.getApplyMessages.node := by
  unfold Node.getApplyMessages
  split
  · exact .refl s
  · split
    · exact .refl s
    · exact .takeApplyMessages _ s

theorem Node.WritesThrough.requestVote (s : Node n) (args : RequestVoteArgs) :
    s.WritesThrough (s.requestVote args).1 := by
  -- the `DEFER` at the top covers every exit
  rcases s.requestVote_cases args with
    ⟨-, heq | ⟨-, heq⟩⟩ | ⟨-, -, -, ⟨-, -, heq⟩ | ⟨-, heq⟩⟩
  all_goals
    rw [heq]
    exact .mPersist s _

theorem Node.WritesThrough.sendRequestVote (s : Node n) (reply : RequestVoteReply) (voteNum : ℕ) :
    s.WritesThrough (s.sendRequestVote reply voteNum).1 := by
  rcases s.sendRequestVote_cases reply voteNum with
    ⟨-, heq⟩ | heq | ⟨-, -, ⟨-, heq⟩ | ⟨-, -, heq⟩ | ⟨-, -, heq⟩⟩
  · rw [heq]; exact .identityChange s _ _ _
  · rw [heq]; exact .refl s
  · rw [heq]; exact .refl s
  · rw [heq]; exact .refl s
  · rw [heq]; exact .mPersist s _

theorem Node.updateCommitIndex_dump (s : Node n) (args : AppendEntriesArgs) :
    (s.updateCommitIndex args).dump = s.dump ∧ (s.updateCommitIndex args).persister = s.persister := by
  rcases s.updateCommitIndex_cases args with heq | ⟨-, heq⟩
  · rw [heq]; exact ⟨rfl, rfl⟩
  · rw [heq]; exact ⟨rfl, rfl⟩

theorem Node.WritesThrough.sendAppendEntries (s : Node n) (server : Fin n)
    (args : AppendEntriesArgs) (reply : AppendEntriesReply) (appendNum : ℕ) :
    s.WritesThrough (s.sendAppendEntries server args reply appendNum).node := by
  unfold Node.sendAppendEntries
  split
  · exact .refl s
  split
  · exact .identityChange s _ _ _
  split
  · exact .refl s
  split
  · split
    · exact .of_eq rfl rfl
    · exact .refl s
  · -- a success moves `_M_nextIndex`, `_M_matchIndex` and `_M_commitIndex` only, also when it throws
    dsimp only
    split
    · exact .of_eq rfl rfl
    · split
      · obtain ⟨hdump, hpersister⟩ := (s.recordMatch server args).updateCommitIndex_dump args
        exact .of_eq hdump hpersister
      · exact .of_eq rfl rfl

/-- The early return changes nothing, every other exit is behind the `DEFER`. -/
theorem Node.WritesThrough.appendEntries (s : Node n) (args : AppendEntriesArgs) :
    s.WritesThrough (s.appendEntries args).node := by
  unfold Node.appendEntries
  split
  · exact .refl s
  dsimp only
  split
  · exact .mPersist s _
  split
  · exact .mPersist s _
  split
  · exact .mPersist s _
  · split
    · exact .mPersist s _
    · exact .mPersist s _
  · split
    · exact .mPersist s _
    · exact .mPersist s _

theorem Node.WritesThrough.followTerm (s : Node n) (term : Int) :
    s.WritesThrough (s.followTerm term) := by
  unfold Node.followTerm
  by_cases h : term > s.term
  · rw [if_pos h]
    exact .inr rfl
  · rw [if_neg h]
    exact .of_eq rfl rfl

theorem Node.WritesThrough.installSnapshot (s : Node n) (args : InstallSnapshotArgs) :
    s.WritesThrough (s.installSnapshot args).node := by
  unfold Node.installSnapshot
  split
  · exact .refl s
  dsimp only
  split
  · exact .followTerm s args.term
  split
  · exact .followTerm s args.term
  · exact .inr rfl

theorem Node.WritesThrough.sendSnapshot (s : Node n) (server : Fin n) (args : InstallSnapshotArgs)
    (reply : InstallSnapshotReply) : s.WritesThrough (s.sendSnapshot server args reply) := by
  rcases s.sendSnapshot_cases server args reply with ⟨-, heq⟩ | heq | ⟨-, -, heq⟩
  · rw [heq]; exact .identityChange s _ _ _
  · rw [heq]; exact .refl s
  · rw [heq]; exact .of_eq rfl rfl

theorem Proc.writesThrough (P : Proc n) (input : Input n) :
    P.node.WritesThrough (P.step input).1.node := by
  cases input with
  | execute command => exact .execute P.node command
  | persist index shot => exact .persist P.node index shot
  | getApplyMessages => exact .getApplyMessages P.node
  | stand4Election =>
      rcases P.node.stand4Election_cases with ⟨-, heq⟩ | ⟨-, heq⟩
      · simp only [Proc.step, Proc.stand4Election, heq]
        exact .refl P.node
      · simp only [Proc.step, Proc.stand4Election, heq]
        exact .identityChange P.node _ _ _
  | heartBeat =>
      simp only [Proc.step, Proc.heartBeat]
      split <;> exact .refl P.node
  | requestVote args => exact .requestVote P.node args
  | appendEntries args => exact .appendEntries P.node args
  | installSnapshot args => exact .installSnapshot P.node args
  | readSnapshot k =>
      simp only [Proc.step, Proc.readSnapshot]
      split <;> exact .refl P.node
  | appendReply k reply =>
      simp only [Proc.step, Proc.appendReply]
      split
      · exact .refl P.node
      · exact .sendAppendEntries P.node _ _ reply _
  | voteReply k reply =>
      simp only [Proc.step, Proc.voteReply]
      split
      · exact .refl P.node
      · exact .sendRequestVote P.node reply _
  | snapshotReply k reply =>
      simp only [Proc.step, Proc.snapshotReply]
      split
      · exact .sendSnapshot P.node _ _ reply
      · exact .refl P.node

/-- At every release of `_M_mutex` the durable part of a node is what was handed to the persister
    last, or what it was constructed with. -/
theorem Proc.write_through (me : Fin n) (pstr : Persister) {P : Proc n}
    (h : GuardedRun.Reach ({ node := Node.new me pstr } : Proc n) (fun P input => (P.step input).1)
      (fun _ _ => True) P) :
    P.node.dump = P.node.persister.state.getD (Node.new me pstr).dump := by
  refine h.invariant (P := fun P => P.node.dump = P.node.persister.state.getD
    (Node.new me pstr).dump) ?_ ?_
  · cases hstate : pstr.state with
    | none => simp [Node.new, Node.load, hstate]
    | some state =>
      by_cases hpos : state.lastSnapshotIndex > 0
      · simp [Node.new, Node.load, hstate, hpos, Node.dump]
      · simp [Node.new, Node.load, hstate, hpos, Node.dump]
  · intro P input _ ih _
    rcases P.writesThrough input with ⟨hdump, hstate⟩ | hstate
    · rw [hdump, hstate, ih]
    · rw [hstate]
      rfl

/-- A vote request, a leader's entries and an early return: the persister holds the entries. -/
def votedAndAppended : List (Input 3) :=
  [.requestVote { term := 1, candidateId := 1, lastLogIndex := 0, lastLogTerm := 0 },
    .appendEntries
      { term := 1, leaderId := 1, prevLogIndex := 0, prevLogTerm := 0
        entries := [{ command := [7], term := 1, index := 1 }], leaderCommit := 0 },
    .appendEntries
      { term := 0, leaderId := 2, prevLogIndex := 0, prevLogTerm := 0, entries := []
        leaderCommit := 0 }]

theorem Proc.write_through_votedAndAppended :
    let P := GuardedRun.exec (fun (P : Proc 3) input => (P.step input).1) (Proc.new 0)
      votedAndAppended
    P.node.persister.state = some ⟨[⟨[7], 1, 1⟩], 1, 1, 0, 0⟩ ∧
      P.node.dump = P.node.persister.state.getD (Node.new (0 : Fin 3) Persister.new).dump := by
  refine ⟨by decide, ?_⟩
  exact Proc.write_through 0 Persister.new
    (GuardedRun.Reach.init.exec (.of_forall (fun _ _ => trivial) votedAndAppended _))

/-! ## Restarts -/

/-- The two files of a persister. -/
structure Files where
  state : Bytes
  snapshot : Bytes
deriving DecidableEq, Repr

/-- What has been written to the files. -/
def Persister.files (boost : Boost) (f : Persister) : Files :=
  { state := f.state.elim [] boost.state.save
    snapshot := f.snapshot }

/-- The constructor `persister::persister` opens both files with a `std::ofstream`, which
    truncates. -/
def Files.construct (_ : Files) : Files := ⟨[], []⟩

/-- `loadState`, the string it reads. -/
def Files.loadState (files : Files) : Bytes := readToken files.state

/-- `_M_load` on the string, `none` for an `archive_exception`. -/
def Node.loadString (boost : Boost) (s : Node n) (data : Bytes) : Option (Node n) :=
  if data = [] then some s else (boost.state.load data).map fun node => s.load (some node)

/-- `persister(me)` and then `raft` over the files that are there. -/
def Node.restart (boost : Boost) (me : Fin n) (files : Files) : Option (Node n) :=
  ((Node.new me Persister.new).loadString boost files.construct.loadState).map fun s =>
    if s.lastSnapshotIndex > 0 then { s with appliedIndex := s.lastSnapshotIndex } else s

/-- Whatever the files held, a restarted node is a fresh one. -/
theorem Node.restart_eq (boost : Boost) (me : Fin n) (files : Files) :
    Node.restart boost me files = some (Node.new me Persister.new) := by
  have hdata : files.construct.loadState = [] := rfl
  simp [Node.restart, Node.loadString, hdata, Node.new, Node.load, Persister.new]

/-- A node across its restarts: the process that runs now, and the votes granted so far, each a term
    and a candidate. -/
structure Life (n : ℕ) where
  proc : Proc n
  granted : List (Int × Int) := []

inductive LifeInput (n : ℕ)
  | handle (input : Input n)
  /-- The process ends while no handler is running, and is started again. -/
  | restart

/-- The vote a critical section grants: a candidate's own when it stands for election, another's in
    the reply of `_L_requestVote`. -/
def Node.grants (s : Node n) : Input n → List (Int × Int)
  | .stand4Election => s.stand4Election.2.toList.map fun args => (args.term, args.candidateId)
  | .requestVote args =>
      if (s.requestVote args).2.voteGranted then
        [((s.requestVote args).2.term, args.candidateId)]
      else []
  | _ => []

def Life.new (me : Fin n) : Life n := { proc := Proc.new me }

/-- The node as it comes up again over the files of the process that has ended. -/
def Life.restart (boost : Boost) (L : Life n) : Option (Node n) :=
  Node.restart boost L.proc.node.me (L.proc.node.persister.files boost)

def Life.step (boost : Boost) (L : Life n) : LifeInput n → Life n
  | .handle input =>
      { proc := (L.proc.step input).1, granted := L.granted ++ L.proc.node.grants input }
  | .restart =>
      match L.restart boost with
      | none => L
      | some s => { L with proc := { node := s } }

/-- Requests come from nodes of the cluster, whose numbers are not negative. -/
def LifeInput.Legal : LifeInput n → Prop
  | .handle (.requestVote args) => 0 ≤ args.candidateId
  | .handle input => input.WellFormed
  | .restart => True

/-- The durable part of a node that has not yet taken part in anything. -/
def PersistNode.initial : PersistNode :=
  { logs := [], term := 0, vote4 := -1, lastSnapshotIndex := 0, lastSnapshotTerm := 0 }

/-- A restart loses nothing only while there is nothing to lose. -/
def Life.NothingToLose (L : Life n) : LifeInput n → Prop
  | .restart => L.proc.node.dump = .initial
  | .handle _ => True

/-- Every vote granted so far is behind the node's term, or is the one it knows of. -/
structure Life.VoteInv (L : Life n) : Prop where
  index : L.proc.IndexInv
  past : ∀ v ∈ L.granted, 0 ≤ v.1 ∧ v.1 ≤ L.proc.node.term
  current : ∀ v ∈ L.granted, v.1 = L.proc.node.term → v.2 = L.proc.node.vote4
  candidate : ∀ v ∈ L.granted, 0 ≤ v.2
  term : 0 ≤ L.proc.node.term
  unique : ∀ v ∈ L.granted, ∀ w ∈ L.granted, v.1 = w.1 → v.2 = w.2

theorem Life.VoteInv.new (me : Fin n) : (Life.new me).VoteInv where
  index := .new me
  past := fun v hv => by simp [Life.new] at hv
  current := fun v hv => by simp [Life.new] at hv
  candidate := fun v hv => by simp [Life.new] at hv
  term := le_rfl
  unique := fun v hv => by simp [Life.new] at hv

/-- A vote granted is for the term the node is in afterwards, is the one it knows of afterwards, and
    did not go to another candidate of that term before. -/
theorem Node.grants_spec {s : Node n} {input : Input n} (hlegal : (LifeInput.handle input).Legal)
    {v : Int × Int} (hv : v ∈ s.grants input) (P : Proc n) (hP : P.node = s) :
    v.1 = (P.step input).1.node.term ∧ v.2 = (P.step input).1.node.vote4 ∧ 0 ≤ v.2 ∧
      (v.1 = s.term → s.vote4 ≠ -1 → v.2 = s.vote4) := by
  subst hP
  cases input with
  | stand4Election =>
      rcases P.node.stand4Election_cases with ⟨-, heq⟩ | ⟨-, heq⟩
      · simp [Node.grants, heq] at hv
      · simp only [Node.grants, heq, Option.toList_some, List.map_cons, List.map_nil,
          List.mem_singleton] at hv
        subst hv
        simp only [Proc.step, Proc.stand4Election, heq]
        refine ⟨rfl, rfl, by simp, fun h => ?_⟩
        simp at h
  | requestVote args =>
      rcases P.node.requestVote_cases args with ⟨hno, -⟩ | ⟨hyes, hterm, -, hcases⟩
      · simp [Node.grants, hno] at hv
      · simp only [Node.grants, hyes, if_true, List.mem_singleton] at hv
        subst hv
        simp only [Proc.step]
        rcases hcases with ⟨heq, hfree, hnode⟩ | ⟨hlt, hnode⟩
        · rw [hnode, hterm]
          refine ⟨heq.symm, rfl, hlegal, fun _ hne => ?_⟩
          exact (hfree.resolve_left hne).symm
        · rw [hnode, hterm]
          exact ⟨rfl, rfl, hlegal, fun h => absurd h hlt.ne'⟩
  | _ => simp [Node.grants] at hv

theorem Life.VoteInv.input {boost : Boost} {L : Life n} (h : L.VoteInv) {input : Input n}
    (hlegal : (LifeInput.handle input).Legal) : (L.step boost (.handle input)).VoteInv := by
  have hwell : input.WellFormed := by
    cases input with
    | requestVote args => trivial
    | _ => exact hlegal
  have hvote := h.index.voteStep hwell
  have hnew : ∀ v ∈ L.proc.node.grants input, _ := fun v hv =>
    Node.grants_spec hlegal hv L.proc rfl
  -- what was granted before against what is granted now
  have hboth : ∀ v ∈ L.granted, ∀ w ∈ L.proc.node.grants input, v.1 = w.1 → v.2 = w.2 := by
    intro v hv w hw heq
    obtain ⟨hterm, -, -, hsame⟩ := hnew w hw
    have hle := (h.past v hv).2
    have hrise := hvote.term
    have hvterm : v.1 = L.proc.node.term := by omega
    have hcur := h.current v hv hvterm
    have hcand := h.candidate v hv
    exact hcur.trans (hsame (heq.symm.trans hvterm) (by omega)).symm
  refine ⟨(h.index.step hwell).1.1, ?_, ?_, ?_, h.term.trans hvote.term, ?_⟩
  · intro v hv
    rcases List.mem_append.1 hv with hold | hnow
    · exact ⟨(h.past v hold).1, (h.past v hold).2.trans hvote.term⟩
    · rw [(hnew v hnow).1]
      exact ⟨h.term.trans hvote.term, le_rfl⟩
  · intro v hv heq
    rcases List.mem_append.1 hv with hold | hnow
    · have hle := (h.past v hold).2
      have hrise := hvote.term
      have heq' : v.1 = (L.proc.step input).1.node.term := heq
      have hcur := h.current v hold (by omega)
      have hcand := h.candidate v hold
      exact hcur.trans (hvote.vote (by omega) (by omega)).symm
    · exact (hnew v hnow).2.1
  · intro v hv
    rcases List.mem_append.1 hv with hold | hnow
    · exact h.candidate v hold
    · exact (hnew v hnow).2.2.1
  · intro v hv w hw heq
    rcases List.mem_append.1 hv with hv | hv <;> rcases List.mem_append.1 hw with hw | hw
    · exact h.unique v hv w hw heq
    · exact hboth v hv w hw heq
    · exact (hboth w hw v hv heq.symm).symm
    · rw [(hnew v hv).2.1, (hnew w hw).2.1]

theorem Life.VoteInv.restart {boost : Boost} {L : Life n} (h : L.VoteInv)
    (hlose : L.proc.node.dump = .initial) : (L.step boost .restart).VoteInv := by
  have hstep : L.step boost .restart =
      { L with proc := { node := Node.new L.proc.node.me Persister.new } } := by
    simp only [Life.step, Life.restart, Node.restart_eq]
  have hterm : L.proc.node.term = 0 := congrArg PersistNode.term hlose
  have hvote : L.proc.node.vote4 = -1 := congrArg PersistNode.vote4 hlose
  -- a vote granted in term 0 would still be known
  have hnone : ∀ v ∈ L.granted, False := by
    intro v hv
    have hpast := h.past v hv
    have hcur := h.current v hv (by omega)
    have hcand := h.candidate v hv
    omega
  rw [hstep]
  exact ⟨.new _, fun v hv => (hnone v hv).elim, fun v hv => (hnone v hv).elim,
    fun v hv => (hnone v hv).elim, le_rfl, fun v hv => (hnone v hv).elim⟩

/-- The request of candidate `c` for the vote of term 1. -/
def askVote (c : Int) : LifeInput 3 :=
  .handle (.requestVote { term := 1, candidateId := c, lastLogIndex := 0, lastLogTerm := 0 })

end RaftKVStorage
