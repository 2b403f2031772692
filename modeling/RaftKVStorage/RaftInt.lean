import RaftKVStorage.Cluster
import RaftKVStorage.Theory.WrapInt

set_option autoImplicit false

/-! # The raft node over `int`

The member functions of class `raft` once more, with the numbers of the source: every index and term
is an `int` of 32 bits, and every sum of the source is reduced to one. Overflow wraps around, as in
the code a compiler makes at `-O0`, the option of the server's target; the language leaves it
undefined. `Node` and `Proc` are the types of the model over unbounded integers, and a function that
adds nothing up (`_L_requestVote`, `_M_receiveVote`, the reading of a snapshot) is not repeated. -/

namespace RaftKVStorage

variable {n : ℕ}

namespace Machine

open WrapInt (int32)

/-! ## The log -/

/-- `_M_getNewCommandIndex`. -/
def getNewCommandIndex (s : Node n) : Int := int32 (s.getLastLogIndex + 1)

/-- `_M_getSlicesIndexFromLogIndex`. Both differences are `int`s; reducing the second does for both. -/
def getSlicesIndexFromLogIndex (s : Node n) (index : Int) : Int :=
  int32 (index - s.lastSnapshotIndex - 1)

/-- `_M_getLogTerm`. -/
def getLogTerm (s : Node n) (index : Int) : Except Fault Int :=
  if index = s.lastSnapshotIndex then
    .ok s.lastSnapshotTerm
  else if !valideIndex s.lastSnapshotIndex index s.getLastLogIndex then
    .ok (-2)
  else
    match s.logAt (getSlicesIndexFromLogIndex s index) with
    | some entry => .ok entry.term
    | none => .error .outOfRange

/-- `_M_matchLogTerm`. -/
def matchLogTerm (s : Node n) (index term : Int) : Except Fault MatchLogResult :=
  match getLogTerm s index with
  | .error fault => .error fault
  | .ok lastTerm =>
      .ok (if lastTerm = -2 then .wrongIndex else if lastTerm = term then .matched else .mismatch)

/-- `_M_getPreviousLogInfo`. -/
def getPreviousLogInfo (s : Node n) (server : Fin n) : Except Fault (Int × Int) :=
  if s.nextIndex server = int32 (s.lastSnapshotIndex + 1) then
    .ok (s.lastSnapshotIndex, s.lastSnapshotTerm)
  else
    let index := int32 (s.nextIndex server - 1)
    match s.logAt (getSlicesIndexFromLogIndex s index) with
    | some entry => .ok (index, entry.term)
    | none => .error .outOfRange

/-! ## Calls from the application -/

/-- `execute`. -/
def execute (s : Node n) (command : Bytes) : Node n × (Int × Int) :=
  if s.identity = .leader then
    let entry : LogEntry :=
      { command := command, term := s.term, index := getNewCommandIndex s }
    (Node.mPersist { s with logs := s.logs ++ [entry] }, (entry.index, entry.term))
  else
    (s, (-1, -1))

/-- `persist(index, shot)`. The snapshot index is set before the log is read at the slot of `index`;
    the end of the erased range is an iterator, which does not wrap. -/
def persist (s : Node n) (index : Int) (shot : Bytes) : Outcome n Bool :=
  if !valideIndex (int32 (s.lastSnapshotIndex + 1)) index s.commitIndex then
    ⟨s, false, none⟩
  else
    let lastPersistedSlicesIndex := getSlicesIndexFromLogIndex s index
    match s.logAt lastPersistedSlicesIndex with
    | none => ⟨{ s with lastSnapshotIndex := index }, false, some .outOfRange⟩
    | some entry =>
        let logs :=
          if (s.logs.length : Int) - 1 = lastPersistedSlicesIndex then []
          else s.logs.drop (lastPersistedSlicesIndex + 1).toNat
        let s :=
          { s with
            lastSnapshotIndex := index
            lastSnapshotTerm := entry.term
            logs := logs
            commitIndex := if index > s.commitIndex then index else s.commitIndex
            appliedIndex := if index > s.appliedIndex then index else s.appliedIndex }
        ⟨{ s with persister := s.persister.persistBoth s.dump shot }, true, none⟩

/-- The loop of `_M_getApplyMessages`, `k` commands still to take. -/
def takeApplyMessages (s : Node n) : ℕ → Outcome n (List ApplyMessage)
  | 0 => ⟨s, [], none⟩
  | k + 1 =>
      let s := { s with appliedIndex := int32 (s.appliedIndex + 1) }
      match s.logAt (getSlicesIndexFromLogIndex s s.appliedIndex) with
      | none => ⟨s, [], some .outOfRange⟩
      | some entry =>
          let rest := takeApplyMessages s k
          { rest with ret := .ofCommand s.appliedIndex entry.command :: rest.ret }

/-- `_M_getApplyMessages`. -/
def getApplyMessages (s : Node n) : Outcome n (List ApplyMessage) :=
  if s.commitIndex > s.getLastLogIndex then
    ⟨s, [], some .commitAfterLastLog⟩
  else if s.appliedIndex > s.commitIndex then
    ⟨s, [], some .appliedAfterCommit⟩
  else
    takeApplyMessages s (s.commitIndex - s.appliedIndex).toNat

/-! ## Elections -/

/-- `_L_stand4Election`. -/
def stand4Election (s : Node n) : Node n × Option RequestVoteArgs :=
  if s.identity ≠ .leader then
    let s := s.identityChange .candidate (int32 (s.term + 1)) s.me
    (s, some
      { term := s.term
        candidateId := s.me
        lastLogIndex := s.getLastLogIndex
        lastLogTerm := s.getLastLogTerm })
  else
    (s, none)

/-- The node that `_L_sendRequestVote` makes of the winner of an election. -/
def becomeLeader (s : Node n) : Node n :=
  Node.mPersist
    { s with
      identity := .leader
      nextIndex := fun _ => int32 (s.getLastLogIndex + 1)
      matchIndex := Function.update (fun _ => 0) s.me s.getLastLogIndex }

/-- `_L_sendRequestVote` once the reply is there. The counter stays below the number of nodes. -/
def sendRequestVote (s : Node n) (reply : RequestVoteReply) (voteNum : ℕ) : Node n × ℕ :=
  if reply.term > s.term then
    (s.identityChange .follower reply.term (-1), voteNum)
  else if reply.term < s.term ∨ reply.voteGranted = false then
    (s, voteNum)
  else if voteNum + 1 ≥ n / 2 + 1 then
    (if s.identity = .leader then s else becomeLeader s, 0)
  else
    (s, voteNum + 1)

/-! ## Replication -/

/-- The request `_L_heartBeat` builds for a peer whose next entry is still in the log. -/
def heartBeatArgs (s : Node n) (server : Fin n) : Except Fault AppendEntriesArgs :=
  match getPreviousLogInfo s server with
  | .error fault => .error fault
  | .ok (prevLogIndex, prevLogTerm) =>
      .ok
        { term := s.term
          leaderId := s.me
          prevLogIndex := prevLogIndex
          prevLogTerm := prevLogTerm
          entries :=
            if prevLogIndex = s.lastSnapshotIndex then s.logs
            else s.logs.drop (int32 (getSlicesIndexFromLogIndex s prevLogIndex + 1)).toNat
          leaderCommit := s.commitIndex }

/-- The loop of `_L_heartBeat` over the peers. -/
def heartBeatPeers (s : Node n) : List (Fin n) → List (Launch n) × Option Fault
  | [] => ([], none)
  | i :: rest =>
      if i = s.me then
        heartBeatPeers s rest
      else if s.nextIndex i ≤ s.lastSnapshotIndex then
        ((.sendSnapshot i) :: (heartBeatPeers s rest).1, (heartBeatPeers s rest).2)
      else
        match heartBeatArgs s i with
        | .error fault => ([], some fault)
        | .ok args =>
            ((.sendAppendEntries i args) :: (heartBeatPeers s rest).1, (heartBeatPeers s rest).2)

/-- `_L_heartBeat`. -/
def heartBeat (s : Node n) : List (Launch n) × Option Fault :=
  if s.identity = .leader then heartBeatPeers s (List.finRange n) else ([], none)

/-- The majority branch of `_L_sendAppendEntries`. -/
def updateCommitIndex (s : Node n) (args : AppendEntriesArgs) : Node n :=
  match args.entries.getLast? with
  | none => s
  | some entry =>
      if entry.term = s.term then
        { s with
          commitIndex := max s.commitIndex (int32 (args.prevLogIndex + args.entries.length)) }
      else s

/-- What `_L_sendAppendEntries` notes about a peer that accepted a request. -/
def recordMatch (s : Node n) (server : Fin n) (args : AppendEntriesArgs) : Node n :=
  let matchIndex := max (s.matchIndex server) (int32 (args.prevLogIndex + args.entries.length))
  { s with
    matchIndex := Function.update s.matchIndex server matchIndex
    nextIndex := Function.update s.nextIndex server (int32 (matchIndex + 1)) }

/-- `_L_sendAppendEntries` once the reply is there: the node and the counter of the round. -/
def sendAppendEntries (s : Node n) (server : Fin n) (args : AppendEntriesArgs)
    (reply : AppendEntriesReply) (appendNum : ℕ) : Outcome n ℕ :=
  if reply.state = .disconnected then
    ⟨s, appendNum, none⟩
  else if reply.term > s.term then
    ⟨s.identityChange .follower reply.term (-1), appendNum, none⟩
  else if reply.term < s.term ∨ s.identity ≠ .leader then
    ⟨s, appendNum, none⟩
  else if reply.success = false then
    if reply.updateNextIndex ≠ invalidUpdateNextIndex then
      ⟨{ s with nextIndex := Function.update s.nextIndex server reply.updateNextIndex },
        appendNum, none⟩
    else
      ⟨s, appendNum, none⟩
  else
    let s := recordMatch s server args
    let lastLogIndex := s.getLastLogIndex
    if s.nextIndex server > int32 (lastLogIndex + 1) then
      ⟨s, appendNum + 1, some .nextIndexAfterLastLog⟩
    else
      let overHalf := appendNum + 1 ≥ n / 2 + 1
      let s := if overHalf then updateCommitIndex s args else s
      ⟨s, if overHalf then 0 else appendNum + 1,
        if s.commitIndex > lastLogIndex then some .leaderCommitAfterLastLog else none⟩

/-- The loop of `_L_appendEntries` that looks for where the conflicting term starts. -/
def rollback (s : Node n) (prevLogIndex : Int) : ℕ → Except Fault Int
  | 0 => .ok prevLogIndex
  | k + 1 => do
      let index := s.lastSnapshotIndex + k
      let term ← getLogTerm s index
      let prevTerm ← getLogTerm s prevLogIndex
      if term ≠ prevTerm then .ok (int32 (index + 1)) else rollback s prevLogIndex k

/-- The loop of `_L_appendEntries` over the entries of the request. -/
def updateLogs (s : Node n) (leaderId : Int) : List LogEntry → Node n × Option Fault
  | [] => (s, none)
  | log :: rest =>
      if log.index > s.getLastLogIndex then
        updateLogs { s with logs := s.logs ++ [log] } leaderId rest
      else
        let slicesIndex := getSlicesIndexFromLogIndex s log.index
        match s.logAt slicesIndex with
        | none => (s, some .outOfRange)
        | some own =>
            if own.term = log.term then
              if own.command ≠ log.command then
                (s, some
                  (.differentCommands s.me own.command leaderId log.command log.term log.index))
              else
                updateLogs s leaderId rest
            else
              updateLogs { s with logs := s.logs.set slicesIndex.toNat log } leaderId rest

/-- `_L_appendEntries`. `_M_persist` is deferred to every exit but the first. -/
def appendEntries (s : Node n) (args : AppendEntriesArgs) : Outcome n AppendEntriesReply :=
  let reply : AppendEntriesReply := { state := .connected }
  if args.term < s.term then
    ⟨s, { reply with success := false, term := s.term, updateNextIndex := invalidUpdateNextIndex },
      none⟩
  else
    let s := s.followTerm args.term
    let reply := { reply with term := s.term }
    if args.prevLogIndex > s.getLastLogIndex then
      ⟨s.mPersist, { reply with success := false, updateNextIndex := int32 (s.getLastLogIndex + 1) },
        none⟩
    else if args.prevLogIndex < s.lastSnapshotIndex then
      ⟨s.mPersist, { reply with success := false, updateNextIndex := int32 (s.lastSnapshotIndex + 1) },
        none⟩
    else
      match matchLogTerm s args.prevLogIndex args.prevLogTerm with
      | .error fault => ⟨s.mPersist, reply, some fault⟩
      | .ok .matched =>
          match updateLogs s args.leaderId args.entries with
          | (s, some fault) => ⟨s.mPersist, reply, some fault⟩
          | (s, none) =>
              let s :=
                if args.leaderCommit > s.commitIndex then
                  { s with commitIndex := min args.leaderCommit s.getLastLogIndex }
                else s
              ⟨s.mPersist, { reply with success := true }, none⟩
      | .ok _ =>
          match rollback s args.prevLogIndex (args.prevLogIndex - s.lastSnapshotIndex + 1).toNat with
          | .error fault => ⟨s.mPersist, reply, some fault⟩
          | .ok index => ⟨s.mPersist, { reply with success := false, updateNextIndex := index }, none⟩

/-! ## Snapshots -/

/-- `_L_sendSnapshot` once the reply is there. -/
def sendSnapshot (s : Node n) (server : Fin n) (args : InstallSnapshotArgs)
    (reply : InstallSnapshotReply) : Node n :=
  if reply.term > s.term then
    s.identityChange .follower reply.term (-1)
  else if s.identity ≠ .leader ∨ args.term ≠ s.term then
    s
  else
    { s with
      matchIndex := Function.update s.matchIndex server args.lastIndex
      nextIndex := Function.update s.nextIndex server (int32 (args.lastIndex + 1)) }

/-- `_L_installSnapshot`. -/
def installSnapshot (s : Node n) (args : InstallSnapshotArgs) :
    Outcome n (InstallSnapshotReply × Option ApplyMessage) :=
  if args.term < s.term then
    ⟨s, ({ term := s.term }, none), none⟩
  else
    let s := s.followTerm args.term
    if args.lastIndex ≤ s.lastSnapshotIndex then
      ⟨s, ({}, none), none⟩
    else
      let slicesIndex := getSlicesIndexFromLogIndex s args.lastIndex
      if s.getLastLogIndex > args.lastIndex ∧
          (slicesIndex + 1 < 0 ∨ slicesIndex + 1 > s.logs.length) then
        ⟨s, ({}, none), some .outOfRange⟩
      else
        let logs :=
          if s.getLastLogIndex > args.lastIndex then s.logs.drop (slicesIndex + 1).toNat else []
        let s :=
          { s with
            logs := logs
            commitIndex := max s.commitIndex args.lastIndex
            appliedIndex := max s.appliedIndex args.lastIndex
            lastSnapshotIndex := args.lastIndex
            lastSnapshotTerm := args.lastTerm }
        ⟨{ s with persister := s.persister.persistBoth s.dump args.data },
          ({ term := s.term }, some (.ofSnapshot args.lastIndex args.lastTerm args.data)), none⟩

/-! ## The process -/

/-- The threads and the counter of an election. -/
def stand4ElectionProc (P : Proc n) : Proc n :=
  match stand4Election P.node with
  | (s, none) => { P with node := s }
  | (s, some args) =>
      { P with
        node := s
        voteNums := P.voteNums ++ [1]
        voteCalls := P.voteCalls ++ ((List.finRange n).filter (· ≠ P.node.me)).map fun i =>
          { server := i, args := args, voteNum := P.voteNums.length } }

/-- The threads and the counter of a heartbeat round. -/
def heartBeatProc (P : Proc n) : Proc n :=
  if P.node.identity = .leader then
    { P with
      appendNums := P.appendNums ++ [1]
      appendCalls := P.appendCalls ++
        (heartBeat P.node).1.filterMap (Launch.toAppendCall P.appendNums.length)
      snapshotCalls := P.snapshotCalls ++ (heartBeat P.node).1.filterMap Launch.toSnapshotCall }
  else P

/-- The `k`-th appendEntries call returns with `reply`. -/
def appendReply (P : Proc n) (k : ℕ) (reply : AppendEntriesReply) : Proc n × Option Fault :=
  match P.appendCalls[k]? with
  | none => (P, none)
  | some call =>
      let o := sendAppendEntries P.node call.server call.args reply
        (P.appendNums.getD call.appendNum 0)
      ({ P with
        node := o.node
        appendNums := P.appendNums.set call.appendNum o.ret
        appendCalls := P.appendCalls.eraseIdx k }, o.fault)

/-- The `k`-th requestVote call returns with `reply`. -/
def voteReply (P : Proc n) (k : ℕ) (reply : RequestVoteReply) : Proc n :=
  match P.voteCalls[k]? with
  | none => P
  | some call =>
      let o := sendRequestVote P.node reply (P.voteNums.getD call.voteNum 0)
      { P with
        node := o.1
        voteNums := P.voteNums.set call.voteNum o.2
        voteCalls := P.voteCalls.eraseIdx k }

/-- The `k`-th installSnapshot call returns with `reply`. -/
def snapshotReply (P : Proc n) (k : ℕ) (reply : InstallSnapshotReply) : Proc n :=
  match P.snapshotCalls[k]? with
  | some ⟨server, some args, _⟩ =>
      { P with
        node := sendSnapshot P.node server args reply
        snapshotCalls := P.snapshotCalls.eraseIdx k }
  | _ => P

/-- One critical section of a process, and the fault that cut it short, if any. -/
def step (P : Proc n) : Input n → Proc n × Option Fault
  | .execute command => ({ P with node := (execute P.node command).1 }, none)
  | .persist index shot =>
      ({ P with node := (persist P.node index shot).node }, (persist P.node index shot).fault)
  | .getApplyMessages =>
      ({ P with node := (getApplyMessages P.node).node }, (getApplyMessages P.node).fault)
  | .stand4Election => (stand4ElectionProc P, none)
  | .heartBeat => (heartBeatProc P, (heartBeat P.node).2)
  | .requestVote args => ({ P with node := (P.node.requestVote args).1 }, none)
  | .appendEntries args =>
      ({ P with node := (appendEntries P.node args).node }, (appendEntries P.node args).fault)
  | .installSnapshot args =>
      ({ P with node := (installSnapshot P.node args).node }, (installSnapshot P.node args).fault)
  | .readSnapshot k => (P.readSnapshot k, none)
  | .appendReply k reply => appendReply P k reply
  | .voteReply k reply => (voteReply P k reply, none)
  | .snapshotReply k reply => (snapshotReply P k reply, none)

end Machine

/-! ## What an `int` holds -/

open WrapInt (InRange)

/-- Every number of a request or reply is an `int32` of its protobuf message. The index `persist` is
    called with only matters up to the commit index. -/
def Input.InInt : Input n → Prop
  | .requestVote args =>
      InRange args.term ∧ InRange args.candidateId ∧ InRange args.lastLogIndex ∧
        InRange args.lastLogTerm
  | .appendEntries args =>
      (InRange args.term ∧ InRange args.leaderId ∧ InRange args.prevLogIndex ∧
        InRange args.prevLogTerm ∧ InRange args.leaderCommit) ∧
      ∀ e ∈ args.entries, InRange e.term ∧ InRange e.index
  | .installSnapshot args =>
      InRange args.leaderId ∧ InRange args.term ∧ InRange args.lastIndex ∧ InRange args.lastTerm
  | .appendReply _ reply => InRange reply.term ∧ InRange reply.updateNextIndex
  | .voteReply _ reply => InRange reply.term
  | .snapshotReply _ reply => InRange reply.term
  | _ => True

instance : (input : Input n) → Decidable input.InInt
  | .requestVote args => inferInstanceAs (Decidable (InRange args.term ∧ InRange args.candidateId ∧
      InRange args.lastLogIndex ∧ InRange args.lastLogTerm))
  | .appendEntries args => inferInstanceAs (Decidable ((InRange args.term ∧ InRange args.leaderId ∧
      InRange args.prevLogIndex ∧ InRange args.prevLogTerm ∧ InRange args.leaderCommit) ∧
      ∀ e ∈ args.entries, InRange e.term ∧ InRange e.index))
  | .installSnapshot args => inferInstanceAs (Decidable (InRange args.leaderId ∧
      InRange args.term ∧ InRange args.lastIndex ∧ InRange args.lastTerm))
  | .appendReply _ reply =>
      inferInstanceAs (Decidable (InRange reply.term ∧ InRange reply.updateNextIndex))
  | .voteReply _ reply => inferInstanceAs (Decidable (InRange reply.term))
  | .snapshotReply _ reply => inferInstanceAs (Decidable (InRange reply.term))
  | .execute _ | .persist _ _ | .getApplyMessages | .stand4Election | .heartBeat
  | .readSnapshot _ => .isTrue trivial

/-- No sum of the step is past the last `int`. What `execute`, an accepted appendEntries reply and the
    vote that wins an election put one behind is the last log index; `persist` and the answer to a
    request from before the snapshot add one to the snapshot index, a candidate to its term, and an
    installSnapshot reply to the index that was sent. -/
def Proc.NoOverflow (P : Proc n) : Input n → Prop
  | .execute _ => P.node.identity = .leader → P.node.getLastLogIndex < 2147483647
  | .persist _ _ => P.node.lastSnapshotIndex < 2147483647
  | .stand4Election => P.node.identity ≠ .leader → P.node.term < 2147483647
  | .appendEntries args => P.node.term ≤ args.term → args.prevLogIndex < P.node.lastSnapshotIndex →
      P.node.lastSnapshotIndex < 2147483647
  | .appendReply _ reply => reply.state = .connected → reply.term = P.node.term →
      P.node.identity = .leader → reply.success = true → P.node.getLastLogIndex < 2147483647
  | .voteReply k reply => reply.term = P.node.term → reply.voteGranted = true →
      (∃ call ∈ P.voteCalls[k]?, n / 2 ≤ P.voteNums.getD call.voteNum 0) →
      P.node.identity ≠ .leader → P.node.getLastLogIndex < 2147483647
  | .snapshotReply k reply => reply.term ≤ P.node.term → P.node.identity = .leader →
      ∀ call ∈ P.snapshotCalls[k]?, ∀ args ∈ call.args, args.term = P.node.term →
        args.lastIndex < 2147483647
  | _ => True

instance (P : Proc n) : (input : Input n) → Decidable (P.NoOverflow input)
  | .execute _ => inferInstanceAs (Decidable (_ → _))
  | .persist _ _ => inferInstanceAs (Decidable (_ < _))
  | .stand4Election => inferInstanceAs (Decidable (_ → _))
  | .appendEntries _ => inferInstanceAs (Decidable (_ → _ → _))
  | .appendReply _ _ => inferInstanceAs (Decidable (_ → _ → _ → _ → _))
  | .voteReply _ _ => inferInstanceAs (Decidable (_ → _ → _ → _ → _))
  | .snapshotReply k reply => inferInstanceAs (Decidable (reply.term ≤ P.node.term →
      P.node.identity = .leader → ∀ call ∈ P.snapshotCalls[k]?, ∀ args ∈ call.args,
        args.term = P.node.term → args.lastIndex < 2147483647))
  | .getApplyMessages | .heartBeat | .requestVote _ | .installSnapshot _ | .readSnapshot _ =>
      .isTrue trivial

end RaftKVStorage
