import RaftKVStorage.Persister
import Mathlib.Logic.Function.Basic
import Mathlib.Data.List.FinRange

set_option autoImplicit false

/-! # The raft node

Class `raft`, one definition per member function. Every handler runs under `_M_mutex` from start to
end, so it is a function from the node to the node; a function that calls another node is split at
the call. Clocks and logging are left out: they only decide when the daemon thread acts. Indices and
terms are unbounded here; `RaftInt` has the same functions over `int`. -/

namespace RaftKVStorage

inductive Identity
  | follower
  | candidate
  | leader
deriving DecidableEq, Repr

inductive MatchLogResult
  | wrongIndex
  | mismatch
  | matched
deriving DecidableEq, Repr

def invalidUpdateNextIndex : Int := -2

/-- The members of class `raft` in a cluster of `n = _M_helpers.size()` nodes. -/
structure Node (n : ℕ) where
  me : Fin n
  logs : List LogEntry
  nextIndex : Fin n → Int
  matchIndex : Fin n → Int
  persister : Persister
  commitIndex : Int
  appliedIndex : Int
  lastSnapshotIndex : Int
  lastSnapshotTerm : Int
  term : Int
  vote4 : Int
  identity : Identity

/-- What a handler leaves behind: the node, its result, and the fault that cut it short, if any. -/
structure Outcome (n : ℕ) (α : Type) where
  node : Node n
  ret : α
  fault : Option Fault := none

variable {n : ℕ}

/-! ## Construction and persistence -/

/-- `_M_load`. -/
def Node.load (s : Node n) : Option PersistNode → Node n
  | none => s
  | some node =>
      { s with
        term := node.term
        vote4 := node.vote4
        lastSnapshotIndex := node.lastSnapshotIndex
        lastSnapshotTerm := node.lastSnapshotTerm
        logs := node.logs }

/-- The constructor `raft::raft`. -/
def Node.new (me : Fin n) (pstr : Persister) : Node n :=
  let s : Node n :=
    { me := me
      logs := []
      nextIndex := fun _ => 0
      matchIndex := fun _ => 0
      persister := pstr
      commitIndex := 0
      appliedIndex := 0
      lastSnapshotIndex := 0
      lastSnapshotTerm := 0
      term := 0
      vote4 := -1
      identity := .follower }
  let s := s.load pstr.state
  if s.lastSnapshotIndex > 0 then { s with appliedIndex := s.lastSnapshotIndex } else s

/-- `_M_dump`. -/
def Node.dump (s : Node n) : PersistNode :=
  { logs := s.logs
    term := s.term
    vote4 := s.vote4
    lastSnapshotIndex := s.lastSnapshotIndex
    lastSnapshotTerm := s.lastSnapshotTerm }

/-- `_M_persist`. -/
def Node.mPersist (s : Node n) : Node n := { s with persister := s.persister.persist s.dump }

/-- `_M_identityChange`. -/
def Node.identityChange (s : Node n) (iden : Identity) (term vote : Int) : Node n :=
  Node.mPersist { s with identity := iden, term := term, vote4 := vote }

/-! ## The log -/

/-- `_M_valideIndex`. -/
def valideIndex (min index max : Int) : Bool := min ≤ index && index ≤ max

/-- `_M_getLastLogIndex`. -/
def Node.getLastLogIndex (s : Node n) : Int :=
  match s.logs.getLast? with
  | none => s.lastSnapshotIndex
  | some entry => entry.index

/-- `_M_getLastLogTerm`. -/
def Node.getLastLogTerm (s : Node n) : Int :=
  match s.logs.getLast? with
  | none => s.lastSnapshotTerm
  | some entry => entry.term

/-- `_M_getNewCommandIndex`. -/
def Node.getNewCommandIndex (s : Node n) : Int := s.getLastLogIndex + 1

/-- `_M_getSlicesIndexFromLogIndex`. -/
def Node.getSlicesIndexFromLogIndex (s : Node n) (index : Int) : Int :=
  index - s.lastSnapshotIndex - 1

/-- `_M_logs[i]`, with `none` for an access outside the deque. -/
def Node.logAt (s : Node n) (i : Int) : Option LogEntry :=
  if 0 ≤ i then s.logs[i.toNat]? else none

/-- `_M_getLogTerm`. -/
def Node.getLogTerm (s : Node n) (index : Int) : Except Fault Int :=
  if index = s.lastSnapshotIndex then
    .ok s.lastSnapshotTerm
  else if !valideIndex s.lastSnapshotIndex index s.getLastLogIndex then
    .ok (-2)
  else
    match s.logAt (s.getSlicesIndexFromLogIndex index) with
    | some entry => .ok entry.term
    | none => .error .outOfRange

/-- `_M_matchLogTerm`. -/
def Node.matchLogTerm (s : Node n) (index term : Int) : Except Fault MatchLogResult :=
  match s.getLogTerm index with
  | .error fault => .error fault
  | .ok lastTerm =>
      .ok (if lastTerm = -2 then .wrongIndex else if lastTerm = term then .matched else .mismatch)

/-- `_M_receiveVote`. -/
def Node.receiveVote (s : Node n) (index term : Int) : Bool :=
  term > s.getLastLogTerm || (term = s.getLastLogTerm && index ≥ s.getLastLogIndex)

/-- `_M_getPreviousLogInfo`. -/
def Node.getPreviousLogInfo (s : Node n) (server : Fin n) : Except Fault (Int × Int) :=
  if s.nextIndex server = s.lastSnapshotIndex + 1 then
    .ok (s.lastSnapshotIndex, s.lastSnapshotTerm)
  else
    let index := s.nextIndex server - 1
    match s.logAt (s.getSlicesIndexFromLogIndex index) with
    | some entry => .ok (index, entry.term)
    | none => .error .outOfRange

/-! ## Calls from the application -/

/-- `execute`: the index and term given to the command, or `(-1, -1)`. -/
def Node.execute (s : Node n) (command : Bytes) : Node n × (Int × Int) :=
  if s.identity = .leader then
    let entry : LogEntry :=
      { command := command, term := s.term, index := s.getNewCommandIndex }
    (Node.mPersist { s with logs := s.logs ++ [entry] }, (entry.index, entry.term))
  else
    (s, (-1, -1))

/-- `persist(index, shot)`: drop the log up to `index`, which the snapshot `shot` covers. -/
def Node.persist (s : Node n) (index : Int) (shot : Bytes) : Outcome n Bool :=
  if !valideIndex (s.lastSnapshotIndex + 1) index s.commitIndex then
    ⟨s, false, none⟩
  else
    let lastPersistedSlicesIndex := s.getSlicesIndexFromLogIndex index
    match s.logAt lastPersistedSlicesIndex with
    | none => ⟨s, false, some .outOfRange⟩
    | some entry =>
        let logs :=
          if (s.logs.length : Int) - 1 = lastPersistedSlicesIndex then []
          else s.logs.drop (lastPersistedSlicesIndex + 1).toNat
        let s :=
          { s with
            lastSnapshotIndex := index
            lastSnapshotTerm := entry.term
            logs := logs
            commitIndex := if index > s.commitIndex then index else s.commitIndex
            appliedIndex := if index > s.appliedIndex then index else s.appliedIndex }
        ⟨{ s with persister := s.persister.persistBoth s.dump shot }, true, none⟩

/-- The loop of `_M_getApplyMessages`, `k` commands still to take. -/
def Node.takeApplyMessages (s : Node n) : ℕ → Outcome n (List ApplyMessage)
  | 0 => ⟨s, [], none⟩
  | k + 1 =>
      let s := { s with appliedIndex := s.appliedIndex + 1 }
      match s.logAt (s.getSlicesIndexFromLogIndex s.appliedIndex) with
      | none => ⟨s, [], some .outOfRange⟩
      | some entry =>
          let rest := s.takeApplyMessages k
          { rest with ret := .ofCommand s.appliedIndex entry.command :: rest.ret }

/-- `_M_getApplyMessages`. -/
def Node.getApplyMessages (s : Node n) : Outcome n (List ApplyMessage) :=
  if s.commitIndex > s.getLastLogIndex then
    ⟨s, [], some .commitAfterLastLog⟩
  else if s.appliedIndex > s.commitIndex then
    ⟨s, [], some .appliedAfterCommit⟩
  else
    s.takeApplyMessages (s.commitIndex - s.appliedIndex).toNat

/-! ## Elections -/

/-- `_L_stand4Election`: the request sent to every other node, unless this one leads. -/
def Node.stand4Election (s : Node n) : Node n × Option RequestVoteArgs :=
  if s.identity ≠ .leader then
    let s := s.identityChange .candidate (s.term + 1) s.me
    (s, some
      { term := s.term
        candidateId := s.me
        lastLogIndex := s.getLastLogIndex
        lastLogTerm := s.getLastLogTerm })
  else
    (s, none)

/-- `_L_requestVote`. -/
def Node.requestVote (s : Node n) (args : RequestVoteArgs) : Node n × RequestVoteReply :=
  if args.term < s.term then
    (s.mPersist, { term := s.term, state := .expire, voteGranted := false })
  else
    let s := if args.term > s.term then s.identityChange .follower args.term (-1) else s
    if !s.receiveVote args.lastLogIndex args.lastLogTerm then
      (s.mPersist, { term := s.term, state := .voted, voteGranted := false })
    else if -1 ≠ s.vote4 ∧ args.candidateId ≠ s.vote4 then
      (s.mPersist, { term := s.term, state := .voted, voteGranted := false })
    else
      let s := { s with vote4 := args.candidateId }
      (s.mPersist, { term := s.term, state := .normal, voteGranted := true })

/-- The node that `_L_sendRequestVote` makes of the winner of an election. -/
def Node.becomeLeader (s : Node n) : Node n :=
  Node.mPersist
    { s with
      identity := .leader
      nextIndex := fun _ => s.getLastLogIndex + 1
      matchIndex := Function.update (fun _ => 0) s.me s.getLastLogIndex }

/-- `_L_sendRequestVote` once the reply is there: the node and the shared vote counter. -/
def Node.sendRequestVote (s : Node n) (reply : RequestVoteReply) (voteNum : ℕ) : Node n × ℕ :=
  if reply.term > s.term then
    (s.identityChange .follower reply.term (-1), voteNum)
  else if reply.term < s.term ∨ reply.voteGranted = false then
    (s, voteNum)
  else if voteNum + 1 ≥ n / 2 + 1 then
    (if s.identity = .leader then s else s.becomeLeader, 0)
  else
    (s, voteNum + 1)

/-! ## Replication -/

/-- A thread that `_L_heartBeat` starts for one peer. -/
inductive Launch (n : ℕ)
  | sendSnapshot (server : Fin n)
  | sendAppendEntries (server : Fin n) (args : AppendEntriesArgs)

/-- The request `_L_heartBeat` builds for a peer whose next entry is still in the log. -/
def Node.heartBeatArgs (s : Node n) (server : Fin n) : Except Fault AppendEntriesArgs :=
  match s.getPreviousLogInfo server with
  | .error fault => .error fault
  | .ok (prevLogIndex, prevLogTerm) =>
      .ok
        { term := s.term
          leaderId := s.me
          prevLogIndex := prevLogIndex
          prevLogTerm := prevLogTerm
          entries :=
            if prevLogIndex = s.lastSnapshotIndex then s.logs
            else s.logs.drop (s.getSlicesIndexFromLogIndex prevLogIndex + 1).toNat
          leaderCommit := s.commitIndex }

/-- The loop of `_L_heartBeat` over the peers. The threads started before a fault stay started. -/
def Node.heartBeatPeers (s : Node n) : List (Fin n) → List (Launch n) × Option Fault
  | [] => ([], none)
  | i :: rest =>
      if i = s.me then
        s.heartBeatPeers rest
      else if s.nextIndex i ≤ s.lastSnapshotIndex then
        ((.sendSnapshot i) :: (s.heartBeatPeers rest).1, (s.heartBeatPeers rest).2)
      else
        match s.heartBeatArgs i with
        | .error fault => ([], some fault)
        | .ok args =>
            ((.sendAppendEntries i args) :: (s.heartBeatPeers rest).1, (s.heartBeatPeers rest).2)

/-- `_L_heartBeat`. -/
def Node.heartBeat (s : Node n) : List (Launch n) × Option Fault :=
  if s.identity = .leader then s.heartBeatPeers (List.finRange n) else ([], none)

/-- The majority branch of `_L_sendAppendEntries`. -/
def Node.updateCommitIndex (s : Node n) (args : AppendEntriesArgs) : Node n :=
  match args.entries.getLast? with
  | none => s
  | some entry =>
      if entry.term = s.term then
        { s with commitIndex := max s.commitIndex (args.prevLogIndex + args.entries.length) }
      else s

/-- What `_L_sendAppendEntries` notes about a peer that accepted a request. -/
def Node.recordMatch (s : Node n) (server : Fin n) (args : AppendEntriesArgs) : Node n :=
  let matchIndex := max (s.matchIndex server) (args.prevLogIndex + args.entries.length)
  { s with
    matchIndex := Function.update s.matchIndex server matchIndex
    nextIndex := Function.update s.nextIndex server (matchIndex + 1) }

/-- `_L_sendAppendEntries` once the reply is there: the node and the counter of the round. -/
def Node.sendAppendEntries (s : Node n) (server : Fin n) (args : AppendEntriesArgs)
    (reply : AppendEntriesReply) (appendNum : ℕ) : Outcome n ℕ :=
  if reply.state = .disconnected then
    ⟨s, appendNum, none⟩
  else if reply.term > s.term then
    ⟨s.identityChange .follower reply.term (-1), appendNum, none⟩
  else if reply.term < s.term ∨ s.identity ≠ .leader then
    ⟨s, appendNum, none⟩
  else if reply.success = false then
    if reply.updateNextIndex ≠ invalidUpdateNextIndex then
      ⟨{ s with nextIndex := Function.update s.nextIndex server reply.updateNextIndex },
        appendNum, none⟩
    else
      ⟨s, appendNum, none⟩
  else
    let s := s.recordMatch server args
    let lastLogIndex := s.getLastLogIndex
    if s.nextIndex server > lastLogIndex + 1 then
      ⟨s, appendNum + 1, some .nextIndexAfterLastLog⟩
    else
      let overHalf := appendNum + 1 ≥ n / 2 + 1
      let s := if overHalf then s.updateCommitIndex args else s
      ⟨s, if overHalf then 0 else appendNum + 1,
        if s.commitIndex > lastLogIndex then some .leaderCommitAfterLastLog else none⟩

/-- The loop of `_L_appendEntries` that looks for where the conflicting term starts: `k` indices
    from `_M_lastSnapshotIndex` up are still to be compared. -/
def Node.rollback (s : Node n) (prevLogIndex : Int) : ℕ → Except Fault Int
  | 0 => .ok prevLogIndex
  | k + 1 => do
      let index := s.lastSnapshotIndex + k
      let term ← s.getLogTerm index
      let prevTerm ← s.getLogTerm prevLogIndex
      if term ≠ prevTerm then .ok (index + 1) else s.rollback prevLogIndex k

/-- The loop of `_L_appendEntries` over the entries of the request. -/
def Node.updateLogs (s : Node n) (leaderId : Int) : List LogEntry → Node n × Option Fault
  | [] => (s, none)
  | log :: rest =>
      if log.index > s.getLastLogIndex then
        Node.updateLogs { s with logs := s.logs ++ [log] } leaderId rest
      else
        let slicesIndex := s.getSlicesIndexFromLogIndex log.index
        match s.logAt slicesIndex with
        | none => (s, some .outOfRange)
        | some own =>
            if own.term = log.term then
              if own.command ≠ log.command then
                (s, some
                  (.differentCommands s.me own.command leaderId log.command log.term log.index))
              else
                s.updateLogs leaderId rest
            else
              Node.updateLogs { s with logs := s.logs.set slicesIndex.toNat log } leaderId rest

/-- The first lines of `_L_appendEntries` and `_L_installSnapshot`: follow the sender. -/
def Node.followTerm (s : Node n) (term : Int) : Node n :=
  let s := if term > s.term then s.identityChange .follower term (-1) else s
  { s with identity := .follower }

/-- `_L_appendEntries`. `_M_persist` is deferred to every exit but the first. -/
def Node.appendEntries (s : Node n) (args : AppendEntriesArgs) : Outcome n AppendEntriesReply :=
  let reply : AppendEntriesReply := { state := .connected }
  if args.term < s.term then
    ⟨s, { reply with success := false, term := s.term, updateNextIndex := invalidUpdateNextIndex },
      none⟩
  else
    let s := s.followTerm args.term
    let reply := { reply with term := s.term }
    if args.prevLogIndex > s.getLastLogIndex then
      ⟨s.mPersist, { reply with success := false, updateNextIndex := s.getLastLogIndex + 1 }, none⟩
    else if args.prevLogIndex < s.lastSnapshotIndex then
      ⟨s.mPersist, { reply with success := false, updateNextIndex := s.lastSnapshotIndex + 1 }, none⟩
    else
      match s.matchLogTerm args.prevLogIndex args.prevLogTerm with
      | .error fault => ⟨s.mPersist, reply, some fault⟩
      | .ok .matched =>
          match s.updateLogs args.leaderId args.entries with
          | (s, some fault) => ⟨s.mPersist, reply, some fault⟩
          | (s, none) =>
              let s :=
                if args.leaderCommit > s.commitIndex then
                  { s with commitIndex := min args.leaderCommit s.getLastLogIndex }
                else s
              ⟨s.mPersist, { reply with success := true }, none⟩
      | .ok _ =>
          match s.rollback args.prevLogIndex (args.prevLogIndex - s.lastSnapshotIndex + 1).toNat with
          | .error fault => ⟨s.mPersist, reply, some fault⟩
          | .ok index => ⟨s.mPersist, { reply with success := false, updateNextIndex := index }, none⟩

/-! ## Snapshots -/

/-- `_L_sendSnapshot` up to the call: the request, read off the node as it is then. -/
def Node.snapshotArgs (s : Node n) : InstallSnapshotArgs :=
  { leaderId := s.me
    term := s.term
    lastIndex := s.lastSnapshotIndex
    lastTerm := s.lastSnapshotTerm
    data := s.persister.loadSnapshot }

/-- `_L_sendSnapshot` once the reply is there. -/
def Node.sendSnapshot (s : Node n) (server : Fin n) (args : InstallSnapshotArgs)
    (reply : InstallSnapshotReply) : Node n :=
  if reply.term > s.term then
    s.identityChange .follower reply.term (-1)
  else if s.identity ≠ .leader ∨ args.term ≠ s.term then
    s
  else
    { s with
      matchIndex := Function.update s.matchIndex server args.lastIndex
      nextIndex := Function.update s.nextIndex server (args.lastIndex + 1) }

/-- `_L_installSnapshot`: the reply, and the message its detached thread pushes, if any. -/
def Node.installSnapshot (s : Node n) (args : InstallSnapshotArgs) :
    Outcome n (InstallSnapshotReply × Option ApplyMessage) :=
  if args.term < s.term then
    ⟨s, ({ term := s.term }, none), none⟩
  else
    let s := s.followTerm args.term
    if args.lastIndex ≤ s.lastSnapshotIndex then
      ⟨s, ({}, none), none⟩
    else
      let slicesIndex := s.getSlicesIndexFromLogIndex args.lastIndex
      if s.getLastLogIndex > args.lastIndex ∧ slicesIndex + 1 > s.logs.length then
        ⟨s, ({}, none), some .outOfRange⟩
      else
        let logs :=
          if s.getLastLogIndex > args.lastIndex then s.logs.drop (slicesIndex + 1).toNat else []
        let s :=
          { s with
            logs := logs
            commitIndex := max s.commitIndex args.lastIndex
            appliedIndex := max s.appliedIndex args.lastIndex
            lastSnapshotIndex := args.lastIndex
            lastSnapshotTerm := args.lastTerm }
        ⟨{ s with persister := s.persister.persistBoth s.dump args.data },
          ({ term := s.term }, some (.ofSnapshot args.lastIndex args.lastTerm args.data)), none⟩

end RaftKVStorage
