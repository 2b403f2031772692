import RaftKVStorage.Raft
import RaftKVStorage.Theory.Run

set_option autoImplicit false

/-! # Processes and the cluster

A process is a node together with the threads it has started: every remote call is a thread of its
own, holding the arguments it sent, the counter it shares with the other calls of its round, and the
reply once there is one. `Proc.step` is one critical section of a process on arbitrary input;
`Cluster.step` lets the requests and replies of `n` processes be the inputs. A request or reply may
stay under way for ever, which is how one is lost. -/

namespace RaftKVStorage

/-- A thread in `_L_sendAppendEntries`; `appendNum` is its counter's place in `Proc.appendNums`. -/
structure AppendCall (n : ℕ) where
  server : Fin n
  args : AppendEntriesArgs
  appendNum : ℕ
  reply : Option AppendEntriesReply := none

/-- A thread in `_L_sendRequestVote`; `voteNum` is its counter's place in `Proc.voteNums`. -/
structure VoteCall (n : ℕ) where
  server : Fin n
  args : RequestVoteArgs
  voteNum : ℕ
  reply : Option RequestVoteReply := none

/-- A thread in `_L_sendSnapshot`, without arguments until it has read them off the node. -/
structure SnapshotCall (n : ℕ) where
  server : Fin n
  args : Option InstallSnapshotArgs := none
  reply : Option InstallSnapshotReply := none

/-- A node, the counters its threads share (`std::make_shared<int>`) and its threads. -/
structure Proc (n : ℕ) where
  node : Node n
  appendNums : List ℕ := []
  voteNums : List ℕ := []
  appendCalls : List (AppendCall n) := []
  voteCalls : List (VoteCall n) := []
  snapshotCalls : List (SnapshotCall n) := []

variable {n : ℕ}

/-- A freshly started process. -/
def Proc.new (me : Fin n) : Proc n := { node := Node.new me Persister.new }

/-- Everything that can happen at a process. -/
inductive Input (n : ℕ)
  | execute (command : Bytes)
  | persist (index : Int) (shot : Bytes)
  | getApplyMessages
  | stand4Election
  | heartBeat
  | requestVote (args : RequestVoteArgs)
  | appendEntries (args : AppendEntriesArgs)
  | installSnapshot (args : InstallSnapshotArgs)
  | readSnapshot (k : ℕ)
  | appendReply (k : ℕ) (reply : AppendEntriesReply)
  | voteReply (k : ℕ) (reply : RequestVoteReply)
  | snapshotReply (k : ℕ) (reply : InstallSnapshotReply)

/-- The appendEntries threads among those a heartbeat starts, counting in cell `cell`. -/
def Launch.toAppendCall (cell : ℕ) : Launch n → Option (AppendCall n)
  | .sendAppendEntries server args => some { server := server, args := args, appendNum := cell }
  | .sendSnapshot _ => none

/-- The snapshot threads among those a heartbeat starts. -/
def Launch.toSnapshotCall : Launch n → Option (SnapshotCall n)
  | .sendAppendEntries _ _ => none
  | .sendSnapshot server => some { server := server }

/-- The threads and the counter of an election. -/
def Proc.stand4Election (P : Proc n) : Proc n :=
  match P.node.stand4Election with
  | (s, none) => { P with node := s }
  | (s, some args) =>
      { P with
        node := s
        voteNums := P.voteNums ++ [1]
        voteCalls := P.voteCalls ++ ((List.finRange n).filter (· ≠ P.node.me)).map fun i =>
          { server := i, args := args, voteNum := P.voteNums.length } }

/-- The threads and the counter of a heartbeat round. -/
def Proc.heartBeat (P : Proc n) : Proc n :=
  if P.node.identity = .leader then
    { P with
      appendNums := P.appendNums ++ [1]
      appendCalls := P.appendCalls ++
        P.node.heartBeat.1.filterMap (Launch.toAppendCall P.appendNums.length)
      snapshotCalls := P.snapshotCalls ++ P.node.heartBeat.1.filterMap Launch.toSnapshotCall }
  else P

/-- The thread of the `k`-th snapshot call reads its arguments. -/
def Proc.readSnapshot (P : Proc n) (k : ℕ) : Proc n :=
  match P.snapshotCalls[k]? with
  | some ⟨server, none, reply⟩ =>
      { P with snapshotCalls := P.snapshotCalls.set k ⟨server, some P.node.snapshotArgs, reply⟩ }
  | _ => P

/-- The `k`-th appendEntries call returns with `reply`. -/
def Proc.appendReply (P : Proc n) (k : ℕ) (reply : AppendEntriesReply) : Proc n × Option Fault :=
  match P.appendCalls[k]? with
  | none => (P, none)
  | some call =>
      let o := P.node.sendAppendEntries call.server call.args reply
        (P.appendNums.getD call.appendNum 0)
      ({ P with
        node := o.node
        appendNums := P.appendNums.set call.appendNum o.ret
        appendCalls := P.appendCalls.eraseIdx k }, o.fault)

/-- The `k`-th requestVote call returns with `reply`. -/
def Proc.voteReply (P : Proc n) (k : ℕ) (reply : RequestVoteReply) : Proc n :=
  match P.voteCalls[k]? with
  | none => P
  | some call =>
      let o := P.node.sendRequestVote reply (P.voteNums.getD call.voteNum 0)
      { P with
        node := o.1
        voteNums := P.voteNums.set call.voteNum o.2
        voteCalls := P.voteCalls.eraseIdx k }

/-- The `k`-th installSnapshot call returns with `reply`. -/
def Proc.snapshotReply (P : Proc n) (k : ℕ) (reply : InstallSnapshotReply) : Proc n :=
  match P.snapshotCalls[k]? with
  | some ⟨server, some args, _⟩ =>
      { P with
        node := P.node.sendSnapshot server args reply
        snapshotCalls := P.snapshotCalls.eraseIdx k }
  | _ => P

/-- One critical section of a process, and the fault that cut it short, if any. -/
def Proc.step (P : Proc n) : Input n → Proc n × Option Fault
  | .execute command => ({ P with node := (P.node.execute command).1 }, none)
  | .persist index shot =>
      ({ P with node := (P.node.persist index shot).node }, (P.node.persist index shot).fault)
  | .getApplyMessages =>
      ({ P with node := P.node.getApplyMessages.node }, P.node.getApplyMessages.fault)
  | .stand4Election => (P.stand4Election, none)
  | .heartBeat => (P.heartBeat, P.node.heartBeat.2)
  | .requestVote args => ({ P with node := (P.node.requestVote args).1 }, none)
  | .appendEntries args =>
      ({ P with node := (P.node.appendEntries args).node }, (P.node.appendEntries args).fault)
  | .installSnapshot args =>
      ({ P with node := (P.node.installSnapshot args).node }, (P.node.installSnapshot args).fault)
  | .readSnapshot k => (P.readSnapshot k, none)
  | .appendReply k reply => P.appendReply k reply
  | .voteReply k reply => (P.voteReply k reply, none)
  | .snapshotReply k reply => (P.snapshotReply k reply, none)

/-! ## The cluster -/

/-- What a run is judged by: votes, elections, commits of a leader and commands handed out, each
    with the node it happened at (for an election or commit, as it is right afterwards). -/
inductive Event (n : ℕ)
  | voted (p : Fin n) (term vote : Int)
  | elected (p : Fin n) (node : Node n)
  | committed (p : Fin n) (node : Node n)
  | applied (p : Fin n) (messages : List ApplyMessage)

/-- The processes, and the events so far. No step reads the history. -/
structure Cluster (n : ℕ) where
  procs : Fin n → Proc n
  history : List (Event n) := []

/-- The events seen in a node that changed from `s` to `s'`. -/
def observe (p : Fin n) (s s' : Node n) : List (Event n) :=
  (if s'.term ≠ s.term ∨ s'.vote4 ≠ s.vote4 then [.voted p s'.term s'.vote4] else []) ++
  (if s'.identity = .leader ∧ s.identity ≠ .leader then [.elected p s'] else []) ++
  (if s'.identity = .leader ∧ s.identity = .leader ∧ s.commitIndex < s'.commitIndex then
    [.committed p s'] else [])

/-- All nodes fresh. -/
def Cluster.new (n : ℕ) : Cluster n := { procs := Proc.new }

/-- Process `p` becomes `P`. -/
def Cluster.setProc (σ : Cluster n) (p : Fin n) (P : Proc n) : Cluster n :=
  { procs := Function.update σ.procs p P
    history := σ.history ++ observe p (σ.procs p).node P.node }

/-- Process `p` runs one critical section. -/
def Cluster.feed (σ : Cluster n) (p : Fin n) (input : Input n) : Cluster n :=
  σ.setProc p ((σ.procs p).step input).1

inductive Action (n : ℕ)
  | execute (p : Fin n) (command : Bytes)
  | persist (p : Fin n) (index : Int) (shot : Bytes)
  | getApplyMessages (p : Fin n)
  | stand4Election (p : Fin n)
  | heartBeat (p : Fin n)
  | readSnapshot (p : Fin n) (k : ℕ)
  /-- The request of the `k`-th call of `p` reaches its server, whose handler runs. -/
  | deliverAppend (p : Fin n) (k : ℕ)
  | deliverVote (p : Fin n) (k : ℕ)
  | deliverSnapshot (p : Fin n) (k : ℕ)
  /-- The reply to the `k`-th call of `p` reaches it. -/
  | returnAppend (p : Fin n) (k : ℕ)
  | returnVote (p : Fin n) (k : ℕ)
  | returnSnapshot (p : Fin n) (k : ℕ)

/-- The request of the `k`-th appendEntries call of `p` is handled. A handler that throws takes its
    process down: no reply comes. -/
def Cluster.deliverAppend (σ : Cluster n) (p : Fin n) (k : ℕ) : Cluster n :=
  match (σ.procs p).appendCalls[k]? with
  | some ⟨server, args, cell, none⟩ =>
      let o := (σ.procs server).node.appendEntries args
      let σ := σ.feed server (.appendEntries args)
      let P := σ.procs p
      let calls :=
        match o.fault with
        | none => P.appendCalls.set k ⟨server, args, cell, some o.ret⟩
        | some _ => P.appendCalls.eraseIdx k
      σ.setProc p { P with appendCalls := calls }
  | _ => σ

/-- The request of the `k`-th requestVote call of `p` is handled. -/
def Cluster.deliverVote (σ : Cluster n) (p : Fin n) (k : ℕ) : Cluster n :=
  match (σ.procs p).voteCalls[k]? with
  | some ⟨server, args, cell, none⟩ =>
      let reply := ((σ.procs server).node.requestVote args).2
      let σ := σ.feed server (.requestVote args)
      let P := σ.procs p
      σ.setProc p { P with voteCalls := P.voteCalls.set k ⟨server, args, cell, some reply⟩ }
  | _ => σ

/-- The request of the `k`-th installSnapshot call of `p` is handled. -/
def Cluster.deliverSnapshot (σ : Cluster n) (p : Fin n) (k : ℕ) : Cluster n :=
  match (σ.procs p).snapshotCalls[k]? with
  | some ⟨server, some args, none⟩ =>
      let o := (σ.procs server).node.installSnapshot args
      let σ := σ.feed server (.installSnapshot args)
      let P := σ.procs p
      let calls :=
        match o.fault with
        | none => P.snapshotCalls.set k ⟨server, some args, some o.ret.1⟩
        | some _ => P.snapshotCalls.eraseIdx k
      σ.setProc p { P with snapshotCalls := calls }
  | _ => σ

/-- The commands handed out by `_M_getApplyMessages` at `p` are recorded. -/
def Cluster.getApplyMessages (σ : Cluster n) (p : Fin n) : Cluster n :=
  let o := (σ.procs p).node.getApplyMessages
  let σ := σ.feed p .getApplyMessages
  match o.fault with
  | none => { σ with history := σ.history ++ [.applied p o.ret] }
  | some _ => σ

/-- One step of the cluster. -/
def Cluster.step (σ : Cluster n) : Action n → Cluster n
  | .execute p command => σ.feed p (.execute command)
  | .persist p index shot => σ.feed p (.persist index shot)
  | .getApplyMessages p => σ.getApplyMessages p
  | .stand4Election p => σ.feed p .stand4Election
  | .heartBeat p => σ.feed p .heartBeat
  | .readSnapshot p k => σ.feed p (.readSnapshot k)
  | .deliverAppend p k => σ.deliverAppend p k
  | .deliverVote p k => σ.deliverVote p k
  | .deliverSnapshot p k => σ.deliverSnapshot p k
  | .returnAppend p k =>
      match (σ.procs p).appendCalls[k]? with
      | some ⟨_, _, _, some reply⟩ => σ.feed p (.appendReply k reply)
      | _ => σ
  | .returnVote p k =>
      match (σ.procs p).voteCalls[k]? with
      | some ⟨_, _, _, some reply⟩ => σ.feed p (.voteReply k reply)
      | _ => σ
  | .returnSnapshot p k =>
      match (σ.procs p).snapshotCalls[k]? with
      | some ⟨_, _, some reply⟩ => σ.feed p (.snapshotReply k reply)
      | _ => σ

/-- The states reached in runs of `n` fresh nodes, without restarts. -/
def Cluster.Reachable (σ : Cluster n) : Prop :=
  GuardedRun.Reach (Cluster.new n) Cluster.step (fun _ _ => True) σ

end RaftKVStorage
