import RaftKVStorage.IndexInvariant
import RaftKVStorage.KvServer
import RaftKVStorage.Theory.Delivery

set_option autoImplicit false

/-! # A server process

A raft node and the `kvServer` over it, joined by `_M_applyChan`. The thread of `_L_applierTicker`
takes a batch of commands under `_M_mutex` and pushes them one by one after it has released it; a
detached thread pushes each installed snapshot. -/

namespace RaftKVStorage

variable {n : ℕ}

/-- `getRaftStateSize`: the size of the state last handed to the persister. -/
def Node.getRaftStateSize (boost : Boost) (s : Node n) : Int :=
  match s.persister.state with
  | none => 0
  | some state => (boost.state.save state).length

/-- Everything above the raft node: what `_L_applierTicker` has taken and not yet pushed, the detached
    threads in `_M_pushMessage`, the `kvServer`, and what it has consumed so far. -/
structure App where
  applyMsgs : List ApplyMessage := []
  pushMessages : List ApplyMessage := []
  kv : KvServer
  consumed : List Delivery.Item := []

namespace App

/-- `_L_applierTicker` under the lock. It takes a batch once it has pushed the last one. -/
def take (app : App) (o : Outcome n (List ApplyMessage)) : App :=
  match app.applyMsgs, o.fault with
  | [], none => { app with applyMsgs := o.ret }
  | _, _ => app

/-- `_L_applierTicker` pushes its next command. -/
def push (app : App) : App :=
  match app.applyMsgs with
  | [] => app
  | msg :: rest =>
      { app with
        applyMsgs := rest
        kv := { app.kv with applyChan := app.kv.applyChan ++ [msg] } }

/-- `_L_installSnapshot` starts a thread for the snapshot, if it has taken it over. -/
def detach (app : App) (msg : Option ApplyMessage) : App :=
  { app with pushMessages := app.pushMessages ++ msg.toList }

/-- `_M_pushMessage` on the `k`-th detached thread. -/
def pushMessage (app : App) (k : ℕ) : App :=
  match app.pushMessages[k]? with
  | none => app
  | some msg =>
      { app with
        pushMessages := app.pushMessages.eraseIdx k
        kv := { app.kv with applyChan := app.kv.applyChan ++ [msg] } }

/-- What the next critical section of `_L_popMessageLoop` consumes: a command when it goes past the
    index check of `_L_executeCommand`, a snapshot when it is loaded. -/
def consumes (boost : Boost) (kv : KvServer) : List Delivery.Item :=
  match kv.stage with
  | .executeCommand msg =>
      if msg.commandIndex ≤ kv.lastSnapshotCommandIndex ∨ Op.load boost msg.command = none then []
      else [.command msg.commandIndex]
  | .installSnapshot msg =>
      if kv.load boost msg.snapshot = none then [] else [.snapshot msg.snapshotIndex]
  | _ => []

/-- One critical section of `_L_popMessageLoop`. -/
def loop (boost : Boost) (app : App) (raftStateSize : Int) : App :=
  { app with
    kv := (app.kv.popMessageLoop boost raftStateSize).1
    consumed := app.consumed ++ consumes boost app.kv }

end App

/-- A process of the cluster. -/
structure Server (n : ℕ) where
  proc : Proc n
  app : App

/-- A freshly started process. -/
def Server.new (me : Fin n) (maxRaftStateSize : Int) : Server n :=
  { proc := Proc.new me, app := { kv := { maxRaftStateSize := maxRaftStateSize } } }

/-- Everything that can happen at a server. -/
inductive ServerInput (n : ℕ)
  /-- A critical section of the raft node that does not concern the application. -/
  | raft (input : Input n)
  | take
  | push
  | installSnapshot (args : InstallSnapshotArgs)
  | pushMessage (k : ℕ)
  | loop
  | get (command : Op)
  | awaitIndex (index : Int)
  | eraseIndex (index : Int)

/-- The critical sections that `ServerInput` has a case of its own for. -/
def Input.ForApp : Input n → Prop
  | .persist _ _ => True
  | .getApplyMessages => True
  | .installSnapshot _ => True
  | _ => False

instance : (input : Input n) → Decidable input.ForApp
  | .persist _ _ | .getApplyMessages | .installSnapshot _ => .isTrue trivial
  | .execute _ | .stand4Election | .heartBeat | .requestVote _ | .appendEntries _ | .readSnapshot _
  | .appendReply _ _ | .voteReply _ _ | .snapshotReply _ _ => .isFalse id

/-- `_L_popMessageLoop` calls `raft::persist`, if at all, before its next critical section. -/
def Proc.persistIfAsked (P : Proc n) : Option (Int × Bytes) → Proc n
  | none => P
  | some (index, shot) => (P.step (.persist index shot)).1

/-- One critical section of a server. -/
def Server.step (boost : Boost) (S : Server n) : ServerInput n → Server n
  | .raft input => { S with proc := (S.proc.step input).1 }
  | .take =>
      { proc := if S.app.applyMsgs = [] then (S.proc.step .getApplyMessages).1 else S.proc
        app := S.app.take S.proc.node.getApplyMessages }
  | .push => { S with app := S.app.push }
  | .installSnapshot args =>
      { proc := (S.proc.step (.installSnapshot args)).1
        app := S.app.detach (S.proc.node.installSnapshot args).ret.2 }
  | .pushMessage k => { S with app := S.app.pushMessage k }
  | .loop =>
      let size := S.proc.node.getRaftStateSize boost
      { proc := S.proc.persistIfAsked (S.app.kv.popMessageLoop boost size).2
        app := S.app.loop boost size }
  | .get command => { S with app := { S.app with kv := (S.app.kv.executeGetOp command).1 } }
  | .awaitIndex index => { S with app := { S.app with kv := S.app.kv.awaitIndex index } }
  | .eraseIndex index => { S with app := { S.app with kv := S.app.kv.eraseIndex index } }

/-- What the outside owes a server: well-formed requests. -/
def Server.Legal (_ : Server n) : ServerInput n → Prop
  | .raft input => input.WellFormed ∧ ¬input.ForApp
  | _ => True

instance (S : Server n) (input : ServerInput n) : Decidable (S.Legal input) := by
  cases input <;> unfold Server.Legal <;> infer_instance

end RaftKVStorage
