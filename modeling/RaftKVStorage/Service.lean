import RaftKVStorage.RequestIds

set_option autoImplicit false

/-! # Clerks and the service

The whole system: the raft cluster, the `kvServer` over each node, and processes that each run one
`clerk`. A clerk has one remote call under way at a time; the call runs at the server as a thread of
its own, which may go on after the clerk has given it up. A remote call fails, returns an empty
reply, or returns the reply to its own request. A `_L_put` whose queue another one has erased waits
until its wait times out. -/

namespace RaftKVStorage

variable {n m : ℕ}

/-! ## Clerks -/

/-- `clerk::_M_uuid` in a process where the four calls of `rand()` yield `rand 0` to `rand 3`, from the
    left: the language leaves open which of them is made first. -/
def clerkUuid (rand : ℕ → ℕ) : Bytes := (List.range 4).flatMap fun i => decimal (rand i)

/-- A call of `clerk::put` or `clerk::get` in its loop: its arguments, the local `leaderId`, the
    remote call it waits for (a place in `Service.rpcs`) and where in the history it was invoked. -/
structure ClerkCall (n : ℕ) where
  command : Op
  leaderId : Fin n
  rpc : Option ℕ := none
  invokedAt : ℕ

/-- The members of class `clerk`, and the call under way. -/
structure Clerk (n : ℕ) where
  clientId : Bytes
  requestId : BitVec 64 := 0
  leaderId : Fin n
  call : Option (ClerkCall n) := none

/-- The reply of a remote call of `kvServerBase`. -/
inductive KvReply
  | put (reply : PutReply)
  | get (reply : GetReply)

/-- The reply no server wrote to. -/
def KvReply.empty : Operation → KvReply
  | .put => .put {}
  | _ => .get {}

namespace Clerk

/-- The constructor, in a process whose random numbers are `rand`. -/
def new [NeZero n] (rand : ℕ → ℕ) : Clerk n := { clientId := clerkUuid rand, leaderId := 0 }

/-- What a server reads out of the arguments of the next call. -/
def command (c : Clerk n) (operation : Operation) (key value : Bytes) : Op :=
  { operation := operation
    key := key
    value := value
    clientId := c.clientId
    requestId := requestIdRead (if operation = .put then 5 else 3) (c.requestId + 1) }

/-- A call sets up its arguments and `leaderId`. -/
def invoke (c : Clerk n) (operation : Operation) (key value : Bytes) (invokedAt : ℕ) : Clerk n :=
  { c with
    requestId := c.requestId + 1
    call := some
      { command := c.command operation key value, leaderId := c.leaderId, invokedAt := invokedAt } }

/-- The next round of the loop, at `leaderId`. -/
def retry (c : Clerk n) (call : ClerkCall n) (leaderId : Fin n) : Clerk n :=
  { c with call := some { call with leaderId := leaderId, rpc := none } }

/-- The loop of `clerk::put` when the remote call is back, with `none` for a failure. -/
def putLoop [NeZero n] (c : Clerk n) (call : ClerkCall n) : Option PutReply → Clerk n
  | none => c.retry call (call.leaderId + 1)
  | some reply =>
      if reply.err = .ok then { c with leaderId := call.leaderId, call := none }
      else if reply.err = .wrongLeader then c.retry call (call.leaderId + 1)
      else c.retry call call.leaderId

/-- The loop of `clerk::get` when the remote call is back, with `none` for a failure. -/
def getLoop [NeZero n] (c : Clerk n) (call : ClerkCall n) : Option GetReply → Clerk n
  | none => c.retry call (call.leaderId + 1)
  | some reply =>
      if reply.err = .wrongLeader then c.retry call (call.leaderId + 1)
      else if reply.err = .noKey then { c with call := none }
      else if reply.err = .ok then { c with leaderId := call.leaderId, call := none }
      else c.retry call call.leaderId

/-- The loop of either call. -/
def loop [NeZero n] (c : Clerk n) (call : ClerkCall n) : Option KvReply → Clerk n
  | none => if call.command.operation = .put then c.putLoop call none else c.getLoop call none
  | some (.put reply) => c.putLoop call (some reply)
  | some (.get reply) => c.getLoop call (some reply)

end Clerk

/-- What is seen of the clerks. A return says where in the history its call was invoked. -/
inductive ClerkEvent (n m : ℕ)
  | invoked (clerk : Fin m) (command : Op)
  | putReturned (clerk : Fin m) (command : Op) (invokedAt : ℕ) (server : Fin n)
  | getReturned (clerk : Fin m) (command : Op) (invokedAt : ℕ) (value : Bytes)
deriving DecidableEq

/-- The return that ends the loop of a call, if any. -/
def ClerkCall.returned (call : ClerkCall n) (c : Fin m) : Option KvReply → List (ClerkEvent n m)
  | none => []
  | some (.put reply) =>
      if reply.err = .ok then [.putReturned c call.command call.invokedAt call.leaderId] else []
  | some (.get reply) =>
      if reply.err = .noKey then [.getReturned c call.command call.invokedAt []]
      else if reply.err = .ok then [.getReturned c call.command call.invokedAt reply.value]
      else []

/-! ## Remote calls -/

/-- Where the server's thread of a remote call is. -/
inductive RpcStage
  | sent
  /-- `_L_put` has its index. -/
  | executed (index : Int)
  /-- `_L_put` waits on the queue of its index. -/
  | waiting (index : Int)
  /-- `_L_put` is about to remove the queue of its index. -/
  | replying (index : Int) (err : Err)
  /-- `_L_get` is in `waitApplied`. -/
  | sampled (wait4 : Int)
  /-- `waitApplied` has returned true. -/
  | waited
  | answered (reply : KvReply)
  /-- `_L_get` has returned without `done->Run()`. -/
  | unanswered

structure KvRpc (n : ℕ) where
  server : Fin n
  command : Op
  stage : RpcStage := .sent

/-! ## The service -/

/-- The system, what `_L_executePutOp` has executed at each node so far, and the history of the
    clerks' calls. No step reads the last two, but to note where in the history a call is invoked. -/
structure Service (n m : ℕ) where
  cluster : Cluster n
  apps : Fin n → App
  clerks : Fin m → Clerk n
  rpcs : List (KvRpc n) := []
  executed : Fin n → List Op := fun _ => []
  history : List (ClerkEvent n m) := []

inductive ServiceAction (n m : ℕ)
  /-- A step of the cluster that does not concern the application. -/
  | raft (a : Action n)
  | take (p : Fin n)
  | push (p : Fin n)
  | pushMessage (p : Fin n) (k : ℕ)
  | deliverSnapshot (p : Fin n) (k : ℕ)
  | loop (p : Fin n)
  | put (c : Fin m) (key value : Bytes)
  | get (c : Fin m) (key : Bytes)
  /-- The clerk starts the remote call of its round. -/
  | send (c : Fin m)
  /-- The remote call fails, as far as the clerk can tell. -/
  | fail (c : Fin m)
  /-- The remote call returns with an empty reply. -/
  | empty (c : Fin m)
  | receive (c : Fin m)
  /-- The thread of the `t`-th remote call runs its next critical section, if it can. -/
  | serve (t : ℕ)
  /-- The wait of the `t`-th remote call times out. -/
  | timeout (t : ℕ)

/-- The actions of the cluster that `ServiceAction` has a case of its own for. -/
def Action.ForApp : Action n → Prop
  | .execute _ _ => True
  | .persist _ _ _ => True
  | .getApplyMessages _ => True
  | .deliverSnapshot _ _ => True
  | _ => False

instance Action.ForApp.decidable : (a : Action n) → Decidable a.ForApp
  | .execute _ _ | .persist _ _ _ | .getApplyMessages _ | .deliverSnapshot _ _ => .isTrue trivial
  | .stand4Election _ | .heartBeat _ | .readSnapshot _ _ | .deliverAppend _ _ | .deliverVote _ _
  | .returnAppend _ _ | .returnVote _ _ | .returnSnapshot _ _ => .isFalse id

/-- What the next critical section of `_L_popMessageLoop` executes in `_L_executePutOp`. -/
def KvServer.putting (kv : KvServer) : List Op :=
  match kv.stage with
  | .executePutOp _ command => [command]
  | _ => []

namespace Service

/-- Fresh processes. -/
def new [NeZero n] (m : ℕ) (rand : ℕ → ℕ) (maxRaftStateSize : Int) : Service n m :=
  { cluster := Cluster.new n
    apps := fun p => (Server.new p maxRaftStateSize).app
    clerks := fun _ => Clerk.new rand }

def setApp (S : Service n m) (p : Fin n) (app : App) : Service n m :=
  { S with apps := Function.update S.apps p app }

def setKv (S : Service n m) (p : Fin n) (kv : KvServer) : Service n m :=
  S.setApp p { S.apps p with kv := kv }

def setStage (S : Service n m) (t : ℕ) (rpc : KvRpc n) (stage : RpcStage) : Service n m :=
  { S with rpcs := S.rpcs.set t { rpc with stage := stage } }

/-- `_L_applierTicker` takes a batch. -/
def take (S : Service n m) (p : Fin n) : Service n m :=
  if (S.apps p).applyMsgs = [] then
    { S.setApp p ((S.apps p).take (S.cluster.procs p).node.getApplyMessages) with
      cluster := S.cluster.step (.getApplyMessages p) }
  else S

/-- A snapshot request is handled, and a thread for the snapshot is started at its server. -/
def deliverSnapshot (S : Service n m) (p : Fin n) (k : ℕ) : Service n m :=
  { S with
    cluster := S.cluster.step (.deliverSnapshot p k)
    apps :=
      match (S.cluster.procs p).snapshotCalls[k]? with
      | some ⟨server, some args, none⟩ =>
          Function.update S.apps server
            ((S.apps server).detach ((S.cluster.procs server).node.installSnapshot args).ret.2)
      | _ => S.apps }

/-- A critical section of `_L_popMessageLoop`, which may compact the log of its node. -/
def loop (boost : Boost) (S : Service n m) (p : Fin n) : Service n m :=
  let size := (S.cluster.procs p).node.getRaftStateSize boost
  { S.setApp p ((S.apps p).loop boost size) with
    cluster :=
      match ((S.apps p).kv.popMessageLoop boost size).2 with
      | none => S.cluster
      | some (index, shot) => S.cluster.step (.persist p index shot)
    executed := Function.update S.executed p (S.executed p ++ (S.apps p).kv.putting) }

/-! ### Steps of a clerk -/

/-- A call is invoked by a clerk that has none under way. -/
def invoke (S : Service n m) (c : Fin m) (operation : Operation) (key value : Bytes) :
    Service n m :=
  match (S.clerks c).call with
  | some _ => S
  | none =>
      { S with
        clerks := Function.update S.clerks c
          ((S.clerks c).invoke operation key value S.history.length)
        history := S.history ++ [.invoked c ((S.clerks c).command operation key value)] }

def put (S : Service n m) (c : Fin m) (key value : Bytes) : Service n m := S.invoke c .put key value

def get (S : Service n m) (c : Fin m) (key : Bytes) : Service n m := S.invoke c .get key []

def send (S : Service n m) (c : Fin m) : Service n m :=
  match (S.clerks c).call with
  | some ⟨command, leaderId, none, invokedAt⟩ =>
      { S with
        clerks := Function.update S.clerks c
          { S.clerks c with call := some ⟨command, leaderId, some S.rpcs.length, invokedAt⟩ }
        rpcs := S.rpcs ++ [{ server := leaderId, command := command }] }
  | _ => S

/-- The remote call of clerk `c` is back, with `none` for a failure. -/
def resume [NeZero n] (S : Service n m) (c : Fin m) (reply : Op → Option KvReply) : Service n m :=
  match (S.clerks c).call with
  | some ⟨command, leaderId, some t, invokedAt⟩ =>
      { S with
        clerks := Function.update S.clerks c
          ((S.clerks c).loop ⟨command, leaderId, some t, invokedAt⟩ (reply command))
        history := S.history ++
          ClerkCall.returned ⟨command, leaderId, some t, invokedAt⟩ c (reply command) }
  | _ => S

/-- Clerk `c` receives the reply to its remote call. -/
def receive [NeZero n] (S : Service n m) (c : Fin m) : Service n m :=
  match (S.clerks c).call.bind ClerkCall.rpc with
  | none => S
  | some t =>
      match S.rpcs[t]? with
      | some ⟨_, _, .answered reply⟩ => S.resume c fun _ => some reply
      | _ => S

/-! ### Steps of a remote call -/

/-- The thread of a remote call runs its next critical section, if it can. -/
def serve (boost : Boost) (S : Service n m) (t : ℕ) : Service n m :=
  match S.rpcs[t]? with
  | none => S
  | some rpc =>
      let p := rpc.server
      let node := (S.cluster.procs p).node
      let kv := (S.apps p).kv
      match rpc.stage with
      | .sent =>
          if rpc.command.operation = .put then
            let str := rpc.command.dump boost
            let (index, term) := (node.execute str).2
            { S.setStage t rpc
                (if index = -1 ∨ term = -1 then .answered (.put { err := .wrongLeader })
                else .executed index) with
              cluster := S.cluster.step (.execute p str) }
          else S.setStage t rpc (.sampled node.commitIndex)
      | .executed index => (S.setKv p (kv.awaitIndex index)).setStage t rpc (.waiting index)
      | .waiting index =>
          match kv.appliedChan index with
          | some (raftCommitOp :: rest) =>
              (S.setKv p
                { kv with appliedChan := Function.update kv.appliedChan index (some rest) }).setStage
                t rpc (.replying index (KvServer.replyToPopped rpc.command raftCommitOp))
          | _ => S
      | .replying index err =>
          (S.setKv p (kv.eraseIndex index)).setStage t rpc (.answered (.put { err := err }))
      | .sampled wait4 => if wait4 ≤ node.appliedIndex then S.setStage t rpc .waited else S
      | .waited =>
          (S.setKv p (kv.executeGetOp rpc.command).1).setStage t rpc
            (match (kv.executeGetOp rpc.command).2 with
            | (false, _) => .unanswered
            | (true, value) => .answered (.get { err := .ok, value := value }))
      | .answered _ => S
      | .unanswered => S

/-- The wait in `_L_put` or in `waitApplied` times out. -/
def timeout (S : Service n m) (t : ℕ) : Service n m :=
  match S.rpcs[t]? with
  | none => S
  | some rpc =>
      match rpc.stage with
      | .waiting index =>
          S.setStage t rpc (.replying index ((S.apps rpc.server).kv.replyToTimeout rpc.command))
      | .sampled wait4 =>
          S.setStage t rpc
            (if wait4 ≤ (S.cluster.procs rpc.server).node.appliedIndex then .waited else .unanswered)
      | _ => S

def step [NeZero n] (boost : Boost) (S : Service n m) : ServiceAction n m → Service n m
  | .raft a => if a.ForApp then S else { S with cluster := S.cluster.step a }
  | .take p => S.take p
  | .push p => S.setApp p (S.apps p).push
  | .pushMessage p k => S.setApp p ((S.apps p).pushMessage k)
  | .deliverSnapshot p k => S.deliverSnapshot p k
  | .loop p => S.loop boost p
  | .put c key value => S.put c key value
  | .get c key => S.get c key
  | .send c => S.send c
  | .fail c => S.resume c fun _ => none
  | .empty c => S.resume c fun command => some (.empty command.operation)
  | .receive c => S.receive c
  | .serve t => S.serve boost t
  | .timeout t => S.timeout t

end Service

end RaftKVStorage
