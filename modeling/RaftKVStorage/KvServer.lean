import RaftKVStorage.KvSkipList
import RaftKVStorage.Archive
import Mathlib.Logic.Function.Basic
import Mathlib.Tactic.SplitIfs

set_option autoImplicit false

/-! # kvServer

Class `kvServer` without its raft node. `_M_mutex` is released several times while a message is
consumed, so `_L_popMessageLoop` is a machine that runs one critical section at a time; remote calls
come in between. -/

namespace RaftKVStorage

/-- The error texts of `config.h`, and the empty one of a fresh reply. -/
inductive Err
  | unset
  | ok
  | noKey
  | timeout
  | wrongLeader
deriving DecidableEq, Repr

/-- What `_L_popMessageLoop` does next: the member function it is about to run, or is in the middle
    of. `terminated` is left behind by an `archive_exception`, which nothing catches. -/
inductive Stage
  | pop
  | executeCommand (msg : ApplyMessage)
  | executePutOp (msg : ApplyMessage) (command : Op)
  | maySnapshot (msg : ApplyMessage) (command : Op)
  | persist (msg : ApplyMessage) (command : Op)
  | tryPush2Wait (msg : ApplyMessage) (command : Op)
  | installSnapshot (msg : ApplyMessage)
  | terminated
deriving DecidableEq

/-- The members of class `kvServer`. -/
structure KvServer where
  data : KvSkipList Bytes Bytes := {}
  lastRequestId : RequestTable := ∅
  appliedChan : Int → Option (List Op) := fun _ => none
  applyChan : List ApplyMessage := []
  maxRaftStateSize : Int
  lastSnapshotCommandIndex : Int := 0
  stage : Stage := .pop

namespace KvServer

/-! ## Snapshots -/

/-- `_M_dump`, by way of `serialize` and `kvskiplist::dump`. -/
def dump (boost : Boost) (s : KvServer) : Bytes :=
  boost.server.save (boost.dumper.save s.data.dumper, s.lastRequestId)

/-- `kvskiplist::load`. -/
def loadData (boost : Boost) (data : KvSkipList Bytes Bytes) (str : Bytes) :
    Option (KvSkipList Bytes Bytes) :=
  if str = [] then some data else (boost.dumper.load str).map data.insertAll

/-- `_M_load`, by way of `serialize`. -/
def load (boost : Boost) (s : KvServer) (str : Bytes) : Option KvServer :=
  if str = [] then some s
  else do
    let (str, lastRequestId) ← boost.server.load str
    let data ← loadData boost s.data str
    return { s with data := data, lastRequestId := lastRequestId }

/-- `_L_installSnapshot`. -/
def installSnapshot (boost : Boost) (s : KvServer) (msg : ApplyMessage) : KvServer :=
  match s.load boost msg.snapshot with
  | none => { s with stage := .terminated }
  | some s => { s with lastSnapshotCommandIndex := msg.snapshotIndex }

/-! ## Commands -/

/-- `_L_duplicateRequest`. -/
def duplicateRequest (s : KvServer) (client : Bytes) (requestId : Int) : Bool :=
  match s.lastRequestId.lookup client with
  | none => false
  | some last => requestId ≤ last

/-- `_L_executePutOp`. -/
def executePutOp (s : KvServer) (command : Op) : KvServer :=
  { s with
    data := s.data.assign command.key command.value
    lastRequestId := s.lastRequestId.insert command.clientId command.requestId }

/-- `_L_executeGetOp`. -/
def executeGetOp (s : KvServer) (command : Op) : KvServer × (Bool × Bytes) :=
  ({ s with lastRequestId := s.lastRequestId.insert command.clientId command.requestId },
    match s.data.find command.key with
    | none => (false, [])
    | some value => (true, value))

/-- The test of `_L_maySnapshot`: has the state of the raft node grown too large? -/
def maySnapshot (s : KvServer) (raftStateSize : Int) : Bool :=
  s.maxRaftStateSize ≠ -1 && raftStateSize > s.maxRaftStateSize

/-- `_L_tryPush2Wait`. -/
def tryPush2Wait (s : KvServer) (command : Op) (index : Int) : KvServer :=
  match s.appliedChan index with
  | none => s
  | some que => { s with appliedChan := Function.update s.appliedChan index (some (que ++ [command])) }

/-- Where `_L_executeCommand` is after the duplicate check. -/
def afterCheck (s : KvServer) (msg : ApplyMessage) (command : Op) : Stage :=
  if s.duplicateRequest command.clientId command.requestId then .maySnapshot msg command
  else if command.operation = .put then .executePutOp msg command
  else .maySnapshot msg command

/-- Where `_L_popMessageLoop` is when it is done with the command of a message. -/
def afterCommand (msg : ApplyMessage) : Stage :=
  if msg.validSnapshot then .installSnapshot msg else .pop

/-- One critical section of `_L_popMessageLoop`, and what it hands to `raft::persist`. -/
def popMessageLoop (boost : Boost) (s : KvServer) (raftStateSize : Int) :
    KvServer × Option (Int × Bytes) :=
  match s.stage with
  | .pop =>
      match s.applyChan with
      | [] => (s, none)
      | msg :: rest =>
          ({ s with
            applyChan := rest
            stage := if msg.validCommand then .executeCommand msg else afterCommand msg }, none)
  | .executeCommand msg =>
      if msg.commandIndex ≤ s.lastSnapshotCommandIndex then
        ({ s with stage := afterCommand msg }, none)
      else
        match Op.load boost msg.command with
        | none => ({ s with stage := .terminated }, none)
        | some command => ({ s with stage := s.afterCheck msg command }, none)
  | .executePutOp msg command =>
      ({ s.executePutOp command with stage := .maySnapshot msg command }, none)
  | .maySnapshot msg command =>
      ({ s with
        stage :=
          if s.maySnapshot raftStateSize then .persist msg command else .tryPush2Wait msg command },
        none)
  | .persist msg command =>
      ({ s with stage := .tryPush2Wait msg command }, some (msg.commandIndex, s.dump boost))
  | .tryPush2Wait msg command =>
      ({ s.tryPush2Wait command msg.commandIndex with stage := afterCommand msg }, none)
  | .installSnapshot msg => (installSnapshot boost { s with stage := .pop } msg, none)
  | .terminated => (s, none)

/-! ## Waiting for a put -/

/-- `_L_put` makes sure that there is a queue for its index. -/
def awaitIndex (s : KvServer) (index : Int) : KvServer :=
  match s.appliedChan index with
  | none => { s with appliedChan := Function.update s.appliedChan index (some []) }
  | some _ => s

/-- `_L_put` erases the queue for its index. -/
def eraseIndex (s : KvServer) (index : Int) : KvServer :=
  { s with appliedChan := Function.update s.appliedChan index none }

/-- The reply of `_L_put` when a command was executed at its index. -/
def replyToPopped (command raftCommitOp : Op) : Err :=
  if raftCommitOp.clientId = command.clientId ∧ raftCommitOp.requestId = command.requestId then .ok
  else .wrongLeader

/-- The reply of `_L_put` when the wait has timed out. -/
def replyToTimeout (s : KvServer) (command : Op) : Err :=
  if s.duplicateRequest command.clientId command.requestId then .ok else .wrongLeader

/-! ## What stays the same -/

theorem tryPush2Wait_eq (s : KvServer) (command : Op) (index : Int) :
    ∃ appliedChan, s.tryPush2Wait command index = { s with appliedChan := appliedChan } := by
  unfold tryPush2Wait
  cases s.appliedChan index with
  | none => exact ⟨_, rfl⟩
  | some que => exact ⟨_, rfl⟩

theorem awaitIndex_eq (s : KvServer) (index : Int) :
    ∃ appliedChan, s.awaitIndex index = { s with appliedChan := appliedChan } := by
  unfold awaitIndex
  cases s.appliedChan index with
  | none => exact ⟨_, rfl⟩
  | some que => exact ⟨s.appliedChan, rfl⟩

/-- `raft::persist` is called with the index of the command just executed. -/
theorem popMessageLoop_persist {boost : Boost} {s : KvServer} {size : Int} {p : Int × Bytes}
    (h : (s.popMessageLoop boost size).2 = some p) :
    ∃ msg command, s.stage = .persist msg command ∧ p = (msg.commandIndex, s.dump boost) := by
  unfold popMessageLoop at h
  cases hs : s.stage with
  | pop =>
    rw [hs] at h
    cases hq : s.applyChan with
    | nil => simp [hq] at h
    | cons msg rest => simp [hq] at h
  | executeCommand msg =>
    rw [hs] at h
    simp only at h
    split_ifs at h
    cases hload : Op.load boost msg.command with
    | none => simp [hload] at h
    | some command => simp [hload] at h
  | executePutOp msg command => simp [hs] at h
  | maySnapshot msg command => simp [hs] at h
  | persist msg command =>
    rw [hs] at h
    exact ⟨msg, command, rfl, (Option.some.inj h).symm⟩
  | tryPush2Wait msg command => simp [hs] at h
  | installSnapshot msg => simp [hs] at h
  | terminated => simp [hs] at h

/-- Loading changes the data and the request table only. -/
theorem load_eq {boost : Boost} {s s' : KvServer} {str : Bytes} (h : s.load boost str = some s') :
    ∃ data lastRequestId, s' = { s with data := data, lastRequestId := lastRequestId } := by
  unfold load at h
  split_ifs at h
  · exact ⟨s.data, s.lastRequestId, (Option.some.inj h).symm⟩
  · cases hserver : boost.server.load str with
    | none => simp [hserver] at h
    | some p =>
      cases hdata : loadData boost s.data p.1 with
      | none => simp [hserver, hdata] at h
      | some data => exact ⟨data, p.2, by simpa [hserver, hdata] using h.symm⟩

/-- A value that is there stays when a snapshot is loaded. -/
theorem find_load {boost : Boost} {s s' : KvServer} {str k v : Bytes}
    (h : s.load boost str = some s') (hk : s.data.find k = some v) : s'.data.find k = some v := by
  unfold load at h
  split_ifs at h
  · obtain rfl := Option.some.inj h
    exact hk
  cases hserver : boost.server.load str with
  | none => simp [hserver] at h
  | some p =>
    cases hdata : loadData boost s.data p.1 with
    | none => simp [hserver, hdata] at h
    | some data =>
      obtain rfl : { s with data := data, lastRequestId := p.2 } = s' := by
        simpa [hserver, hdata] using h
      unfold loadData at hdata
      split_ifs at hdata
      · obtain rfl := Option.some.inj hdata
        exact hk
      · obtain ⟨d, -, rfl⟩ := Option.map_eq_some_iff.1 hdata
        exact KvSkipList.find_insertAll hk d

theorem load_stage (boost : Boost) (s : KvServer) (stage : Stage) (str : Bytes) :
    ({ s with stage := stage } : KvServer).load boost str =
      (s.load boost str).map fun s => { s with stage := stage } := by
  unfold load
  split_ifs
  · rfl
  · cases boost.server.load str with
    | none => rfl
    | some p => cases hdata : loadData boost s.data p.1 <;> simp [hdata]

end KvServer

end RaftKVStorage
