import Mathlib.Data.List.Lex
import Mathlib.Data.Fin.Basic

set_option autoImplicit false

/-! # Messages

The protobuf messages of `raftBase.proto`, with the proto3 default of every field of a reply, and
the message a node hands to the application (`applyMessage.h`). `int32` fields are `Int`s; what the
source's sums of 32 bits make of them is the business of `RaftInt`. -/

namespace RaftKVStorage

/-- `std::string` and protobuf `bytes`. -/
abbrev Bytes := List (UInt8)

inductive NetState
  | disconnected
  | connected
deriving DecidableEq, Repr

inductive VoteState
  | killed
  | voted
  | expire
  | normal
deriving DecidableEq, Repr

structure LogEntry where
  command : Bytes
  term : Int
  index : Int
deriving DecidableEq, Repr

structure AppendEntriesArgs where
  term : Int
  leaderId : Int
  prevLogIndex : Int
  prevLogTerm : Int
  entries : List LogEntry
  leaderCommit : Int
deriving DecidableEq, Repr

structure AppendEntriesReply where
  term : Int := 0
  success : Bool := false
  updateNextIndex : Int := 0
  state : NetState := .disconnected
deriving DecidableEq, Repr

structure RequestVoteArgs where
  term : Int
  candidateId : Int
  lastLogIndex : Int
  lastLogTerm : Int
deriving DecidableEq, Repr

structure RequestVoteReply where
  term : Int := 0
  voteGranted : Bool := false
  state : VoteState := .killed
deriving DecidableEq, Repr

structure InstallSnapshotArgs where
  leaderId : Int
  term : Int
  lastIndex : Int
  lastTerm : Int
  data : Bytes
deriving DecidableEq, Repr

structure InstallSnapshotReply where
  term : Int := 0
deriving DecidableEq, Repr

/-- `applyMessage`: a command or a snapshot on its way to the application. The `size_t` fields only
    ever receive non-negative indices; their default `-1` is never read. -/
structure ApplyMessage where
  validCommand : Bool := false
  commandIndex : Int := -1
  command : Bytes := []
  validSnapshot : Bool := false
  snapshotIndex : Int := -1
  snapshotTerm : Int := -1
  snapshot : Bytes := []
deriving DecidableEq, Repr

/-- The constructor of a command message. -/
def ApplyMessage.ofCommand (index : Int) (command : Bytes) : ApplyMessage :=
  { validCommand := true, commandIndex := index, command := command }

/-- The constructor of a snapshot message. -/
def ApplyMessage.ofSnapshot (index term : Int) (shot : Bytes) : ApplyMessage :=
  { validSnapshot := true, snapshotIndex := index, snapshotTerm := term, snapshot := shot }

/-- What ends a handler early: an access outside `_M_logs` (undefined in the source) or one of the
    `std::runtime_error`s, named after what was found wrong. -/
inductive Fault
  | outOfRange
  | commitAfterLastLog
  | appliedAfterCommit
  | nextIndexAfterLastLog
  | leaderCommitAfterLastLog
  /-- "different commands in node_%d(%s) and leader_node_%d(%s) within same term(%d) and same
      log_index(%d)" -/
  | differentCommands (me : Int) (own : Bytes) (leaderId : Int) (command : Bytes) (term index : Int)
deriving DecidableEq, Repr

end RaftKVStorage
