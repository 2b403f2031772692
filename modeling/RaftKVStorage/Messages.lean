import RaftKVStorage.RpcReply
import RaftKVStorage.RpcProvider
import RaftKVStorage.Theory.ProtoMessage

set_option autoImplicit false

/-! # The messages on the wire

The messages of `raftBase.proto` and `kvServerBase.proto` as the generated code writes and reads
them. -/

namespace RaftKVStorage

open ProtoWire

/-! ## Requests -/

/-- `getArgs` -/
structure GetArgs where
  key : Bytes
  clientId : Bytes
  requestId : Int
deriving DecidableEq, Repr

/-- `putArgs` -/
structure PutArgs where
  key : Bytes
  value : Bytes
  clientId : Bytes
  requestId : Int
deriving DecidableEq, Repr

/-- An entry is read inside a request, so one group less may be open. -/
def LogEntry.message : Message LogEntry :=
  .ofFields 99 [(1, .bytes), (2, .int32), (3, .int32)] (by decide) (by decide)
    { toFun := fun e => (e.command, e.term, e.index, ())
      invFun := fun (command, term, index, _) => ⟨command, term, index⟩
      left_inv := fun _ => rfl
      right_inv := fun _ => rfl }

def AppendEntriesArgs.message : Message AppendEntriesArgs :=
  .ofFields 100
    [(1, .int32), (2, .int32), (3, .int32), (4, .int32), (5, .repeated LogEntry.message), (6, .int32)]
    (by decide) (by decide)
    { toFun := fun args =>
        (args.term, args.leaderId, args.prevLogIndex, args.prevLogTerm, args.entries,
          args.leaderCommit, ())
      invFun := fun (term, leaderId, prevLogIndex, prevLogTerm, entries, leaderCommit, _) =>
        ⟨term, leaderId, prevLogIndex, prevLogTerm, entries, leaderCommit⟩
      left_inv := fun _ => rfl
      right_inv := fun _ => rfl }

def RequestVoteArgs.message : Message RequestVoteArgs :=
  .ofFields 100 [(1, .int32), (2, .int32), (3, .int32), (4, .int32)] (by decide) (by decide)
    { toFun := fun args => (args.term, args.candidateId, args.lastLogIndex, args.lastLogTerm, ())
      invFun := fun (term, candidateId, lastLogIndex, lastLogTerm, _) =>
        ⟨term, candidateId, lastLogIndex, lastLogTerm⟩
      left_inv := fun _ => rfl
      right_inv := fun _ => rfl }

def InstallSnapshotArgs.message : Message InstallSnapshotArgs :=
  .ofFields 100 [(1, .int32), (2, .int32), (3, .int32), (4, .int32), (5, .bytes)] (by decide) (by decide)
    { toFun := fun args => (args.leaderId, args.term, args.lastIndex, args.lastTerm, args.data, ())
      invFun := fun (leaderId, term, lastIndex, lastTerm, data, _) =>
        ⟨leaderId, term, lastIndex, lastTerm, data⟩
      left_inv := fun _ => rfl
      right_inv := fun _ => rfl }

def GetArgs.message : Message GetArgs :=
  .ofFields 100 [(1, .bytes), (2, .bytes), (3, .int32)] (by decide) (by decide)
    { toFun := fun args => (args.key, args.clientId, args.requestId, ())
      invFun := fun (key, clientId, requestId, _) => ⟨key, clientId, requestId⟩
      left_inv := fun _ => rfl
      right_inv := fun _ => rfl }

def PutArgs.message : Message PutArgs :=
  .ofFields 100 [(1, .bytes), (2, .bytes), (4, .bytes), (5, .int32)] (by decide) (by decide)
    { toFun := fun args => (args.key, args.value, args.clientId, args.requestId, ())
      invFun := fun (key, value, clientId, requestId, _) => ⟨key, value, clientId, requestId⟩
      left_inv := fun _ => rfl
      right_inv := fun _ => rfl }

/-! ## Replies -/

/-- A number beyond the enumeration is kept as it is; the code only compares with `DISCONNECTED`. -/
def NetState.ofNumber (v : ℕ) : NetState := if v % 2 ^ 32 = 0 then .disconnected else .connected

/-- The code does not look at the state of a vote. -/
def VoteState.ofNumber (v : ℕ) : VoteState :=
  match v % 2 ^ 32 with
  | 0 => .killed
  | 1 => .voted
  | 2 => .expire
  | _ => .normal

/-- What a clerk compares the text with; it takes no notice of any other. -/
def Err.ofText (text : Bytes) : Err :=
  if text = Err.ok.text then .ok
  else if text = Err.noKey.text then .noKey
  else if text = Err.timeout.text then .timeout
  else if text = Err.wrongLeader.text then .wrongLeader
  else .unset

theorem NetState.ofNumber_number (state : NetState) : ofNumber state.number = state := by
  cases state <;> rfl

theorem VoteState.ofNumber_number (state : VoteState) : ofNumber state.number = state := by
  cases state <;> rfl

theorem Err.ofText_text (err : Err) : ofText err.text = err := by
  cases err <;> decide

def NetState.type : FieldType :=
  .ofVarint .disconnected NetState.number NetState.ofNumber (fun _ => True)
    (fun state => by cases state <;> decide) (fun state _ => NetState.ofNumber_number state) (fun _ => trivial) trivial

def VoteState.type : FieldType :=
  .ofVarint .killed VoteState.number VoteState.ofNumber (fun _ => True)
    (fun state => by cases state <;> decide) (fun state _ => VoteState.ofNumber_number state) (fun _ => trivial) trivial

def Err.type : FieldType := .ofBytes .unset Err.text Err.ofText Err.ofText_text

def AppendEntriesReply.message : Message AppendEntriesReply :=
  .ofFields 100 [(1, .int32), (2, .bool), (3, .int32), (4, NetState.type)] (by decide) (by decide)
    { toFun := fun r => (r.term, r.success, r.updateNextIndex, r.state, ())
      invFun := fun (term, success, updateNextIndex, state, _) =>
        ⟨term, success, updateNextIndex, state⟩
      left_inv := fun _ => rfl
      right_inv := fun _ => rfl }

def RequestVoteReply.message : Message RequestVoteReply :=
  .ofFields 100 [(1, .int32), (2, .bool), (3, VoteState.type)] (by decide) (by decide)
    { toFun := fun r => (r.term, r.voteGranted, r.state, ())
      invFun := fun (term, voteGranted, state, _) => ⟨term, voteGranted, state⟩
      left_inv := fun _ => rfl
      right_inv := fun _ => rfl }

def InstallSnapshotReply.message : Message InstallSnapshotReply :=
  .ofFields 100 [(1, .int32)] (by decide) (by decide)
    { toFun := fun r => (r.term, ())
      invFun := fun (term, _) => ⟨term⟩
      left_inv := fun _ => rfl
      right_inv := fun _ => rfl }

def GetReply.message : Message GetReply :=
  .ofFields 100 [(1, Err.type), (2, .bytes)] (by decide) (by decide)
    { toFun := fun r => (r.err, r.value, ())
      invFun := fun (err, value, _) => ⟨err, value⟩
      left_inv := fun _ => rfl
      right_inv := fun _ => rfl }

def PutReply.message : Message PutReply :=
  .ofFields 100 [(1, Err.type)] (by decide) (by decide)
    { toFun := fun r => (r.err, ())
      invFun := fun (err, _) => ⟨err⟩
      left_inv := fun _ => rfl
      right_inv := fun _ => rfl }

/-! What is known of the serialized replies is known of the format. -/

@[simp] theorem write_int32 (k : ℕ) (v : Int) :
    (FieldType.int32.fields k v).flatMap Field.write = int32Field k v := by
  simp only [FieldType.int32, FieldType.ofVarint, int32Field]
  split_ifs
  · rfl
  · simp [Field.write, ofInt32]

@[simp] theorem write_bool (k : ℕ) (v : Bool) :
    (FieldType.bool.fields k v).flatMap Field.write = varintField k v.toNat :=
  FieldType.write_ofVarint (by cases v <;> decide) k

@[simp] theorem write_bytes (k : ℕ) (v : Bytes) :
    (FieldType.bytes.fields k v).flatMap Field.write = bytesField k v :=
  FieldType.write_ofBytes Iff.rfl k

@[simp] theorem write_netState (k : ℕ) (state : NetState) :
    (NetState.type.fields k state).flatMap Field.write = varintField k state.number :=
  FieldType.write_ofVarint (by cases state <;> decide) k

@[simp] theorem write_voteState (k : ℕ) (state : VoteState) :
    (VoteState.type.fields k state).flatMap Field.write = varintField k state.number :=
  FieldType.write_ofVarint (by cases state <;> decide) k

@[simp] theorem write_err (k : ℕ) (err : Err) :
    (Err.type.fields k err).flatMap Field.write = bytesField k err.text :=
  FieldType.write_ofBytes Err.text_eq_nil k

theorem AppendEntriesReply.message_serialize (r : AppendEntriesReply) :
    message.serialize r = r.serialize := by
  simp [Message.serialize, message, Message.ofFields, Values.fields, serialize]

theorem RequestVoteReply.message_serialize (r : RequestVoteReply) :
    message.serialize r = r.serialize := by
  simp [Message.serialize, message, Message.ofFields, Values.fields, serialize]

theorem InstallSnapshotReply.message_serialize (r : InstallSnapshotReply) :
    message.serialize r = r.serialize := by
  simp [Message.serialize, message, Message.ofFields, Values.fields, serialize]

theorem GetReply.message_serialize (r : GetReply) : message.serialize r = r.serialize := by
  simp [Message.serialize, message, Message.ofFields, Values.fields, serialize]

theorem PutReply.message_serialize (r : PutReply) : message.serialize r = r.serialize := by
  simp [Message.serialize, message, Message.ofFields, Values.fields, serialize]

/-! ## What fits

Strings and enumerations always fit; numbers have to be `int32`s. -/

theorem LogEntry.fits_iff {e : LogEntry} : message.Fits e ↔ IsInt32 e.term ∧ IsInt32 e.index := by
  show (True ∧ IsInt32 e.term ∧ IsInt32 e.index ∧ True) ↔ _
  simp

theorem AppendEntriesArgs.fits_iff {args : AppendEntriesArgs} : message.Fits args ↔
    IsInt32 args.term ∧ IsInt32 args.leaderId ∧ IsInt32 args.prevLogIndex ∧
      IsInt32 args.prevLogTerm ∧ (∀ e ∈ args.entries, IsInt32 e.term ∧ IsInt32 e.index) ∧
        IsInt32 args.leaderCommit := by
  show (IsInt32 args.term ∧ IsInt32 args.leaderId ∧ IsInt32 args.prevLogIndex ∧
    IsInt32 args.prevLogTerm ∧ (∀ e ∈ args.entries, LogEntry.message.Fits e) ∧
      IsInt32 args.leaderCommit ∧ True) ↔ _
  simp only [LogEntry.fits_iff, and_true]

theorem RequestVoteArgs.fits_iff {args : RequestVoteArgs} : message.Fits args ↔
    IsInt32 args.term ∧ IsInt32 args.candidateId ∧ IsInt32 args.lastLogIndex ∧
      IsInt32 args.lastLogTerm := by
  show (IsInt32 args.term ∧ IsInt32 args.candidateId ∧ IsInt32 args.lastLogIndex ∧
    IsInt32 args.lastLogTerm ∧ True) ↔ _
  rw [and_true]

theorem InstallSnapshotArgs.fits_iff {args : InstallSnapshotArgs} : message.Fits args ↔
    IsInt32 args.leaderId ∧ IsInt32 args.term ∧ IsInt32 args.lastIndex ∧ IsInt32 args.lastTerm := by
  show (IsInt32 args.leaderId ∧ IsInt32 args.term ∧ IsInt32 args.lastIndex ∧
    IsInt32 args.lastTerm ∧ True ∧ True) ↔ _
  simp only [and_true]

theorem GetArgs.fits_iff {args : GetArgs} : message.Fits args ↔ IsInt32 args.requestId := by
  show (True ∧ True ∧ IsInt32 args.requestId ∧ True) ↔ _
  simp only [true_and, and_true]

theorem PutArgs.fits_iff {args : PutArgs} : message.Fits args ↔ IsInt32 args.requestId := by
  show (True ∧ True ∧ True ∧ IsInt32 args.requestId ∧ True) ↔ _
  simp only [true_and, and_true]

theorem AppendEntriesReply.fits_iff {r : AppendEntriesReply} :
    message.Fits r ↔ IsInt32 r.term ∧ IsInt32 r.updateNextIndex := by
  show (IsInt32 r.term ∧ True ∧ IsInt32 r.updateNextIndex ∧ True ∧ True) ↔ _
  simp only [true_and, and_true]

theorem RequestVoteReply.fits_iff {r : RequestVoteReply} : message.Fits r ↔ IsInt32 r.term := by
  show (IsInt32 r.term ∧ True ∧ True ∧ True) ↔ _
  simp only [and_true]

theorem InstallSnapshotReply.fits_iff {r : InstallSnapshotReply} :
    message.Fits r ↔ IsInt32 r.term := by
  show (IsInt32 r.term ∧ True) ↔ _
  rw [and_true]

theorem GetReply.fits (r : GetReply) : message.Fits r := ⟨trivial, trivial, trivial⟩

theorem PutReply.fits (r : PutReply) : message.Fits r := ⟨trivial, trivial⟩

end RaftKVStorage
