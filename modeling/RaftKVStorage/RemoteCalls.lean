import RaftKVStorage.Messages

set_option autoImplicit false

/-! # Remote calls

A call from the arguments of the caller to the handler of the server, and its reply the way back:
`raftHelper` and `kvHelper` hand both to `mprpcChannel::CallMethod`, `rpcProvider` has the two services
that `kvServer` registers. -/

namespace RaftKVStorage

open ProtoWire

variable {n : ℕ} {pb : Protobuf}

/-! ## The services of a server -/

/-- A service as its descriptor lists it: its methods by name, each with whether bytes parse as its
    arguments. -/
structure ServiceDescriptor where
  name : Bytes
  methods : List (Bytes × (Bytes → Bool))

/-- `notifyService`. `insert` leaves a service of that name that is there already. -/
def notifyService (services : List ServiceDescriptor) (service : ServiceDescriptor) :
    List ServiceDescriptor :=
  if services.any (·.name = service.name) then services else services ++ [service]

/-- A service and its method, by their names. -/
def findService (services : List ServiceDescriptor) (serviceName : Bytes) :
    Option (Bytes → Option (Bytes → Bool)) :=
  (services.find? (·.name = serviceName)).map fun service methodName =>
    service.methods.lookup methodName

/-- "appendEntries" -/
def appendEntriesName : Bytes := [97, 112, 112, 101, 110, 100, 69, 110, 116, 114, 105, 101, 115]

/-- "installSnapshot" -/
def installSnapshotName : Bytes :=
  [105, 110, 115, 116, 97, 108, 108, 83, 110, 97, 112, 115, 104, 111, 116]

/-- "kvServerBase" -/
def kvServerBaseName : Bytes := [107, 118, 83, 101, 114, 118, 101, 114, 66, 97, 115, 101]

/-- "put" -/
def putName : Bytes := [112, 117, 116]

/-- "get" -/
def getName : Bytes := [103, 101, 116]

def raftBase : ServiceDescriptor where
  name := raftBaseName
  methods := [(appendEntriesName, fun args => (AppendEntriesArgs.message.parse args).isSome),
    (installSnapshotName, fun args => (InstallSnapshotArgs.message.parse args).isSome),
    (requestVoteName, fun args => (RequestVoteArgs.message.parse args).isSome)]

def kvServerBase : ServiceDescriptor where
  name := kvServerBaseName
  methods := [(putName, fun args => (PutArgs.message.parse args).isSome),
    (getName, fun args => (GetArgs.message.parse args).isSome)]

/-- What the constructor of `kvServer` registers. -/
def kvServices : Services where
  find := findService (notifyService (notifyService [] kvServerBase) raftBase)
  unnamed := by decide

/-! ## Calls -/

inductive RemoteCall
  | appendEntries (args : AppendEntriesArgs)
  | installSnapshot (args : InstallSnapshotArgs)
  | requestVote (args : RequestVoteArgs)
  | put (args : PutArgs)
  | get (args : GetArgs)
deriving DecidableEq

/-- What the stub of the service hands to `CallMethod`. -/
def RemoteCall.request : RemoteCall → Request
  | .appendEntries args =>
      ⟨raftBaseName, appendEntriesName, AppendEntriesArgs.message.serialize args⟩
  | .installSnapshot args =>
      ⟨raftBaseName, installSnapshotName, InstallSnapshotArgs.message.serialize args⟩
  | .requestVote args => ⟨raftBaseName, requestVoteName, RequestVoteArgs.message.serialize args⟩
  | .put args => ⟨kvServerBaseName, putName, PutArgs.message.serialize args⟩
  | .get args => ⟨kvServerBaseName, getName, GetArgs.message.serialize args⟩

/-- `service->CallMethod`: the handler that is run for a request, and its arguments. -/
def Request.call (r : Request) : Option RemoteCall :=
  if r.serviceName = kvServerBaseName then
    if r.methodName = putName then (PutArgs.message.parse r.args).map .put
    else if r.methodName = getName then (GetArgs.message.parse r.args).map .get
    else none
  else if r.serviceName = raftBaseName then
    if r.methodName = appendEntriesName then (AppendEntriesArgs.message.parse r.args).map .appendEntries
    else if r.methodName = installSnapshotName then
      (InstallSnapshotArgs.message.parse r.args).map .installSnapshot
    else if r.methodName = requestVoteName then (RequestVoteArgs.message.parse r.args).map .requestVote
    else none
  else none

/-- The numbers of the call are `int32`s. -/
def RemoteCall.Fits : RemoteCall → Prop
  | .appendEntries args =>
      IsInt32 args.term ∧ IsInt32 args.leaderId ∧ IsInt32 args.prevLogIndex ∧
        IsInt32 args.prevLogTerm ∧ (∀ e ∈ args.entries, IsInt32 e.term ∧ IsInt32 e.index) ∧
          IsInt32 args.leaderCommit
  | .installSnapshot args =>
      IsInt32 args.leaderId ∧ IsInt32 args.term ∧ IsInt32 args.lastIndex ∧ IsInt32 args.lastTerm
  | .requestVote args =>
      IsInt32 args.term ∧ IsInt32 args.candidateId ∧ IsInt32 args.lastLogIndex ∧
        IsInt32 args.lastLogTerm
  | .put args => IsInt32 args.requestId
  | .get args => IsInt32 args.requestId

/-- The request of a call runs the handler with the arguments of the caller. -/
theorem RemoteCall.call_request {c : RemoteCall} (h : c.Fits)
    (hlen : c.request.args.length < 2147483648) : c.request.call = some c := by
  cases c with
  | appendEntries args =>
    have hparse := Message.parse_serialize (AppendEntriesArgs.fits_iff.2 h) hlen
    dsimp only [Request.call, request]
    rw [if_neg (by decide), if_pos rfl, if_pos rfl, hparse]
    rfl
  | installSnapshot args =>
    have hparse := Message.parse_serialize (InstallSnapshotArgs.fits_iff.2 h) hlen
    dsimp only [Request.call, request]
    rw [if_neg (by decide), if_pos rfl, if_neg (by decide), if_pos rfl, hparse]
    rfl
  | requestVote args =>
    have hparse := Message.parse_serialize (RequestVoteArgs.fits_iff.2 h) hlen
    dsimp only [Request.call, request]
    rw [if_neg (by decide), if_pos rfl, if_neg (by decide), if_neg (by decide), if_pos rfl, hparse]
    rfl
  | put args =>
    have hparse := Message.parse_serialize (PutArgs.fits_iff.2 h) hlen
    dsimp only [Request.call, request]
    rw [if_pos rfl, if_pos rfl, hparse]
    rfl
  | get args =>
    have hparse := Message.parse_serialize (GetArgs.fits_iff.2 h) hlen
    dsimp only [Request.call, request]
    rw [if_pos rfl, if_neg (by decide), if_pos rfl, hparse]
    rfl

/-- A call that a request runs is one that fits. -/
theorem Request.fits_of_call {r : Request} {c : RemoteCall} (h : r.call = some c) : c.Fits := by
  unfold Request.call at h
  split_ifs at h
  · obtain ⟨args, hparse, rfl⟩ := Option.map_eq_some_iff.1 h
    exact PutArgs.fits_iff.1 (Message.fits_of_parse hparse)
  · obtain ⟨args, hparse, rfl⟩ := Option.map_eq_some_iff.1 h
    exact GetArgs.fits_iff.1 (Message.fits_of_parse hparse)
  · obtain ⟨args, hparse, rfl⟩ := Option.map_eq_some_iff.1 h
    exact AppendEntriesArgs.fits_iff.1 (Message.fits_of_parse hparse)
  · obtain ⟨args, hparse, rfl⟩ := Option.map_eq_some_iff.1 h
    exact InstallSnapshotArgs.fits_iff.1 (Message.fits_of_parse hparse)
  · obtain ⟨args, hparse, rfl⟩ := Option.map_eq_some_iff.1 h
    exact RequestVoteArgs.fits_iff.1 (Message.fits_of_parse hparse)

theorem kvServices_find (serviceName : Bytes) : kvServices.find serviceName =
    if serviceName = kvServerBaseName then some fun name => kvServerBase.methods.lookup name
    else if serviceName = raftBaseName then some fun name => raftBase.methods.lookup name
    else none := by
  have hservices : notifyService (notifyService [] kvServerBase) raftBase = [kvServerBase, raftBase] :=
    if_neg (by decide)
  show findService (notifyService (notifyService [] kvServerBase) raftBase) serviceName = _
  rw [hservices, findService, List.find?_cons, List.find?_cons, List.find?_nil]
  by_cases hkv : serviceName = kvServerBaseName
  · subst hkv
    rfl
  · rw [if_neg hkv, decide_eq_false (p := kvServerBase.name = serviceName) (Ne.symm hkv)]
    by_cases hraft : serviceName = raftBaseName
    · subst hraft
      rfl
    · rw [if_neg hraft, decide_eq_false (p := raftBase.name = serviceName) (Ne.symm hraft)]
      rfl

/-- The methods of a service, in their order. -/
theorem lookup_method (name key : Bytes) (parses : Bytes → Bool)
    (rest : List (Bytes × (Bytes → Bool))) : ((key, parses) :: rest).lookup name =
      if name = key then some parses else rest.lookup name := by
  rw [List.lookup_cons]
  by_cases h : name = key
  · rw [if_pos h, beq_iff_eq.2 h]
  · rw [if_neg h, beq_eq_false_iff_ne.2 h]

/-- The services have a method for the requests that run a handler, and for no others. -/
theorem Request.accepted_iff {r : Request} : kvServices.Accepts r ↔ ∃ c, r.call = some c := by
  have hsome : ∀ {α : Type} (message : Message α) (make : α → RemoteCall),
      (message.parse r.args).isSome = true ↔ ∃ c, (message.parse r.args).map make = some c := by
    intro α message make
    cases hparse : message.parse r.args with
    | none => simp
    | some args => simp
  have hnone : (∃ parses : Bytes → Bool, none = some parses ∧ parses r.args = true) ↔
      ∃ c : RemoteCall, none = some c := by simp
  unfold Services.Accepts Request.call
  rw [kvServices_find]
  by_cases hkv : r.serviceName = kvServerBaseName
  · simp only [if_pos hkv, Option.some.injEq, exists_and_left, exists_eq_left', kvServerBase,
      lookup_method, List.lookup_nil]
    by_cases hput : r.methodName = putName
    · simpa only [if_pos hput, Option.some.injEq, exists_eq_left'] using hsome PutArgs.message .put
    · by_cases hget : r.methodName = getName
      · simpa only [if_neg hput, if_pos hget, Option.some.injEq, exists_eq_left'] using
          hsome GetArgs.message .get
      · simpa only [if_neg hput, if_neg hget] using hnone
  · by_cases hraft : r.serviceName = raftBaseName
    · simp only [if_neg hkv, if_pos hraft, Option.some.injEq, exists_and_left, exists_eq_left',
        raftBase, lookup_method, List.lookup_nil]
      by_cases happend : r.methodName = appendEntriesName
      · simpa only [if_pos happend, Option.some.injEq, exists_eq_left'] using
          hsome AppendEntriesArgs.message .appendEntries
      · by_cases hinstall : r.methodName = installSnapshotName
        · simpa only [if_neg happend, if_pos hinstall, Option.some.injEq, exists_eq_left'] using
            hsome InstallSnapshotArgs.message .installSnapshot
        · by_cases hvote : r.methodName = requestVoteName
          · simpa only [if_neg happend, if_neg hinstall, if_pos hvote, Option.some.injEq,
              exists_eq_left'] using hsome RequestVoteArgs.message .requestVote
          · simpa only [if_neg happend, if_neg hinstall, if_neg hvote] using hnone
    · simp [if_neg hkv, if_neg hraft]

/-! ## From the caller to the handler -/

/-- The arguments are the last part of a frame. -/
theorem Request.length_args_lt {r : Request} (hlt : (r.frame pb).length < 2 ^ 31) :
    r.args.length < 2147483648 := by
  simp only [Request.frame, List.length_append] at hlt
  omega

/-- The frame of a call that fits is dispatched as the request it was made of. -/
theorem RemoteCall.onMessage_request {c : RemoteCall} (h : c.Fits)
    (hlt : (c.request.frame pb).length < 2 ^ 31) :
    onMessage pb kvServices (c.request.frame pb) = some c.request :=
  onMessage_frame (Request.accepted_iff.2 ⟨c, call_request h (Request.length_args_lt hlt)⟩) hlt

/-- Calls delivered one by one run their handlers in order, each with the arguments of its caller. -/
theorem calls_arrive (pb : Protobuf) {calls : List RemoteCall} (hfits : ∀ c ∈ calls, c.Fits)
    (hlt : ∀ c ∈ calls, (c.request.frame pb).length < 2 ^ 31) :
    (dispatched pb kvServices (calls.map fun c => c.request.frame pb)).map Request.call =
      calls.map some := by
  induction calls with
  | nil => rfl
  | cons c calls ih =>
    obtain ⟨hc, hcalls⟩ := List.forall_mem_cons.1 hfits
    obtain ⟨hclt, hcallsLt⟩ := List.forall_mem_cons.1 hlt
    have hrest := ih hcalls hcallsLt
    unfold dispatched at hrest ⊢
    rw [List.map_cons, List.filterMap_cons_some (RemoteCall.onMessage_request hc hclt), List.map_cons,
      RemoteCall.call_request hc (Request.length_args_lt hclt), hrest, List.map_cons]

/-- A heartbeat with an entry and a leader's commit index of -1, and a get. -/
def twoCalls : List RemoteCall :=
  [.appendEntries ⟨1, 0, 0, 0, [⟨[7], 1, 1⟩, ⟨[], 1, 2⟩], -1⟩, .get ⟨[107], [99], 1⟩]

theorem calls_arrive_two :
    (∀ c ∈ twoCalls, (c.request.frame .wire).length < 2 ^ 31) ∧
      (dispatched .wire kvServices (twoCalls.map fun c => c.request.frame .wire)).map Request.call =
        twoCalls.map some := by
  have hlt : ∀ c ∈ twoCalls, (c.request.frame .wire).length < 2 ^ 31 := by decide +kernel
  refine ⟨hlt, calls_arrive .wire (List.forall_mem_cons.2 ⟨?_, List.forall_mem_singleton.2 ?_⟩) hlt⟩
  · exact ⟨by decide, by decide, by decide, by decide, by decide, by decide⟩
  · show IsInt32 1
    decide

/-- A request that is dispatched has a method and arguments for it. -/
theorem accepts_of_onMessage {services : Services} {recvBuf : Bytes} {r : Request}
    (h : onMessage pb services recvBuf = some r) : services.Accepts r := by
  unfold onMessage at h
  rcases hsize : readHeaderSize pb (arrayInputStream recvBuf) with ⟨headerSize, rest⟩
  rcases hread : readString rest (toInt headerSize) with ⟨rpcHeaderStr, rest', ok⟩
  simp only [hsize, hread] at h
  cases hparse : pb.parse rpcHeaderStr with
  | none => simp [hparse] at h
  | some header =>
    simp only [hparse] at h
    unfold dispatch at h
    rcases hargs : readString rest' (toInt header.argsSize) with ⟨args, rest'', ok⟩
    rw [hargs] at h
    cases ok with
    | false => simp at h
    | true =>
      cases hfind : services.find header.serviceName with
      | none => simp [hfind] at h
      | some methods =>
        cases hmethod : methods header.methodName with
        | none => simp [hfind, hmethod] at h
        | some parses =>
          by_cases hok : parses args
          · simp only [hfind, hmethod, if_pos hok, Option.some.injEq] at h
            subst h
            exact ⟨methods, parses, hfind, hmethod, hok⟩
          · simp [hfind, hmethod, hok] at h

/-- Whatever bytes arrive in whatever pieces, the requests dispatched run a handler with arguments
    that fit, and a caller who can write these arguments runs the same. -/
theorem dispatched_run (pb : Protobuf) (deliveries : List Bytes) :
    ∀ r ∈ dispatched pb kvServices deliveries, ∃ c : RemoteCall, r.call = some c ∧ c.Fits ∧
      (c.request.args.length < 2147483648 → c.request.call = r.call) := by
  intro r hr
  obtain ⟨recvBuf, -, honMessage⟩ := List.mem_filterMap.1 hr
  obtain ⟨c, hcall⟩ := Request.accepted_iff.1 (accepts_of_onMessage honMessage)
  have hfits := Request.fits_of_call hcall
  have hwritten : c.request.args.length < 2147483648 → c.request.call = r.call := fun hlen =>
    (RemoteCall.call_request hfits hlen).trans hcall.symm
  exact ⟨c, hcall, hfits, hwritten⟩

/-- A call for a vote whose arguments are a group, and behind its frame two more bytes. -/
def voteGroup : Bytes :=
  Request.frame .wire ⟨raftBaseName, requestVoteName, [0x3b, 0x08, 0x01, 0x3c]⟩ ++ [8, 1]

theorem dispatched_run_group :
    ∃ r ∈ dispatched .wire kvServices [voteGroup],
      ∃ c : RemoteCall, r.call = some c ∧ c.Fits ∧
        (c.request.args.length < 2147483648 → c.request.call = r.call) := by
  have hmem : (⟨raftBaseName, requestVoteName, [0x3b, 0x08, 0x01, 0x3c]⟩ : Request) ∈
      dispatched .wire kvServices [voteGroup] := by
    decide +kernel
  exact ⟨_, hmem, dispatched_run .wire _ _ hmem⟩

/-! ## The reply -/

inductive RemoteReply
  | appendEntries (r : AppendEntriesReply)
  | installSnapshot (r : InstallSnapshotReply)
  | requestVote (r : RequestVoteReply)
  | put (r : PutReply)
  | get (r : GetReply)
deriving DecidableEq

/-- `_M_senRPCResponse`: what is sent. -/
def RemoteReply.serialize : RemoteReply → Bytes
  | .appendEntries r => r.serialize
  | .installSnapshot r => r.serialize
  | .requestVote r => r.serialize
  | .put r => r.serialize
  | .get r => r.serialize

/-- The numbers of the reply are `int32`s. -/
def RemoteReply.Fits : RemoteReply → Prop
  | .appendEntries r => IsInt32 r.term ∧ IsInt32 r.updateNextIndex
  | .installSnapshot r => IsInt32 r.term
  | .requestVote r => IsInt32 r.term
  | .put _ | .get _ => True

/-- `response->ParseFromArray`: what the caller has in its reply. -/
def RemoteCall.readReply (recvBuf : Bytes) : RemoteCall → Option RemoteReply
  | .appendEntries _ => (AppendEntriesReply.message.parse recvBuf).map .appendEntries
  | .installSnapshot _ => (InstallSnapshotReply.message.parse recvBuf).map .installSnapshot
  | .requestVote _ => (RequestVoteReply.message.parse recvBuf).map .requestVote
  | .put _ => (PutReply.message.parse recvBuf).map .put
  | .get _ => (GetReply.message.parse recvBuf).map .get

/-- What a get or a put meets while it waits: whether `waitApplied` returned true, the command that
    was popped, if any, and the `kvServer` then. -/
structure Waited where
  applied : Bool
  raftCommitOp : Option Op
  kv : KvServer

/-- What the handler of a call is asked to do. -/
def RemoteCall.handle (w : Waited) : RemoteCall → Rpc
  | .appendEntries args => .appendEntries args
  | .installSnapshot args => .installSnapshot args
  | .requestVote args => .requestVote args
  | .put args =>
      .put ⟨.put, args.key, args.value, args.clientId, args.requestId⟩ w.raftCommitOp w.kv
  | .get args => .get ⟨.get, args.key, [], args.clientId, args.requestId⟩ w.applied w.kv

/-- The reply that a handler sends, if it sends one. -/
def Server.reply (boost : Boost) (S : Server n) : Rpc → Option RemoteReply
  | .appendEntries args =>
      match (S.proc.node.appendEntries args).fault with
      | none => some (.appendEntries (S.proc.node.appendEntries args).ret)
      | some _ => none
  | .installSnapshot args =>
      match (S.proc.node.installSnapshot args).fault with
      | none => some (.installSnapshot (S.proc.node.installSnapshot args).ret.1)
      | some _ => none
  | .requestVote args => some (.requestVote (S.proc.node.requestVote args).2)
  | .get command waited kv =>
      if !waited then none
      else
        match (kv.executeGetOp command).2 with
        | (false, _) => none
        | (true, value) => some (.get { err := .ok, value := value })
  | .put command raftCommitOp kv =>
      let (index, term) := (S.proc.node.execute (command.dump boost)).2
      if index = -1 ∨ term = -1 then some (.put { err := .wrongLeader })
      else
        match raftCommitOp with
        | some raftCommitOp => some (.put { err := KvServer.replyToPopped command raftCommitOp })
        | none => some (.put { err := kv.replyToTimeout command })

theorem Server.answers_eq (boost : Boost) (S : Server n) (request : Rpc) :
    S.answers boost request = (S.reply boost request).toList.map RemoteReply.serialize := by
  cases request with
  | appendEntries args =>
    simp only [answers, reply, Node.appendEntriesRpc]
    cases (S.proc.node.appendEntries args).fault <;> rfl
  | installSnapshot args =>
    simp only [answers, reply, Node.installSnapshotRpc]
    cases (S.proc.node.installSnapshot args).fault <;> rfl
  | requestVote args => rfl
  | get command waited kv =>
    simp only [answers, reply, KvServer.getRpc]
    cases waited with
    | false => rfl
    | true =>
      rcases (kv.executeGetOp command).2 with ⟨found, value⟩
      cases found <;> rfl
  | put command raftCommitOp kv =>
    simp only [answers, reply, KvServer.putRpc]
    split_ifs
    · rfl
    · cases raftCommitOp <;> rfl

/-! ## Replies that fit into one read -/

theorem length_varintField {k v : ℕ} (hk : k < 16) (hv : v < 2 ^ 64) :
    (varintField k v).length ≤ 11 := by
  unfold varintField
  split_ifs
  · exact Nat.zero_le _
  · have htag : (Varint.write (8 * k)).length ≤ 1 := Varint.length_write_le (by decide) (by omega)
    have hvalue : (Varint.write v).length ≤ 10 := Varint.length_write_le (by decide) (by omega)
    rw [List.length_append]
    omega

theorem length_int32Field {k : ℕ} (hk : k < 16) (v : Int) : (int32Field k v).length ≤ 11 := by
  unfold int32Field
  split_ifs
  · exact Nat.zero_le _
  · have htag : (Varint.write (8 * k)).length ≤ 1 := Varint.length_write_le (by decide) (by omega)
    have hvalue : (Varint.write (v % 2 ^ 64).toNat).length ≤ 10 :=
      Varint.length_write_le (by decide) (by omega)
    rw [List.length_append]
    omega

theorem AppendEntriesReply.length_serialize (r : AppendEntriesReply) : r.serialize.length ≤ 1024 := by
  have hterm := length_int32Field (k := 1) (by decide) r.term
  have hsuccess : (varintField 2 r.success.toNat).length ≤ 11 :=
    length_varintField (by decide) (by cases r.success <;> decide)
  have hnext := length_int32Field (k := 3) (by decide) r.updateNextIndex
  have hstate : (varintField 4 r.state.number).length ≤ 11 :=
    length_varintField (by decide) (by cases r.state <;> decide)
  simp only [serialize, List.length_append]
  omega

theorem RequestVoteReply.length_serialize (r : RequestVoteReply) : r.serialize.length ≤ 1024 := by
  have hterm := length_int32Field (k := 1) (by decide) r.term
  have hgranted : (varintField 2 r.voteGranted.toNat).length ≤ 11 :=
    length_varintField (by decide) (by cases r.voteGranted <;> decide)
  have hstate : (varintField 3 r.state.number).length ≤ 11 :=
    length_varintField (by decide) (by cases r.state <;> decide)
  simp only [serialize, List.length_append]
  omega

theorem PutReply.length_serialize (r : PutReply) : r.serialize.length ≤ 1024 := by
  obtain ⟨err⟩ := r
  cases err <;> decide +kernel

theorem GetReply.serialize_ok (value : Bytes) :
    serialize { err := .ok, value := value } = bytesField 1 Err.ok.text ++ bytesField 2 value := rfl

/-- The length of the reply to a get, by that of its value. -/
theorem GetReply.length_serialize_iff (value : Bytes) :
    (serialize { err := .ok, value := value }).length ≤ 1024 ↔ value.length ≤ 1017 := by
  have htext : (bytesField 1 Err.ok.text).length = 4 := by decide +kernel
  have htag : (Varint.write (8 * 2 + 2)).length = 1 := by decide +kernel
  rw [serialize_ok, List.length_append, htext, bytesField]
  split_ifs with hnil
  · simp [hnil]
  · rw [List.length_append, List.length_append, htag]
    constructor
    · intro hle
      by_contra hlong
      have hsize := Varint.lt_length_write (v := value.length) (k := 1) (by omega)
      omega
    · intro hle
      have hsize : (Varint.write value.length).length ≤ 2 :=
        Varint.length_write_le (by decide) (by omega)
      omega

/-- A reply that is cut off is refused. -/
theorem GetReply.parse_cut {value : Bytes} (h : 1017 < value.length) :
    message.parse ((serialize { err := .ok, value := value }).take 1024) = none := by
  have hne : value ≠ [] := by
    rintro rfl
    simp at h
  have hlong : ¬(serialize { err := .ok, value := value }).length ≤ 1024 := by
    rw [length_serialize_iff]
    omega
  have hfirst : [Field.bytes 1 Err.ok.text].flatMap Field.write = bytesField 1 Err.ok.text := by
    decide +kernel
  have hlen : (bytesField 1 Err.ok.text).length = 4 := by decide +kernel
  have hwrite : bytesField 2 value = (Field.bytes 2 value).write := if_neg hne
  rw [serialize_ok, List.length_append, hlen, hwrite] at hlong
  have hcut : fieldsWithin message.limit ((serialize { err := .ok, value := value }).take 1024) =
      none := by
    have hlegal : ∀ f ∈ [Field.bytes 1 Err.ok.text], f.Legal :=
      List.forall_mem_singleton.2 (show IsNumber 1 by decide)
    have hshort : ([Field.bytes 1 Err.ok.text].flatMap Field.write).length < 2147483648 := by
      rw [hfirst, hlen]
      decide
    have hvalue : (Field.bytes 2 value).Legal := show IsNumber 2 by decide
    rw [serialize_ok, List.take_append, List.take_of_length_le (by omega), hlen, hwrite, ← hfirst]
    exact fieldsWithin_take_write hlegal hshort hvalue (by decide) (by omega)
  rw [Message.parse, hcut, Option.bind_none]

/-! ## A call and its reply -/

/-- What the caller has in its reply when the connection delivers the request in one piece and all of
    the reply is there when it is read. One `recv` reads at most 1024 bytes; nothing is sent of an
    empty reply. -/
def Server.remote (pb : Protobuf) (boost : Boost) (S : Server n) (w : Waited) (c : RemoteCall) :
    Option RemoteReply :=
  (callMethod pb c.request).bind fun frame =>
    (onMessage pb kvServices frame).bind fun r =>
      r.call.bind fun call =>
        match S.answers boost (call.handle w) with
        | [str] => if str = [] then none else c.readReply (str.take 1024)
        | _ => none

/-- The replies that can be read. -/
def RemoteReply.reaches : RemoteReply → Bool
  | .installSnapshot r => r.term ≠ 0
  | .get r => r.value.length ≤ 1017
  | .appendEntries _ | .requestVote _ | .put _ => true

/-- What is read of a reply that is sent whole. -/
theorem parse_whole {α : Type} {message : Message α} {serialize : α → Bytes} {r : α}
    (hserialize : message.serialize r = serialize r) (hfits : message.Fits r)
    (hlen : (serialize r).length ≤ 1024) : message.parse ((serialize r).take 1024) = some r := by
  have hshort : (message.serialize r).length < 2147483648 := by
    rw [hserialize]
    omega
  rw [List.take_of_length_le hlen, ← hserialize, Message.parse_serialize hfits hshort]

/-- What the caller reads of the reply that its handler sends. -/
theorem Server.readReply_reply (boost : Boost) (S : Server n) (w : Waited) {c : RemoteCall}
    {r : RemoteReply} (hr : S.reply boost (c.handle w) = some r) (hfits : r.Fits) :
    (if r.serialize = [] then none else c.readReply (r.serialize.take 1024)) =
      (some r).filter RemoteReply.reaches := by
  cases c with
  | appendEntries args =>
    simp only [RemoteCall.handle, reply] at hr
    split at hr
    · cases hr
      have hne : (S.proc.node.appendEntries args).ret.serialize ≠ [] := by
        intro hnil
        have hstate := S.proc.node.appendEntries_state args
        rw [AppendEntriesReply.serialize_eq_nil.1 hnil] at hstate
        cases hstate
      have hread := parse_whole (AppendEntriesReply.message_serialize _) (AppendEntriesReply.fits_iff.2 hfits)
        (AppendEntriesReply.length_serialize _)
      simp only [RemoteReply.serialize, RemoteCall.readReply, if_neg hne, hread]
      rfl
    · cases hr
  | installSnapshot args =>
    simp only [RemoteCall.handle, reply] at hr
    split at hr
    · cases hr
      set ret := (S.proc.node.installSnapshot args).ret.1
      have hnil : ret.serialize = [] ↔ ret.term = 0 := by
        rw [InstallSnapshotReply.serialize_eq_nil]
        exact ⟨fun h => by rw [h], fun h => congrArg InstallSnapshotReply.mk h⟩
      have hlen : ret.serialize.length ≤ 1024 :=
        (length_int32Field (by decide) ret.term).trans (by decide)
      have hread := parse_whole (InstallSnapshotReply.message_serialize ret)
        (InstallSnapshotReply.fits_iff.2 hfits) hlen
      by_cases hzero : ret.term = 0
      · simp [RemoteReply.serialize, hnil.2 hzero, RemoteReply.reaches, hzero, Option.filter]
      · have hne : ret.serialize ≠ [] := fun h => hzero (hnil.1 h)
        simp [RemoteReply.serialize, RemoteCall.readReply, hne, hread, RemoteReply.reaches, hzero,
          Option.filter]
    · cases hr
  | requestVote args =>
    cases hr
    have hne : (S.proc.node.requestVote args).2.serialize ≠ [] := fun hnil =>
      S.proc.node.requestVote_reply_ne args (RequestVoteReply.serialize_eq_nil.1 hnil)
    have hread := parse_whole (RequestVoteReply.message_serialize _) (RequestVoteReply.fits_iff.2 hfits)
      (RequestVoteReply.length_serialize _)
    simp only [RemoteReply.serialize, RemoteCall.readReply, if_neg hne, hread]
    rfl
  | put args =>
    have hput : ∀ err : Err, err ≠ .unset → some (RemoteReply.put { err := err }) = some r →
        (if r.serialize = [] then none
          else (RemoteCall.put args).readReply (r.serialize.take 1024)) =
          (some r).filter RemoteReply.reaches := by
      rintro err hunset ⟨⟩
      have hne : PutReply.serialize { err := err } ≠ [] := fun hnil =>
        hunset (congrArg PutReply.err (PutReply.serialize_eq_nil.1 hnil))
      have hread := parse_whole (PutReply.message_serialize { err := err }) (PutReply.fits _)
        (PutReply.length_serialize _)
      simp only [RemoteReply.serialize, RemoteCall.readReply, if_neg hne, hread]
      rfl
    simp only [RemoteCall.handle, reply] at hr
    split_ifs at hr
    · exact hput _ (by decide) hr
    · cases hop : w.raftCommitOp with
      | none =>
        rw [hop] at hr
        refine hput _ ?_ hr
        unfold KvServer.replyToTimeout
        split_ifs <;> decide
      | some popped =>
        rw [hop] at hr
        refine hput _ ?_ hr
        unfold KvServer.replyToPopped
        split_ifs <;> decide
  | get args =>
    simp only [RemoteCall.handle, reply] at hr
    split_ifs at hr
    split at hr
    · cases hr
    · rename_i value _
      cases hr
      have hne : GetReply.serialize { err := .ok, value := value } ≠ [] := by
        simp [GetReply.serialize_eq_nil]
      by_cases hshort : value.length ≤ 1017
      · have hread := parse_whole (GetReply.message_serialize { err := .ok, value := value }) (GetReply.fits _)
          ((GetReply.length_serialize_iff value).2 hshort)
        simp [RemoteReply.serialize, RemoteCall.readReply, hne, hread, RemoteReply.reaches, hshort,
          Option.filter]
      · have hread := GetReply.parse_cut (not_le.1 hshort)
        simp [RemoteReply.serialize, RemoteCall.readReply, hread, RemoteReply.reaches, hshort, Option.filter]

/-- A candidate asks for a vote in term 1. -/
def voteCall : RemoteCall := .requestVote ⟨1, 1, 0, 0⟩

end RaftKVStorage
