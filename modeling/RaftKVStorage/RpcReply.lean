import RaftKVStorage.ApplyOrder
import RaftKVStorage.Theory.ProtoWire

set_option autoImplicit false

/-! # Replies

What the handlers of the remote calls send back. `rpcProvider` hands each a closure that serializes
the reply and sends it; a reply of defaults serializes to no bytes, which TCP does not carry. -/

namespace RaftKVStorage

open ProtoWire

variable {n : ℕ} {boost : Boost}

/-! ## Serialization -/

/-- An `int32` field; negative numbers are written as 64-bit ones. -/
def int32Field (number : ℕ) (value : Int) : Bytes :=
  if value = 0 then []
  else Varint.write (8 * number) ++ Varint.write (value % 2 ^ 64).toNat

@[simp] theorem int32Field_eq_nil {number : ℕ} {value : Int} :
    int32Field number value = [] ↔ value = 0 := by
  unfold int32Field
  split_ifs with h
  · simp [h]
  · simp [h, Varint.write_ne_nil]

def NetState.number : NetState → ℕ
  | .disconnected => 0
  | .connected => 1

def VoteState.number : VoteState → ℕ
  | .killed => 0
  | .voted => 1
  | .expire => 2
  | .normal => 3

def AppendEntriesReply.serialize (r : AppendEntriesReply) : Bytes :=
  int32Field 1 r.term ++ (varintField 2 r.success.toNat ++
    (int32Field 3 r.updateNextIndex ++ varintField 4 r.state.number))

def RequestVoteReply.serialize (r : RequestVoteReply) : Bytes :=
  int32Field 1 r.term ++ (varintField 2 r.voteGranted.toNat ++ varintField 3 r.state.number)

def InstallSnapshotReply.serialize (r : InstallSnapshotReply) : Bytes := int32Field 1 r.term

/-- The texts of `config.h`. -/
def Err.text : Err → Bytes
  | .unset => []
  | .ok => ofChars ['O', 'K']
  | .noKey => ofChars ['E', 'r', 'r', 'N', 'o', 'K', 'e', 'y']
  | .timeout => ofChars ['T', 'i', 'm', 'e', 'o', 'u', 't']
  | .wrongLeader => ofChars ['E', 'r', 'r', 'W', 'r', 'o', 'n', 'g', 'L', 'e', 'a', 'd', 'e', 'r']

structure GetReply where
  err : Err := .unset
  value : Bytes := []
deriving DecidableEq

structure PutReply where
  err : Err := .unset
deriving DecidableEq

def GetReply.serialize (r : GetReply) : Bytes := bytesField 1 r.err.text ++ bytesField 2 r.value

def PutReply.serialize (r : PutReply) : Bytes := bytesField 1 r.err.text

/-- Only a reply of defaults is empty on the wire. -/
theorem AppendEntriesReply.serialize_eq_nil {r : AppendEntriesReply} :
    r.serialize = [] ↔ r = {} := by
  obtain ⟨term, success, updateNextIndex, state⟩ := r
  cases success <;> cases state <;> simp [serialize, NetState.number]

theorem RequestVoteReply.serialize_eq_nil {r : RequestVoteReply} : r.serialize = [] ↔ r = {} := by
  obtain ⟨term, voteGranted, state⟩ := r
  cases voteGranted <;> cases state <;> simp [serialize, VoteState.number]

theorem InstallSnapshotReply.serialize_eq_nil {r : InstallSnapshotReply} :
    r.serialize = [] ↔ r = {} := by
  obtain ⟨term⟩ := r
  simp [serialize]

theorem Err.text_eq_nil {err : Err} : err.text = [] ↔ err = .unset := by
  cases err <;> simp [Err.text, ofChars]

theorem GetReply.serialize_eq_nil {r : GetReply} : r.serialize = [] ↔ r = {} := by
  obtain ⟨err, value⟩ := r
  simp [serialize, Err.text_eq_nil]

theorem PutReply.serialize_eq_nil {r : PutReply} : r.serialize = [] ↔ r = {} := by
  obtain ⟨err⟩ := r
  simp [serialize, Err.text_eq_nil]

/-! ## The handlers -/

/-- `raft::appendEntries`: `done->Run()` behind `_L_appendEntries`, unless that throws. -/
def Node.appendEntriesRpc (s : Node n) (args : AppendEntriesArgs) : List Bytes :=
  match (s.appendEntries args).fault with
  | none => [(s.appendEntries args).ret.serialize]
  | some _ => []

/-- `raft::requestVote`. -/
def Node.requestVoteRpc (s : Node n) (args : RequestVoteArgs) : List Bytes :=
  [(s.requestVote args).2.serialize]

/-- `raft::installSnapshot`. -/
def Node.installSnapshotRpc (s : Node n) (args : InstallSnapshotArgs) : List Bytes :=
  match (s.installSnapshot args).fault with
  | none => [(s.installSnapshot args).ret.1.serialize]
  | some _ => []

/-- `_L_get` on a thread of the pool, where `waited` is the result of `waitApplied`. Both early
    returns leave out `done->Run()`. -/
def KvServer.getRpc (s : KvServer) (waited : Bool) (command : Op) : List Bytes :=
  if !waited then []
  else
    match (s.executeGetOp command).2 with
    | (false, _) => []
    | (true, value) => [GetReply.serialize { err := .ok, value := value }]

/-- `kvServer::put`: `done->Run()` behind `_L_put`, where `raftCommitOp` is what the wait for the
    command gave, if anything, and `s` the `kvServer` when it was over. -/
def KvServer.putRpc (s : KvServer) (index term : Int) (raftCommitOp : Option Op) (command : Op) :
    List Bytes :=
  if index = -1 ∨ term = -1 then [PutReply.serialize { err := .wrongLeader }]
  else
    match raftCommitOp with
    | some raftCommitOp => [PutReply.serialize { err := KvServer.replyToPopped command raftCommitOp }]
    | none => [PutReply.serialize { err := s.replyToTimeout command }]

/-- A request dispatched by `rpcProvider`. A get and a put come with what they meet while they wait:
    whether `waitApplied` returned true or which command was popped, and the `kvServer` then. -/
inductive Rpc
  | appendEntries (args : AppendEntriesArgs)
  | requestVote (args : RequestVoteArgs)
  | installSnapshot (args : InstallSnapshotArgs)
  | get (command : Op) (waited : Bool) (kv : KvServer)
  | put (command : Op) (raftCommitOp : Option Op) (kv : KvServer)

/-- What the closure of the request sends, one string for each time it is run. -/
def Server.answers (boost : Boost) (S : Server n) : Rpc → List Bytes
  | .appendEntries args => S.proc.node.appendEntriesRpc args
  | .requestVote args => S.proc.node.requestVoteRpc args
  | .installSnapshot args => S.proc.node.installSnapshotRpc args
  | .get command waited kv => kv.getRpc waited command
  | .put command raftCommitOp kv =>
      let (index, term) := (S.proc.node.execute (command.dump boost)).2
      kv.putRpc index term raftCommitOp command

/-- The closure is run once and sends something. -/
def Answered (answers : List Bytes) : Prop := ∃ str, answers = [str] ∧ str ≠ []

/-- What the outside owes a request: the entries of an appendEntries request have no gaps. -/
def Rpc.WellFormed : Rpc → Prop
  | .appendEntries args => Consecutive args.prevLogIndex args.entries
  | _ => True

/-- A request follows on an entry of the log, and has an entry that differs in its command from the
    log's of the same index and term. -/
def Node.Conflicts (s : Node n) (args : AppendEntriesArgs) : Prop :=
  s.term ≤ args.term ∧ s.lastSnapshotIndex ≤ args.prevLogIndex ∧
    args.prevLogIndex ≤ s.getLastLogIndex ∧
    s.getLogTerm args.prevLogIndex = .ok args.prevLogTerm ∧ args.prevLogTerm ≠ -2 ∧
    ∃ (j : ℕ) (own e : LogEntry),
      s.logs[(args.prevLogIndex - s.lastSnapshotIndex).toNat + j]? = some own ∧
        args.entries[j]? = some e ∧ own.term = e.term ∧ own.command ≠ e.command

/-- The requests that are answered: appendEntries unless it conflicts, every requestVote and put, an
    installSnapshot from a later term or with a newer snapshot, a get that has waited for a key that is
    there. -/
def Server.Answers (S : Server n) : Rpc → Prop
  | .appendEntries args => ¬S.proc.node.Conflicts args
  | .installSnapshot args =>
      (args.term < S.proc.node.term ∧ S.proc.node.term ≠ 0) ∨
        (S.proc.node.term ≤ args.term ∧ args.term ≠ 0 ∧
          S.proc.node.lastSnapshotIndex < args.lastIndex)
  | .get command waited kv => waited = true ∧ kv.data.find command.key ≠ none
  | .requestVote _ | .put _ _ _ => True

/-! ## Which requests are answered -/

theorem answered_singleton {str : Bytes} : Answered [str] ↔ str ≠ [] := by
  constructor
  · rintro ⟨str', heq, hne⟩
    obtain rfl : str = str' := by simpa using heq
    exact hne
  · exact fun hne => ⟨str, rfl, hne⟩

theorem not_answered_nil : ¬Answered [] := by
  rintro ⟨str, heq, -⟩
  simp at heq

/-- The loop over the entries does not get past a conflict. -/
theorem Node.Contiguous.updateLogs_conflict {s : Node n} (h : s.Contiguous) (leaderId : Int)
    {entries : List LogEntry} {k j : ℕ} {own e : LogEntry}
    (hcons : Consecutive (s.lastSnapshotIndex + k) entries) (hk : k ≤ s.logs.length)
    (hown : s.logs[k + j]? = some own) (he : entries[j]? = some e) (hterm : own.term = e.term)
    (hcommand : own.command ≠ e.command) : (s.updateLogs leaderId entries).2 ≠ none := by
  induction entries generalizing s k j with
  | nil => simp at he
  | cons first rest ih =>
    have hidx : first.index = s.lastSnapshotIndex + k + 1 := hcons.head
    have hcons' : Consecutive (s.lastSnapshotIndex + (k + 1 : ℕ)) rest := by
      have htail := hcons.tail
      have hcast : s.lastSnapshotIndex + ((k + 1 : ℕ) : Int) = s.lastSnapshotIndex + k + 1 := by
        push_cast
        ring
      rwa [hcast]
    have hlast := h.getLastLogIndex
    have hkj := (List.getElem?_eq_some_iff.1 hown).1
    have hold : ¬first.index > s.getLastLogIndex := by omega
    obtain ⟨slot, hslot, -, hlogs⟩ :=
      h.logAt (i := first.index) (by omega) (not_lt.1 hold)
    have hslotK : (first.index - s.lastSnapshotIndex - 1).toNat = k := by omega
    rw [hslotK] at hlogs
    have hklt := (List.getElem?_eq_some_iff.1 hlogs).1
    simp only [Node.updateLogs, if_neg hold, hslot]
    by_cases hsame : slot.term = first.term
    · rw [if_pos hsame]
      by_cases hdiff : slot.command ≠ first.command
      · simp [if_pos hdiff]
      · rw [if_neg hdiff]
        cases j with
        | zero =>
          -- the entry in the slot is the conflicting one
          obtain rfl : slot = own := Option.some.inj (hlogs.symm.trans hown)
          obtain rfl : first = e := Option.some.inj he
          exact absurd hcommand hdiff
        | succ j => exact ih h hcons' hklt (by rw [← hown]; congr 1; omega) he
    · rw [if_neg hsame]
      have hset : (s.getSlicesIndexFromLogIndex first.index).toNat = k := hslotK
      rw [hset]
      cases j with
      | zero =>
        obtain rfl : slot = own := Option.some.inj (hlogs.symm.trans hown)
        obtain rfl : first = e := Option.some.inj he
        exact absurd hterm hsame
      | succ j =>
        have h' : Node.Contiguous { s with logs := s.logs.set k first } := by
          intro i x hx
          rw [List.getElem?_set] at hx
          split at hx
          · rename_i hki
            subst hki
            rw [Option.some.injEq] at hx
            subst hx
            show first.index = s.lastSnapshotIndex + 1 + k
            omega
          · exact h i x hx
        refine ih h' hcons' (by rw [List.length_set]; exact hklt) ?_ he
        rw [List.getElem?_set_ne (by omega), ← hown]
        congr 1
        omega

/-- `_L_appendEntries` throws exactly at a conflict. -/
theorem Node.Contiguous.appendEntries_fault {s : Node n} (h : s.Contiguous)
    {args : AppendEntriesArgs} (hcons : Consecutive args.prevLogIndex args.entries) :
    (s.appendEntries args).fault = none ↔ ¬s.Conflicts args := by
  constructor
  · rintro hfault ⟨hle, hlo, hhi, hterm, hne, j, own, e, hown, he, hsame, hcommand⟩
    have hfollow : (s.followTerm args.term).Contiguous := by
      intro i x hx
      rw [Node.followTerm_logs] at hx
      rw [Node.followTerm_lastSnapshotIndex]
      exact h i x hx
    have hlast : (s.followTerm args.term).getLastLogIndex = s.getLastLogIndex := by
      simp [Node.getLastLogIndex]
    have hmatch : (s.followTerm args.term).matchLogTerm args.prevLogIndex args.prevLogTerm =
        .ok .matched := by
      have hget : (s.followTerm args.term).getLogTerm args.prevLogIndex = .ok args.prevLogTerm := by
        rw [← hterm]
        simp [Node.getLogTerm, Node.getLastLogIndex, Node.logAt, Node.getSlicesIndexFromLogIndex]
      rw [Node.matchLogTerm, hget]
      simp [hne]
    have hconflict : ((s.followTerm args.term).updateLogs args.leaderId args.entries).2 ≠ none :=
      hfollow.updateLogs_conflict args.leaderId (k := (args.prevLogIndex - s.lastSnapshotIndex).toNat)
      (by
        rw [Node.followTerm_lastSnapshotIndex]
        have hk : s.lastSnapshotIndex + ((args.prevLogIndex - s.lastSnapshotIndex).toNat : Int) =
            args.prevLogIndex := by omega
        rwa [hk])
      (by
        have hlen := h.getLastLogIndex
        rw [Node.followTerm_logs]
        omega)
      (by rw [Node.followTerm_logs]; exact hown) he hsame hcommand
    rw [Node.appendEntries, if_neg (not_lt.2 hle)] at hfault
    simp only [hlast, Node.followTerm_lastSnapshotIndex, if_neg (not_lt.2 hhi),
      if_neg (not_lt.2 hlo), hmatch] at hfault
    rcases hupdate : (s.followTerm args.term).updateLogs args.leaderId args.entries with ⟨s', fault⟩
    rw [hupdate] at hconflict
    cases fault with
    | none => exact hconflict rfl
    | some f => simp [hupdate] at hfault
  · intro hno
    rcases h.appendEntries_cases hcons with
      ⟨-, heq⟩ | ⟨-, _, heq, -⟩ | ⟨-, -, -, -, heq⟩ |
        ⟨hle, hlo, _, own, e, j, hown, he, hterm, hcommand, -, -, -, -, hmatch, hne⟩
    · rw [heq]
    · rw [heq]
    · rw [heq]
    · have hlen := h.getLastLogIndex
      have hslot := (List.getElem?_eq_some_iff.1 hown).1
      exact absurd ⟨hle, hlo, by omega, hmatch, hne, j, own, e, hown, he, hterm, hcommand⟩ hno

/-! ## The theorem -/

/-- Requests keep the raft node of a server well formed, whatever the order of its threads. -/
theorem Server.indexInv {me : Fin n} {maxRaftStateSize : Int} {S : Server n}
    (h : GuardedRun.Reach (Server.new me maxRaftStateSize) (Server.step boost) Server.Legal S) :
    S.proc.IndexInv := by
  refine h.invariant (P := fun S => S.proc.IndexInv) (.new me) ?_
  intro S input _ hraft hlegal
  have hstep : ∀ input : Input n, input.WellFormed → (S.proc.step input).1.IndexInv :=
    fun input hwf => (hraft.step hwf).1.1
  cases input with
  | raft input => exact hstep input hlegal.1
  | take =>
    simp only [Server.step]
    split_ifs
    · exact hstep .getApplyMessages trivial
    · exact hraft
  | installSnapshot args => exact hstep (.installSnapshot args) trivial
  | loop =>
    simp only [Server.step]
    cases (S.app.kv.popMessageLoop boost (S.proc.node.getRaftStateSize boost)).2 with
    | none => exact hraft
    | some p => exact hstep (.persist p.1 p.2) trivial
  | push | pushMessage k | get command | awaitIndex index | eraseIndex index => exact hraft

theorem Node.requestVote_reply_ne (s : Node n) (args : RequestVoteArgs) :
    (s.requestVote args).2 ≠ {} := by
  unfold Node.requestVote
  dsimp only
  split_ifs <;> exact fun h => by cases congrArg RequestVoteReply.state h

theorem Node.appendEntries_state (s : Node n) (args : AppendEntriesArgs) :
    (s.appendEntries args).ret.state = .connected := by
  unfold Node.appendEntries
  dsimp only
  repeat' split
  all_goals rfl

/-- Which requests are answered: every requestVote and put, but only some of the others. -/
theorem answered_iff (boost : Boost) (me : Fin n) (maxRaftStateSize : Int) {S : Server n}
    (h : GuardedRun.Reach (Server.new me maxRaftStateSize) (Server.step boost) Server.Legal S)
    {request : Rpc} (hwf : request.WellFormed) :
    Answered (S.answers boost request) ↔ S.Answers request := by
  have hraft := (Server.indexInv h).node.contiguous
  cases request with
  | appendEntries args =>
    show Answered (S.proc.node.appendEntriesRpc args) ↔ ¬S.proc.node.Conflicts args
    rw [← hraft.appendEntries_fault hwf, Node.appendEntriesRpc]
    cases hfault : (S.proc.node.appendEntries args).fault with
    | some f => simp [not_answered_nil]
    | none =>
      have hne : (S.proc.node.appendEntries args).ret ≠ {} := by
        intro heq
        have hstate := S.proc.node.appendEntries_state args
        rw [heq] at hstate
        cases hstate
      simpa [answered_singleton, AppendEntriesReply.serialize_eq_nil] using hne
  | requestVote args =>
    show Answered (S.proc.node.requestVoteRpc args) ↔ True
    rw [Node.requestVoteRpc, answered_singleton, Ne, RequestVoteReply.serialize_eq_nil]
    exact iff_true_intro (S.proc.node.requestVote_reply_ne args)
  | installSnapshot args =>
    show Answered (S.proc.node.installSnapshotRpc args) ↔ _
    have hreply : ∀ term : Int,
        ({ term := term } : InstallSnapshotReply).serialize ≠ [] ↔ term ≠ 0 := by
      intro term
      rw [Ne, InstallSnapshotReply.serialize_eq_nil, InstallSnapshotReply.mk.injEq]
    simp only [Server.Answers]
    rcases hraft.installSnapshot_cases args with ⟨hlt, heq⟩ | ⟨hle, hold, heq⟩ | ⟨hle, hnew, heq⟩
    · simp only [Node.installSnapshotRpc, heq, answered_singleton, hreply]
      omega
    · -- the reply to a stale snapshot is left as it was made
      simp only [Node.installSnapshotRpc, heq, answered_singleton, hreply]
      omega
    · simp only [Node.installSnapshotRpc, heq, answered_singleton, hreply]
      omega
  | get command waited kv =>
    show Answered (kv.getRpc waited command) ↔ waited = true ∧ kv.data.find command.key ≠ none
    rw [KvServer.getRpc, KvServer.executeGetOp]
    cases waited with
    | false => simp [not_answered_nil]
    | true =>
      cases hfind : kv.data.find command.key with
      | none => simp [not_answered_nil]
      | some value => simp [answered_singleton, GetReply.serialize_eq_nil]
  | put command raftCommitOp kv =>
    show Answered (kv.putRpc _ _ raftCommitOp command) ↔ True
    have hput : ∀ err : Err, err ≠ .unset → Answered [PutReply.serialize { err := err }] := by
      intro err hne
      rw [answered_singleton, Ne, PutReply.serialize_eq_nil, PutReply.mk.injEq]
      exact hne
    refine iff_true_intro ?_
    unfold KvServer.putRpc
    split_ifs
    · exact hput _ (by decide)
    · cases raftCommitOp with
      | some popped =>
        refine hput _ ?_
        unfold KvServer.replyToPopped
        split_ifs <;> decide
      | none =>
        refine hput _ ?_
        unfold KvServer.replyToTimeout
        split_ifs <;> decide

/-- Follower `p` of three takes in a put and executes it. -/
def putExecuted (p : Fin 3) : Server 3 :=
  GuardedRun.exec (Server.step .text) (Server.new p (-1))
    [.raft (.appendEntries ⟨1, 1, 0, 0, [⟨somePut.dump .text, 1, 1⟩], 1⟩), .take, .push, .loop, .loop,
      .loop]

/-- A get that finds the value there is answered, and so is a request with the next entry. -/
theorem answered_iff_putExecuted :
    Answered ((putExecuted 0).answers .text
        (.get ⟨.get, [107], [], [99], 2⟩ true (putExecuted 0).app.kv)) ∧
      Answered ((putExecuted 0).answers .text (.appendEntries ⟨1, 1, 1, 1, [⟨[7], 1, 2⟩], 1⟩)) := by
  have hreach : GuardedRun.Reach (Server.new (0 : Fin 3) (-1)) (Server.step .text) Server.Legal
      (putExecuted 0) := .exec .init (by decide +kernel)
  have hget : Rpc.WellFormed (.get ⟨.get, [107], [], [99], 2⟩ true (putExecuted 0).app.kv) := trivial
  have happend : Rpc.WellFormed (.appendEntries ⟨1, 1, 1, 1, [⟨[7], 1, 2⟩], 1⟩) := by
    show Consecutive 1 [⟨[7], 1, 2⟩]
    decide
  constructor
  · refine (answered_iff .text 0 (-1) hreach hget).2 ⟨rfl, ?_⟩
    decide +kernel
  · refine (answered_iff .text 0 (-1) hreach happend).2 ?_
    -- the log ends where the entry goes
    rintro ⟨-, -, -, -, -, j, own, e, hown, -⟩
    have hsnap : (putExecuted 0).proc.node.lastSnapshotIndex = 0 := by decide +kernel
    have hlen : (putExecuted 0).proc.node.logs.length = 1 := by decide +kernel
    have hlt := (List.getElem?_eq_some_iff.1 hown).1
    rw [hsnap, hlen] at hlt
    simp at hlt

/-- A get that has waited for a key that is not there, and an installSnapshot that comes a second
    time, are never answered. -/
theorem unanswered_get_and_snapshot :
    (¬ ∀ (S : Server 3), GuardedRun.Reach (Server.new 0 (-1)) (Server.step .text) Server.Legal S →
      ∀ kv : KvServer, Answered (S.answers .text (.get ⟨.get, [107], [], [99], 1⟩ true kv))) ∧
    (¬ ∀ (S : Server 3), GuardedRun.Reach (Server.new 0 (-1)) (Server.step .text) Server.Legal S →
      ∀ args : InstallSnapshotArgs, Answered (S.answers .text (.installSnapshot args))) := by
  constructor
  · intro h
    exact not_answered_nil (h _ .init { maxRaftStateSize := -1 })
  · intro h
    have hreach : GuardedRun.Reach (Server.new (0 : Fin 3) (-1)) (Server.step .text) Server.Legal
        ((Server.new 0 (-1)).step .text (.installSnapshot ⟨1, 1, 2, 1, [7]⟩)) :=
      .step _ .init trivial
    obtain ⟨str, heq, hne⟩ := h _ hreach ⟨1, 1, 2, 1, [7]⟩
    have hempty : ((Server.new (0 : Fin 3) (-1)).step .text
        (.installSnapshot ⟨1, 1, 2, 1, [7]⟩)).answers .text (.installSnapshot ⟨1, 1, 2, 1, [7]⟩) =
        [[]] := by decide +kernel
    rw [hempty, List.cons.injEq] at heq
    exact hne heq.1.symm

end RaftKVStorage
