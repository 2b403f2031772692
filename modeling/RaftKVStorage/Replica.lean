import RaftKVStorage.KvServer
import RaftKVStorage.Theory.Run

set_option autoImplicit false

/-! # Snapshots and reads on one replica

What installing a snapshot leaves of a replica's own data, and what gets do to the commands consumed
around them: both the filter for repeated requests and the gets use `_M_lastRequestId`. -/

namespace RaftKVStorage

namespace KvServer

variable (boost : Boost)

/-! ## Installing a snapshot -/

theorem load_dump (s t : KvServer) : t.load boost (s.dump boost) =
    some { t with
      data := t.data.insertAll s.data.dumper
      lastRequestId := s.lastRequestId } := by
  have hserver : s.dump boost ≠ [] := boost.server.save_ne_nil _
  rw [load, if_neg hserver, dump, boost.server.load_save]
  simp [loadData, boost.dumper.save_ne_nil, boost.dumper.load_save]

/-- Keys that both replicas have keep the value of the receiver. -/
theorem find_installSnapshot_dump (s t : KvServer) (msg : ApplyMessage) (k : Bytes) :
    (t.installSnapshot boost { msg with snapshot := s.dump boost }).data.find k =
      (t.data.find k).or (s.data.find k) := by
  simp only [installSnapshot, load_dump]
  exact KvSkipList.find_insertAll_dumper t.data s.data k

theorem lastRequestId_installSnapshot_dump (s t : KvServer) (msg : ApplyMessage) :
    (t.installSnapshot boost { msg with snapshot := s.dump boost }).lastRequestId =
      s.lastRequestId := by
  simp only [installSnapshot, load_dump]

/-- A snapshot replaces the state of the receiver exactly if every key it has, has the same value in
    the snapshot. -/
theorem snapshot_replaces_iff (s t : KvServer) (msg : ApplyMessage) :
    ((∀ k, (t.installSnapshot boost { msg with snapshot := s.dump boost }).data.find k =
        s.data.find k) ∧
      (t.installSnapshot boost { msg with snapshot := s.dump boost }).lastRequestId =
        s.lastRequestId) ↔
    ∀ k v, t.data.find k = some v → s.data.find k = some v := by
  simp only [find_installSnapshot_dump, lastRequestId_installSnapshot_dump, and_true]
  constructor
  · intro h k v hv
    rw [← h k, hv]
    rfl
  · intro h k
    cases ht : t.data.find k with
    | none => rfl
    | some v => exact (h k v ht).symm

/-- The receiver has the key with another value. -/
theorem snapshot_keeps_old_value :
    ¬ ∀ (boost : Boost) (s t : KvServer) (msg : ApplyMessage),
      (∀ k, (t.installSnapshot boost { msg with snapshot := s.dump boost }).data.find k =
        s.data.find k) ∧
      (t.installSnapshot boost { msg with snapshot := s.dump boost }).lastRequestId =
        s.lastRequestId := by
  intro h
  have h := (h .text { maxRaftStateSize := -1, data := KvSkipList.assign {} [107] [2] }
    { maxRaftStateSize := -1, data := KvSkipList.assign {} [107] [1] } (.ofSnapshot 1 1 [])).1 [107]
  exact absurd h (by decide +kernel)

/-! ## Gets between commands -/

/-- What happens to a replica: a get is served, or `_L_popMessageLoop` runs a critical section. -/
inductive Call
  | get (command : Op)
  | loop (raftStateSize : Int)

/-- One call. -/
def act (s : KvServer) : Call → KvServer
  | .get command => (s.executeGetOp command).1
  | .loop raftStateSize => (s.popMessageLoop boost raftStateSize).1

/-- The puts that `_L_executePutOp` runs in the course of some calls. -/
def executedPuts : KvServer → List Call → List Op
  | _, [] => []
  | s, call :: calls =>
      (match call, s.stage with
        | .loop _, .executePutOp _ command => [command]
        | _, _ => []) ++ executedPuts (s.act boost call) calls

theorem executedPuts_append (s : KvServer) (as bs : List Call) :
    executedPuts boost s (as ++ bs) =
      executedPuts boost s as ++ executedPuts boost (GuardedRun.exec (act boost) s as) bs := by
  induction as generalizing s with
  | nil => rfl
  | cons a as ih => simp [executedPuts, GuardedRun.exec, ih, List.append_assoc]

/-- The message for the command `m.2` at index `m.1`. -/
def message (m : Int × Op) : ApplyMessage := .ofCommand m.1 (m.2.dump boost)

/-- The replica between two messages, with `ms` still to be consumed. -/
def receiving (s : KvServer) (ms : List (Int × Op)) : KvServer :=
  { s with applyChan := ms.map (message boost), stage := .pop }

/-- The replica is between two messages, and `ms` are still to be consumed. -/
def Awaits (s : KvServer) (ms : List (Int × Op)) : Prop :=
  s.stage = .pop ∧ s.applyChan = ms.map (message boost)

/-- All messages are consumed. -/
def Consumed (s : KvServer) : Prop := s.applyChan = [] ∧ s.stage = .pop

instance (s : KvServer) : Decidable s.Consumed :=
  inferInstanceAs (Decidable (s.applyChan = [] ∧ s.stage = .pop))

/-- However gets come in between, consuming `ms` ends with the same map. -/
def SameData (s : KvServer) (ms : List (Int × Op)) : Prop :=
  ∀ as as', (GuardedRun.exec (act boost) (s.receiving boost ms) as).Consumed →
    (GuardedRun.exec (act boost) (s.receiving boost ms) as').Consumed →
    ∀ k, (GuardedRun.exec (act boost) (s.receiving boost ms) as).data.find k =
      (GuardedRun.exec (act boost) (s.receiving boost ms) as').data.find k

/-- However gets come in between, consuming `ms` executes the same puts. -/
def SamePuts (s : KvServer) (ms : List (Int × Op)) : Prop :=
  ∀ as as', (GuardedRun.exec (act boost) (s.receiving boost ms) as).Consumed →
    (GuardedRun.exec (act boost) (s.receiving boost ms) as').Consumed →
    executedPuts boost (s.receiving boost ms) as = executedPuts boost (s.receiving boost ms) as'

/-- `o` at index `i` is a put that no snapshot covers. -/
def IsPut (s : KvServer) (m : Int × Op) : Prop :=
  s.lastSnapshotCommandIndex < m.1 ∧ m.2.operation = .put

/-- The calls that make the replica skip the command `m`: a get with its request id, right before it
    is checked. -/
def skipCalls (s : KvServer) (m : Int × Op) : List Call :=
  if m.1 ≤ s.lastSnapshotCommandIndex then [.loop 0, .loop 0]
  else [.loop 0, .get m.2, .loop 0, .loop s.maxRaftStateSize, .loop 0]

/-- The calls that make the replica execute the put `m`: a get with a lower request id, right before
    it is checked. -/
def takeCalls (s : KvServer) (m : Int × Op) : List Call :=
  [.loop 0, .get { m.2 with requestId := m.2.requestId - 1 }, .loop 0, .loop 0,
    .loop s.maxRaftStateSize, .loop 0]

/-- A get with the id of a request makes it a duplicate, and one with a lower id makes it new. -/
theorem duplicateRequest_executeGetOp (s : KvServer) (command : Op) (requestId : Int) :
    (s.executeGetOp command).1.duplicateRequest command.clientId requestId =
      decide (requestId ≤ command.requestId) := by
  simp [duplicateRequest, executeGetOp, AList.lookup_insert]

/-! ### One command, skipped or executed -/

variable {boost} {s : KvServer} {m : Int × Op} {ms rest : List (Int × Op)} {msg : ApplyMessage}
  {command : Op} {size : Int}

theorem act_pop (h : s.stage = .pop) (hq : s.applyChan = message boost m :: ms.map (message boost)) :
    s.act boost (.loop size) =
      { s with applyChan := ms.map (message boost), stage := .executeCommand (message boost m) } := by
  simp [act, popMessageLoop, h, hq, message, ApplyMessage.ofCommand]

theorem act_covered (h : s.stage = .executeCommand (message boost m))
    (hle : m.1 ≤ s.lastSnapshotCommandIndex) :
    s.act boost (.loop size) = { s with stage := .pop } := by
  simp [act, popMessageLoop, h, message, ApplyMessage.ofCommand, hle, afterCommand]

theorem act_check (h : s.stage = .executeCommand (message boost m))
    (hlt : s.lastSnapshotCommandIndex < m.1) :
    s.act boost (.loop size) = { s with stage := s.afterCheck (message boost m) m.2 } := by
  simp [act, popMessageLoop, h, message, ApplyMessage.ofCommand, not_le.2 hlt]

theorem act_executePutOp (h : s.stage = .executePutOp msg command) :
    s.act boost (.loop size) = { s.executePutOp command with stage := .maySnapshot msg command } := by
  simp [act, popMessageLoop, h]

/-- The snapshot and the push leave the map and the filter alone. -/
theorem act_finish (h : s.stage = .maySnapshot msg command) (hmsg : msg.validSnapshot = false) :
    ∃ appliedChan, act boost (act boost s (.loop s.maxRaftStateSize)) (.loop size) =
      { s with appliedChan := appliedChan, stage := .pop } := by
  obtain ⟨appliedChan, hpush⟩ :=
    tryPush2Wait_eq { s with stage := .tryPush2Wait msg command } command msg.commandIndex
  refine ⟨appliedChan, ?_⟩
  simp [act, popMessageLoop, maySnapshot, h, hpush, afterCommand, hmsg]

/-- A command that a snapshot covers is dropped. -/
theorem exec_covered (h : s.Awaits boost (m :: ms)) (hle : m.1 ≤ s.lastSnapshotCommandIndex) :
    GuardedRun.exec (act boost) s [.loop 0, .loop 0] =
        { s with applyChan := ms.map (message boost), stage := .pop } ∧
      executedPuts boost s [.loop 0, .loop 0] = [] := by
  simp only [GuardedRun.exec, executedPuts, act_pop h.1 h.2, h.1]
  exact ⟨act_covered rfl hle, rfl⟩

/-- A get comes between the pop of a command and its check, and decides it. -/
theorem exec_get (h : s.Awaits boost (m :: ms)) (hlt : s.lastSnapshotCommandIndex < m.1)
    (requestId : Int) :
    GuardedRun.exec (act boost) s [.loop 0, .get { m.2 with requestId := requestId }, .loop 0] =
        { s with
          applyChan := ms.map (message boost)
          lastRequestId := s.lastRequestId.insert m.2.clientId requestId
          stage :=
            if m.2.requestId ≤ requestId ∨ m.2.operation ≠ .put then
              .maySnapshot (message boost m) m.2
            else .executePutOp (message boost m) m.2 } ∧
      executedPuts boost s [.loop 0, .get { m.2 with requestId := requestId }, .loop 0] = [] := by
  simp only [GuardedRun.exec, executedPuts, act_pop h.1 h.2, h.1]
  refine ⟨(act_check rfl (by exact hlt)).trans ?_, rfl⟩
  have hdup := duplicateRequest_executeGetOp
    { s with applyChan := ms.map (message boost), stage := .executeCommand (message boost m) }
    { m.2 with requestId := requestId } m.2.requestId
  have hstage : (if decide (m.2.requestId ≤ requestId) = true then Stage.maySnapshot (message boost m) m.2
      else if m.2.operation = .put then .executePutOp (message boost m) m.2
      else .maySnapshot (message boost m) m.2) =
      if m.2.requestId ≤ requestId ∨ m.2.operation ≠ .put then .maySnapshot (message boost m) m.2
      else .executePutOp (message boost m) m.2 := by
    by_cases hle : m.2.requestId ≤ requestId <;> by_cases hput : m.2.operation = .put <;>
      simp [hle, hput]
  rw [← hstage, ← hdup]
  rfl

/-- The rest of a command that is not executed. -/
theorem exec_finish (h : s.stage = .maySnapshot (message boost m) command)
    (hq : s.applyChan = ms.map (message boost)) :
    (GuardedRun.exec (act boost) s [.loop s.maxRaftStateSize, .loop 0]).Awaits boost ms ∧
      (GuardedRun.exec (act boost) s [.loop s.maxRaftStateSize, .loop 0]).data = s.data ∧
      (GuardedRun.exec (act boost) s [.loop s.maxRaftStateSize, .loop 0]).lastSnapshotCommandIndex =
        s.lastSnapshotCommandIndex ∧
      executedPuts boost s [.loop s.maxRaftStateSize, .loop 0] = [] := by
  obtain ⟨appliedChan, hexec⟩ : ∃ appliedChan,
      act boost (act boost s (.loop s.maxRaftStateSize)) (.loop 0) =
        { s with appliedChan := appliedChan, stage := .pop } := act_finish h rfl
  simp only [GuardedRun.exec, hexec]
  have hputs : executedPuts boost s [.loop s.maxRaftStateSize, .loop 0] = [] := by
    simp [executedPuts, act, popMessageLoop, maySnapshot, h]
  exact ⟨⟨rfl, hq⟩, trivial, trivial, hputs⟩

theorem exec_skipCalls (h : s.Awaits boost (m :: ms)) :
    (GuardedRun.exec (act boost) s (s.skipCalls m)).Awaits boost ms ∧
      (GuardedRun.exec (act boost) s (s.skipCalls m)).data = s.data ∧
      (GuardedRun.exec (act boost) s (s.skipCalls m)).lastSnapshotCommandIndex =
        s.lastSnapshotCommandIndex ∧
      executedPuts boost s (s.skipCalls m) = [] := by
  by_cases hle : m.1 ≤ s.lastSnapshotCommandIndex
  · obtain ⟨hexec, hputs⟩ := exec_covered h hle
    simp only [skipCalls, if_pos hle, hexec, hputs]
    exact ⟨⟨rfl, rfl⟩, trivial, trivial, trivial⟩
  · obtain ⟨hexec, hputs⟩ := exec_get h (not_le.1 hle) m.2.requestId
    have hcalls : s.skipCalls m =
        [.loop 0, .get { m.2 with requestId := m.2.requestId }, .loop 0] ++ [.loop s.maxRaftStateSize, .loop 0] := by
      simp only [skipCalls, if_neg hle]
      rfl
    rw [hcalls, GuardedRun.exec_append, executedPuts_append, hexec, hputs]
    simp only [le_refl, true_or, if_true]
    exact exec_finish rfl rfl

theorem exec_takeCalls (h : s.Awaits boost (m :: ms)) (hput : s.IsPut m) :
    (GuardedRun.exec (act boost) s (s.takeCalls m)).Awaits boost ms ∧
      (GuardedRun.exec (act boost) s (s.takeCalls m)).data = s.data.assign m.2.key m.2.value ∧
      (GuardedRun.exec (act boost) s (s.takeCalls m)).lastSnapshotCommandIndex =
        s.lastSnapshotCommandIndex ∧
      executedPuts boost s (s.takeCalls m) = [m.2] := by
  obtain ⟨hexec, hputs⟩ := exec_get h hput.1 (m.2.requestId - 1)
  have hcalls : s.takeCalls m =
      [.loop 0, .get { m.2 with requestId := m.2.requestId - 1 }, .loop 0] ++
        ([.loop 0] ++ [.loop s.maxRaftStateSize, .loop 0]) := rfl
  have hnew : ¬(m.2.requestId ≤ m.2.requestId - 1 ∨ m.2.operation ≠ .put) := by
    rintro (hle | hne)
    · omega
    · exact hne hput.2
  rw [hcalls, GuardedRun.exec_append, executedPuts_append, hexec, hputs, if_neg hnew,
    GuardedRun.exec_append, executedPuts_append]
  have hstage : ({ executePutOp { s with
      applyChan := ms.map (message boost)
      lastRequestId := s.lastRequestId.insert m.2.clientId (m.2.requestId - 1) } m.2 with
      stage := .maySnapshot (message boost m) m.2 } : KvServer).stage =
        .maySnapshot (message boost m) m.2 := rfl
  have hfinish := exec_finish hstage rfl
  obtain ⟨hawaits, hdata, hlast, hnone⟩ := hfinish
  exact ⟨hawaits, hdata, hlast, congrArg (m.2 :: ·) hnone⟩

/-! ### Whole sequences -/

/-- Gets can make a replica skip the next commands. -/
theorem exists_skip (ms : List (Int × Op)) (h : s.Awaits boost (ms ++ rest)) :
    ∃ calls, (GuardedRun.exec (act boost) s calls).Awaits boost rest ∧
      (GuardedRun.exec (act boost) s calls).data = s.data ∧
      (GuardedRun.exec (act boost) s calls).lastSnapshotCommandIndex =
        s.lastSnapshotCommandIndex ∧
      executedPuts boost s calls = [] := by
  induction ms generalizing s with
  | nil => exact ⟨[], h, rfl, rfl, rfl⟩
  | cons m ms ih =>
    obtain ⟨hawaits, hdata, hlast, hputs⟩ := exec_skipCalls h
    obtain ⟨calls, hawaits', hdata', hlast', hputs'⟩ := ih hawaits
    refine ⟨s.skipCalls m ++ calls, ?_⟩
    rw [GuardedRun.exec_append, executedPuts_append, hputs, hputs']
    exact ⟨hawaits', hdata'.trans hdata, hlast'.trans hlast, rfl⟩

/-- Gets can make a replica skip everything. -/
theorem exists_skipAll (boost : Boost) (s : KvServer) (ms : List (Int × Op)) :
    ∃ calls, (GuardedRun.exec (act boost) (s.receiving boost ms) calls).Consumed ∧
      (GuardedRun.exec (act boost) (s.receiving boost ms) calls).data = s.data ∧
      executedPuts boost (s.receiving boost ms) calls = [] := by
  obtain ⟨calls, hawaits, hdata, -, hputs⟩ := exists_skip ms
    (show (s.receiving boost ms).Awaits boost (ms ++ []) from ⟨rfl, by rw [List.append_nil]; rfl⟩)
  exact ⟨calls, ⟨hawaits.2, hawaits.1⟩, hdata, hputs⟩

/-- Gets can make a replica execute any one put and skip everything else. -/
theorem exists_take (boost : Boost) (hm : m ∈ ms) (hput : s.IsPut m) :
    ∃ calls, (GuardedRun.exec (act boost) (s.receiving boost ms) calls).Consumed ∧
      (GuardedRun.exec (act boost) (s.receiving boost ms) calls).data =
        s.data.assign m.2.key m.2.value ∧
      executedPuts boost (s.receiving boost ms) calls = [m.2] := by
  obtain ⟨pre, post, rfl⟩ := List.append_of_mem hm
  obtain ⟨as, hawaits, hdata, hlast, hputs⟩ := exists_skip pre
    (show (s.receiving boost (pre ++ m :: post)).Awaits boost (pre ++ m :: post) from ⟨rfl, rfl⟩)
  obtain ⟨hawaits', hdata', hlast', hputs'⟩ := exec_takeCalls hawaits
    (show IsPut _ m from ⟨hlast ▸ hput.1, hput.2⟩)
  obtain ⟨bs, hawaits'', hdata'', -, hputs''⟩ := exists_skip post
    (show Awaits boost _ (post ++ []) by rw [List.append_nil]; exact hawaits')
  refine ⟨as ++ ((GuardedRun.exec (act boost) (s.receiving boost (pre ++ m :: post)) as).takeCalls m
    ++ bs), ?_⟩
  rw [GuardedRun.exec_append, GuardedRun.exec_append, executedPuts_append, executedPuts_append,
    hputs, hputs', hputs'']
  exact ⟨⟨hawaits''.2, hawaits''.1⟩, hdata''.trans (hdata'.trans (by rw [hdata]; rfl)), rfl⟩

/-! ### What no interleaving can do -/

/-- The message is one of `ms`. -/
def IsMessage (boost : Boost) (ms : List (Int × Op)) (msg : ApplyMessage) : Prop :=
  ∃ m ∈ ms, msg = message boost m

/-- `_L_popMessageLoop` works on a message of `ms`, and executes none but puts of `ms` that `s₀` has
    no snapshot of. -/
def StageInv (boost : Boost) (s₀ : KvServer) (ms : List (Int × Op)) : Stage → Prop
  | .pop => True
  | .executeCommand msg => IsMessage boost ms msg
  | .executePutOp msg command => IsMessage boost ms msg ∧ ∃ m ∈ ms, s₀.IsPut m ∧ m.2 = command
  | .maySnapshot msg _ => IsMessage boost ms msg
  | .persist msg _ => IsMessage boost ms msg
  | .tryPush2Wait msg _ => IsMessage boost ms msg
  | .installSnapshot _ => False
  | .terminated => True

/-- A replica in the middle of `ms`. -/
structure Receives (boost : Boost) (s₀ : KvServer) (ms : List (Int × Op)) (s : KvServer) : Prop where
  last : s.lastSnapshotCommandIndex = s₀.lastSnapshotCommandIndex
  queue : ∀ msg ∈ s.applyChan, IsMessage boost ms msg
  stage : StageInv boost s₀ ms s.stage

variable {s₀ : KvServer}

theorem IsMessage.stageInv (h : IsMessage boost ms msg) : StageInv boost s₀ ms (afterCommand msg) := by
  obtain ⟨m, -, rfl⟩ := h
  exact trivial

theorem Receives.receiving : Receives boost s₀ ms (s₀.receiving boost ms) where
  last := rfl
  queue := fun msg hmsg => by
    obtain ⟨m, hm, rfl⟩ := List.mem_map.1 hmsg
    exact ⟨m, hm, rfl⟩
  stage := trivial

/-- A call leaves the map alone and executes nothing, or executes one of the puts. -/
theorem Receives.act (h : Receives boost s₀ ms s) (call : Call) :
    Receives boost s₀ ms (s.act boost call) ∧
      ((s.act boost call).data = s.data ∧ executedPuts boost s [call] = [] ∨
        ∃ m ∈ ms, s₀.IsPut m ∧ (s.act boost call).data = s.data.assign m.2.key m.2.value) := by
  obtain ⟨hlast, hqueue, hstage⟩ := h
  cases call with
  | get command => exact ⟨⟨hlast, hqueue, hstage⟩, .inl ⟨rfl, rfl⟩⟩
  | loop size =>
    cases hs : s.stage with
    | pop =>
      cases hq : s.applyChan with
      | nil =>
        have heq : s.act boost (.loop size) = s := by simp [KvServer.act, popMessageLoop, hs, hq]
        rw [heq]
        exact ⟨⟨hlast, hqueue, hstage⟩, .inl ⟨rfl, by simp [executedPuts, hs]⟩⟩
      | cons msg queue =>
        obtain ⟨m, hm, rfl⟩ := hqueue msg (hq ▸ List.mem_cons_self)
        have heq : s.act boost (.loop size) =
            { s with applyChan := queue, stage := .executeCommand (message boost m) } := by
          simp [KvServer.act, popMessageLoop, hs, hq, message, ApplyMessage.ofCommand]
        rw [heq]
        exact ⟨⟨hlast, fun msg hmsg => hqueue msg (hq ▸ List.mem_cons_of_mem _ hmsg), m, hm, rfl⟩,
          .inl ⟨rfl, by simp [executedPuts, hs]⟩⟩
    | executeCommand msg =>
      rw [hs] at hstage
      obtain ⟨m, hm, rfl⟩ := hstage
      have hputs : executedPuts boost s [.loop size] = [] := by simp [executedPuts, hs]
      by_cases hle : m.1 ≤ s.lastSnapshotCommandIndex
      · rw [act_covered hs hle]
        exact ⟨⟨hlast, hqueue, trivial⟩, .inl ⟨rfl, hputs⟩⟩
      · rw [act_check hs (not_le.1 hle)]
        refine ⟨⟨hlast, hqueue, ?_⟩, .inl ⟨rfl, hputs⟩⟩
        have hmsg : IsMessage boost ms (message boost m) := ⟨m, hm, rfl⟩
        simp only [afterCheck]
        split_ifs with hdup hput
        · exact hmsg
        · exact ⟨hmsg, m, hm, ⟨hlast ▸ not_le.1 hle, hput⟩, rfl⟩
        · exact hmsg
    | executePutOp msg command =>
      rw [hs] at hstage
      obtain ⟨hmsg, m, hm, hput, rfl⟩ := hstage
      rw [act_executePutOp hs]
      exact ⟨⟨hlast, hqueue, hmsg⟩, .inr ⟨m, hm, hput, rfl⟩⟩
    | maySnapshot msg command =>
      rw [hs] at hstage
      have heq : s.act boost (.loop size) =
          { s with
            stage :=
              if s.maySnapshot size then .persist msg command else .tryPush2Wait msg command } := by
        simp [KvServer.act, popMessageLoop, hs]
      rw [heq]
      refine ⟨⟨hlast, hqueue, ?_⟩, .inl ⟨rfl, by simp [executedPuts, hs]⟩⟩
      split_ifs
      · exact hstage
      · exact hstage
    | persist msg command =>
      rw [hs] at hstage
      have heq : s.act boost (.loop size) = { s with stage := .tryPush2Wait msg command } := by
        simp [KvServer.act, popMessageLoop, hs]
      rw [heq]
      exact ⟨⟨hlast, hqueue, hstage⟩, .inl ⟨rfl, by simp [executedPuts, hs]⟩⟩
    | tryPush2Wait msg command =>
      rw [hs] at hstage
      obtain ⟨appliedChan, hpush⟩ := tryPush2Wait_eq s command msg.commandIndex
      have heq : s.act boost (.loop size) =
          { s with appliedChan := appliedChan, stage := afterCommand msg } := by
        simp [KvServer.act, popMessageLoop, hs, hpush]
      rw [heq]
      exact ⟨⟨hlast, hqueue, IsMessage.stageInv hstage⟩, .inl ⟨rfl, by simp [executedPuts, hs]⟩⟩
    | installSnapshot msg =>
      rw [hs] at hstage
      exact hstage.elim
    | terminated =>
      have heq : s.act boost (.loop size) = s := by simp [KvServer.act, popMessageLoop, hs]
      rw [heq]
      exact ⟨⟨hlast, hqueue, hstage⟩, .inl ⟨rfl, by simp [executedPuts, hs]⟩⟩

/-- Where no put of `ms` is in force, none is executed. -/
theorem Receives.executedPuts_eq_nil (hnone : ∀ m ∈ ms, ¬s₀.IsPut m) (h : Receives boost s₀ ms s)
    (calls : List Call) : executedPuts boost s calls = [] := by
  induction calls generalizing s with
  | nil => rfl
  | cons call calls ih =>
    obtain ⟨hnext, hact⟩ := h.act call
    rcases hact with ⟨-, hputs⟩ | ⟨m, hm, hput, -⟩
    · rw [show call :: calls = [call] ++ calls from rfl, executedPuts_append, hputs]
      exact ih hnext
    · exact absurd hput (hnone m hm)

/-- Where every put in force writes what is there, the map stays as it is. -/
theorem Receives.find_exec (hsame : ∀ m ∈ ms, s₀.IsPut m → s₀.data.find m.2.key = some m.2.value)
    (h : Receives boost s₀ ms s) (hdata : ∀ k, s.data.find k = s₀.data.find k) (calls : List Call)
    (k : Bytes) : (GuardedRun.exec (KvServer.act boost) s calls).data.find k = s₀.data.find k := by
  induction calls generalizing s with
  | nil => exact hdata k
  | cons call calls ih =>
    obtain ⟨hnext, hact⟩ := h.act call
    refine ih hnext fun k => ?_
    rcases hact with ⟨heq, -⟩ | ⟨m, hm, hput, heq⟩
    · rw [heq, hdata]
    · rw [heq, KvSkipList.find_assign_self ((hdata _).trans (hsame m hm hput)), hdata]

end KvServer

end RaftKVStorage
