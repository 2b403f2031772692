import RaftKVStorage.ApplyOrder

set_option autoImplicit false

/-! # The local read barrier

`kvServer::_L_get` waits on a thread of the pool until `_M_appliedIndex` has reached the commit index
it sampled, and then reads. `_M_appliedIndex` counts what the applier has taken, which may still be on
its way to the `kvServer` (`ReadServer.pending`). -/

namespace RaftKVStorage

open Delivery

variable {n : ℕ} {boost : Boost}

/-! ## What `_L_popMessageLoop` does with an item -/

/-- A command that has gone past the check and is not executed yet. -/
def Stage.unexecuted : Stage → List Item
  | .executePutOp msg _ => [.command msg.commandIndex]
  | _ => []

/-- Everything popped or in `_M_applyChan` that is not executed yet. -/
def KvServer.pending (kv : KvServer) : List Item := kv.stage.unexecuted ++ kv.items

/-- What the next critical section of `_L_popMessageLoop` executes: a put in `_L_executePutOp`, any
    other command in the check that finds nothing to put, a snapshot when it is loaded. -/
def App.executes (boost : Boost) (kv : KvServer) : List Item :=
  match kv.stage with
  | .executeCommand msg =>
      if msg.commandIndex ≤ kv.lastSnapshotCommandIndex then []
      else
        match Op.load boost msg.command with
        | none => []
        | some command =>
            if (kv.afterCheck msg command).unexecuted = [] then [.command msg.commandIndex] else []
  | .executePutOp msg _ => [.command msg.commandIndex]
  | .installSnapshot msg =>
      if kv.load boost msg.snapshot = none then [] else [.snapshot msg.snapshotIndex]
  | _ => []

/-- What is lost when an `archive_exception` ends the loop. -/
def App.loses (boost : Boost) (kv : KvServer) : List Item :=
  match kv.stage with
  | .executeCommand msg =>
      if kv.lastSnapshotCommandIndex < msg.commandIndex ∧ Op.load boost msg.command = none then
        .command msg.commandIndex :: msg.snapshots
      else []
  | .installSnapshot msg =>
      if kv.load boost msg.snapshot = none then [.snapshot msg.snapshotIndex] else []
  | _ => []

/-- One critical section of `_L_popMessageLoop` from `kv` to `kv'`: nothing leaves the queue unless it
    is executed, lost, or a command that an installed snapshot covers, and nothing enters it. -/
structure KvServer.Moves (boost : Boost) (kv kv' : KvServer) : Prop where
  kept : ∀ item ∈ kv.pending,
    item ∈ App.executes boost kv ∨ item ∈ App.loses boost kv ∨ item ∈ kv'.pending ∨
      ∃ i, item = .command i ∧ i ≤ kv.lastSnapshotCommandIndex
  old : ∀ item ∈ kv'.pending, item ∈ kv.pending
  once : ∀ i, (App.executes boost kv ++ (App.loses boost kv ++ kv'.pending)).count (.command i) ≤
    kv.pending.count (.command i)
  executing : ∀ i, kv'.stage.executing = some i →
    kv.stage.executing = some i ∨ .command i ∈ kv.pending
  snapshot : kv'.lastSnapshotCommandIndex = kv.lastSnapshotCommandIndex ∨
    .snapshot kv'.lastSnapshotCommandIndex ∈ App.executes boost kv

variable {kv kv' : KvServer} {msg : ApplyMessage} {command : Op}

/-- The items stay where they are. -/
theorem KvServer.Moves.idle (hpending : kv'.pending = kv.pending)
    (hdone : App.executes boost kv = []) (hlost : App.loses boost kv = [])
    (hexec : ∀ i, kv'.stage.executing = some i → kv.stage.executing = some i)
    (hlast : kv'.lastSnapshotCommandIndex = kv.lastSnapshotCommandIndex) :
    KvServer.Moves boost kv kv' where
  kept := fun _ hitem => .inr (.inr (.inl (hpending ▸ hitem)))
  old := fun _ hitem => hpending ▸ hitem
  once := fun i => by rw [hdone, hlost, hpending, List.nil_append, List.nil_append]
  executing := fun i hi => .inl (hexec i hi)
  snapshot := .inl hlast

theorem pending_afterCommand (kv : KvServer) (msg : ApplyMessage) :
    KvServer.pending { kv with stage := KvServer.afterCommand msg } =
      msg.snapshots ++ kv.applyChan.flatMap ApplyMessage.items := by
  have hnone : (KvServer.afterCommand msg).unexecuted = [] := by
    unfold KvServer.afterCommand
    split <;> rfl
  rw [KvServer.pending, hnone, KvServer.items, items_afterCommand]
  rfl

theorem KvServer.Moves.pop (hs : kv.stage = .pop) (size : Int) :
    KvServer.Moves boost kv (kv.popMessageLoop boost size).1 := by
  cases hq : kv.applyChan with
  | nil =>
    have heq : (kv.popMessageLoop boost size).1 = kv := by simp [KvServer.popMessageLoop, hs, hq]
    rw [heq]
    exact .idle rfl (by simp [App.executes, hs]) (by simp [App.loses, hs]) (fun _ => id) rfl
  | cons msg rest =>
    have hpending : kv.pending = msg.items ++ rest.flatMap ApplyMessage.items := by
      simp [KvServer.pending, KvServer.items, hs, hq, Stage.unexecuted, Stage.items]
    by_cases hvalid : msg.validCommand
    · have heq : (kv.popMessageLoop boost size).1 =
          { kv with applyChan := rest, stage := .executeCommand msg } := by
        simp [KvServer.popMessageLoop, hs, hq, hvalid]
      rw [heq]
      refine .idle ?_ (by simp [App.executes, hs]) (by simp [App.loses, hs])
        (fun i hi => by simp [Stage.executing] at hi) rfl
      rw [hpending, ApplyMessage.items, if_pos hvalid]
      rfl
    · have heq : (kv.popMessageLoop boost size).1 =
          { kv with applyChan := rest, stage := KvServer.afterCommand msg } := by
        simp [KvServer.popMessageLoop, hs, hq, hvalid]
      rw [heq]
      refine .idle ?_ (by simp [App.executes, hs]) (by simp [App.loses, hs])
        (fun i hi => by simp [executing_afterCommand] at hi) rfl
      rw [hpending, ApplyMessage.items, if_neg hvalid]
      exact pending_afterCommand { kv with applyChan := rest } msg

theorem KvServer.Moves.executeCommand (hs : kv.stage = .executeCommand msg) (size : Int) :
    KvServer.Moves boost kv (kv.popMessageLoop boost size).1 := by
  have hpending : kv.pending =
      .command msg.commandIndex :: (msg.snapshots ++ kv.applyChan.flatMap ApplyMessage.items) := by
    rw [KvServer.pending, KvServer.items, hs]
    rfl
  by_cases hle : msg.commandIndex ≤ kv.lastSnapshotCommandIndex
  · have heq : (kv.popMessageLoop boost size).1 = { kv with stage := KvServer.afterCommand msg } := by
      simp [KvServer.popMessageLoop, hs, hle]
    rw [heq]
    refine ⟨fun item hitem => ?_, fun item hitem => ?_, fun i => ?_, fun i hi => ?_, .inl rfl⟩
    · rw [hpending] at hitem
      rw [pending_afterCommand]
      rcases List.mem_cons.1 hitem with rfl | hitem
      · exact .inr (.inr (.inr ⟨_, rfl, hle⟩))
      · exact .inr (.inr (.inl hitem))
    · rw [pending_afterCommand] at hitem
      rw [hpending]
      exact List.mem_cons_of_mem _ hitem
    · have hnone : App.executes boost kv = [] ∧ App.loses boost kv = [] := by
        simp [App.executes, App.loses, hs, hle]
      rw [hnone.1, hnone.2, hpending, pending_afterCommand]
      exact List.count_le_count_cons
    · simp [executing_afterCommand] at hi
  cases hload : Op.load boost msg.command with
  | none =>
    have heq : (kv.popMessageLoop boost size).1 = { kv with stage := .terminated } := by
      simp [KvServer.popMessageLoop, hs, hle, hload]
    have hloses : App.loses boost kv = .command msg.commandIndex :: msg.snapshots := by
      simp [App.loses, hs, hload, not_le.1 hle]
    have hnone : App.executes boost kv = [] := by simp [App.executes, hs, hload]
    rw [heq]
    refine ⟨fun item hitem => ?_, fun item hitem => ?_, fun i => ?_, fun i hi => ?_, .inl rfl⟩
    · rw [hpending, ← List.cons_append] at hitem
      rcases List.mem_append.1 hitem with hitem | hitem
      · exact .inr (.inl (hloses ▸ hitem))
      · exact .inr (.inr (.inl hitem))
    · rw [hpending]
      exact List.mem_cons_of_mem _ (List.mem_append_right _ hitem)
    · rw [hnone, hloses, hpending]
      exact le_of_eq rfl
    · simp [Stage.executing] at hi
  | some command =>
    have heq : (kv.popMessageLoop boost size).1 = { kv with stage := kv.afterCheck msg command } := by
      simp [KvServer.popMessageLoop, hs, hle, hload]
    have hexecutes : App.executes boost kv =
        if (kv.afterCheck msg command).unexecuted = [] then [.command msg.commandIndex] else [] := by
      simp [App.executes, hs, hle, hload]
    have hnext : KvServer.pending { kv with stage := kv.afterCheck msg command } =
        (kv.afterCheck msg command).unexecuted ++
          (msg.snapshots ++ kv.applyChan.flatMap ApplyMessage.items) := by
      rw [KvServer.pending, KvServer.items, items_afterCheck]
    -- the check either finds a put to do or is all there is to the command
    have hcheck : (kv.afterCheck msg command).unexecuted = [] ∨
        (kv.afterCheck msg command).unexecuted = [.command msg.commandIndex] := by
      unfold KvServer.afterCheck
      split_ifs
      · exact .inl rfl
      · exact .inr rfl
      · exact .inl rfl
    have hnone : App.loses boost kv = [] := by simp [App.loses, hs, hload]
    rw [heq]
    refine ⟨fun item hitem => ?_, fun item hitem => ?_, fun i => ?_, fun i hi => ?_, .inl rfl⟩
    · rw [hpending] at hitem
      rw [hnext, hexecutes]
      rcases List.mem_cons.1 hitem with rfl | hitem
      · rcases hcheck with hcheck | hcheck
        · exact .inl (by simp [hcheck])
        · exact .inr (.inr (.inl (by simp [hcheck])))
      · exact .inr (.inr (.inl (List.mem_append_right _ hitem)))
    · rw [hnext] at hitem
      rw [hpending]
      rcases List.mem_append.1 hitem with hitem | hitem
      · rcases hcheck with hcheck | hcheck
        · rw [hcheck] at hitem
          exact absurd hitem (by simp)
        · rw [hcheck] at hitem
          exact List.mem_cons.2 (.inl (List.mem_singleton.1 hitem))
      · exact List.mem_cons_of_mem _ hitem
    · rw [hexecutes, hnone, hpending, hnext]
      rcases hcheck with hcheck | hcheck
      all_goals
        rw [hcheck]
        exact le_of_eq rfl
    · right
      rw [executing_afterCheck kv msg command hi, hpending]
      exact List.mem_cons_self ..

theorem KvServer.Moves.executePutOp (hs : kv.stage = .executePutOp msg command) (size : Int) :
    KvServer.Moves boost kv (kv.popMessageLoop boost size).1 := by
  have heq : (kv.popMessageLoop boost size).1 =
      { kv.executePutOp command with stage := .maySnapshot msg command } := by
    simp [KvServer.popMessageLoop, hs]
  have hpending : kv.pending = .command msg.commandIndex ::
      (msg.snapshots ++ kv.applyChan.flatMap ApplyMessage.items) := by
    rw [KvServer.pending, KvServer.items, hs]
    rfl
  have hexecutes : App.executes boost kv = [.command msg.commandIndex] := by
    simp [App.executes, hs]
  have hnone : App.loses boost kv = [] := by simp [App.loses, hs]
  rw [heq]
  refine ⟨fun item hitem => ?_, fun item hitem => ?_, fun i => ?_, fun i hi => ?_, .inl rfl⟩
  · rw [hpending] at hitem
    rcases List.mem_cons.1 hitem with rfl | hitem
    · exact .inl (by simp [hexecutes])
    · exact .inr (.inr (.inl hitem))
  · rw [hpending]
    exact List.mem_cons_of_mem _ hitem
  · rw [hexecutes, hnone, hpending]
    exact le_of_eq rfl
  · rw [hs]
    exact .inl hi

theorem KvServer.Moves.installSnapshot (hs : kv.stage = .installSnapshot msg) (size : Int) :
    KvServer.Moves boost kv (kv.popMessageLoop boost size).1 := by
  have hpending : kv.pending =
      .snapshot msg.snapshotIndex :: kv.applyChan.flatMap ApplyMessage.items := by
    rw [KvServer.pending, KvServer.items, hs]
    rfl
  cases hload : kv.load boost msg.snapshot with
  | none =>
    have heq : (kv.popMessageLoop boost size).1 = { kv with stage := .terminated } := by
      simp [KvServer.popMessageLoop, hs, KvServer.installSnapshot, KvServer.load_stage, hload]
    have hloses : App.loses boost kv = [.snapshot msg.snapshotIndex] := by
      simp [App.loses, hs, hload]
    have hnone : App.executes boost kv = [] := by simp [App.executes, hs, hload]
    rw [heq]
    refine ⟨fun item hitem => ?_, fun item hitem => ?_, fun i => ?_, fun i hi => ?_, .inl rfl⟩
    · rw [hpending] at hitem
      rcases List.mem_cons.1 hitem with rfl | hitem
      · exact .inr (.inl (by simp [hloses]))
      · exact .inr (.inr (.inl hitem))
    · rw [hpending]
      exact List.mem_cons_of_mem _ hitem
    · rw [hnone, hloses, hpending]
      exact le_of_eq rfl
    · simp [Stage.executing] at hi
  | some kv' =>
    obtain ⟨data, lastRequestId, rfl⟩ := KvServer.load_eq hload
    have heq : (kv.popMessageLoop boost size).1 =
        { kv with
          data := data
          lastRequestId := lastRequestId
          stage := .pop
          lastSnapshotCommandIndex := msg.snapshotIndex } := by
      simp [KvServer.popMessageLoop, hs, KvServer.installSnapshot, KvServer.load_stage, hload]
    have hexecutes : App.executes boost kv = [.snapshot msg.snapshotIndex] := by
      simp [App.executes, hs, hload]
    have hnone : App.loses boost kv = [] := by simp [App.loses, hs, hload]
    rw [heq]
    refine ⟨fun item hitem => ?_, fun item hitem => ?_, fun i => ?_, fun i hi => ?_, .inr ?_⟩
    · rw [hpending] at hitem
      rcases List.mem_cons.1 hitem with rfl | hitem
      · exact .inl (by simp [hexecutes])
      · exact .inr (.inr (.inl hitem))
    · rw [hpending]
      exact List.mem_cons_of_mem _ hitem
    · rw [hexecutes, hnone, hpending]
      exact le_of_eq rfl
    · simp [Stage.executing] at hi
    · simp [hexecutes]

theorem KvServer.Moves.loop (kv : KvServer) (size : Int) :
    KvServer.Moves boost kv (kv.popMessageLoop boost size).1 := by
  cases hs : kv.stage with
  | pop => exact .pop hs size
  | executeCommand msg => exact .executeCommand hs size
  | executePutOp msg command => exact .executePutOp hs size
  | maySnapshot msg command =>
    by_cases hsnap : kv.maySnapshot size
    · have heq : (kv.popMessageLoop boost size).1 = { kv with stage := .persist msg command } := by
        simp [KvServer.popMessageLoop, hs, hsnap]
      rw [heq]
      exact .idle (by simp [KvServer.pending, KvServer.items, hs, Stage.unexecuted, Stage.items])
        (by simp [App.executes, hs]) (by simp [App.loses, hs]) (fun i hi => by rw [hs]; exact hi) rfl
    · have heq : (kv.popMessageLoop boost size).1 =
          { kv with stage := .tryPush2Wait msg command } := by
        simp [KvServer.popMessageLoop, hs, hsnap]
      rw [heq]
      exact .idle (by simp [KvServer.pending, KvServer.items, hs, Stage.unexecuted, Stage.items])
        (by simp [App.executes, hs]) (by simp [App.loses, hs])
        (fun i hi => by simp [Stage.executing] at hi) rfl
  | persist msg command =>
    have heq : (kv.popMessageLoop boost size).1 = { kv with stage := .tryPush2Wait msg command } := by
      simp [KvServer.popMessageLoop, hs]
    rw [heq]
    exact .idle (by simp [KvServer.pending, KvServer.items, hs, Stage.unexecuted, Stage.items])
      (by simp [App.executes, hs]) (by simp [App.loses, hs])
      (fun i hi => by simp [Stage.executing] at hi) rfl
  | tryPush2Wait msg command =>
    obtain ⟨chan, hchan⟩ := kv.tryPush2Wait_eq command msg.commandIndex
    have heq : (kv.popMessageLoop boost size).1 =
        { kv with appliedChan := chan, stage := KvServer.afterCommand msg } := by
      simp [KvServer.popMessageLoop, hs, hchan]
    rw [heq]
    refine .idle ?_ (by simp [App.executes, hs]) (by simp [App.loses, hs])
      (fun i hi => by simp [executing_afterCommand] at hi) rfl
    rw [pending_afterCommand { kv with appliedChan := chan } msg]
    simp [KvServer.pending, KvServer.items, hs, Stage.unexecuted, Stage.items]
  | installSnapshot msg => exact .installSnapshot hs size
  | terminated =>
    have heq : (kv.popMessageLoop boost size).1 = kv := by simp [KvServer.popMessageLoop, hs]
    rw [heq]
    exact .idle rfl (by simp [App.executes, hs]) (by simp [App.loses, hs]) (fun _ => id) rfl

/-! ## Reads -/

/-- A thread of the pool in `_L_get`: the commit index it sampled, and whether `waitApplied` has
    returned true. -/
structure ReadCall where
  command : Op
  wait4 : Int
  waited : Bool := false
deriving DecidableEq

/-- A server, what its `kvServer` has executed and lost so far, and the reads under way. -/
structure ReadServer (n : ℕ) where
  server : Server n
  executed : List Item := []
  lost : List Item := []
  calls : List ReadCall := []

inductive ReadInput (n : ℕ)
  /-- Anything but a read. -/
  | server (input : ServerInput n)
  /-- A thread enters `waitApplied`. -/
  | get (command : Op)
  /-- The wait of the `k`-th read ends, by `_M_readCondtion` or by the time limit. -/
  | waitApplied (k : ℕ)
  /-- The `k`-th read runs `_L_executeGetOp`. -/
  | executeGetOp (k : ℕ)

namespace ReadServer

def new (me : Fin n) (maxRaftStateSize : Int) : ReadServer n :=
  { server := Server.new me maxRaftStateSize }

/-- `waitApplied` returns, `_M_mutex` being held. A read that timed out is over. -/
def waitApplied (R : ReadServer n) (k : ℕ) : ReadServer n :=
  match R.calls[k]? with
  | none => R
  | some call =>
      if call.wait4 ≤ R.server.proc.node.appliedIndex then
        { R with calls := R.calls.set k { call with waited := true } }
      else { R with calls := R.calls.eraseIdx k }

/-- `_L_executeGetOp` of a read that has waited. -/
def executeGetOp (boost : Boost) (R : ReadServer n) (k : ℕ) : ReadServer n :=
  match R.calls[k]? with
  | none => R
  | some call =>
      if call.waited then
        { R with
          server := R.server.step boost (.get call.command)
          calls := R.calls.eraseIdx k }
      else R

def step (boost : Boost) (R : ReadServer n) : ReadInput n → ReadServer n
  | .server .loop =>
      { R with
        server := R.server.step boost .loop
        executed := R.executed ++ App.executes boost R.server.app.kv
        lost := R.lost ++ App.loses boost R.server.app.kv }
  | .server input => { R with server := R.server.step boost input }
  | .get command =>
      { R with calls := R.calls ++ [{ command := command, wait4 := R.server.proc.node.commitIndex }] }
  | .waitApplied k => R.waitApplied k
  | .executeGetOp k => R.executeGetOp boost k

/-- Well-formed requests; a read of the map goes through `_L_get`. -/
def Legal (R : ReadServer n) : ReadInput n → Prop
  | .server (.get _) => False
  | .server input => R.server.Legal input
  | _ => True

/-- Taken by the applier or handed to a detached thread, but not executed: in the batch, in
    `_M_pushMessage`, in `_M_applyChan`, popped, or lost when the loop ended. -/
def pending (R : ReadServer n) : List Item :=
  R.server.app.applyMsgs.flatMap ApplyMessage.items ++
    (R.server.app.pushMessages.flatMap ApplyMessage.items ++ (R.server.app.kv.pending ++ R.lost))

theorem mem_pending {R : ReadServer n} {item : Item} : item ∈ R.pending ↔
    (∃ msg ∈ R.server.app.applyMsgs, item ∈ msg.items) ∨
      (∃ msg ∈ R.server.app.pushMessages, item ∈ msg.items) ∨
        item ∈ R.server.app.kv.pending ∨ item ∈ R.lost := by
  simp only [pending, List.mem_append, List.mem_flatMap]

/-- A message is pushed. -/
theorem pending_push (kv : KvServer) (msg : ApplyMessage) :
    KvServer.pending { kv with applyChan := kv.applyChan ++ [msg] } = kv.pending ++ msg.items := by
  simp [KvServer.pending, KvServer.items, List.append_assoc]

/-- Nothing above `_M_lastSnapshotCommandIndex` and up to `c` is on its way. -/
def Settled (R : ReadServer n) (c : Int) : Prop :=
  ∀ j, 0 < j → R.server.app.kv.lastSnapshotCommandIndex < j → j ≤ c → ¬ Covered R.pending j

/-- What the applied index counts is executed or on its way, and the other way round; no command is
    both. -/
structure Inv (R : ReadServer n) : Prop where
  raft : R.server.proc.IndexInv
  covered : ∀ j, 0 < j → j ≤ R.server.proc.node.appliedIndex →
    Covered R.executed j ∨ Covered R.pending j
  commands : ∀ i, .command i ∈ R.executed ++ R.pending → i ≤ R.server.proc.node.appliedIndex
  once : ∀ i, (R.executed ++ R.pending).count (.command i) ≤ 1
  executing : ∀ i, R.server.app.kv.stage.executing = some i → i ≤ R.server.proc.node.appliedIndex
  snapshot : R.server.app.kv.lastSnapshotCommandIndex ≤ 0 ∨
    .snapshot R.server.app.kv.lastSnapshotCommandIndex ∈ R.executed
  waited : ∀ call ∈ R.calls, call.waited = true → call.wait4 ≤ R.server.proc.node.appliedIndex

variable {R : ReadServer n}

theorem Inv.new (me : Fin n) (maxRaftStateSize : Int) : (ReadServer.new me maxRaftStateSize).Inv where
  raft := .new me
  covered := fun j hj hle => absurd hj (not_lt.2 hle)
  commands := fun i hi => by
    simp [ReadServer.new, Server.new, pending, KvServer.pending, KvServer.items,
      Stage.unexecuted, Stage.items] at hi
  once := fun i => by
    simp [ReadServer.new, Server.new, pending, KvServer.pending, KvServer.items, Stage.unexecuted,
      Stage.items]
  executing := fun i hi => by simp [ReadServer.new, Server.new, Stage.executing] at hi
  snapshot := .inl le_rfl
  waited := fun call hcall => by simp [ReadServer.new] at hcall

/-- A step of the server that moves no item and lowers no index. -/
theorem Inv.frame (h : R.Inv) {S : Server n} (hraft : S.proc.IndexInv)
    (happlied : S.proc.node.appliedIndex = R.server.proc.node.appliedIndex)
    (hitems : (pending { R with server := S }).Perm R.pending)
    (hexec : ∀ i, S.app.kv.stage.executing = some i →
      R.server.app.kv.stage.executing = some i)
    (hlast : S.app.kv.lastSnapshotCommandIndex = R.server.app.kv.lastSnapshotCommandIndex) :
    Inv { R with server := S } where
  raft := hraft
  covered := fun j hj hle => (h.covered j hj (happlied ▸ hle)).imp_right fun hc =>
    hc.mono fun item hitem => hitems.mem_iff.2 hitem
  commands := fun i hi => by
    show i ≤ S.proc.node.appliedIndex
    rw [happlied]
    exact h.commands i ((hitems.append_left R.executed).mem_iff.1 hi)
  once := fun i => by
    rw [(hitems.append_left R.executed).count_eq]
    exact h.once i
  executing := fun i hi => by
    show i ≤ S.proc.node.appliedIndex
    rw [happlied]
    exact h.executing i (hexec i hi)
  snapshot := by
    show S.app.kv.lastSnapshotCommandIndex ≤ 0 ∨ _
    rw [hlast]
    exact h.snapshot
  waited := fun call hcall hw => by
    show call.wait4 ≤ S.proc.node.appliedIndex
    rw [happlied]
    exact h.waited call hcall hw

/-- The applier takes the commands between the applied and the new applied index. -/
theorem Inv.take (h : R.Inv) : Inv { R with server := R.server.step boost .take } := by
  cases hmsgs : R.server.app.applyMsgs with
  | cons msg rest =>
    have hstep : R.server.step boost .take = R.server := by
      simp [Server.step, App.take, hmsgs]
    rw [hstep]
    exact h
  | nil =>
    obtain ⟨hbatch, hlen⟩ := h.raft.node.taken
    have htake : R.server.app.take R.server.proc.node.getApplyMessages =
        { R.server.app with applyMsgs := R.server.proc.node.getApplyMessages.ret } := by
      simp [App.take, hmsgs, h.raft.node.getApplyMessages_eq]
    have hstep : R.server.step boost .take =
        ⟨(R.server.proc.step .getApplyMessages).1,
          { R.server.app with applyMsgs := R.server.proc.node.getApplyMessages.ret }⟩ := by
      simp [Server.step, hmsgs, htake]
    have hold : ∀ item ∈ R.pending, item ∈ pending { R with server := R.server.step boost .take } := by
      intro item hitem
      rw [mem_pending, hmsgs] at hitem
      rw [hstep, mem_pending]
      exact .inr (hitem.resolve_left (by simp))
    have happlied : (R.server.step boost .take).proc.node.appliedIndex =
        R.server.proc.node.appliedIndex + R.server.proc.node.getApplyMessages.ret.length := by
      rw [hstep]
      exact hlen
    have hnew := h.raft.node.taken_items
    have hpending : pending { R with server := R.server.step boost .take } =
        R.server.proc.node.getApplyMessages.ret.flatMap ApplyMessage.items ++ R.pending := by
      rw [hstep, pending, pending, hmsgs]
      rfl
    refine ⟨?_, ?_, ?_, ?_, ?_, ?_, ?_⟩
    · rw [hstep]
      exact (h.raft.step (show Input.WellFormed .getApplyMessages from trivial)).1.1
    · intro j hj hle
      by_cases hjold : j ≤ R.server.proc.node.appliedIndex
      · exact (h.covered j hj hjold).imp_right fun hc => hc.mono hold
      -- a new index is that of a message of the batch
      right
      left
      have hle' : j ≤ R.server.proc.node.appliedIndex +
          R.server.proc.node.getApplyMessages.ret.length := happlied ▸ hle
      have hlt : (j - R.server.proc.node.appliedIndex - 1).toNat <
          R.server.proc.node.getApplyMessages.ret.length := by omega
      obtain ⟨-, hitems⟩ := hbatch _ _ (List.getElem?_eq_getElem hlt)
      rw [hstep, mem_pending]
      refine .inl ⟨_, List.getElem_mem hlt, ?_⟩
      rw [hitems, List.mem_singleton, Item.command.injEq]
      omega
    · intro i hi
      show i ≤ (R.server.step boost .take).proc.node.appliedIndex
      rw [happlied]
      rw [hpending, List.mem_append, List.mem_append] at hi
      rcases hi with hi | hi | hi
      · have := h.commands i (List.mem_append_left _ hi)
        omega
      · have := (hnew.2 i hi).2
        omega
      · have := h.commands i (List.mem_append_right _ hi)
        omega
    · intro i
      have hold := h.once i
      rw [hpending, List.count_append, List.count_append]
      rw [List.count_append] at hold
      by_cases hi : .command i ∈ R.server.proc.node.getApplyMessages.ret.flatMap ApplyMessage.items
      · -- a command of the batch is above all that was taken before
        have hfresh : .command i ∉ R.executed ++ R.pending := fun hmem => by
          have := h.commands i hmem
          have := (hnew.2 i hi).1
          omega
        rw [List.mem_append, not_or] at hfresh
        rw [List.count_eq_zero_of_not_mem hfresh.1, List.count_eq_zero_of_not_mem hfresh.2,
          List.count_eq_one_of_mem hnew.1 hi]
      · rw [List.count_eq_zero_of_not_mem hi, Nat.zero_add]
        exact hold
    · intro i hi
      rw [hstep] at hi
      have := h.executing i hi
      show i ≤ (R.server.step boost .take).proc.node.appliedIndex
      omega
    · rw [hstep]
      exact h.snapshot
    · intro call hcall hw
      have := h.waited call hcall hw
      show call.wait4 ≤ (R.server.step boost .take).proc.node.appliedIndex
      omega

/-- The applier pushes a message of its batch. -/
theorem Inv.push (h : R.Inv) : Inv { R with server := R.server.step boost .push } := by
  cases hmsgs : R.server.app.applyMsgs with
  | nil =>
    have hstep : R.server.step boost .push = R.server := by
      simp [Server.step, App.push, hmsgs]
    rw [hstep]
    exact h
  | cons msg rest =>
    have hstep : R.server.step boost .push =
        ⟨R.server.proc,
          { R.server.app with
            applyMsgs := rest
            kv := { R.server.app.kv with applyChan := R.server.app.kv.applyChan ++ [msg] } }⟩ := by
      simp [Server.step, App.push, hmsgs]
    rw [hstep]
    refine h.frame h.raft rfl (List.perm_iff_count.2 fun item => ?_) (fun i hi => hi) rfl
    simp only [pending, pending_push, hmsgs, List.flatMap_cons, List.count_append]
    omega

/-- A detached thread pushes its snapshot. -/
theorem Inv.pushMessage (h : R.Inv) (k : ℕ) :
    Inv { R with server := R.server.step boost (.pushMessage k) } := by
  cases hget : R.server.app.pushMessages[k]? with
  | none =>
    have hstep : R.server.step boost (.pushMessage k) = R.server := by
      simp [Server.step, App.pushMessage, hget]
    rw [hstep]
    exact h
  | some msg =>
    have hstep : R.server.step boost (.pushMessage k) =
        ⟨R.server.proc,
          { R.server.app with
            pushMessages := R.server.app.pushMessages.eraseIdx k
            kv := { R.server.app.kv with applyChan := R.server.app.kv.applyChan ++ [msg] } }⟩ := by
      simp [Server.step, App.pushMessage, hget]
    obtain ⟨hlt, hk⟩ := List.getElem?_eq_some_iff.1 hget
    have hsplit : (R.server.app.pushMessages.flatMap ApplyMessage.items).Perm
        (msg.items ++ (R.server.app.pushMessages.eraseIdx k).flatMap ApplyMessage.items) := by
      have hperm := (List.getElem_cons_eraseIdx_perm hlt).symm.flatMap_right ApplyMessage.items
      rwa [hk, List.flatMap_cons] at hperm
    rw [hstep]
    refine h.frame h.raft rfl (List.perm_iff_count.2 fun item => ?_) (fun i hi => hi) rfl
    simp only [pending, pending_push, List.count_append, hsplit.count_eq]
    omega

/-- A snapshot that is taken over covers the indices it adds. -/
theorem Inv.installSnapshot (h : R.Inv) (args : InstallSnapshotArgs) :
    Inv { R with server := R.server.step boost (.installSnapshot args) } := by
  have hraft := (h.raft.step (show Input.WellFormed (.installSnapshot args) from trivial)).1.1
  have hsame : ∀ {S : Server n}, S.proc.IndexInv →
      S.proc.node.appliedIndex = R.server.proc.node.appliedIndex → S.app = R.server.app →
      Inv { R with server := S } := by
    intro S hS happlied happ
    refine h.frame hS happlied ?_ (fun i hi => by rw [← happ]; exact hi) (by rw [happ])
    simp only [pending, happ]
    exact .refl _
  rcases h.raft.node.contiguous.installSnapshot_cases args with
    ⟨-, heq⟩ | ⟨-, -, heq⟩ | ⟨-, hnew, heq⟩
  · refine hsame hraft ?_ ?_
    · show (R.server.proc.node.installSnapshot args).node.appliedIndex = _
      rw [heq]
    · simp [Server.step, heq, App.detach]
  · refine hsame hraft ?_ ?_
    · show (R.server.proc.node.installSnapshot args).node.appliedIndex = _
      rw [heq]
      exact Node.followTerm_appliedIndex _ _
    · simp [Server.step, heq, App.detach]
  · have happlied : (R.server.step boost (.installSnapshot args)).proc.node.appliedIndex =
        max R.server.proc.node.appliedIndex args.lastIndex := by
      show (R.server.proc.node.installSnapshot args).node.appliedIndex = _
      rw [heq]
      rfl
    have hperm : (pending { R with server := R.server.step boost (.installSnapshot args) }).Perm
        (.snapshot args.lastIndex :: R.pending) := by
      have hshot : (ApplyMessage.ofSnapshot args.lastIndex args.lastTerm args.data).items =
          [.snapshot args.lastIndex] := rfl
      refine List.perm_iff_count.2 fun item => ?_
      simp only [pending, Server.step, heq, App.detach, Option.toList_some, List.flatMap_append,
        List.flatMap_singleton, hshot, List.count_append, List.count_cons, List.count_nil]
      omega
    have hmem : ∀ item, item ∈ pending { R with server := R.server.step boost (.installSnapshot args) } ↔
        item = .snapshot args.lastIndex ∨ item ∈ R.pending :=
      fun item => hperm.mem_iff.trans List.mem_cons
    refine ⟨hraft, ?_, ?_, ?_, ?_, h.snapshot, ?_⟩
    · intro j hj hle
      rcases le_max_iff.1 (happlied ▸ hle) with hle | hle
      · exact (h.covered j hj hle).imp_right fun hc => hc.mono fun item hitem => (hmem item).2 (.inr hitem)
      · exact .inr (.inr ⟨_, (hmem _).2 (.inl rfl), hle⟩)
    · intro i hi
      show i ≤ (R.server.step boost (.installSnapshot args)).proc.node.appliedIndex
      rw [happlied]
      refine le_max_of_le_left (h.commands i ?_)
      rw [List.mem_append] at hi ⊢
      exact hi.imp_right fun hi => ((hmem _).1 hi).resolve_left (by simp)
    · intro i
      rw [(hperm.append_left R.executed).count_eq, List.count_append, List.count_cons_of_ne (by simp),
        ← List.count_append]
      exact h.once i
    · intro i hi
      show i ≤ (R.server.step boost (.installSnapshot args)).proc.node.appliedIndex
      rw [happlied]
      exact le_max_of_le_left (h.executing i hi)
    · intro call hcall hw
      show call.wait4 ≤ (R.server.step boost (.installSnapshot args)).proc.node.appliedIndex
      rw [happlied]
      exact le_max_of_le_left (h.waited call hcall hw)

/-- One critical section of `_L_popMessageLoop`. -/
theorem Inv.loop (h : R.Inv) : (R.step boost (.server .loop)).Inv := by
  have hmoves : KvServer.Moves boost R.server.app.kv (R.server.app.kv.popMessageLoop boost
      (R.server.proc.node.getRaftStateSize boost)).1 := .loop _ _
  have hasked : ∀ p ∈ (R.server.app.kv.popMessageLoop boost
      (R.server.proc.node.getRaftStateSize boost)).2, p.1 ≤ R.server.proc.node.appliedIndex := by
    intro p hp
    obtain ⟨msg, command, hs, rfl⟩ := KvServer.popMessageLoop_persist hp
    exact h.executing _ (by rw [hs]; rfl)
  obtain ⟨hraft, happlied⟩ := h.raft.persistIfAsked hasked
  have hmem : ∀ item, item ∈ (R.step boost (.server .loop)).pending ↔
      (∃ msg ∈ R.server.app.applyMsgs, item ∈ msg.items) ∨
        (∃ msg ∈ R.server.app.pushMessages, item ∈ msg.items) ∨
          item ∈ (R.server.app.kv.popMessageLoop boost
            (R.server.proc.node.getRaftStateSize boost)).1.pending ∨
          item ∈ R.lost ∨ item ∈ App.loses boost R.server.app.kv := by
    intro item
    rw [mem_pending]
    simp only [ReadServer.step, Server.step, App.loop, List.mem_append]
  have hcount : ∀ i, ((R.step boost (.server .loop)).executed ++
      (R.step boost (.server .loop)).pending).count (.command i) ≤
      (R.executed ++ R.pending).count (.command i) := by
    intro i
    have honce := hmoves.once i
    simp only [ReadServer.step, Server.step, App.loop, pending, List.count_append] at honce ⊢
    omega
  -- an item on its way is executed, still on its way, or below an installed snapshot
  have hkept : ∀ item ∈ R.pending, item ∈ App.executes boost R.server.app.kv ∨
      item ∈ (R.step boost (.server .loop)).pending ∨
        ∃ i, item = .command i ∧ i ≤ R.server.app.kv.lastSnapshotCommandIndex := by
    intro item hitem
    rw [hmem]
    rcases mem_pending.1 hitem with hitem | hitem | hitem | hitem
    · exact .inr (.inl (.inl hitem))
    · exact .inr (.inl (.inr (.inl hitem)))
    · rcases hmoves.kept item hitem with hdone | hlost | hstay | hcovered
      · exact .inl hdone
      · exact .inr (.inl (.inr (.inr (.inr (.inr hlost)))))
      · exact .inr (.inl (.inr (.inr (.inl hstay))))
      · exact .inr (.inr hcovered)
    · exact .inr (.inl (.inr (.inr (.inr (.inl hitem)))))
  refine ⟨hraft, ?_, ?_, ?_, ?_, ?_, ?_⟩
  · intro j hj hle
    have hle' : j ≤ R.server.proc.node.appliedIndex := happlied ▸ hle
    rcases h.covered j hj hle' with hc | hc | ⟨s, hs, hjs⟩
    · exact .inl (hc.append _)
    · rcases hkept _ hc with hdone | hstay | ⟨i, heq, hi⟩
      · exact .inl (.inl (List.mem_append_right _ hdone))
      · exact .inr (.inl hstay)
      · obtain rfl : j = i := Item.command.inj heq
        rcases h.snapshot with hlast | hlast
        · omega
        · exact .inl (.inr ⟨_, List.mem_append_left _ hlast, hi⟩)
    · rcases hkept _ hs with hdone | hstay | ⟨i, heq, -⟩
      · exact .inl (.inr ⟨s, List.mem_append_right _ hdone, hjs⟩)
      · exact .inr (.inr ⟨s, hstay, hjs⟩)
      · simp at heq
  · intro i hi
    show i ≤ (R.server.proc.persistIfAsked _).node.appliedIndex
    rw [happlied]
    exact h.commands i (List.count_pos_iff.1 ((List.count_pos_iff.2 hi).trans_le (hcount i)))
  · exact fun i => (hcount i).trans (h.once i)
  · intro i hi
    show i ≤ (R.server.proc.persistIfAsked _).node.appliedIndex
    rw [happlied]
    rcases hmoves.executing i hi with hi | hi
    · exact h.executing i hi
    · exact h.commands i (List.mem_append_right _ (mem_pending.2 (.inr (.inr (.inl hi)))))
  · show (R.server.app.kv.popMessageLoop boost _).1.lastSnapshotCommandIndex ≤ 0 ∨ _
    rcases hmoves.snapshot with hlast | hlast
    · rcases h.snapshot with hs | hs
      · exact .inl (hlast ▸ hs)
      · exact .inr (List.mem_append_left _ (hlast ▸ hs))
    · exact .inr (List.mem_append_right _ hlast)
  · intro call hcall hw
    show call.wait4 ≤ (R.server.proc.persistIfAsked _).node.appliedIndex
    rw [happlied]
    exact h.waited call hcall hw

theorem Inv.step (h : R.Inv) {input : ReadInput n} (hlegal : R.Legal input) :
    (R.step boost input).Inv := by
  cases input with
  | server input =>
    cases input with
    | raft input =>
      obtain ⟨hwf, hfor⟩ := hlegal
      exact h.frame (h.raft.step hwf).1.1 (Proc.step_appliedIndex h.raft hwf hfor) (.refl _)
        (fun _ hi => hi) rfl
    | take => exact h.take
    | push => exact h.push
    | installSnapshot args => exact h.installSnapshot args
    | pushMessage k => exact h.pushMessage k
    | loop => exact h.loop
    | get command => exact absurd hlegal id
    | awaitIndex index =>
      obtain ⟨chan, hchan⟩ := R.server.app.kv.awaitIndex_eq index
      have hstep : R.step boost (.server (.awaitIndex index)) = { R with
          server := ⟨R.server.proc, { R.server.app with
            kv := { R.server.app.kv with appliedChan := chan } }⟩ } := by
        simp [ReadServer.step, Server.step, hchan]
      rw [hstep]
      exact h.frame h.raft rfl (.refl _) (fun _ hi => hi) rfl
    | eraseIndex index => exact h.frame h.raft rfl (.refl _) (fun _ hi => hi) rfl
  | get command =>
    refine ⟨h.raft, h.covered, h.commands, h.once, h.executing, h.snapshot, fun call hcall hw => ?_⟩
    rcases List.mem_append.1 hcall with hcall | hcall
    · exact h.waited call hcall hw
    · rw [List.mem_singleton.1 hcall] at hw
      simp at hw
  | waitApplied k =>
    simp only [ReadServer.step, ReadServer.waitApplied]
    cases hget : R.calls[k]? with
    | none => exact h
    | some call =>
      by_cases hready : call.wait4 ≤ R.server.proc.node.appliedIndex
      · simp only [if_pos hready]
        refine ⟨h.raft, h.covered, h.commands, h.once, h.executing, h.snapshot, fun c hc hw => ?_⟩
        rcases List.mem_or_eq_of_mem_set hc with hc | rfl
        · exact h.waited c hc hw
        · exact hready
      · simp only [if_neg hready]
        exact ⟨h.raft, h.covered, h.commands, h.once, h.executing, h.snapshot,
          fun c hc hw => h.waited c (List.mem_of_mem_eraseIdx hc) hw⟩
  | executeGetOp k =>
    simp only [ReadServer.step, ReadServer.executeGetOp]
    cases hget : R.calls[k]? with
    | none => exact h
    | some call =>
      by_cases hw : call.waited
      · simp only [if_pos hw]
        have hserver := h.frame (S := R.server.step boost (.get call.command)) h.raft rfl
          (.refl _) (fun _ hi => hi) rfl
        exact ⟨hserver.raft, hserver.covered, hserver.commands, hserver.once, hserver.executing,
          hserver.snapshot,
          fun c hc hw => h.waited c (List.mem_of_mem_eraseIdx hc) hw⟩
      · simp only [if_neg hw]
        exact h

theorem Inv.of_reach {me : Fin n} {maxRaftStateSize : Int}
    (h : GuardedRun.Reach (ReadServer.new me maxRaftStateSize) (ReadServer.step boost)
      ReadServer.Legal R) : R.Inv :=
  h.invariant (.new me maxRaftStateSize) fun _ _ _ hR hlegal => hR.step hlegal

/-- A read that has waited finds executed or covered everything up to the commit index it sampled, if
    nothing up to there is on its way; and a command on its way has not been executed. -/
theorem read_barrier_settled (boost : Boost) (me : Fin n) (maxRaftStateSize : Int)
    (h : GuardedRun.Reach (ReadServer.new me maxRaftStateSize) (ReadServer.step boost)
      ReadServer.Legal R) {call : ReadCall} (hcall : call ∈ R.calls) (hwaited : call.waited = true) :
    (R.Settled call.wait4 → ∀ j, 0 < j → j ≤ call.wait4 → Covered R.executed j) ∧
      ∀ j, .command j ∈ R.pending → .command j ∉ R.executed := by
  have hinv := Inv.of_reach h
  refine ⟨fun hsettled j hj hle => ?_, fun j hpending hexecuted => ?_⟩
  · rcases hinv.covered j hj (hle.trans (hinv.waited call hcall hwaited)) with hc | hc
    · exact hc
    · by_cases hlast : R.server.app.kv.lastSnapshotCommandIndex < j
      · exact absurd hc (hsettled j hj hlast hle)
      · rcases hinv.snapshot with hzero | hinstalled
        · omega
        · exact .inr ⟨_, hinstalled, not_lt.1 hlast⟩
  · have honce := hinv.once j
    have h1 := List.count_pos_iff.2 hpending
    have h2 := List.count_pos_iff.2 hexecuted
    rw [List.count_append] at honce
    omega

/-- A follower learns that its first entry is committed, a read samples that, and the applier takes
    the command before the read has waited. -/
def readAfterTake : List (ReadInput 3) :=
  [ .server (.raft (.appendEntries ⟨1, 0, 0, 0, [⟨somePut.dump .text, 1, 1⟩], 1⟩)),
    .get ⟨.get, [107], [], [99], 2⟩, .server .take, .waitApplied 0 ]

/-- Once the command was pushed, popped, checked and put, the read finds it executed. -/
theorem read_barrier_settled_readAfterTake :
    let R := GuardedRun.exec (ReadServer.step .text) (ReadServer.new 1 (-1))
      (readAfterTake ++ [.server .push, .server .loop, .server .loop, .server .loop])
    R.executed = [.command 1] ∧ ∀ j, 0 < j → j ≤ 1 → Covered R.executed j := by
  intro R
  have hexecuted : R.executed = [.command 1] := by decide +kernel
  have hpending : R.pending = [] := by decide +kernel
  have hreach : GuardedRun.Reach (ReadServer.new 1 (-1)) (ReadServer.step .text)
      ReadServer.Legal R := by
    refine .exec .init ⟨?_, trivial, trivial, trivial, trivial, trivial, trivial, trivial, trivial⟩
    exact ⟨by decide +kernel, id⟩
  have hcall : R.calls = [⟨⟨.get, [107], [], [99], 2⟩, 1, true⟩] := by decide +kernel
  have hmem : (⟨⟨.get, [107], [], [99], 2⟩, 1, true⟩ : ReadCall) ∈ R.calls := by
    rw [hcall]
    exact List.mem_singleton.2 rfl
  refine ⟨hexecuted, (read_barrier_settled .text 1 (-1) hreach hmem rfl).1 fun j _ _ _ hc => ?_⟩
  rw [hpending] at hc
  rcases hc with hc | ⟨s, hc, -⟩
  · simp at hc
  · simp at hc

/-- Before the command is pushed, the read has waited although nothing was executed. -/
theorem read_before_push :
    ¬ ∀ (boost : Boost) (n : ℕ) (me : Fin n) (maxRaftStateSize : Int) (R : ReadServer n),
      GuardedRun.Reach (ReadServer.new me maxRaftStateSize) (ReadServer.step boost)
        ReadServer.Legal R →
      ∀ call ∈ R.calls, call.waited = true → ∀ j, 0 < j → j ≤ call.wait4 → Covered R.executed j := by
  intro h
  have hreach : GuardedRun.Reach (ReadServer.new (1 : Fin 3) (-1)) (ReadServer.step .text)
      ReadServer.Legal
      (GuardedRun.exec (ReadServer.step .text) (ReadServer.new 1 (-1)) readAfterTake) := by
    refine .exec .init ⟨?_, trivial, trivial, trivial, trivial⟩
    exact ⟨by decide +kernel, id⟩
  have hcall : (GuardedRun.exec (ReadServer.step .text) (ReadServer.new (1 : Fin 3) (-1))
      readAfterTake).calls = [⟨⟨.get, [107], [], [99], 2⟩, 1, true⟩] := by decide +kernel
  have hexecuted : (GuardedRun.exec (ReadServer.step .text) (ReadServer.new (1 : Fin 3) (-1))
      readAfterTake).executed = [] := by decide +kernel
  have hcovered := h .text 3 1 (-1) _ hreach ⟨⟨.get, [107], [], [99], 2⟩, 1, true⟩
    (by rw [hcall]; exact List.mem_singleton.2 rfl) rfl 1 (by decide) le_rfl
  rw [hexecuted] at hcovered
  rcases hcovered with hmem | ⟨s, hmem, -⟩
  · simp at hmem
  · simp at hmem

end ReadServer

end RaftKVStorage
