import RaftKVStorage.Server
import RaftKVStorage.Theory.Run

set_option autoImplicit false

/-! # The order of the apply channel

Commands and snapshots reach `_M_applyChan` from different threads after the raft lock is released.
They are consumed in log order as long as no installed snapshot lies below what was applied already,
and no command overtakes a snapshot below it (`Server.NoOvertaking`). -/

namespace RaftKVStorage

open Delivery

variable {n : ℕ} {boost : Boost}

/-! ## The applied index -/

/-- Only the critical sections that concern the application move `_M_appliedIndex`. -/
theorem Proc.step_appliedIndex {P : Proc n} (h : P.IndexInv) {input : Input n}
    (hinput : input.WellFormed) (hfor : ¬input.ForApp) :
    (P.step input).1.node.appliedIndex = P.node.appliedIndex := by
  cases input with
  | execute command =>
    rcases P.node.execute_cases command with ⟨-, heq⟩ | ⟨-, heq⟩
    · simp only [Proc.step, heq, Node.mPersist_appliedIndex]
    · simp only [Proc.step, heq]
  | persist index shot => exact absurd trivial hfor
  | getApplyMessages => exact absurd trivial hfor
  | stand4Election =>
    simp only [Proc.step, Proc.stand4Election]
    rcases P.node.stand4Election_cases with ⟨-, heq⟩ | ⟨-, heq⟩
    · rw [heq]
    · rw [heq]
      exact Node.identityChange_appliedIndex _ _ _ _
  | heartBeat =>
    simp only [Proc.step, Proc.heartBeat]
    split <;> rfl
  | requestVote args =>
    rcases P.node.requestVote_cases args with
      ⟨-, heq | ⟨-, heq⟩⟩ | ⟨-, -, -, ⟨-, -, heq⟩ | ⟨-, heq⟩⟩ <;>
    simp only [Proc.step, heq, Node.mPersist_appliedIndex, Node.identityChange_appliedIndex]
  | appendEntries args =>
    rcases h.node.contiguous.appendEntries_cases hinput with
      ⟨-, heq⟩ | ⟨-, _, heq, -⟩ | ⟨-, -, -, -, heq⟩ | ⟨-, -, _, _, _, _, -, -, -, -, -, -, heq, -⟩
    · simp only [Proc.step, heq]
    · simp only [Proc.step, heq, Node.mPersist_appliedIndex, Node.followTerm_appliedIndex]
    · simp only [Proc.step, heq, Node.appended, Node.mPersist_appliedIndex,
        Node.followTerm_appliedIndex]
    · simp only [Proc.step, heq, Node.mPersist_appliedIndex, Node.followTerm_appliedIndex]
  | installSnapshot args => exact absurd trivial hfor
  | readSnapshot k =>
    simp only [Proc.step, Proc.readSnapshot]
    split <;> rfl
  | appendReply k reply =>
    simp only [Proc.step, Proc.appendReply]
    cases hcall : P.appendCalls[k]? with
    | none => rfl
    | some call =>
      have hmem := List.mem_of_getElem? hcall
      rcases P.node.sendAppendEntries_cases call.server call.args reply
          (P.appendNums.getD call.appendNum 0) h.node.commitLeLast (h.node.matchLeLast _)
          (h.appendLeLast call hmem) with
        heq | ⟨-, heq⟩ | ⟨-, -, -, -, heq⟩ | ⟨-, -, -, ⟨-, heq⟩ | ⟨-, heq⟩⟩
      · simp only [heq]
      · simp only [heq, Node.identityChange_appliedIndex]
      · simp only [heq]
      · simp only [heq, Node.recordMatch]
      · simp only [heq]
        rcases (P.node.recordMatch call.server call.args).updateCommitIndex_cases call.args with
          hcommit | ⟨-, hcommit⟩
        · rw [hcommit]
          rfl
        · rw [hcommit]
          rfl
  | voteReply k reply =>
    simp only [Proc.step, Proc.voteReply]
    cases hcall : P.voteCalls[k]? with
    | none => rfl
    | some call =>
      rcases P.node.sendRequestVote_cases reply (P.voteNums.getD call.voteNum 0) with
        ⟨-, heq⟩ | heq | ⟨-, -, ⟨-, heq⟩ | ⟨-, -, heq⟩ | ⟨-, -, heq⟩⟩
      · simp only [heq, Node.identityChange_appliedIndex]
      · simp only [heq]
      · simp only [heq]
      · simp only [heq]
      · simp only [heq, Node.becomeLeader, Node.mPersist_appliedIndex]
  | snapshotReply k reply =>
    simp only [Proc.step, Proc.snapshotReply]
    split
    · rename_i server args _ hcall
      rcases P.node.sendSnapshot_cases server args reply with ⟨-, heq⟩ | heq | ⟨-, -, heq⟩
      · simp only [heq, Node.identityChange_appliedIndex]
      · simp only [heq]
      · simp only [heq]
    · rfl

/-! ## What is on its way -/

/-- The snapshot of a message. -/
def ApplyMessage.snapshots (msg : ApplyMessage) : List Item :=
  if msg.validSnapshot then [.snapshot msg.snapshotIndex] else []

/-- What a message brings, in the order in which it is consumed. -/
def ApplyMessage.items (msg : ApplyMessage) : List Item :=
  if msg.validCommand then .command msg.commandIndex :: msg.snapshots else msg.snapshots

/-- What `_L_popMessageLoop` has popped and not yet consumed. -/
def Stage.items : Stage → List Item
  | .pop => []
  | .executeCommand msg => .command msg.commandIndex :: msg.snapshots
  | .executePutOp msg _ => msg.snapshots
  | .maySnapshot msg _ => msg.snapshots
  | .persist msg _ => msg.snapshots
  | .tryPush2Wait msg _ => msg.snapshots
  | .installSnapshot msg => [.snapshot msg.snapshotIndex]
  | .terminated => []

/-- The command that `_L_popMessageLoop` has gone past the check with. -/
def Stage.executing : Stage → Option Int
  | .executePutOp msg _ => some msg.commandIndex
  | .maySnapshot msg _ => some msg.commandIndex
  | .persist msg _ => some msg.commandIndex
  | _ => none

/-- Everything popped or in `_M_applyChan`. -/
def KvServer.items (kv : KvServer) : List Item :=
  kv.stage.items ++ kv.applyChan.flatMap ApplyMessage.items

theorem items_afterCommand (msg : ApplyMessage) :
    (KvServer.afterCommand msg).items = msg.snapshots := by
  unfold KvServer.afterCommand ApplyMessage.snapshots
  split <;> rfl

theorem items_afterCheck (kv : KvServer) (msg : ApplyMessage) (command : Op) :
    (kv.afterCheck msg command).items = msg.snapshots := by
  unfold KvServer.afterCheck
  split_ifs <;> rfl

theorem executing_afterCommand (msg : ApplyMessage) :
    (KvServer.afterCommand msg).executing = none := by
  unfold KvServer.afterCommand
  split <;> rfl

theorem executing_afterCheck (kv : KvServer) (msg : ApplyMessage) (command : Op) {i : Int}
    (h : (kv.afterCheck msg command).executing = some i) : i = msg.commandIndex := by
  unfold KvServer.afterCheck at h
  split_ifs at h
  · exact (Option.some.inj h).symm
  · exact (Option.some.inj h).symm
  · exact (Option.some.inj h).symm

/-- The `kvServer` has consumed everything in order, and `m` sums up what it has consumed and will
    still do with what is in its queue. No command in it is above `applied`. -/
structure KvFlow (kv : KvServer) (consumed : List Item) (applied : Int) (m : Mark) : Prop where
  ordered : Ordered consumed
  mark : kv.stage ≠ .terminated → m.Of consumed
  snapshot : kv.lastSnapshotCommandIndex ≤ 0 ∨ .snapshot kv.lastSnapshotCommandIndex ∈ consumed
  admits : m.AdmitsAll kv.items
  commands : (m.afterAll kv.items).commands ≤ applied
  executing : ∀ i, kv.stage.executing = some i → i ≤ applied

variable {kv kv' : KvServer} {consumed : List Item} {applied applied' : Int} {m : Mark}
  {msg : ApplyMessage}

theorem KvFlow.mono (h : KvFlow kv consumed applied m) (hle : applied ≤ applied') :
    KvFlow kv consumed applied' m :=
  ⟨h.ordered, h.mark, h.snapshot, h.admits, h.commands.trans hle,
    fun i hi => (h.executing i hi).trans hle⟩

/-- Only the queue, the snapshot index and the stage matter. -/
theorem KvFlow.congr (h : KvFlow kv consumed applied m) (hstage : kv'.stage = kv.stage)
    (hchan : kv'.applyChan = kv.applyChan)
    (hlast : kv'.lastSnapshotCommandIndex = kv.lastSnapshotCommandIndex) :
    KvFlow kv' consumed applied m := by
  have hitems : kv'.items = kv.items := by rw [KvServer.items, hstage, hchan, KvServer.items]
  exact ⟨h.ordered, hstage ▸ h.mark, hlast ▸ h.snapshot, hitems ▸ h.admits, hitems ▸ h.commands,
    hstage ▸ h.executing⟩

/-- A message is pushed whose only item may come next. -/
theorem KvFlow.push (h : KvFlow kv consumed applied m) {item : Item} (hitems : msg.items = [item])
    (hadmits : (m.afterAll kv.items).Admits item)
    (hle : ((m.afterAll kv.items).after item).commands ≤ applied) :
    KvFlow { kv with applyChan := kv.applyChan ++ [msg] } consumed applied m := by
  have hconcat : KvServer.items { kv with applyChan := kv.applyChan ++ [msg] } =
      kv.items ++ [item] := by
    simp [KvServer.items, hitems, List.append_assoc]
  refine ⟨h.ordered, h.mark, h.snapshot, ?_, ?_, h.executing⟩
  · rw [hconcat]
    exact Mark.admitsAll_concat h.admits hadmits
  · rw [hconcat, Mark.afterAll_append]
    exact hle

/-- A stage with the same items, working on no new command. -/
theorem KvFlow.stage (h : KvFlow kv consumed applied m) (hstage : kv'.stage.items = kv.stage.items)
    (hrunning : kv.stage ≠ .terminated)
    (hexec : ∀ i, kv'.stage.executing = some i → kv.stage.executing = some i)
    (hchan : kv'.applyChan = kv.applyChan)
    (hlast : kv'.lastSnapshotCommandIndex = kv.lastSnapshotCommandIndex) :
    KvFlow kv' consumed applied m := by
  have hitems : kv'.items = kv.items := by rw [KvServer.items, hstage, hchan, KvServer.items]
  exact ⟨h.ordered, fun _ => h.mark hrunning, hlast ▸ h.snapshot, hitems ▸ h.admits,
    hitems ▸ h.commands, fun i hi => h.executing i (hexec i hi)⟩

/-- The next critical section consumes in order and leaves the outlook as it is. -/
def KvFlow.Loops (boost : Boost) (kv : KvServer) (consumed : List Item) (applied : Int) (m : Mark)
    (size : Int) : Prop :=
  ∃ m', KvFlow (kv.popMessageLoop boost size).1 (consumed ++ App.consumes boost kv) applied m' ∧
    m'.afterAll (kv.popMessageLoop boost size).1.items = m.afterAll kv.items

variable {size : Int} {command : Op}

/-- A critical section that consumes nothing and moves on to a stage with the same items. -/
theorem KvFlow.idle (h : KvFlow kv consumed applied m)
    (hsame : (kv.popMessageLoop boost size).1.items = kv.items)
    (hnothing : App.consumes boost kv = []) (hrunning : kv.stage ≠ .terminated)
    (hexec : ∀ i, (kv.popMessageLoop boost size).1.stage.executing = some i →
      kv.stage.executing = some i)
    (hlast : (kv.popMessageLoop boost size).1.lastSnapshotCommandIndex =
      kv.lastSnapshotCommandIndex) : KvFlow.Loops boost kv consumed applied m size := by
  refine ⟨m, ?_, by rw [hsame]⟩
  rw [hnothing, List.append_nil]
  exact ⟨h.ordered, fun _ => h.mark hrunning, hlast ▸ h.snapshot, hsame ▸ h.admits,
    hsame ▸ h.commands, fun i hi => h.executing i (hexec i hi)⟩

theorem KvFlow.pop (h : KvFlow kv consumed applied m) (hs : kv.stage = .pop) :
    KvFlow.Loops boost kv consumed applied m size := by
  cases hq : kv.applyChan with
  | nil =>
    have heq : (kv.popMessageLoop boost size).1 = kv := by simp [KvServer.popMessageLoop, hs, hq]
    exact h.idle (by rw [heq]) (by simp [App.consumes, hs]) (by simp [hs])
      (fun i hi => by rw [heq] at hi; exact hi) (by rw [heq])
  | cons msg rest =>
    by_cases hvalid : msg.validCommand
    · have heq : (kv.popMessageLoop boost size).1 =
          { kv with applyChan := rest, stage := .executeCommand msg } := by
        simp [KvServer.popMessageLoop, hs, hq, hvalid]
      have hsame : (kv.popMessageLoop boost size).1.items = kv.items := by
        rw [heq]
        simp [KvServer.items, hs, hq, Stage.items, ApplyMessage.items, hvalid]
      exact h.idle hsame (by simp [App.consumes, hs]) (by simp [hs])
        (fun i hi => by simp [heq, Stage.executing] at hi) (by rw [heq])
    · have heq : (kv.popMessageLoop boost size).1 =
          { kv with applyChan := rest, stage := KvServer.afterCommand msg } := by
        simp [KvServer.popMessageLoop, hs, hq, hvalid]
      have hsame : (kv.popMessageLoop boost size).1.items = kv.items := by
        rw [heq, KvServer.items, items_afterCommand]
        simp [KvServer.items, hs, hq, Stage.items, ApplyMessage.items, hvalid]
      exact h.idle hsame (by simp [App.consumes, hs]) (by simp [hs])
        (fun i hi => by simp [heq, executing_afterCommand] at hi) (by rw [heq])

/-- The index check: the command is covered, cannot be loaded, or is consumed. -/
theorem KvFlow.executeCommand (h : KvFlow kv consumed applied m)
    (hs : kv.stage = .executeCommand msg) : KvFlow.Loops boost kv consumed applied m size := by
  have hcons : kv.items =
      .command msg.commandIndex :: (msg.snapshots ++ kv.applyChan.flatMap ApplyMessage.items) := by
    rw [KvServer.items, hs]
    rfl
  have hadmits := h.admits
  have hcommands := h.commands
  rw [hcons] at hadmits hcommands
  have hmark := h.mark (by simp [hs])
  have hindex : msg.commandIndex ≤ applied := by
    have hle : (m.after (.command msg.commandIndex)).commands ≤ applied :=
      Mark.commands_le_afterAll.trans hcommands
    exact (le_max_right _ _).trans hle
  by_cases hle : msg.commandIndex ≤ kv.lastSnapshotCommandIndex
  · have heq : (kv.popMessageLoop boost size).1 =
        { kv with stage := KvServer.afterCommand msg } := by
      simp [KvServer.popMessageLoop, hs, hle]
    have hnext : (kv.popMessageLoop boost size).1.items =
        msg.snapshots ++ kv.applyChan.flatMap ApplyMessage.items := by
      rw [heq, KvServer.items, items_afterCommand]
    have hcovered : ∀ j, 0 < j → j ≤ msg.commandIndex → Covered consumed j := by
      intro j hj hji
      rcases h.snapshot with hlast | hlast
      · omega
      · exact .inr ⟨_, hlast, hji.trans hle⟩
    have hconsumes : App.consumes boost kv = [] := by simp [App.consumes, hs, hle]
    refine ⟨m.after (.command msg.commandIndex), ?_, by rw [hnext, hcons]; rfl⟩
    rw [hconsumes, List.append_nil]
    refine ⟨h.ordered, fun _ => hmark.drop hcovered, ?_, hnext ▸ hadmits.2, hnext ▸ hcommands, ?_⟩
    · rw [heq]
      exact h.snapshot
    · intro i hi
      simp [heq, executing_afterCommand] at hi
  cases hload : Op.load boost msg.command with
  | none =>
    -- the loop ends here, and with it the rest of the message
    have heq : (kv.popMessageLoop boost size).1 = { kv with stage := .terminated } := by
      simp [KvServer.popMessageLoop, hs, hle, hload]
    have hnext : (kv.popMessageLoop boost size).1.items =
        kv.applyChan.flatMap ApplyMessage.items := by
      rw [heq]
      rfl
    have hconsumes : App.consumes boost kv = [] := by simp [App.consumes, hs, hload]
    refine ⟨(m.after (.command msg.commandIndex)).afterAll msg.snapshots, ?_, ?_⟩
    · rw [hconsumes, List.append_nil]
      refine ⟨h.ordered, fun hne => absurd (by rw [heq]) hne, ?_, ?_, ?_, ?_⟩
      · rw [heq]
        exact h.snapshot
      · rw [hnext]
        exact ((Mark.admitsAll_append _).1 hadmits.2).2
      · rw [hnext, ← Mark.afterAll_append]
        exact hcommands
      · intro i hi
        simp [heq, Stage.executing] at hi
    · rw [hnext, hcons, ← Mark.afterAll_append]
      rfl
  | some command =>
    have heq : (kv.popMessageLoop boost size).1 =
        { kv with stage := kv.afterCheck msg command } := by
      simp [KvServer.popMessageLoop, hs, hle, hload]
    have hnext : (kv.popMessageLoop boost size).1.items =
        msg.snapshots ++ kv.applyChan.flatMap ApplyMessage.items := by
      rw [heq, KvServer.items, items_afterCheck]
    have hconsumes : App.consumes boost kv = [.command msg.commandIndex] := by
      simp [App.consumes, hs, hle, hload]
    have hmark' := hmark.consume hadmits.1
    refine ⟨m.after (.command msg.commandIndex), ?_, by rw [hnext, hcons]; rfl⟩
    rw [hconsumes]
    refine ⟨hmark'.ordered, fun _ => hmark', ?_, hnext ▸ hadmits.2, hnext ▸ hcommands, ?_⟩
    · rw [heq]
      exact h.snapshot.imp_right fun hmem => List.mem_append_left _ hmem
    · intro i hi
      rw [heq] at hi
      rw [executing_afterCheck kv msg command hi]
      exact hindex

theorem KvFlow.installSnapshot (h : KvFlow kv consumed applied m)
    (hs : kv.stage = .installSnapshot msg) : KvFlow.Loops boost kv consumed applied m size := by
  have hcons : kv.items =
      .snapshot msg.snapshotIndex :: kv.applyChan.flatMap ApplyMessage.items := by
    rw [KvServer.items, hs]
    rfl
  have hadmits := h.admits
  have hcommands := h.commands
  rw [hcons] at hadmits hcommands
  cases hload : kv.load boost msg.snapshot with
  | none =>
    have heq : (kv.popMessageLoop boost size).1 = { kv with stage := .terminated } := by
      simp [KvServer.popMessageLoop, hs, KvServer.installSnapshot, KvServer.load_stage, hload]
    have hnext : (kv.popMessageLoop boost size).1.items =
        kv.applyChan.flatMap ApplyMessage.items := by
      rw [heq]
      rfl
    have hconsumes : App.consumes boost kv = [] := by simp [App.consumes, hs, hload]
    refine ⟨m.after (.snapshot msg.snapshotIndex), ?_, by rw [hnext, hcons]; rfl⟩
    rw [hconsumes, List.append_nil]
    refine ⟨h.ordered, fun hne => absurd (by rw [heq]) hne, ?_, hnext ▸ hadmits.2,
      hnext ▸ hcommands, ?_⟩
    · rw [heq]
      exact h.snapshot
    · intro i hi
      simp [heq, Stage.executing] at hi
  | some kv' =>
    obtain ⟨data, lastRequestId, rfl⟩ := KvServer.load_eq hload
    have hmark' := (h.mark (by simp [hs])).consume hadmits.1
    have hconsumes : App.consumes boost kv = [.snapshot msg.snapshotIndex] := by
      simp [App.consumes, hs, hload]
    have heq : (kv.popMessageLoop boost size).1 =
        { kv with
          data := data
          lastRequestId := lastRequestId
          stage := .pop
          lastSnapshotCommandIndex := msg.snapshotIndex } := by
      simp [KvServer.popMessageLoop, hs, KvServer.installSnapshot, KvServer.load_stage, hload]
    have hnext : (kv.popMessageLoop boost size).1.items =
        kv.applyChan.flatMap ApplyMessage.items := by
      rw [heq]
      rfl
    refine ⟨m.after (.snapshot msg.snapshotIndex), ?_, by rw [hnext, hcons]; rfl⟩
    rw [hconsumes]
    refine ⟨hmark'.ordered, fun _ => hmark', .inr ?_, hnext ▸ hadmits.2, hnext ▸ hcommands, ?_⟩
    · rw [heq]
      exact List.mem_append_right _ (List.mem_singleton.2 rfl)
    · intro i hi
      simp [heq, Stage.executing] at hi

/-- One critical section of `_L_popMessageLoop`. -/
theorem KvFlow.loop (h : KvFlow kv consumed applied m) (size : Int) :
    KvFlow.Loops boost kv consumed applied m size := by
  cases hs : kv.stage with
  | pop => exact h.pop hs
  | executeCommand msg => exact h.executeCommand hs
  | executePutOp msg command =>
    have heq : (kv.popMessageLoop boost size).1 =
        { kv.executePutOp command with stage := .maySnapshot msg command } := by
      simp [KvServer.popMessageLoop, hs]
    exact h.idle (by simp [heq, KvServer.items, hs, Stage.items, KvServer.executePutOp])
      (by simp [App.consumes, hs]) (by simp [hs])
      (fun i hi => by rw [heq] at hi; rw [hs]; exact hi) (by rw [heq]; rfl)
  | maySnapshot msg command =>
    by_cases hsnap : kv.maySnapshot size
    · have heq : (kv.popMessageLoop boost size).1 = { kv with stage := .persist msg command } := by
        simp [KvServer.popMessageLoop, hs, hsnap]
      exact h.idle (by simp [heq, KvServer.items, hs, Stage.items])
        (by simp [App.consumes, hs]) (by simp [hs])
        (fun i hi => by rw [heq] at hi; rw [hs]; exact hi) (by rw [heq])
    · have heq : (kv.popMessageLoop boost size).1 =
          { kv with stage := .tryPush2Wait msg command } := by
        simp [KvServer.popMessageLoop, hs, hsnap]
      exact h.idle (by simp [heq, KvServer.items, hs, Stage.items])
        (by simp [App.consumes, hs]) (by simp [hs])
        (fun i hi => by simp [heq, Stage.executing] at hi) (by rw [heq])
  | persist msg command =>
    have heq : (kv.popMessageLoop boost size).1 = { kv with stage := .tryPush2Wait msg command } := by
      simp [KvServer.popMessageLoop, hs]
    exact h.idle (by simp [heq, KvServer.items, hs, Stage.items])
      (by simp [App.consumes, hs]) (by simp [hs])
      (fun i hi => by simp [heq, Stage.executing] at hi) (by rw [heq])
  | tryPush2Wait msg command =>
    obtain ⟨chan, hchan⟩ := kv.tryPush2Wait_eq command msg.commandIndex
    have heq : (kv.popMessageLoop boost size).1 =
        { kv with appliedChan := chan, stage := KvServer.afterCommand msg } := by
      simp [KvServer.popMessageLoop, hs, hchan]
    have hsame : (kv.popMessageLoop boost size).1.items = kv.items := by
      rw [heq, KvServer.items, items_afterCommand, KvServer.items, hs]
      rfl
    exact h.idle hsame (by simp [App.consumes, hs]) (by simp [hs])
      (fun i hi => by simp [heq, executing_afterCommand] at hi) (by rw [heq])
  | installSnapshot msg => exact h.installSnapshot hs
  | terminated =>
    have heq : (kv.popMessageLoop boost size).1 = kv := by simp [KvServer.popMessageLoop, hs]
    refine ⟨m, ?_, by rw [heq]⟩
    rw [heq, App.consumes, hs, List.append_nil]
    exact h

/-! ## Between the raft node and the queue -/

/-- Index `x` is covered by the queue, or a detached thread will push a snapshot that ends there. -/
def App.Reaches (app : App) (m : Mark) (x : Int) : Prop :=
  x ≤ (m.afterAll app.kv.items).top ∨ ∃ msg ∈ app.pushMessages, msg.snapshotIndex = x

/-- The commands not yet pushed are those from `next` on. What is below them, and what was applied
    above them, is in the queue or in a detached thread; no snapshot there is below a command in the
    queue. -/
structure Flow (app : App) (applied : Int) (m : Mark) (next : Int) : Prop where
  kv : KvFlow app.kv app.consumed applied m
  detached : ∀ msg ∈ app.pushMessages, msg.items = [.snapshot msg.snapshotIndex] ∧
    (m.afterAll app.kv.items).commands ≤ msg.snapshotIndex
  batch : ∀ (k : ℕ) (msg : ApplyMessage), app.applyMsgs[k]? = some msg →
    msg.commandIndex = next + k ∧ msg.items = [.command (next + k)]
  batchLe : next + app.applyMsgs.length - 1 ≤ applied
  below : app.Reaches m (next - 1)
  above : app.Reaches m applied ∨ applied = next + app.applyMsgs.length - 1

variable {app : App} {next : Int}

/-- The queue as seen by `Reaches` only grows. -/
theorem App.Reaches.mono {app' : App} {m' : Mark} {x : Int} (h : app.Reaches m x)
    (htop : (m.afterAll app.kv.items).top ≤ (m'.afterAll app'.kv.items).top)
    (hmem : ∀ msg ∈ app.pushMessages, msg ∈ app'.pushMessages ∨
      msg.snapshotIndex ≤ (m'.afterAll app'.kv.items).top) : app'.Reaches m' x := by
  rcases h with h | ⟨msg, hmsg, rfl⟩
  · exact .inl (h.trans htop)
  · rcases hmem msg hmsg with hmem | hle
    · exact .inr ⟨msg, hmem, rfl⟩
    · exact .inl hle

/-- The applier takes everything between the applied and the new applied index. -/
theorem Flow.take (h : Flow app applied m next) (hempty : app.applyMsgs = [])
    {msgs : List ApplyMessage}
    (hmsgs : ∀ (k : ℕ) (msg : ApplyMessage), msgs[k]? = some msg →
      msg.commandIndex = applied + 1 + k ∧ msg.items = [.command (applied + 1 + k)])
    (hlen : applied' = applied + msgs.length) :
    Flow { app with applyMsgs := msgs } applied' m (applied + 1) := by
  have hreach : app.Reaches m applied := by
    rcases h.above with habove | habove
    · exact habove
    · have heq : applied = next - 1 := by simpa [hempty] using habove
      rw [heq]
      exact h.below
  refine ⟨h.kv.mono (by omega), h.detached, hmsgs, ?_, ?_, .inr ?_⟩
  · show applied + 1 + (msgs.length : Int) - 1 ≤ applied'
    omega
  · rw [add_sub_cancel_right]
    exact hreach
  · show applied' = applied + 1 + (msgs.length : Int) - 1
    omega

theorem afterAll_push {item : Item} (hitems : msg.items = [item]) :
    m.afterAll ({ kv with applyChan := kv.applyChan ++ [msg] } : KvServer).items =
      (m.afterAll kv.items).after item := by
  have hconcat : KvServer.items { kv with applyChan := kv.applyChan ++ [msg] } =
      kv.items ++ [item] := by
    simp [KvServer.items, hitems, List.append_assoc]
  rw [hconcat, Mark.afterAll_append]
  rfl

/-- The applier pushes a command that no detached snapshot lies below. -/
theorem Flow.push (h : Flow app applied m next)
    (hprompt : ∀ msg ∈ app.applyMsgs.head?, ∀ shot ∈ app.pushMessages,
      msg.commandIndex ≤ shot.snapshotIndex) : ∃ next', Flow app.push applied m next' := by
  unfold App.push
  cases hmsgs : app.applyMsgs with
  | nil => exact ⟨next, h⟩
  | cons msg rest =>
    have hhead : msg.commandIndex = next ∧ msg.items = [.command next] := by
      simpa using h.batch 0 msg (by rw [hmsgs]; rfl)
    have hbelow : next - 1 ≤ (m.afterAll app.kv.items).top := by
      rcases h.below with hle | ⟨shot, hshot, heq⟩
      · exact hle
      · have := hprompt msg (by rw [hmsgs]; rfl) shot hshot
        omega
    have hlen := h.batchLe
    rw [hmsgs, List.length_cons] at hlen
    have hcommands := h.kv.commands
    have hmark : m.afterAll ({ app.kv with applyChan := app.kv.applyChan ++ [msg] } : KvServer).items =
        (m.afterAll app.kv.items).after (.command next) := afterAll_push hhead.2
    have htop : (m.afterAll app.kv.items).top ≤
        ((m.afterAll app.kv.items).after (.command next)).top := Mark.top_le_after
    refine ⟨next + 1, ?_, ?_, ?_, ?_, .inl ?_, ?_⟩
    · refine h.kv.push hhead.2 ?_ ?_
      · show next ≤ (m.afterAll app.kv.items).top + 1
        omega
      · exact max_le hcommands (by omega)
    · intro shot hshot
      refine ⟨(h.detached shot hshot).1, ?_⟩
      show (m.afterAll ({ app.kv with applyChan := app.kv.applyChan ++ [msg] } : KvServer).items).commands
        ≤ _
      rw [hmark]
      refine max_le (h.detached shot hshot).2 ?_
      rw [← hhead.1]
      exact hprompt msg (by rw [hmsgs]; rfl) shot hshot
    · intro k msg' hmsg'
      have hshift := h.batch (k + 1) msg' (by rw [hmsgs]; exact hmsg')
      rw [Nat.cast_add, Nat.cast_one, add_comm (k : Int), ← add_assoc] at hshift
      exact hshift
    · show next + 1 + (rest.length : Int) - 1 ≤ applied
      push_cast at hlen
      omega
    · show next + 1 - 1 ≤ (m.afterAll ({ app.kv with
          applyChan := app.kv.applyChan ++ [msg] } : KvServer).items).top
      rw [hmark, add_sub_cancel_right]
      exact le_max_right _ _
    · rcases h.above with habove | habove
      · refine .inl (habove.mono ?_ fun shot hshot => .inl hshot)
        show _ ≤ (m.afterAll ({ app.kv with
          applyChan := app.kv.applyChan ++ [msg] } : KvServer).items).top
        rw [hmark]
        exact htop
      · refine .inr ?_
        rw [hmsgs, List.length_cons] at habove
        push_cast at habove
        show applied = next + 1 + (rest.length : Int) - 1
        omega

/-- A snapshot at or above everything applied is handed to a detached thread. -/
theorem Flow.detach (h : Flow app applied m next) (hitems : msg.items = [.snapshot msg.snapshotIndex])
    (hle : applied ≤ msg.snapshotIndex) :
    Flow (app.detach (some msg)) msg.snapshotIndex m next := by
  have hmem : ∀ shot ∈ app.pushMessages, shot ∈ (app.detach (some msg)).pushMessages :=
    fun shot hshot => List.mem_append_left _ hshot
  refine ⟨h.kv.mono hle, fun shot hshot => ?_, h.batch, h.batchLe.trans hle,
    h.below.mono le_rfl fun shot hshot => .inl (hmem shot hshot), .inl (.inr ⟨msg, ?_, rfl⟩)⟩
  · rcases List.mem_append.1 hshot with hshot | hshot
    · exact h.detached shot hshot
    · obtain rfl : shot = msg := by simpa using hshot
      exact ⟨hitems, h.kv.commands.trans hle⟩
  · exact List.mem_append_right _ (by simp)

/-- A detached thread pushes its snapshot. -/
theorem Flow.pushMessage (h : Flow app applied m next) (k : ℕ) :
    Flow (app.pushMessage k) applied m next := by
  unfold App.pushMessage
  cases hget : app.pushMessages[k]? with
  | none => exact h
  | some msg =>
    obtain ⟨hitems, hcommands⟩ := h.detached msg (List.mem_of_getElem? hget)
    have hmark : m.afterAll ({ app.kv with applyChan := app.kv.applyChan ++ [msg] } : KvServer).items =
        (m.afterAll app.kv.items).after (.snapshot msg.snapshotIndex) := afterAll_push hitems
    have hmem : ∀ shot ∈ app.pushMessages, shot ∈ app.pushMessages.eraseIdx k ∨
        shot.snapshotIndex ≤ ((m.afterAll app.kv.items).after (.snapshot msg.snapshotIndex)).top := by
      intro shot hshot
      obtain ⟨hlt, hk⟩ := List.getElem?_eq_some_iff.1 hget
      rcases List.mem_cons.1 ((List.getElem_cons_eraseIdx_perm hlt).mem_iff.2 hshot) with rfl | hshot
      · exact .inr (by rw [hk]; exact le_max_right _ _)
      · exact .inl hshot
    have hmono : ∀ x, app.Reaches m x → App.Reaches
        { app with
          pushMessages := app.pushMessages.eraseIdx k
          kv := { app.kv with applyChan := app.kv.applyChan ++ [msg] } } m x := by
      intro x hx
      refine hx.mono ?_ ?_
      · rw [hmark]
        exact Mark.top_le_after
      · rw [hmark]
        exact hmem
    refine ⟨h.kv.push hitems hcommands h.kv.commands, fun shot hshot => ?_, h.batch, h.batchLe,
      hmono _ h.below, h.above.imp_left (hmono _)⟩
    obtain ⟨hshotItems, hshotCommands⟩ := h.detached shot (List.mem_of_mem_eraseIdx hshot)
    refine ⟨hshotItems, ?_⟩
    show (m.afterAll ({ app.kv with applyChan := app.kv.applyChan ++ [msg] } : KvServer).items).commands
      ≤ _
    rw [hmark]
    exact hshotCommands

theorem Flow.loop (h : Flow app applied m next) (size : Int) :
    ∃ m', Flow (app.loop boost size) applied m' next := by
  obtain ⟨m', hkv, hmark⟩ := h.kv.loop size
  have hmono : ∀ x, app.Reaches m x → (app.loop boost size).Reaches m' x := fun x hx =>
    hx.mono (le_of_eq (congrArg Mark.top hmark.symm)) fun shot hshot => .inl hshot
  refine ⟨m', hkv, fun shot hshot => ?_, h.batch, h.batchLe, hmono _ h.below,
    h.above.imp_left (hmono _)⟩
  obtain ⟨hitems, hcommands⟩ := h.detached shot hshot
  exact ⟨hitems, (le_of_eq (congrArg Mark.commands hmark)).trans hcommands⟩

theorem Flow.remote (h : Flow app applied m next) (hstage : kv'.stage = app.kv.stage)
    (hchan : kv'.applyChan = app.kv.applyChan)
    (hlast : kv'.lastSnapshotCommandIndex = app.kv.lastSnapshotCommandIndex) :
    Flow { app with kv := kv' } applied m next := by
  have hitems : kv'.items = app.kv.items := by
    rw [KvServer.items, hstage, hchan, KvServer.items]
  have hmono : ∀ x, app.Reaches m x → App.Reaches { app with kv := kv' } m x := fun x hx =>
    hx.mono (by rw [hitems]) fun shot hshot => .inl hshot
  refine ⟨h.kv.congr hstage hchan hlast, ?_, h.batch, h.batchLe, hmono _ h.below,
    h.above.imp_left (hmono _)⟩
  simpa only [hitems] using h.detached

/-! ## The server -/

/-- No snapshot is taken over that lies below what was applied, and no command is pushed past a
    detached snapshot below it. -/
def Server.NoOvertaking (S : Server n) : ServerInput n → Prop
  | .push => ∀ msg ∈ S.app.applyMsgs.head?, ∀ shot ∈ S.app.pushMessages,
      msg.commandIndex ≤ shot.snapshotIndex
  | .installSnapshot args => S.proc.node.term ≤ args.term →
      S.proc.node.lastSnapshotIndex < args.lastIndex → S.proc.node.appliedIndex ≤ args.lastIndex
  | _ => True

instance (S : Server n) : (input : ServerInput n) → Decidable (S.NoOvertaking input)
  | .push => inferInstanceAs (Decidable (∀ msg ∈ S.app.applyMsgs.head?, ∀ shot ∈ S.app.pushMessages,
      msg.commandIndex ≤ shot.snapshotIndex))
  | .installSnapshot args => inferInstanceAs (Decidable (S.proc.node.term ≤ args.term →
      S.proc.node.lastSnapshotIndex < args.lastIndex → S.proc.node.appliedIndex ≤ args.lastIndex))
  | .raft _ | .take | .pushMessage _ | .loop | .get _ | .awaitIndex _ | .eraseIndex _ =>
      .isTrue trivial

/-- The raft node is well formed, and what it has applied is on its way in order. -/
structure Server.Inv (S : Server n) : Prop where
  raft : S.proc.IndexInv
  flow : ∃ m next, Flow S.app S.proc.node.appliedIndex m next

theorem Server.Inv.new (me : Fin n) (maxRaftStateSize : Int) :
    (Server.new me maxRaftStateSize).Inv := by
  have hmark : Mark.Of ⟨0, 0⟩ [] := ⟨.nil, fun i hi => by simp at hi, fun j hj hle => by
    exact absurd hj (not_lt.2 hle)⟩
  refine ⟨.new me, ⟨0, 0⟩, 1, ⟨.nil, fun _ => hmark, .inl le_rfl, trivial, le_rfl, ?_⟩, ?_, ?_,
    le_rfl, .inl le_rfl, .inl (.inl le_rfl)⟩
  · intro i hi
    simp [Server.new, Stage.executing] at hi
  · intro msg hmsg
    simp [Server.new] at hmsg
  · intro k msg hmsg
    simp [Server.new] at hmsg

/-- What the applier takes under the lock. -/
theorem Node.IndexInv.taken {s : Node n} (h : s.IndexInv) :
    (∀ (k : ℕ) (msg : ApplyMessage), s.getApplyMessages.ret[k]? = some msg →
      msg.commandIndex = s.appliedIndex + 1 + k ∧
        msg.items = [.command (s.appliedIndex + 1 + k)]) ∧
      s.getApplyMessages.node.appliedIndex = s.appliedIndex + s.getApplyMessages.ret.length := by
  have hlast := h.contiguous.getLastLogIndex
  rw [h.getApplyMessages_eq]
  obtain ⟨hcont, -, hlo, hmid, hhi, -⟩ := h
  constructor
  · intro k msg hmsg
    rw [List.getElem?_map, Option.map_eq_some_iff] at hmsg
    obtain ⟨e, he, rfl⟩ := hmsg
    have hidx : e.index = s.appliedIndex + 1 + k := by
      rw [List.getElem?_take] at he
      split at he
      · rw [List.getElem?_drop] at he
        have := hcont _ e he
        push_cast at this
        omega
      · simp at he
    refine ⟨hidx, ?_⟩
    simp [ApplyMessage.items, ApplyMessage.snapshots, LogEntry.toMessage, ApplyMessage.ofCommand, hidx]
  · simp only [List.length_map, List.length_take, List.length_drop]
    omega

/-- The commands of a batch are all different, and above what was applied before. -/
theorem Node.IndexInv.taken_items {s : Node n} (h : s.IndexInv) :
    (s.getApplyMessages.ret.flatMap ApplyMessage.items).Nodup ∧
      ∀ i, .command i ∈ s.getApplyMessages.ret.flatMap ApplyMessage.items →
        s.appliedIndex < i ∧ i ≤ s.appliedIndex + s.getApplyMessages.ret.length := by
  obtain ⟨hbatch, -⟩ := h.taken
  have hitems : s.getApplyMessages.ret.flatMap ApplyMessage.items =
      (List.range s.getApplyMessages.ret.length).map
        fun k : ℕ => .command (s.appliedIndex + 1 + k) := by
    rw [List.flatMap_def]
    have hmap : s.getApplyMessages.ret.map ApplyMessage.items =
        (List.range s.getApplyMessages.ret.length).map fun k : ℕ =>
          [Item.command (s.appliedIndex + 1 + k)] := by
      refine List.ext_getElem (by simp) fun k hk _ => ?_
      rw [List.length_map] at hk
      simp [(hbatch k _ (List.getElem?_eq_getElem hk)).2]
    rw [hmap]
    induction List.range s.getApplyMessages.ret.length with
    | nil => rfl
    | cons k rest ih => simp [ih]
  rw [hitems]
  refine ⟨List.Nodup.map (fun a b hab => ?_) List.nodup_range, fun i hi => ?_⟩
  · simpa using hab
  · obtain ⟨k, hk, heq⟩ := List.mem_map.1 hi
    rw [List.mem_range] at hk
    rw [Item.command.injEq] at heq
    omega

/-- `raft::persist` with an index that was applied leaves the applied index alone. -/
theorem Proc.IndexInv.persistIfAsked {P : Proc n} (h : P.IndexInv) {o : Option (Int × Bytes)}
    (ho : ∀ p ∈ o, p.1 ≤ P.node.appliedIndex) :
    (P.persistIfAsked o).IndexInv ∧
      (P.persistIfAsked o).node.appliedIndex = P.node.appliedIndex := by
  cases o with
  | none => exact ⟨h, rfl⟩
  | some p =>
    obtain ⟨index, shot⟩ := p
    refine ⟨(h.step (show Input.WellFormed (.persist index shot) from trivial)).1.1, ?_⟩
    show (P.node.persist index shot).node.appliedIndex = P.node.appliedIndex
    rcases h.node.contiguous.persist_cases h.node.commitLeLast index shot with
      heq | ⟨e, -, -, -, -, heq⟩
    · rw [heq]
    · rw [heq]
      exact max_eq_left (ho _ rfl)

theorem Server.Inv.step {S : Server n} (h : S.Inv) {input : ServerInput n} (hlegal : S.Legal input)
    (hprompt : S.NoOvertaking input) : (S.step boost input).Inv := by
  obtain ⟨hraft, m, next, hflow⟩ := h
  cases input with
  | raft input =>
    obtain ⟨hwf, hfor⟩ := hlegal
    refine ⟨(hraft.step hwf).1.1, m, next, ?_⟩
    show Flow S.app (S.proc.step input).1.node.appliedIndex m next
    rw [Proc.step_appliedIndex hraft hwf hfor]
    exact hflow
  | take =>
    cases hmsgs : S.app.applyMsgs with
    | nil =>
      have hfault := hraft.node.getApplyMessages_eq
      obtain ⟨hbatch, hlen⟩ := hraft.node.taken
      have htake : S.app.take S.proc.node.getApplyMessages =
          { S.app with applyMsgs := S.proc.node.getApplyMessages.ret } := by
        simp [App.take, hmsgs, hfault]
      have hstep : S.step boost .take =
          ⟨(S.proc.step .getApplyMessages).1, S.app.take S.proc.node.getApplyMessages⟩ := by
        simp [Server.step, hmsgs]
      rw [hstep, htake]
      exact ⟨(hraft.step (show Input.WellFormed .getApplyMessages from trivial)).1.1, m, _,
        hflow.take hmsgs hbatch hlen⟩
    | cons msg rest =>
      have hstep : S.step boost .take = S := by
        simp [Server.step, App.take, hmsgs]
      rw [hstep]
      exact ⟨hraft, m, next, hflow⟩
  | push =>
    obtain ⟨next', hpush⟩ := hflow.push hprompt
    exact ⟨hraft, m, next', hpush⟩
  | installSnapshot args =>
    have hstep := (hraft.step (show Input.WellFormed (.installSnapshot args) from trivial)).1.1
    refine ⟨hstep, m, next, ?_⟩
    show Flow (S.app.detach (S.proc.node.installSnapshot args).ret.2)
      (S.proc.node.installSnapshot args).node.appliedIndex m next
    rcases hraft.node.contiguous.installSnapshot_cases args with
      ⟨-, heq⟩ | ⟨-, -, heq⟩ | ⟨hterm, hnew, heq⟩
    · simpa [heq, App.detach] using hflow
    · simpa [heq, App.detach, Node.followTerm_appliedIndex] using hflow
    · have hle : S.proc.node.appliedIndex ≤ args.lastIndex := hprompt hterm hnew
      have happlied : (S.proc.node.installSnapshot args).node.appliedIndex = args.lastIndex := by
        rw [heq]
        exact max_eq_right hle
      rw [happlied, heq]
      exact hflow.detach rfl hle
  | pushMessage k => exact ⟨hraft, m, next, hflow.pushMessage k⟩
  | loop =>
    obtain ⟨m', hloop⟩ := hflow.loop (S.proc.node.getRaftStateSize boost)
    have hasked : ∀ p ∈ (S.app.kv.popMessageLoop boost (S.proc.node.getRaftStateSize boost)).2,
        p.1 ≤ S.proc.node.appliedIndex := by
      intro p hp
      obtain ⟨msg, command, hs, rfl⟩ := KvServer.popMessageLoop_persist hp
      exact hflow.kv.executing _ (by rw [hs]; rfl)
    obtain ⟨hinv, happlied⟩ := hraft.persistIfAsked hasked
    refine ⟨hinv, m', next, ?_⟩
    show Flow _ ((S.proc.persistIfAsked _).node.appliedIndex) m' next
    rw [happlied]
    exact hloop
  | get command => exact ⟨hraft, m, next, hflow.remote rfl rfl rfl⟩
  | awaitIndex index =>
    obtain ⟨chan, hchan⟩ := S.app.kv.awaitIndex_eq index
    refine ⟨hraft, m, next, hflow.remote ?_ ?_ ?_⟩
    · rw [hchan]
    · rw [hchan]
    · rw [hchan]
  | eraseIndex index => exact ⟨hraft, m, next, hflow.remote rfl rfl rfl⟩

/-- Without overtaking, a server consumes its commands and snapshots in log order. -/
theorem apply_order (boost : Boost) (me : Fin n) (maxRaftStateSize : Int) {S : Server n}
    (h : GuardedRun.Reach (Server.new me maxRaftStateSize) (Server.step boost)
      (fun S input => S.Legal input ∧ S.NoOvertaking input) S) : Ordered S.app.consumed := by
  have hinv : S.Inv := by
    refine GuardedRun.Reach.invariant (P := Server.Inv) (.new me maxRaftStateSize) ?_ h
    intro S input _ hS hok
    exact hS.step hok.1 hok.2
  obtain ⟨_, _, hflow⟩ := hinv.flow
  exact hflow.kv.ordered

/-- A put that a client may have asked for. -/
def somePut : Op := ⟨.put, [107], [118], [99], 1⟩

/-- A follower takes over a snapshot up to 2 and a committed entry at 3. -/
def snapshotThenEntry : List (ServerInput 3) :=
  [ .installSnapshot ⟨0, 1, 2, 1, []⟩,
    .raft (.appendEntries ⟨1, 0, 2, 1, [⟨somePut.dump .text, 1, 3⟩], 3⟩), .take ]

/-- The detached thread pushes the snapshot first, and both are consumed. -/
theorem apply_order_snapshotThenEntry :
    let S := GuardedRun.exec (Server.step .text) (Server.new 1 (-1))
      (snapshotThenEntry ++ [.pushMessage 0, .push, .loop, .loop, .loop, .loop])
    S.app.consumed = [.snapshot 2, .command 3] ∧ Ordered S.app.consumed := by
  intro S
  have hreach : GuardedRun.Reach (Server.new 1 (-1)) (Server.step .text)
      (fun S input => S.Legal input ∧ S.NoOvertaking input) S := .exec .init (by decide +kernel)
  exact ⟨by decide +kernel, apply_order .text 1 (-1) hreach⟩

/-- The applier pushes the command first, and it is consumed although nothing below it was. -/
theorem apply_order_overtaken :
    ¬ ∀ (boost : Boost) (n : ℕ) (me : Fin n) (maxRaftStateSize : Int) (S : Server n),
      GuardedRun.Reach (Server.new me maxRaftStateSize) (Server.step boost) Server.Legal S →
      Ordered S.app.consumed := by
  intro h
  have hreach : GuardedRun.Reach (Server.new (1 : Fin 3) (-1)) (Server.step .text) Server.Legal
      (GuardedRun.exec (Server.step .text) (Server.new 1 (-1))
        (snapshotThenEntry ++ [.push, .loop, .loop])) := .exec .init (by decide +kernel)
  have hconsumed : (GuardedRun.exec (Server.step .text) (Server.new (1 : Fin 3) (-1))
      (snapshotThenEntry ++ [.push, .loop, .loop])).app.consumed = [.command 3] := by decide +kernel
  have hordered := h .text 3 1 (-1) _ hreach
  rw [hconsumed] at hordered
  have hcovered : Covered [] 1 := hordered [] (.command 3) [] rfl 1 (by decide) (by decide)
  rcases hcovered with hmem | ⟨s, hmem, -⟩
  · simp at hmem
  · simp at hmem

end RaftKVStorage
