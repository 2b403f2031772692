import RaftKVStorage.EntryIdentity
import RaftKVStorage.Service

set_option autoImplicit false

/-! # What the service carries

Every command in a log, or on its way to and through a `kvServer`, is that of a put some clerk has
invoked, and every remote call that a clerk waits for carries the command of its call. What is known
of a command once `_L_executeCommand` of node `p` is through with it is a parameter, `done p`. -/

namespace RaftKVStorage

variable {n m : ℕ} {boost : Boost}

/-! ## Clerks -/

namespace Clerk

variable [NeZero n] (c : Clerk n) (call : ClerkCall n)

theorem putLoop_call (reply : Option PutReply) :
    ((c.putLoop call reply).call = none ∨
      ∃ leaderId, (c.putLoop call reply).call = some { call with leaderId := leaderId, rpc := none }) ∧
    (c.putLoop call reply).clientId = c.clientId := by
  unfold putLoop
  split
  · exact ⟨Or.inr ⟨_, rfl⟩, rfl⟩
  · split_ifs
    · exact ⟨Or.inl rfl, rfl⟩
    · exact ⟨Or.inr ⟨_, rfl⟩, rfl⟩
    · exact ⟨Or.inr ⟨_, rfl⟩, rfl⟩

theorem getLoop_call (reply : Option GetReply) :
    ((c.getLoop call reply).call = none ∨
      ∃ leaderId, (c.getLoop call reply).call = some { call with leaderId := leaderId, rpc := none }) ∧
    (c.getLoop call reply).clientId = c.clientId := by
  unfold getLoop
  split
  · exact ⟨Or.inr ⟨_, rfl⟩, rfl⟩
  · split_ifs
    · exact ⟨Or.inr ⟨_, rfl⟩, rfl⟩
    · exact ⟨Or.inl rfl, rfl⟩
    · exact ⟨Or.inl rfl, rfl⟩
    · exact ⟨Or.inr ⟨_, rfl⟩, rfl⟩

/-- The loop ends, or goes on with the same call. -/
theorem loop_call (reply : Option KvReply) :
    ((c.loop call reply).call = none ∨
      ∃ leaderId, (c.loop call reply).call = some { call with leaderId := leaderId, rpc := none }) ∧
    (c.loop call reply).clientId = c.clientId := by
  unfold loop
  split
  · split_ifs
    · exact c.putLoop_call call none
    · exact c.getLoop_call call none
  · exact c.putLoop_call call _
  · exact c.getLoop_call call _

end Clerk

/-! ## The calls in the history -/

/-- The command of a call that is invoked. -/
def ClerkEvent.command? : ClerkEvent n m → Option Op
  | .invoked _ command => some command
  | _ => none

/-- The commands of all calls, in the order in which they were invoked. -/
def Service.invoked (S : Service n m) : List Op := S.history.filterMap ClerkEvent.command?

/-- The commands of all puts, in the order in which they were invoked. -/
def Service.puts (S : Service n m) : List Op := S.invoked.filter (·.operation = .put)

/-- The puts under way. -/
def Service.putsInProgress (S : Service n m) : List Op :=
  (List.finRange m).filterMap fun c =>
    ((S.clerks c).call.map ClerkCall.command).filter (·.operation = .put)

theorem ClerkCall.returned_command? (call : ClerkCall n) (c : Fin m) (reply : Option KvReply) :
    (call.returned c reply).filterMap ClerkEvent.command? = [] := by
  unfold ClerkCall.returned
  split
  · rfl
  · split_ifs <;> rfl
  · split_ifs <;> rfl

theorem Service.mem_invoked {S : Service n m} {x : Op} :
    x ∈ S.invoked ↔ ∃ c, .invoked c x ∈ S.history := by
  simp only [invoked, List.mem_filterMap]
  constructor
  · rintro ⟨event, hmem, hevent⟩
    cases event with
    | invoked c command =>
      obtain rfl := Option.some.inj hevent
      exact ⟨c, hmem⟩
    | putReturned => cases hevent
    | getReturned => cases hevent
  · rintro ⟨c, hmem⟩
    exact ⟨_, hmem, rfl⟩

theorem Service.mem_puts {S : Service n m} {x : Op} :
    x ∈ S.puts ↔ x ∈ S.invoked ∧ x.operation = .put := by
  simp [puts]

theorem Service.mem_putsInProgress {S : Service n m} {x : Op} :
    x ∈ S.putsInProgress ↔
      ∃ c call, (S.clerks c).call = some call ∧ call.command = x ∧ x.operation = .put := by
  simp only [putsInProgress, List.mem_filterMap, List.mem_finRange, true_and]
  constructor
  · rintro ⟨c, hc⟩
    rw [Option.filter_eq_some_iff, Option.map_eq_some_iff] at hc
    obtain ⟨⟨call, hcall, rfl⟩, hput⟩ := hc
    exact ⟨c, call, hcall, rfl, by simpa using hput⟩
  · rintro ⟨c, call, hcall, rfl, hput⟩
    refine ⟨c, ?_⟩
    rw [hcall]
    simp [hput]

/-! ## A server -/

/-- The command of a message is that of a put in `puts`. -/
def ApplyMessage.Traced (boost : Boost) (puts : List Op) (msg : ApplyMessage) : Prop :=
  msg.validCommand = true → ∃ x ∈ puts, msg.command = x.dump boost

/-- A command that `_L_executeCommand` has loaded is a put in `puts`, and it is `done` once the
    duplicate check or `_L_executePutOp` is behind it. -/
def Stage.Traced (boost : Boost) (puts : List Op) (done : Op → Prop) : Stage → Prop
  | .executeCommand msg => ∃ x ∈ puts, msg.command = x.dump boost
  | .executePutOp _ command => command ∈ puts
  | .maySnapshot _ command => command ∈ puts ∧ done command
  | .persist _ command => command ∈ puts ∧ done command
  | .tryPush2Wait _ command => command ∈ puts ∧ done command
  | _ => True

structure App.Traced (boost : Boost) (puts : List Op) (done : Op → Prop) (app : App) : Prop where
  applyMsgs : ∀ msg ∈ app.applyMsgs, msg.Traced boost puts
  pushMessages : ∀ msg ∈ app.pushMessages, msg.Traced boost puts
  applyChan : ∀ msg ∈ app.kv.applyChan, msg.Traced boost puts
  stage : app.kv.stage.Traced boost puts done
  appliedChan : ∀ index que, app.kv.appliedChan index = some que → ∀ x ∈ que, x ∈ puts ∧ done x

section

variable {puts puts' : List Op} {done done' : Op → Prop} {app : App}

theorem ApplyMessage.Traced.mono {msg : ApplyMessage} (h : msg.Traced boost puts)
    (hputs : ∀ x ∈ puts, x ∈ puts') : msg.Traced boost puts' := by
  intro hvalid
  obtain ⟨x, hx, heq⟩ := h hvalid
  exact ⟨x, hputs x hx, heq⟩

theorem Stage.Traced.mono {stage : Stage} (h : stage.Traced boost puts done)
    (hputs : ∀ x ∈ puts, x ∈ puts') (hdone : ∀ x ∈ puts, done x → done' x) :
    stage.Traced boost puts' done' := by
  cases stage with
  | executeCommand msg =>
    obtain ⟨x, hx, heq⟩ := h
    exact ⟨x, hputs x hx, heq⟩
  | executePutOp msg command => exact hputs _ h
  | maySnapshot msg command => exact ⟨hputs _ h.1, hdone _ h.1 h.2⟩
  | persist msg command => exact ⟨hputs _ h.1, hdone _ h.1 h.2⟩
  | tryPush2Wait msg command => exact ⟨hputs _ h.1, hdone _ h.1 h.2⟩
  | pop => trivial
  | installSnapshot msg => trivial
  | terminated => trivial

theorem App.Traced.mono (h : app.Traced boost puts done) (hputs : ∀ x ∈ puts, x ∈ puts')
    (hdone : ∀ x ∈ puts, done x → done' x) : app.Traced boost puts' done' where
  applyMsgs := fun msg hmsg => (h.applyMsgs msg hmsg).mono hputs
  pushMessages := fun msg hmsg => (h.pushMessages msg hmsg).mono hputs
  applyChan := fun msg hmsg => (h.applyChan msg hmsg).mono hputs
  stage := h.stage.mono hputs hdone
  appliedChan := by
    intro index que hque x hx
    obtain ⟨hmem, hx⟩ := h.appliedChan index que hque x hx
    exact ⟨hputs x hmem, hdone x hmem hx⟩

/-- The queue of an index is replaced. -/
theorem forall_queue_update {P : Op → Prop} {chan : Int → Option (List Op)}
    (h : ∀ index que, chan index = some que → ∀ x ∈ que, P x) (index : Int)
    {new : Option (List Op)} (hnew : ∀ que ∈ new, ∀ x ∈ que, P x) :
    ∀ i que, Function.update chan index new i = some que → ∀ x ∈ que, P x := by
  intro i que hque
  by_cases hi : i = index
  · subst hi
    rw [Function.update_self] at hque
    exact hnew que hque
  · rw [Function.update_of_ne hi] at hque
    exact h i que hque

/-- `_L_tryPush2Wait` puts no other command into a queue. -/
theorem forall_queue_tryPush2Wait {P : Op → Prop} {kv : KvServer} {command : Op}
    (h : ∀ index que, kv.appliedChan index = some que → ∀ x ∈ que, P x) (hcommand : P command)
    (index : Int) :
    ∀ i que, (kv.tryPush2Wait command index).appliedChan i = some que → ∀ x ∈ que, P x := by
  unfold KvServer.tryPush2Wait
  cases hque : kv.appliedChan index with
  | none => exact h
  | some que =>
    refine forall_queue_update h index ?_
    rintro _ ⟨rfl⟩ x hx
    rcases List.mem_append.1 hx with hx | hx
    · exact h index que hque x hx
    · obtain rfl := List.mem_singleton.1 hx
      exact hcommand

/-- Only the queues of `_M_appliedChan` change, the data or the request table. -/
theorem App.Traced.setKv (h : app.Traced boost puts done) {kv : KvServer}
    (hchan : kv.applyChan = app.kv.applyChan) (hstage : kv.stage = app.kv.stage)
    (hque : ∀ index que, kv.appliedChan index = some que → ∀ x ∈ que, x ∈ puts ∧ done x) :
    App.Traced boost puts done { app with kv := kv } where
  applyMsgs := h.applyMsgs
  pushMessages := h.pushMessages
  applyChan := hchan ▸ h.applyChan
  stage := hstage ▸ h.stage
  appliedChan := hque

theorem App.Traced.take (h : app.Traced boost puts done) {o : Outcome n (List ApplyMessage)}
    (hret : ∀ msg ∈ o.ret, msg.Traced boost puts) : (app.take o).Traced boost puts done := by
  unfold App.take
  split
  · exact ⟨hret, h.pushMessages, h.applyChan, h.stage, h.appliedChan⟩
  · exact h

theorem App.Traced.push (h : app.Traced boost puts done) : app.push.Traced boost puts done := by
  unfold App.push
  split
  · exact h
  · rename_i msg rest hmsgs
    have hall := h.applyMsgs
    rw [hmsgs] at hall
    refine ⟨fun x hx => hall x (List.mem_cons_of_mem _ hx), h.pushMessages, ?_, h.stage,
      h.appliedChan⟩
    intro x hx
    rcases List.mem_append.1 hx with hx | hx
    · exact h.applyChan x hx
    · obtain rfl := List.mem_singleton.1 hx
      exact hall x List.mem_cons_self

theorem App.Traced.pushMessage (h : app.Traced boost puts done) (k : ℕ) :
    (app.pushMessage k).Traced boost puts done := by
  unfold App.pushMessage
  split
  · exact h
  · rename_i msg hk
    refine ⟨h.applyMsgs, fun x hx => h.pushMessages x (List.mem_of_mem_eraseIdx hx), ?_, h.stage,
      h.appliedChan⟩
    intro x hx
    rcases List.mem_append.1 hx with hx | hx
    · exact h.applyChan x hx
    · obtain rfl := List.mem_singleton.1 hx
      exact h.pushMessages x (List.mem_of_getElem? hk)

theorem App.Traced.detach (h : app.Traced boost puts done) {msg : Option ApplyMessage}
    (hmsg : ∀ x ∈ msg, x.validCommand = false) : (app.detach msg).Traced boost puts done := by
  refine ⟨h.applyMsgs, ?_, h.applyChan, h.stage, h.appliedChan⟩
  intro x hx hvalid
  rcases List.mem_append.1 hx with hx | hx
  · exact h.pushMessages x hx hvalid
  · rw [hmsg x (by simpa using hx)] at hvalid
    cases hvalid

theorem Stage.traced_afterCommand (msg : ApplyMessage) :
    (KvServer.afterCommand msg).Traced boost puts done := by
  unfold KvServer.afterCommand
  split <;> trivial

/-- The duplicate check lets a put in `puts` go on, or finds that it is `done`. -/
theorem Stage.traced_afterCheck {kv : KvServer} {msg : ApplyMessage} {command : Op}
    (hput : command.operation = .put) (hmem : command ∈ puts)
    (hdup : kv.duplicateRequest command.clientId command.requestId = true → done command) :
    (kv.afterCheck msg command).Traced boost puts done := by
  unfold KvServer.afterCheck
  split_ifs with hd
  · exact ⟨hmem, hdup hd⟩
  · exact hmem

/-- `_L_popMessageLoop` gets from one stage to the next. -/
theorem App.Traced.goOn (h : app.Traced boost puts done) {kv : KvServer}
    (hchan : kv.applyChan = app.kv.applyChan) (hstage : kv.stage.Traced boost puts done)
    (hque : kv.appliedChan = app.kv.appliedChan) {consumed : List Delivery.Item} :
    App.Traced boost puts done { app with kv := kv, consumed := consumed } where
  applyMsgs := h.applyMsgs
  pushMessages := h.pushMessages
  applyChan := hchan ▸ h.applyChan
  stage := hstage
  appliedChan := hque ▸ h.appliedChan

/-- One critical section of `_L_popMessageLoop`. -/
theorem App.Traced.loop (h : app.Traced boost puts done) (size : Int)
    (hputs : ∀ x ∈ puts, x.operation = .put)
    (hdone : ∀ x ∈ puts, done x → done' x)
    (hdup : ∀ x ∈ puts, app.kv.duplicateRequest x.clientId x.requestId = true → done x)
    (hput : ∀ x ∈ app.kv.putting, done' x) : (app.loop boost size).Traced boost puts done' := by
  have hold : app.Traced boost puts done' := h.mono (fun _ => id) hdone
  have hstage := h.stage
  unfold App.loop
  cases hs : app.kv.stage with
  | pop =>
    cases hq : app.kv.applyChan with
    | nil =>
      simp only [KvServer.popMessageLoop, hs, hq]
      exact hold.goOn (by rfl) hold.stage (by rfl)
    | cons msg rest =>
      have hall := hold.applyChan
      rw [hq] at hall
      simp only [KvServer.popMessageLoop, hs, hq]
      refine ⟨hold.applyMsgs, hold.pushMessages, fun x hx => hall x (List.mem_cons_of_mem _ hx), ?_,
        hold.appliedChan⟩
      by_cases hvalid : msg.validCommand = true
      · simp only [hvalid, if_true]
        exact hall msg List.mem_cons_self hvalid
      · simp only [hvalid]
        exact Stage.traced_afterCommand msg
  | executeCommand msg =>
    rw [hs] at hstage
    obtain ⟨x, hx, hdump⟩ := hstage
    simp only [KvServer.popMessageLoop, hs]
    split_ifs
    · exact hold.goOn (by rfl) (Stage.traced_afterCommand msg) (by rfl)
    · rw [hdump, Op.load_dump]
      have hcheck : (app.kv.afterCheck msg x).Traced boost puts done' :=
        Stage.traced_afterCheck (hputs x hx) hx fun hd => hdone x hx (hdup x hx hd)
      exact hold.goOn (by rfl) hcheck (by rfl)
  | executePutOp msg command =>
    rw [hs] at hstage
    simp only [KvServer.popMessageLoop, hs]
    refine hold.goOn (by rfl) ?_ (by rfl)
    exact ⟨hstage, hput command (by simp [KvServer.putting, hs])⟩
  | maySnapshot msg command =>
    rw [hs] at hstage
    simp only [KvServer.popMessageLoop, hs]
    refine hold.goOn (by rfl) ?_ (by rfl)
    split_ifs
    · exact ⟨hstage.1, hdone _ hstage.1 hstage.2⟩
    · exact ⟨hstage.1, hdone _ hstage.1 hstage.2⟩
  | persist msg command =>
    rw [hs] at hstage
    simp only [KvServer.popMessageLoop, hs]
    refine hold.goOn (by rfl) ?_ (by rfl)
    exact ⟨hstage.1, hdone _ hstage.1 hstage.2⟩
  | tryPush2Wait msg command =>
    rw [hs] at hstage
    simp only [KvServer.popMessageLoop, hs]
    refine ⟨hold.applyMsgs, hold.pushMessages, ?_, Stage.traced_afterCommand msg,
      forall_queue_tryPush2Wait hold.appliedChan ⟨hstage.1, hdone _ hstage.1 hstage.2⟩ _⟩
    obtain ⟨appliedChan, heq⟩ := app.kv.tryPush2Wait_eq command msg.commandIndex
    rw [heq]
    exact hold.applyChan
  | installSnapshot msg =>
    simp only [KvServer.popMessageLoop, hs, KvServer.installSnapshot]
    cases hload : ({ app.kv with stage := .pop } : KvServer).load boost msg.snapshot with
    | none =>
      refine hold.goOn (by rfl) ?_ (by rfl)
      trivial
    | some kv =>
      obtain ⟨data, lastRequestId, rfl⟩ := KvServer.load_eq hload
      refine hold.goOn (by rfl) ?_ (by rfl)
      trivial
  | terminated =>
    simp only [KvServer.popMessageLoop, hs]
    exact hold.goOn (by rfl) hold.stage (by rfl)

/-- The queue of an index is replaced by one with no other commands. -/
theorem App.Traced.updateQueue (h : app.Traced boost puts done) (index : Int)
    {new : Option (List Op)} (hnew : ∀ que ∈ new, ∀ x ∈ que, x ∈ puts ∧ done x) :
    App.Traced boost puts done { app with kv :=
      { app.kv with appliedChan := Function.update app.kv.appliedChan index new } } :=
  h.setKv rfl rfl (forall_queue_update h.appliedChan index hnew)

theorem App.Traced.awaitIndex (h : app.Traced boost puts done) (index : Int) :
    App.Traced boost puts done { app with kv := app.kv.awaitIndex index } := by
  unfold KvServer.awaitIndex
  split
  · refine h.updateQueue index ?_
    rintro _ ⟨rfl⟩ x hx
    cases hx
  · exact h

end

/-! ## What comes out of a node -/

theorem Node.mem_of_logAt {s : Node n} {i : Int} {e : LogEntry} (h : s.logAt i = some e) :
    e ∈ s.logs := by
  unfold Node.logAt at h
  split_ifs at h
  exact List.mem_of_getElem? h

/-- A command handed out is that of an entry of the log. -/
theorem Node.mem_takeApplyMessages (k : ℕ) : ∀ (s : Node n) {msg : ApplyMessage},
    msg ∈ (s.takeApplyMessages k).ret → ∃ e ∈ s.logs, msg.command = e.command := by
  induction k with
  | zero =>
    intro s msg hmsg
    cases hmsg
  | succ k ih =>
    intro s msg hmsg
    unfold Node.takeApplyMessages at hmsg
    dsimp only at hmsg
    split at hmsg
    · cases hmsg
    · rename_i entry hentry
      rcases List.mem_cons.1 hmsg with rfl | hmsg
      · exact ⟨entry, Node.mem_of_logAt hentry, rfl⟩
      · exact ih { s with appliedIndex := s.appliedIndex + 1 } hmsg

theorem Node.mem_getApplyMessages {s : Node n} {msg : ApplyMessage}
    (h : msg ∈ s.getApplyMessages.ret) : ∃ e ∈ s.logs, msg.command = e.command := by
  unfold Node.getApplyMessages at h
  split_ifs at h
  · cases h
  · cases h
  · exact Node.mem_takeApplyMessages _ s h

/-- A snapshot comes without a command. -/
theorem Node.installSnapshot_message (s : Node n) (args : InstallSnapshotArgs) :
    ∀ msg ∈ (s.installSnapshot args).ret.2, msg.validCommand = false := by
  intro msg hmsg
  unfold Node.installSnapshot at hmsg
  split at hmsg
  · cases hmsg
  · dsimp only at hmsg
    split at hmsg
    · cases hmsg
    · split at hmsg
      · cases hmsg
      · obtain rfl := Option.some.inj hmsg
        rfl

/-! ## The service -/

/-- The thread of a remote call for `command` says `ok` to a put only if it is `done`, and answers a
    get only with a value. -/
def RpcStage.Traced (command : Op) (done : Op → Prop) : RpcStage → Prop
  | .sent => True
  | .executed _ => command.operation = .put
  | .waiting _ => command.operation = .put
  | .replying _ err => command.operation = .put ∧ (err = .ok → done command)
  | .sampled _ => command.operation ≠ .put
  | .waited => command.operation ≠ .put
  | .answered (.put reply) => reply.err = .ok → command.operation = .put ∧ done command
  | .answered (.get reply) => command.operation ≠ .put ∧ reply.err = .ok
  | .unanswered => True

/-- The thread serves one of the calls. -/
def KvRpc.Traced (invoked : List Op) (done : Op → Prop) (rpc : KvRpc n) : Prop :=
  rpc.command ∈ invoked ∧ rpc.stage.Traced rpc.command done

theorem RpcStage.Traced.mono {command : Op} {done done' : Op → Prop} {stage : RpcStage}
    (h : stage.Traced command done)
    (hdone : command.operation = .put → done command → done' command) :
    stage.Traced command done' := by
  cases stage with
  | replying index err => exact ⟨h.1, fun herr => hdone h.1 (h.2 herr)⟩
  | answered reply =>
    cases reply with
    | put reply => exact fun herr => ⟨(h herr).1, hdone (h herr).1 (h herr).2⟩
    | get reply => exact h
  | sent => exact h
  | executed index => exact h
  | waiting index => exact h
  | sampled wait4 => exact h
  | waited => exact h
  | unanswered => exact h

theorem KvRpc.Traced.mono {invoked invoked' : List Op} {done done' : Op → Prop} {rpc : KvRpc n}
    (h : rpc.Traced invoked done) (hinvoked : ∀ x ∈ invoked, x ∈ invoked')
    (hdone : ∀ x ∈ invoked, x.operation = .put → done x → done' x) :
    rpc.Traced invoked' done' :=
  ⟨hinvoked _ h.1, h.2.mono (hdone _ h.1)⟩

namespace Service

structure Traced (boost : Boost) (uuid : Bytes) (done : Fin n → Op → Prop) (S : Service n m) :
    Prop where
  cluster : S.cluster.Reachable
  log : ∀ e, S.cluster.Holds e → ∃ x ∈ S.puts, e.command = x.dump boost
  app : ∀ p, (S.apps p).Traced boost S.puts (done p)
  rpc : ∀ rpc ∈ S.rpcs, rpc.Traced S.invoked (done rpc.server)
  /-- A call in progress knows where it was invoked. -/
  call : ∀ c call, (S.clerks c).call = some call →
    S.history[call.invokedAt]? = some (.invoked c call.command)
  /-- The remote call a clerk waits for is that of its round. -/
  ticket : ∀ c call t, (S.clerks c).call = some call → call.rpc = some t →
    ∃ rpc, S.rpcs[t]? = some rpc ∧ rpc.server = call.leaderId ∧ rpc.command = call.command
  returned : ∀ (b : ℕ) c x a p, S.history[b]? = some (.putReturned c x a p) →
    a < b ∧ S.history[a]? = some (.invoked c x) ∧ x.operation = .put
  executed : ∀ p, ∀ x ∈ S.executed p, x ∈ S.puts
  clerk : ∀ c, (S.clerks c).clientId = uuid
  client : ∀ x ∈ S.invoked, x.clientId = uuid

variable {uuid : Bytes} {done done' : Fin n → Op → Prop} {S : Service n m}

theorem Traced.new [NeZero n] (rand : ℕ → ℕ) (size : Int) (done : Fin n → Op → Prop) :
    (Service.new m rand size : Service n m).Traced boost (clerkUuid rand) done where
  cluster := .init
  log := by
    rintro e ⟨p, hp⟩
    simp [Service.new, Proc.Holds, Cluster.new, Proc.new, Node.new, Node.load, Persister.new] at hp
  app := by
    refine fun p => ⟨?_, ?_, ?_, trivial, ?_⟩
    · rintro msg ⟨⟩
    · rintro msg ⟨⟩
    · rintro msg ⟨⟩
    · rintro index que ⟨⟩
  rpc := by simp [Service.new]
  call := by simp [Service.new, Clerk.new]
  ticket := by simp [Service.new, Clerk.new]
  returned := by simp [Service.new]
  executed := by simp [Service.new]
  clerk := fun c => rfl
  client := by simp [Service.new, Service.invoked]

theorem Traced.mono (h : S.Traced boost uuid done) (hdone : ∀ p, ∀ x ∈ S.puts, done p x → done' p x) :
    S.Traced boost uuid done' :=
  { h with
    app := fun p => (h.app p).mono (fun _ => id) (hdone p)
    rpc := fun rpc hrpc => (h.rpc rpc hrpc).mono (fun _ => id)
      fun x hx hput => hdone _ x (mem_puts.2 ⟨hx, hput⟩) }

/-- The servers do something. -/
theorem Traced.servers (h : S.Traced boost uuid done) {cluster : Cluster n} {apps : Fin n → App}
    {executed : Fin n → List Op} (hcluster : cluster.Reachable)
    (hlog : ∀ e, cluster.Holds e → ∃ x ∈ S.puts, e.command = x.dump boost)
    (happs : ∀ p, (apps p).Traced boost S.puts (done p))
    (hexecuted : ∀ p, ∀ x ∈ executed p, x ∈ S.puts) :
    Traced boost uuid done { S with cluster := cluster, apps := apps, executed := executed } :=
  { h with cluster := hcluster, log := hlog, app := happs, executed := hexecuted }

/-- One server does something. -/
theorem Traced.setApp (h : S.Traced boost uuid done) (p : Fin n) {app : App}
    (happ : app.Traced boost S.puts (done p)) : (S.setApp p app).Traced boost uuid done := by
  refine h.servers h.cluster h.log (fun q => ?_) h.executed
  by_cases hq : q = p
  · subst hq
    rw [Function.update_self]
    exact happ
  · rw [Function.update_of_ne hq]
    exact h.app q

/-- The thread of a remote call moves on. -/
theorem Traced.setStage (h : S.Traced boost uuid done) {t : ℕ} {rpc : KvRpc n}
    (ht : S.rpcs[t]? = some rpc) {stage : RpcStage}
    (hstage : stage.Traced rpc.command (done rpc.server)) :
    (S.setStage t rpc stage).Traced boost uuid done := by
  refine { h with rpc := ?_, ticket := ?_ }
  · intro x hx
    rcases List.mem_or_eq_of_mem_set hx with hx | rfl
    · exact h.rpc x hx
    · exact ⟨(h.rpc rpc (List.mem_of_getElem? ht)).1, hstage⟩
  · intro c call u hcall hu
    obtain ⟨rpc', hrpc', hserver, hcommand⟩ := h.ticket c call u hcall hu
    by_cases htu : t = u
    · subst htu
      obtain rfl : rpc = rpc' := Option.some.inj (ht.symm.trans hrpc')
      refine ⟨{ rpc with stage := stage }, ?_, hserver, hcommand⟩
      exact List.getElem?_set_self (List.getElem?_eq_some_iff.1 ht).1
    · refine ⟨rpc', ?_, hserver, hcommand⟩
      exact (List.getElem?_set_ne htu).trans hrpc'

/-- What was in the history stays where it was. -/
theorem getElem?_history {events : List (ClerkEvent n m)} {a : ℕ} {event : ClerkEvent n m}
    (ha : S.history[a]? = some event) : (S.history ++ events)[a]? = some event := by
  obtain ⟨hlt, -⟩ := List.getElem?_eq_some_iff.1 ha
  rw [List.getElem?_append_left hlt]
  exact ha

/-! ### Steps of a clerk -/

/-- One clerk becomes another. -/
theorem forall_clerk_update {clerks : Fin m → Clerk n} (P : Fin m → Clerk n → Prop)
    (h : ∀ c, P c (clerks c)) (c : Fin m) {clerk : Clerk n} (hnew : P c clerk) (c' : Fin m) :
    P c' (Function.update clerks c clerk c') := by
  by_cases hc : c' = c
  · subst hc
    rw [Function.update_self]
    exact hnew
  · rw [Function.update_of_ne hc]
    exact h c'

theorem Traced.invoke (h : S.Traced boost uuid done) (c : Fin m) (operation : Operation)
    (key value : Bytes) : (S.invoke c operation key value).Traced boost uuid done := by
  unfold Service.invoke
  split
  · exact h
  rename_i hidle
  set command := (S.clerks c).command operation key value with hcommand
  have hinvoked : ∀ x, x ∈ S.invoked → x ∈ S.invoked ++ [command] :=
    fun x hx => List.mem_append_left _ hx
  have hsplit : (S.history ++ [ClerkEvent.invoked c command]).filterMap ClerkEvent.command? =
      S.invoked ++ [command] := List.filterMap_append ..
  have hputs : ∀ x ∈ S.puts, x ∈ (S.invoked ++ [command]).filter (·.operation = .put) := by
    intro x hx
    simp only [puts, List.mem_filter] at hx ⊢
    exact ⟨hinvoked x hx.1, hx.2⟩
  constructor
  · exact h.cluster
  · intro e he
    obtain ⟨x, hx, heq⟩ := h.log e he
    refine ⟨x, ?_, heq⟩
    simp only [puts, Service.invoked, hsplit]
    exact hputs x hx
  · intro p
    simp only [puts, Service.invoked, hsplit]
    exact (h.app p).mono hputs fun _ _ => id
  · intro rpc hrpc
    simp only [Service.invoked, hsplit]
    exact (h.rpc rpc hrpc).mono hinvoked fun _ _ _ => id
  · refine forall_clerk_update (fun c' clerk => ∀ call, clerk.call = some call →
      (S.history ++ [.invoked c command])[call.invokedAt]? = some (.invoked c' call.command))
      (fun c call hcall => getElem?_history (h.call c call hcall)) c ?_
    rintro _ ⟨rfl⟩
    exact List.getElem?_concat_length
  · refine forall_clerk_update (fun _ clerk => ∀ call t, clerk.call = some call →
      call.rpc = some t → ∃ rpc, S.rpcs[t]? = some rpc ∧ rpc.server = call.leaderId ∧
        rpc.command = call.command) h.ticket c ?_
    rintro _ t ⟨rfl⟩ ⟨⟩
  · intro b c' x a p hb
    dsimp only at hb
    rcases lt_or_ge b S.history.length with hlt | hge
    · rw [List.getElem?_append_left hlt] at hb
      obtain ⟨hab, ha, hput⟩ := h.returned b c' x a p hb
      exact ⟨hab, getElem?_history ha, hput⟩
    · rw [List.getElem?_append_right hge] at hb
      have := List.mem_of_getElem? hb
      simp at this
  · intro p x hx
    simp only [puts, Service.invoked, hsplit]
    exact hputs x (h.executed p x hx)
  · exact forall_clerk_update (fun _ clerk => clerk.clientId = uuid) h.clerk c (h.clerk c)
  · intro x hx
    simp only [Service.invoked, hsplit] at hx
    rcases List.mem_append.1 hx with hx | hx
    · exact h.client x hx
    · obtain rfl := List.mem_singleton.1 hx
      exact h.clerk c

theorem Traced.send (h : S.Traced boost uuid done) (c : Fin m) :
    (S.send c).Traced boost uuid done := by
  unfold Service.send
  split
  swap
  · exact h
  rename_i command leaderId invokedAt hcall
  have hat := h.call c _ hcall
  refine { h with rpc := ?_, call := ?_, ticket := ?_, clerk := ?_ }
  · intro rpc hrpc
    rcases List.mem_append.1 hrpc with hrpc | hrpc
    · exact h.rpc rpc hrpc
    · obtain rfl := List.mem_singleton.1 hrpc
      exact ⟨mem_invoked.2 ⟨c, List.mem_of_getElem? hat⟩, trivial⟩
  · refine forall_clerk_update (fun c clerk => ∀ call, clerk.call = some call →
      S.history[call.invokedAt]? = some (.invoked c call.command)) h.call c ?_
    rintro _ ⟨rfl⟩
    exact hat
  · have hold : ∀ c call t, (S.clerks c).call = some call → call.rpc = some t →
        ∃ rpc, (S.rpcs ++ [{ server := leaderId, command := command }])[t]? = some rpc ∧
          rpc.server = call.leaderId ∧ rpc.command = call.command := by
      intro c' call t hcall ht
      obtain ⟨rpc, hrpc, hserver⟩ := h.ticket c' call t hcall ht
      refine ⟨rpc, ?_, hserver⟩
      rw [List.getElem?_append_left (List.getElem?_eq_some_iff.1 hrpc).1]
      exact hrpc
    refine forall_clerk_update (fun _ clerk => ∀ call t, clerk.call = some call →
      call.rpc = some t → ∃ rpc, (S.rpcs ++ [{ server := leaderId, command := command }])[t]? =
        some rpc ∧ rpc.server = call.leaderId ∧ rpc.command = call.command) hold c ?_
    rintro _ _ ⟨rfl⟩ ⟨rfl⟩
    exact ⟨_, List.getElem?_concat_length, rfl, rfl⟩
  · exact forall_clerk_update (fun _ clerk => clerk.clientId = uuid) h.clerk c (h.clerk c)

/-- Only a reply that says `ok` ends a put. -/
theorem mem_returned {call : ClerkCall n} {c c' : Fin m} {reply : Option KvReply} {x : Op} {a : ℕ}
    {p : Fin n} (h : .putReturned c' x a p ∈ call.returned c reply) :
    c' = c ∧ x = call.command ∧ a = call.invokedAt ∧ p = call.leaderId ∧
      ∃ r, reply = some (.put r) ∧ r.err = .ok := by
  unfold ClerkCall.returned at h
  split at h
  · cases h
  · rename_i r
    split_ifs at h with herr
    · obtain ⟨rfl, rfl, rfl, rfl⟩ := ClerkEvent.putReturned.inj (List.mem_singleton.1 h)
      exact ⟨rfl, rfl, rfl, rfl, r, rfl, herr⟩
    · cases h
  · split_ifs at h
    · cases List.mem_singleton.1 h
    · cases List.mem_singleton.1 h
    · cases h

theorem Traced.resume [NeZero n] (h : S.Traced boost uuid done) (c : Fin m)
    {reply : Op → Option KvReply}
    (hreply : ∀ call, (S.clerks c).call = some call → ∀ r, reply call.command = some (.put r) →
      r.err = .ok → call.command.operation = .put) : (S.resume c reply).Traced boost uuid done := by
  unfold Service.resume
  split
  swap
  · exact h
  rename_i command leaderId t invokedAt hcall
  obtain ⟨hloop, hclient⟩ := (S.clerks c).loop_call ⟨command, leaderId, some t, invokedAt⟩
    (reply command)
  have hat := h.call c _ hcall
  have hinvoked : (S.history ++ ClerkCall.returned ⟨command, leaderId, some t, invokedAt⟩ c
      (reply command)).filterMap ClerkEvent.command? = S.invoked := by
    rw [List.filterMap_append, ClerkCall.returned_command?, List.append_nil, Service.invoked]
  constructor
  · exact h.cluster
  · simp only [puts, Service.invoked, hinvoked]
    exact h.log
  · simp only [puts, Service.invoked, hinvoked]
    exact h.app
  · simp only [Service.invoked, hinvoked]
    exact h.rpc
  · refine forall_clerk_update (fun c' clerk => ∀ call, clerk.call = some call →
      (S.history ++ ClerkCall.returned ⟨command, leaderId, some t, invokedAt⟩ c (reply command))[
        call.invokedAt]? = some (.invoked c' call.command))
      (fun c call hcall => getElem?_history (h.call c call hcall)) c ?_
    rcases hloop with hnone | ⟨leaderId', hsome⟩
    · rw [hnone]
      rintro _ ⟨⟩
    · rw [hsome]
      rintro _ ⟨rfl⟩
      exact getElem?_history hat
  · refine forall_clerk_update (fun _ clerk => ∀ call t, clerk.call = some call →
      call.rpc = some t → ∃ rpc, S.rpcs[t]? = some rpc ∧ rpc.server = call.leaderId ∧
        rpc.command = call.command) h.ticket c ?_
    rcases hloop with hnone | ⟨leaderId', hsome⟩
    · rw [hnone]
      rintro _ u ⟨⟩
    · rw [hsome]
      rintro _ u ⟨rfl⟩ ⟨⟩
  · intro b c' x a p hb
    dsimp only at hb
    rcases lt_or_ge b S.history.length with hlt | hge
    · rw [List.getElem?_append_left hlt] at hb
      obtain ⟨hab, ha, hput⟩ := h.returned b c' x a p hb
      exact ⟨hab, getElem?_history ha, hput⟩
    · rw [List.getElem?_append_right hge] at hb
      have hlt := (List.getElem?_eq_some_iff.1 hat).1
      obtain ⟨rfl, rfl, rfl, rfl, r, hr, herr⟩ := mem_returned (List.mem_of_getElem? hb)
      exact ⟨hlt.trans_le hge, getElem?_history hat, hreply _ hcall r hr herr⟩
  · simp only [puts, Service.invoked, hinvoked]
    exact h.executed
  · exact forall_clerk_update (fun _ clerk => clerk.clientId = uuid) h.clerk c
      (hclient.trans (h.clerk c))
  · simp only [Service.invoked, hinvoked]
    exact h.client

/-! ### Steps of the servers -/

theorem Traced.operation_eq_put (h : S.Traced boost uuid done) {x : Op} (hx : x ∈ S.puts) :
    x.operation = .put ∧ x.clientId = uuid :=
  ⟨(mem_puts.1 hx).2, h.client x (mem_puts.1 hx).1⟩

/-- The commands in the logs stay those of puts if those that are executed are. -/
theorem Traced.holds_step (h : S.Traced boost uuid done) {a : Action n}
    (hexecute : ∀ p command, a = .execute p command → ∃ x ∈ S.puts, command = x.dump boost) :
    (S.cluster.step a).Reachable ∧
      ∀ e, (S.cluster.step a).Holds e → ∃ x ∈ S.puts, e.command = x.dump boost := by
  refine ⟨.step a h.cluster trivial, fun e he => ?_⟩
  rcases h.cluster.step_holds he with hold | ⟨p, ha⟩
  · exact h.log e hold
  · exact hexecute p e.command ha

theorem Traced.raft (h : S.Traced boost uuid done) {a : Action n} (ha : ¬ a.ForApp) :
    Traced boost uuid done { S with cluster := S.cluster.step a } := by
  obtain ⟨hcluster, hlog⟩ := h.holds_step (a := a) (by
    rintro p command rfl
    exact absurd trivial ha)
  exact h.servers hcluster hlog h.app h.executed

theorem Traced.take (h : S.Traced boost uuid done) (p : Fin n) :
    (S.take p).Traced boost uuid done := by
  unfold Service.take
  split
  swap
  · exact h
  obtain ⟨hcluster, hlog⟩ := h.holds_step (a := .getApplyMessages p) (by simp)
  have happ : (S.setApp p ((S.apps p).take
      (S.cluster.procs p).node.getApplyMessages)).Traced boost uuid done := by
    refine h.setApp p ((h.app p).take fun msg hmsg _ => ?_)
    obtain ⟨e, he, heq⟩ := Node.mem_getApplyMessages hmsg
    obtain ⟨x, hx, hcommand⟩ := h.log e ⟨p, Or.inl he⟩
    exact ⟨x, hx, heq.trans hcommand⟩
  exact happ.servers hcluster hlog happ.app happ.executed

theorem Traced.deliverSnapshot (h : S.Traced boost uuid done) (p : Fin n) (k : ℕ) :
    (S.deliverSnapshot p k).Traced boost uuid done := by
  obtain ⟨hcluster, hlog⟩ := h.holds_step (a := .deliverSnapshot p k) (by simp)
  unfold Service.deliverSnapshot
  split
  · rename_i server args hcall
    have happ := h.setApp server ((h.app server).detach
      ((S.cluster.procs server).node.installSnapshot_message args))
    exact h.servers hcluster hlog happ.app h.executed
  · exact h.servers hcluster hlog h.app h.executed

/-- A critical section of `_L_popMessageLoop`. What it executes is `done` behind it. -/
theorem Traced.loop (h : S.Traced boost uuid done) (p : Fin n)
    (hdup : ∀ x ∈ S.puts, (S.apps p).kv.duplicateRequest x.clientId x.requestId = true → done p x)
    (hdone : ∀ q, ∀ x ∈ S.puts, done q x → done' q x)
    (hput : ∀ x ∈ (S.apps p).kv.putting, done' p x) : (S.loop boost p).Traced boost uuid done' := by
  have hmono := h.mono hdone
  have happ := (h.app p).loop ((S.cluster.procs p).node.getRaftStateSize boost)
    (fun x hx => (h.operation_eq_put hx).1) (hdone p) hdup hput
  have hset := hmono.setApp p happ
  obtain ⟨hreach, hlog⟩ : (S.loop boost p).cluster.Reachable ∧
      ∀ e, (S.loop boost p).cluster.Holds e → ∃ x ∈ S.puts, e.command = x.dump boost := by
    unfold Service.loop
    dsimp only
    split
    · exact ⟨h.cluster, h.log⟩
    · exact h.holds_step (by simp)
  refine hset.servers hreach hlog hset.app fun q x hx => ?_
  by_cases hq : q = p
  · subst hq
    rw [Function.update_self] at hx
    rcases List.mem_append.1 hx with hx | hx
    · exact h.executed q x hx
    · have hstage := (h.app q).stage
      unfold KvServer.putting at hx
      split at hx
      · rename_i msg command hs
        rw [hs] at hstage
        obtain rfl := List.mem_singleton.1 hx
        exact hstage
      · cases hx
  · rw [Function.update_of_ne hq] at hx
    exact h.executed q x hx

/-! ### Steps of a remote call -/

/-- Two puts never share a request id, and a request table turns a put down only if it is `done`. -/
structure Tells (S : Service n m) (done : Fin n → Op → Prop) : Prop where
  unique : ∀ x ∈ S.puts, ∀ y ∈ S.puts, x.requestId = y.requestId → x = y
  duplicate : ∀ p, ∀ x ∈ S.puts,
    (S.apps p).kv.duplicateRequest x.clientId x.requestId = true → done p x

theorem Traced.mem_puts_of_rpc (h : S.Traced boost uuid done) {rpc : KvRpc n} (hrpc : rpc ∈ S.rpcs)
    (hput : rpc.command.operation = .put) : rpc.command ∈ S.puts :=
  mem_puts.2 ⟨(h.rpc rpc hrpc).1, hput⟩

/-- The server does something for a remote call, which moves on. -/
theorem Traced.serveApp (h : S.Traced boost uuid done) {t : ℕ} {rpc : KvRpc n}
    (ht : S.rpcs[t]? = some rpc) {kv : KvServer} {stage : RpcStage}
    (hkv : App.Traced boost S.puts (done rpc.server) { S.apps rpc.server with kv := kv })
    (hstage : stage.Traced rpc.command (done rpc.server)) :
    ((S.setKv rpc.server kv).setStage t rpc stage).Traced boost uuid done := by
  have happ : (S.setKv rpc.server kv).Traced boost uuid done := h.setApp rpc.server hkv
  exact happ.setStage ht hstage

theorem Traced.serve (h : S.Traced boost uuid done) (htells : S.Tells done) (t : ℕ) :
    (S.serve boost t).Traced boost uuid done := by
  unfold Service.serve
  split
  · exact h
  rename_i rpc ht
  have hrpc := List.mem_of_getElem? ht
  have hserved := (h.rpc rpc hrpc).2
  dsimp only
  split
  all_goals
    rename_i hs
    rw [hs] at hserved
  · -- `_L_put` calls `raft::execute`, `_L_get` enters `waitApplied`
    by_cases hput : rpc.command.operation = .put
    · rw [if_pos hput]
      obtain ⟨hcluster, hlog⟩ := h.holds_step
        (a := .execute rpc.server (rpc.command.dump boost)) (by
          rintro p command heq
          obtain ⟨rfl, rfl⟩ := Action.execute.inj heq
          exact ⟨rpc.command, h.mem_puts_of_rpc hrpc hput, rfl⟩)
      split_ifs
      · have hset : (S.setStage t rpc (.answered (.put { err := .wrongLeader }))).Traced boost uuid
            done := h.setStage ht (by rintro ⟨⟩)
        exact hset.servers hcluster hlog hset.app hset.executed
      · have hset : (S.setStage t rpc (.executed
            ((S.cluster.procs rpc.server).node.execute (rpc.command.dump boost)).2.1)).Traced boost
            uuid done := h.setStage ht hput
        exact hset.servers hcluster hlog hset.app hset.executed
    · rw [if_neg hput]
      exact h.setStage ht hput
  · exact h.serveApp ht ((h.app rpc.server).awaitIndex _) hserved
  · rename_i index
    split
    swap
    · exact h
    rename_i raftCommitOp rest hque
    have hold := (h.app rpc.server).appliedChan index _ hque
    refine h.serveApp ht ((h.app rpc.server).updateQueue index ?_) ⟨hserved, fun hok => ?_⟩
    · rintro _ ⟨rfl⟩ x hx
      exact hold x (List.mem_cons_of_mem _ hx)
    · obtain ⟨hpopped, hdone⟩ := hold raftCommitOp List.mem_cons_self
      unfold KvServer.replyToPopped at hok
      split_ifs at hok with hsame
      rw [← htells.unique raftCommitOp hpopped rpc.command (h.mem_puts_of_rpc hrpc hserved) hsame.2]
      exact hdone
  · refine h.serveApp ht ((h.app rpc.server).updateQueue _ ?_) fun hok => ?_
    · rintro _ ⟨⟩
    · exact ⟨hserved.1, hserved.2 hok⟩
  · split_ifs
    · exact h.setStage ht hserved
    · exact h
  · have hkv : App.Traced boost S.puts (done rpc.server) { S.apps rpc.server with
        kv := ((S.apps rpc.server).kv.executeGetOp rpc.command).1 } :=
      (h.app rpc.server).setKv rfl rfl (h.app rpc.server).appliedChan
    refine h.serveApp ht hkv ?_
    split
    · trivial
    · exact ⟨hserved, rfl⟩
  · exact h
  · exact h

theorem Traced.timeout (h : S.Traced boost uuid done) (htells : S.Tells done) (t : ℕ) :
    (S.timeout t).Traced boost uuid done := by
  unfold Service.timeout
  split
  · exact h
  rename_i rpc ht
  have hrpc := List.mem_of_getElem? ht
  have hserved := (h.rpc rpc hrpc).2
  split
  · rename_i hs
    rw [hs] at hserved
    refine h.setStage ht ⟨hserved, fun hok => ?_⟩
    unfold KvServer.replyToTimeout at hok
    split_ifs at hok with hdup
    exact htells.duplicate rpc.server _ (h.mem_puts_of_rpc hrpc hserved) hdup
  · rename_i hs
    rw [hs] at hserved
    refine h.setStage ht ?_
    split_ifs
    · exact hserved
    · trivial
  · exact h

/-- Clerk `c` receives a reply. -/
theorem Traced.receive [NeZero n] (h : S.Traced boost uuid done) (c : Fin m) :
    (S.receive c).Traced boost uuid done := by
  unfold Service.receive
  split
  · exact h
  rename_i t ht
  split
  swap
  · exact h
  rename_i server command reply hrpc
  refine h.resume c ?_
  rintro call hcall r hr hok
  have hcallrpc : call.rpc = some t := by
    rw [hcall] at ht
    exact ht
  obtain ⟨rpc, hrpc', -, hcommand⟩ := h.ticket c call t hcall hcallrpc
  obtain rfl := Option.some.inj (hrpc.symm.trans hrpc')
  obtain ⟨-, hanswer⟩ := h.rpc _ (List.mem_of_getElem? hrpc)
  obtain rfl := Option.some.inj hr
  rw [← hcommand]
  exact (hanswer hok).1

end Service

end RaftKVStorage
