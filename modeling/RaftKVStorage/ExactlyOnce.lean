import RaftKVStorage.ServiceTrace

set_option autoImplicit false

/-! # Puts that are executed once

Every clerk process draws the same `_M_uuid`, so all clerks share one entry in the request tables, and
gets and snapshots write there as well. As long as puts come with numbers above those in progress and
on record, and what is written to a table leaves it true, a put that returns was executed at the server
that said so, and nowhere twice. -/

namespace RaftKVStorage

variable {n m : ℕ} {boost : Boost}

namespace Service

/-- A put that has returned was executed at the server that acknowledged it, and no server has
    executed a command twice. -/
structure ExactlyOnce (S : Service n m) : Prop where
  acknowledged : ∀ c x a p, .putReturned c x a p ∈ S.history → x ∈ S.executed p
  once : ∀ p, (S.executed p).Nodup

/-! ## The guard -/

/-- A request table that tells what a server has executed: no number of these is above the one on
    record, and that of a put in progress is, unless it is among them. -/
def Records (S : Service n m) (executed : List Op) (table : RequestTable) : Prop :=
  (∀ x ∈ executed, ∃ last ∈ table.lookup x.clientId, x.requestId ≤ last) ∧
    ∀ x ∈ S.putsInProgress, x ∉ executed → ∀ last ∈ table.lookup x.clientId, last < x.requestId

/-- A put starts with a number above those of the puts in progress, and no server turns it down. -/
def NewPut (S : Service n m) : ServiceAction n m → Prop
  | .put c key value =>
      (S.clerks c).call.isSome ∨
        (∀ x ∈ S.putsInProgress,
          x.requestId < ((S.clerks c).command .put key value).requestId) ∧
        ∀ p, (S.apps p).kv.duplicateRequest
          (S.clerks c).clientId ((S.clerks c).command .put key value).requestId = false
  | _ => True

/-- What `_L_executePutOp`, a get that has waited or a snapshot makes of the request table of a server,
    and what the server has executed then. -/
def rewritten (boost : Boost) (S : Service n m) : ServiceAction n m → Option (List Op × RequestTable)
  | .serve t =>
      match S.rpcs[t]? with
      | some ⟨p, command, .waited⟩ =>
          some (S.executed p,
            (S.apps p).kv.lastRequestId.insert command.clientId command.requestId)
      | _ => none
  | .loop p =>
      match (S.apps p).kv.stage with
      | .executePutOp _ command =>
          some (S.executed p ++ [command],
            (S.apps p).kv.lastRequestId.insert command.clientId command.requestId)
      | .installSnapshot msg =>
          ((S.apps p).kv.load boost msg.snapshot).map fun kv => (S.executed p, kv.lastRequestId)
      | _ => none
  | _ => none

/-- Puts come with ascending numbers, and nothing that is written to a request table misleads the
    duplicate check. -/
def Orderly (boost : Boost) (S : Service n m) (a : ServiceAction n m) : Prop :=
  S.NewPut a ∧ ∀ w ∈ S.rewritten boost a, S.Records w.1 w.2

instance Records.decidable (S : Service n m) (executed : List Op) (table : RequestTable) :
    Decidable (S.Records executed table) :=
  inferInstanceAs (Decidable (_ ∧ _))

instance NewPut.decidable (S : Service n m) : (a : ServiceAction n m) → Decidable (S.NewPut a)
  | .put _ _ _ => inferInstanceAs (Decidable (_ ∨ _))
  | .raft _ | .take _ | .push _ | .pushMessage _ _ | .deliverSnapshot _ _ | .loop _ | .get _ _
  | .send _ | .fail _ | .empty _ | .receive _ | .serve _ | .timeout _ => .isTrue trivial

instance Orderly.decidable (boost : Boost) (S : Service n m) (a : ServiceAction n m) :
    Decidable (S.Orderly boost a) :=
  inferInstanceAs (Decidable (_ ∧ _))

/-- What is known of a command behind the duplicate check of server `p`: it was executed there, or
    its call is over. -/
def Done (S : Service n m) (p : Fin n) (x : Op) : Prop := x ∈ S.executed p ∨ x ∉ S.putsInProgress

end Service

/-! ## A critical section of `_L_popMessageLoop` -/

theorem KvServer.duplicateRequest_iff {kv : KvServer} {client : Bytes} {id : Int} :
    kv.duplicateRequest client id = true ↔
      ∃ last, kv.lastRequestId.lookup client = some last ∧ id ≤ last := by
  unfold KvServer.duplicateRequest
  cases kv.lastRequestId.lookup client with
  | none => simp
  | some last => simp

/-- `_L_popMessageLoop` writes to the request table in `_L_executePutOp` and when it loads a snapshot,
    and comes to `_L_executePutOp` with a command that is not turned down. -/
theorem KvServer.popMessageLoop_cases (boost : Boost) (kv : KvServer) (size : Int) :
    (∃ msg command, kv.stage = .executePutOp msg command ∧ kv.putting = [command] ∧
      (kv.popMessageLoop boost size).1 =
        { kv.executePutOp command with stage := .maySnapshot msg command }) ∨
    (∃ msg kv', kv.stage = .installSnapshot msg ∧ kv.putting = [] ∧
      kv.load boost msg.snapshot = some kv' ∧
      (kv.popMessageLoop boost size).1.stage = .pop ∧
      (kv.popMessageLoop boost size).1.lastRequestId = kv'.lastRequestId ∧
      (kv.popMessageLoop boost size).1.data = kv'.data) ∨
    (kv.putting = [] ∧ (kv.popMessageLoop boost size).1.lastRequestId = kv.lastRequestId ∧
      (kv.popMessageLoop boost size).1.data = kv.data ∧
      ∀ msg command, (kv.popMessageLoop boost size).1.stage = .executePutOp msg command →
        kv.duplicateRequest command.clientId command.requestId = false) := by
  have hafter : ∀ msg msg' command, KvServer.afterCommand msg ≠ .executePutOp msg' command := by
    intro msg msg' command
    unfold KvServer.afterCommand
    split <;> simp
  unfold KvServer.putting KvServer.popMessageLoop
  cases hs : kv.stage with
  | pop =>
    right
    right
    cases hq : kv.applyChan with
    | nil => exact ⟨rfl, rfl, rfl, fun msg command h => by simp [hs] at h⟩
    | cons msg rest =>
      refine ⟨rfl, rfl, rfl, fun msg' command h => ?_⟩
      dsimp only at h
      split_ifs at h
      exact absurd h (hafter _ _ _)
  | executeCommand msg =>
    right
    right
    dsimp only
    split_ifs
    · exact ⟨rfl, rfl, rfl, fun msg' command h => absurd h (hafter _ _ _)⟩
    · cases hload : Op.load boost msg.command with
      | none => exact ⟨rfl, rfl, rfl, fun msg' command h => by cases h⟩
      | some command =>
        refine ⟨rfl, rfl, rfl, fun msg' command' h => ?_⟩
        dsimp only [KvServer.afterCheck] at h
        split_ifs at h with hdup hput
        obtain ⟨rfl, rfl⟩ := Stage.executePutOp.inj h
        exact Bool.eq_false_iff.2 hdup
  | executePutOp msg command => exact Or.inl ⟨msg, command, rfl, rfl, rfl⟩
  | maySnapshot msg command =>
    right
    right
    refine ⟨rfl, rfl, rfl, fun msg' command' h => ?_⟩
    dsimp only at h
    split_ifs at h
  | persist msg command => exact Or.inr (Or.inr ⟨rfl, rfl, rfl, fun _ _ h => by cases h⟩)
  | tryPush2Wait msg command =>
    right
    right
    obtain ⟨appliedChan, heq⟩ := kv.tryPush2Wait_eq command msg.commandIndex
    dsimp only
    rw [heq]
    exact ⟨rfl, rfl, rfl, fun msg' command' h => absurd h (hafter _ _ _)⟩
  | installSnapshot msg =>
    right
    dsimp only [KvServer.installSnapshot]
    rw [KvServer.load_stage]
    cases hload : kv.load boost msg.snapshot with
    | none => exact Or.inr ⟨rfl, rfl, rfl, fun _ _ h => by cases h⟩
    | some kv' => exact Or.inl ⟨msg, kv', rfl, rfl, hload, rfl, rfl, rfl⟩
  | terminated => exact Or.inr (Or.inr ⟨rfl, rfl, rfl, fun _ _ h => by simp [hs] at h⟩)

/-- The request table of a server turns down what it has executed, and no put in progress besides;
    `_L_executePutOp` is only run with a command newer than all of these. -/
structure KvServer.Tallies (kv : KvServer) (inProgress executed : List Op) : Prop where
  once : executed.Nodup
  recorded : ∀ x ∈ executed, kv.duplicateRequest x.clientId x.requestId = true
  fresh : ∀ msg command, kv.stage = .executePutOp msg command →
    ∀ x ∈ executed, x.requestId < command.requestId
  current : ∀ x ∈ inProgress, kv.duplicateRequest x.clientId x.requestId = true → x ∈ executed

namespace KvServer

variable {kv kv' : KvServer} {inProgress executed : List Op}

theorem duplicateRequest_congr (h : kv'.lastRequestId = kv.lastRequestId) (client : Bytes)
    (id : Int) : kv'.duplicateRequest client id = kv.duplicateRequest client id := by
  unfold duplicateRequest
  rw [h]

theorem duplicateRequest_setStage (kv : KvServer) (stage : Stage) (client : Bytes) (id : Int) :
    ({ kv with stage := stage } : KvServer).duplicateRequest client id =
      kv.duplicateRequest client id := rfl

/-- After `_L_executePutOp` the number of the command is the one on record for its client. -/
theorem duplicateRequest_executePutOp (kv : KvServer) {command : Op} {client : Bytes} {id : Int}
    (hclient : command.clientId = client) :
    (kv.executePutOp command).duplicateRequest client id = true ↔ id ≤ command.requestId := by
  rw [duplicateRequest_iff, ← hclient]
  simp [executePutOp]

theorem Tallies.congr (h : kv.Tallies inProgress executed)
    (htable : kv'.lastRequestId = kv.lastRequestId) (hstage : kv'.stage = kv.stage) :
    kv'.Tallies inProgress executed where
  once := h.once
  recorded := fun x hx => (duplicateRequest_congr htable _ _).trans (h.recorded x hx)
  fresh := hstage ▸ h.fresh
  current := fun x hx hdup => h.current x hx ((duplicateRequest_congr htable _ _).symm.trans hdup)

/-- Calls come to an end. -/
theorem Tallies.mono (h : kv.Tallies inProgress executed) {inProgress' : List Op}
    (hsub : ∀ x ∈ inProgress', x ∈ inProgress) : kv.Tallies inProgress' executed :=
  { h with current := fun x hx => h.current x (hsub x hx) }

/-- Something else writes to the request table. -/
theorem Tallies.rewrite (h : kv.Tallies inProgress executed) (hstage : kv'.stage = kv.stage)
    (hrecorded : ∀ x ∈ executed, ∃ last ∈ kv'.lastRequestId.lookup x.clientId, x.requestId ≤ last)
    (hcurrent : ∀ x ∈ inProgress, x ∉ executed →
      ∀ last ∈ kv'.lastRequestId.lookup x.clientId, last < x.requestId) :
    kv'.Tallies inProgress executed where
  once := h.once
  recorded := fun x hx => duplicateRequest_iff.2 (hrecorded x hx)
  fresh := hstage ▸ h.fresh
  current := by
    intro x hx hdup
    obtain ⟨last, hlast, hle⟩ := duplicateRequest_iff.1 hdup
    by_contra hnot
    exact absurd (hcurrent x hx hnot last hlast) (not_lt.2 hle)

/-- What is executed next is the command of `_L_executePutOp`. -/
theorem mem_putting {x : Op} (h : x ∈ kv.putting) : ∃ msg, kv.stage = .executePutOp msg x := by
  unfold putting at h
  split at h
  · rename_i msg command hs
    obtain rfl := List.mem_singleton.1 h
    exact ⟨msg, hs⟩
  · cases h

/-- A critical section of `_L_popMessageLoop`. No put in progress that the server has yet to execute is
    older than what it executes, and a snapshot leaves the request table true. -/
theorem Tallies.loop (h : kv.Tallies inProgress executed) {uuid : Bytes} (size : Int)
    (hexecuted : ∀ x ∈ executed, x.clientId = uuid)
    (hprogress : ∀ x ∈ inProgress, x.clientId = uuid)
    (hputting : ∀ x ∈ kv.putting, x.clientId = uuid ∧
      ∀ y ∈ inProgress, y.requestId ≤ x.requestId → y ∈ executed ++ [x])
    (hload : ∀ msg kv', kv.stage = .installSnapshot msg → kv.load boost msg.snapshot = some kv' →
      (∀ x ∈ executed, ∃ last ∈ kv'.lastRequestId.lookup x.clientId, x.requestId ≤ last) ∧
        ∀ x ∈ inProgress, x ∉ executed →
          ∀ last ∈ kv'.lastRequestId.lookup x.clientId, last < x.requestId)
    (hnext : ∀ msg command, (kv.popMessageLoop boost size).1.stage = .executePutOp msg command →
      command.clientId = uuid) :
    (kv.popMessageLoop boost size).1.Tallies inProgress (executed ++ kv.putting) := by
  obtain ⟨msg, command, hs, hput, heq⟩ | ⟨msg, kv', hs, hput, hkv', hstage, htable, -⟩ |
    ⟨hput, htable, -, hcheck⟩ := kv.popMessageLoop_cases boost size
  · -- `_L_executePutOp`
    rw [hput] at hputting
    rw [heq, hput]
    obtain ⟨hclient, horder⟩ := hputting command (List.mem_singleton_self command)
    have hfresh := h.fresh msg command hs
    constructor
    · refine List.nodup_append.2 ⟨h.once, List.nodup_singleton command, ?_⟩
      rintro x hx y hy rfl
      obtain rfl := List.mem_singleton.1 hy
      exact lt_irrefl _ (hfresh x hx)
    · intro x hx
      rw [duplicateRequest_setStage]
      rcases List.mem_append.1 hx with hx | hx
      · exact (kv.duplicateRequest_executePutOp (hclient.trans (hexecuted x hx).symm)).2
          (hfresh x hx).le
      · obtain rfl := List.mem_singleton.1 hx
        exact (kv.duplicateRequest_executePutOp rfl).2 le_rfl
    · rintro msg' command' ⟨⟩
    · intro x hx hdup
      rw [duplicateRequest_setStage,
        kv.duplicateRequest_executePutOp (hclient.trans (hprogress x hx).symm)] at hdup
      exact horder x hx hdup
  · -- a snapshot is loaded
    obtain ⟨hrecorded, hcurrent⟩ := hload msg kv' hs hkv'
    rw [hput, List.append_nil]
    rw [← htable] at hrecorded hcurrent
    constructor
    · exact h.once
    · exact fun x hx => duplicateRequest_iff.2 (hrecorded x hx)
    · rw [hstage]
      rintro msg' command' ⟨⟩
    · intro x hx hdup
      obtain ⟨last, hlast, hle⟩ := duplicateRequest_iff.1 hdup
      by_contra hnot
      exact absurd (hcurrent x hx hnot last hlast) (not_lt.2 hle)
  · -- the request table stays as it is
    rw [hput, List.append_nil]
    constructor
    · exact h.once
    · intro x hx
      rw [duplicateRequest_congr htable]
      exact h.recorded x hx
    · intro msg' command' hs x hx
      have hpass := hcheck msg' command' hs
      have hclient := hnext msg' command' hs
      obtain ⟨last, hlast, hle⟩ := duplicateRequest_iff.1 (h.recorded x hx)
      rw [hexecuted x hx, ← hclient] at hlast
      refine hle.trans_lt (lt_of_not_ge fun hge => ?_)
      rw [duplicateRequest_iff.2 ⟨last, hlast, hge⟩] at hpass
      cases hpass
    · intro x hx hdup
      rw [duplicateRequest_congr htable] at hdup
      exact h.current x hx hdup

end KvServer

/-! ## The invariant -/

namespace Service

/-- Puts come with ascending numbers; those that are not in progress have returned, and were executed at
    the server that acknowledged them. -/
structure OnceInv (boost : Boost) (uuid : Bytes) (S : Service n m) : Prop where
  traced : S.Traced boost uuid S.Done
  ascending : S.puts.Pairwise fun x y => x.requestId < y.requestId
  finished : ∀ x ∈ S.puts, x ∈ S.putsInProgress ∨ ∃ c a p, .putReturned c x a p ∈ S.history
  answered : ∀ c x a p, .putReturned c x a p ∈ S.history → x ∈ S.executed p
  tallies : ∀ p, (S.apps p).kv.Tallies S.putsInProgress (S.executed p)

variable {uuid : Bytes} {S S' : Service n m}

theorem OnceInv.new [NeZero n] (rand : ℕ → ℕ) (size : Int) :
    (Service.new m rand size : Service n m).OnceInv boost (clerkUuid rand) where
  traced := .new rand size _
  ascending := by simp [Service.new, puts, invoked]
  finished := by simp [Service.new, puts, invoked]
  answered := by simp [Service.new]
  tallies := fun p => by
    refine ⟨List.nodup_nil, by simp [Service.new], ?_, ?_⟩
    · rintro msg command ⟨⟩
    · simp [Service.new, Server.new, KvServer.duplicateRequest]

/-- A put in progress has been invoked. -/
theorem Traced.mem_puts_of_inProgress {done : Fin n → Op → Prop} (h : S.Traced boost uuid done)
    {x : Op} (hx : x ∈ S.putsInProgress) : x ∈ S.puts := by
  obtain ⟨c, call, hcall, rfl, hput⟩ := mem_putsInProgress.1 hx
  exact mem_puts.2 ⟨mem_invoked.2 ⟨c, List.mem_of_getElem? (h.call c call hcall)⟩, hput⟩

/-- Two puts with one number are one put. -/
theorem OnceInv.eq_of_requestId (h : S.OnceInv boost uuid) {x y : Op} (hx : x ∈ S.puts)
    (hy : y ∈ S.puts) (heq : x.requestId = y.requestId) : x = y := by
  have hnodup : (S.puts.map Op.requestId).Nodup :=
    List.pairwise_map.2 (h.ascending.imp fun hlt => hlt.ne)
  exact List.inj_on_of_nodup_map hnodup hx hy heq

theorem OnceInv.tells (h : S.OnceInv boost uuid) : S.Tells S.Done where
  unique := fun x hx y hy => h.eq_of_requestId hx hy
  duplicate := by
    intro p x _ hdup
    by_cases hprogress : x ∈ S.putsInProgress
    · exact Or.inl ((h.tallies p).current x hprogress hdup)
    · exact Or.inr hprogress

/-- The servers do something. -/
theorem OnceInv.servers (h : S.OnceInv boost uuid) (hclerks : S'.clerks = S.clerks)
    (hhistory : S'.history = S.history) (htraced : S'.Traced boost uuid S'.Done)
    (hexecuted : ∀ p, ∀ x ∈ S.executed p, x ∈ S'.executed p)
    (htallies : ∀ p, (S'.apps p).kv.Tallies S.putsInProgress (S'.executed p)) :
    S'.OnceInv boost uuid := by
  have hinvoked : S'.invoked = S.invoked := by
    unfold Service.invoked
    rw [hhistory]
  have hputs : S'.puts = S.puts := by
    unfold puts
    rw [hinvoked]
  have hprogress : S'.putsInProgress = S.putsInProgress := by
    unfold putsInProgress
    rw [hclerks]
  constructor
  · exact htraced
  · rw [hputs]
    exact h.ascending
  · rw [hputs, hprogress, hhistory]
    exact h.finished
  · rw [hhistory]
    exact fun c x a p hreturned => hexecuted p x (h.answered c x a p hreturned)
  · rw [hprogress]
    exact htallies

/-! ### Quiet steps -/

/-- Nothing happens to the calls or to the books of a server, and no get is answered. -/
structure Quiet (S S' : Service n m) : Prop where
  clerks : S'.clerks = S.clerks
  history : S'.history = S.history
  executed : S'.executed = S.executed
  table : ∀ p, (S'.apps p).kv.lastRequestId = (S.apps p).kv.lastRequestId
  data : ∀ p, (S'.apps p).kv.data = (S.apps p).kv.data
  stage : ∀ p, (S'.apps p).kv.stage = (S.apps p).kv.stage
  answered : ∀ (t : ℕ) (rpc : KvRpc n) (reply : GetReply), S'.rpcs[t]? = some rpc →
    rpc.stage = .answered (.get reply) → S.rpcs[t]? = some rpc

theorem Quiet.refl (S : Service n m) : S.Quiet S :=
  ⟨rfl, rfl, rfl, fun _ => rfl, fun _ => rfl, fun _ => rfl, fun _ _ _ h _ => h⟩

theorem Quiet.setStage (h : S.Quiet S') (t : ℕ) (rpc : KvRpc n) {stage : RpcStage}
    (hstage : ∀ reply, stage ≠ .answered (.get reply)) : S.Quiet (S'.setStage t rpc stage) := by
  refine ⟨h.clerks, h.history, h.executed, h.table, h.data, h.stage, ?_⟩
  intro u rpc' reply hrpc hanswered
  by_cases hu : t = u
  · subst hu
    obtain ⟨hlt, heq⟩ := List.getElem?_eq_some_iff.1 hrpc
    have hset : rpc' = { rpc with stage := stage } := by
      rw [← heq]
      exact List.getElem_set_self ..
    rw [hset] at hanswered
    exact absurd hanswered (hstage reply)
  · exact h.answered u rpc' reply ((List.getElem?_set_ne hu).symm.trans hrpc) hanswered

theorem Quiet.cluster (h : S.Quiet S') (cluster : Cluster n) :
    S.Quiet { S' with cluster := cluster } :=
  ⟨h.clerks, h.history, h.executed, h.table, h.data, h.stage, h.answered⟩

/-- A server changes neither its data nor its request table, nor does `_L_popMessageLoop` move. -/
theorem quiet_setApp (S : Service n m) (p : Fin n) {app : App}
    (htable : app.kv.lastRequestId = (S.apps p).kv.lastRequestId)
    (hdata : app.kv.data = (S.apps p).kv.data) (hstage : app.kv.stage = (S.apps p).kv.stage) :
    S.Quiet (S.setApp p app) := by
  refine ⟨rfl, rfl, rfl, fun q => ?_, fun q => ?_, fun q => ?_, fun _ _ _ h _ => h⟩
  all_goals
    unfold Service.setApp
    by_cases hq : q = p
    · subst hq
      simpa using ‹_›
    · simp [Function.update_of_ne hq]

theorem quiet_take (S : Service n m) (p : Fin n) : S.Quiet (S.take p) := by
  unfold Service.take
  split_ifs
  · refine Quiet.cluster (S.quiet_setApp p ?_ ?_ ?_) _
    all_goals
      unfold App.take
      split <;> rfl
  · exact .refl S

theorem quiet_push (S : Service n m) (p : Fin n) : S.Quiet (S.setApp p (S.apps p).push) := by
  refine S.quiet_setApp p ?_ ?_ ?_
  all_goals
    unfold App.push
    split <;> rfl

theorem quiet_pushMessage (S : Service n m) (p : Fin n) (k : ℕ) :
    S.Quiet (S.setApp p ((S.apps p).pushMessage k)) := by
  refine S.quiet_setApp p ?_ ?_ ?_
  all_goals
    unfold App.pushMessage
    split <;> rfl

theorem quiet_deliverSnapshot (S : Service n m) (p : Fin n) (k : ℕ) :
    S.Quiet (S.deliverSnapshot p k) := by
  unfold Service.deliverSnapshot
  split
  · rename_i server args _
    have hquiet : S.Quiet (S.setApp server ((S.apps server).detach
        ((S.cluster.procs server).node.installSnapshot args).ret.2)) :=
      S.quiet_setApp server rfl rfl rfl
    exact hquiet.cluster _
  · exact Quiet.cluster (.refl S) _

/-- A queue of a server changes, and the thread of a remote call moves on. -/
theorem quiet_setKv (S : Service n m) (t : ℕ) (rpc : KvRpc n) {kv : KvServer} {stage : RpcStage}
    (htable : kv.lastRequestId = (S.apps rpc.server).kv.lastRequestId)
    (hdata : kv.data = (S.apps rpc.server).kv.data)
    (hkv : kv.stage = (S.apps rpc.server).kv.stage)
    (hstage : ∀ reply, stage ≠ .answered (.get reply)) :
    S.Quiet ((S.setKv rpc.server kv).setStage t rpc stage) := by
  have hquiet : S.Quiet (S.setKv rpc.server kv) := S.quiet_setApp rpc.server htable hdata hkv
  exact hquiet.setStage t rpc hstage

/-- The thread of a remote call leaves the books alone, unless `_L_get` is to read. -/
theorem quiet_serve (S : Service n m) (t : ℕ)
    (hstage : ∀ rpc, S.rpcs[t]? = some rpc → rpc.stage ≠ .waited) : S.Quiet (S.serve boost t) := by
  unfold Service.serve
  split
  · exact .refl S
  rename_i rpc ht
  have hwaited := hstage rpc ht
  dsimp only
  split
  · split_ifs
    · exact Quiet.cluster (Quiet.setStage (.refl S) t rpc fun _ => by rintro ⟨⟩) _
    · exact Quiet.cluster (Quiet.setStage (.refl S) t rpc fun _ => by rintro ⟨⟩) _
    · exact Quiet.setStage (.refl S) t rpc fun _ => by rintro ⟨⟩
  · rename_i index _
    obtain ⟨appliedChan, heq⟩ := (S.apps rpc.server).kv.awaitIndex_eq index
    rw [heq]
    exact S.quiet_setKv t rpc rfl rfl rfl fun _ => by rintro ⟨⟩
  · split
    · exact S.quiet_setKv t rpc rfl rfl rfl fun _ => by rintro ⟨⟩
    · exact .refl S
  · exact S.quiet_setKv t rpc rfl rfl rfl fun _ => by rintro ⟨⟩
  · split_ifs
    · exact Quiet.setStage (.refl S) t rpc fun _ => by rintro ⟨⟩
    · exact .refl S
  · exact absurd ‹_› hwaited
  · exact .refl S
  · exact .refl S

theorem quiet_timeout (S : Service n m) (t : ℕ) : S.Quiet (S.timeout t) := by
  unfold Service.timeout
  split
  · exact .refl S
  split
  · exact Quiet.setStage (.refl S) t _ fun _ => by rintro ⟨⟩
  · refine Quiet.setStage (.refl S) t _ fun _ => ?_
    split_ifs
    · rintro ⟨⟩
    · rintro ⟨⟩
  · exact .refl S

theorem Quiet.done_eq (h : S.Quiet S') : S'.Done = S.Done := by
  unfold Done putsInProgress
  rw [h.clerks, h.executed]

theorem OnceInv.quiet (h : S.OnceInv boost uuid) (hquiet : S.Quiet S')
    (htraced : S'.Traced boost uuid S.Done) : S'.OnceInv boost uuid := by
  refine h.servers hquiet.clerks hquiet.history (hquiet.done_eq.symm ▸ htraced) ?_ ?_
  · intro p x hx
    rw [hquiet.executed]
    exact hx
  · intro p
    rw [hquiet.executed]
    exact (h.tallies p).congr (hquiet.table p) (hquiet.stage p)

/-! ### Steps of the servers -/

/-- `_L_get` reads the map of its server, and answers if the key is there. -/
theorem serve_waited (boost : Boost) {t : ℕ} {p : Fin n} {command : Op}
    (ht : S.rpcs[t]? = some ⟨p, command, .waited⟩) :
    ∃ stage, S.serve boost t =
        (S.setKv p ((S.apps p).kv.executeGetOp command).1).setStage t ⟨p, command, .waited⟩ stage ∧
      ∀ reply, stage = .answered (.get reply) →
        (S.apps p).kv.data.find command.key = some reply.value := by
  unfold Service.serve
  rw [ht]
  refine ⟨_, rfl, fun reply hreply => ?_⟩
  dsimp only [KvServer.executeGetOp] at hreply
  cases hfind : (S.apps p).kv.data.find command.key with
  | none => simp [hfind] at hreply
  | some value =>
    obtain rfl : { err := .ok, value := value } = reply := by simpa [hfind] using hreply
    rfl

theorem OnceInv.serve (h : S.OnceInv boost uuid) (t : ℕ)
    (hguard : ∀ w ∈ S.rewritten boost (.serve t), S.Records w.1 w.2) :
    (S.serve boost t).OnceInv boost uuid := by
  have htraced := h.traced.serve h.tells t
  by_cases hwaited : ∃ p command, S.rpcs[t]? = some ⟨p, command, .waited⟩
  · obtain ⟨p, command, ht⟩ := hwaited
    have hwrites : S.rewritten boost (.serve t) =
        some (S.executed p,
          (S.apps p).kv.lastRequestId.insert command.clientId command.requestId) := by
      simp only [rewritten, ht]
    obtain ⟨hrecorded, hcurrent⟩ := hguard _ hwrites
    obtain ⟨stage, heq, -⟩ := serve_waited boost ht
    rw [heq] at htraced ⊢
    refine h.servers rfl rfl htraced (fun _ _ => id) fun q => ?_
    by_cases hq : q = p
    · subst hq
      have hkv : ((S.apps q).kv.executeGetOp command).1.Tallies S.putsInProgress (S.executed q) :=
        (h.tallies q).rewrite rfl hrecorded hcurrent
      simpa [setKv, Service.setApp, setStage] using hkv
    · simpa [setKv, Service.setApp, setStage, Function.update_of_ne hq] using h.tallies q
  · refine h.quiet (S.quiet_serve t ?_) htraced
    rintro ⟨p, command, stage⟩ ht rfl
    exact hwaited ⟨p, command, ht⟩

theorem OnceInv.loop (h : S.OnceInv boost uuid) (p : Fin n)
    (hguard : ∀ w ∈ S.rewritten boost (.loop p), S.Records w.1 w.2) :
    (S.loop boost p).OnceInv boost uuid := by
  have hexecuted : ∀ q, ∀ x ∈ S.executed q, x ∈ (S.loop boost p).executed q := by
    intro q x hx
    by_cases hq : q = p
    · subst hq
      simp [Service.loop, hx]
    · simpa [Service.loop, Function.update_of_ne hq] using hx
  have hputting : ∀ x ∈ (S.apps p).kv.putting, x ∈ (S.loop boost p).executed p := by
    intro x hx
    simp [Service.loop, hx]
  have htraced : (S.loop boost p).Traced boost uuid (S.loop boost p).Done := by
    refine h.traced.loop p (h.tells.duplicate p) ?_ fun x hx => Or.inl (hputting x hx)
    rintro q x _ (hx | hx)
    · exact Or.inl (hexecuted q x hx)
    · exact Or.inr hx
  refine h.servers rfl rfl htraced hexecuted fun q => ?_
  by_cases hq : q = p
  swap
  · simpa [Service.loop, Service.setApp, Function.update_of_ne hq] using h.tallies q
  subst hq
  have hkv : ((S.loop boost q).apps q).kv = ((S.apps q).kv.popMessageLoop boost
      ((S.cluster.procs q).node.getRaftStateSize boost)).1 := by
    simp [Service.loop, Service.setApp, App.loop]
  have hexec : (S.loop boost q).executed q = S.executed q ++ (S.apps q).kv.putting := by
    simp [Service.loop]
  have hclient : ∀ x ∈ S.puts, x.clientId = uuid := fun x hx =>
    (h.traced.operation_eq_put hx).2
  have hputs : (S.loop boost q).puts = S.puts := rfl
  have hnext := (htraced.app q).stage
  rw [hkv] at hnext ⊢
  rw [hexec]
  refine (h.tallies q).loop _ (fun x hx => hclient x (h.traced.executed q x hx))
    (fun x hx => hclient x (h.traced.mem_puts_of_inProgress hx)) ?_ ?_ ?_
  · intro x hx
    have hmem : x ∈ S.puts := htraced.executed q x (hputting x hx)
    refine ⟨hclient x hmem, fun y hy hle => ?_⟩
    by_contra hnot
    obtain ⟨msg, hs⟩ := KvServer.mem_putting hx
    have hwrites : S.rewritten boost (.loop q) = some (S.executed q ++ [x],
        (S.apps q).kv.lastRequestId.insert x.clientId x.requestId) := by
      simp only [rewritten, hs]
    have hlookup : x.requestId ∈ ((S.apps q).kv.lastRequestId.insert x.clientId
        x.requestId).lookup y.clientId := by
      rw [hclient y (h.traced.mem_puts_of_inProgress hy), ← hclient x hmem]
      exact AList.lookup_insert _
    exact absurd ((hguard _ hwrites).2 y hy hnot _ hlookup) (not_lt.2 hle)
  · intro msg kv' hs hload
    exact hguard (S.executed q, kv'.lastRequestId) (by simp [rewritten, hs, hload])
  · intro msg command hs
    rw [hs] at hnext
    exact hclient command hnext

/-! ### Steps of a clerk -/

theorem invoke_idle {c : Fin m} (hidle : (S.clerks c).call = none) (operation : Operation)
    (key value : Bytes) : S.invoke c operation key value =
      { S with
        clerks := Function.update S.clerks c
          ((S.clerks c).invoke operation key value S.history.length)
        history := S.history ++ [.invoked c ((S.clerks c).command operation key value)] } := by
  unfold Service.invoke
  rw [hidle]

theorem mem_putsInProgress_invoke {c : Fin m} (hidle : (S.clerks c).call = none)
    (operation : Operation) (key value : Bytes) {x : Op} :
    x ∈ (S.invoke c operation key value).putsInProgress ↔ x ∈ S.putsInProgress ∨
      operation = .put ∧ x = (S.clerks c).command operation key value := by
  rw [invoke_idle hidle, mem_putsInProgress, mem_putsInProgress]
  dsimp only
  constructor
  · rintro ⟨c', call, hcall, rfl, hput⟩
    by_cases hc : c' = c
    · subst hc
      rw [Function.update_self] at hcall
      obtain rfl := Option.some.inj hcall
      exact Or.inr ⟨hput, rfl⟩
    · rw [Function.update_of_ne hc] at hcall
      exact Or.inl ⟨c', call, hcall, rfl, hput⟩
  · rintro (⟨c', call, hcall, rfl, hput⟩ | ⟨rfl, rfl⟩)
    · refine ⟨c', call, ?_, rfl, hput⟩
      rw [Function.update_of_ne, hcall]
      rintro rfl
      rw [hidle] at hcall
      cases hcall
    · exact ⟨c, _, by rw [Function.update_self]; rfl, rfl, rfl⟩

theorem puts_invoke {c : Fin m} (hidle : (S.clerks c).call = none) (operation : Operation)
    (key value : Bytes) : (S.invoke c operation key value).puts =
      S.puts ++ if operation = .put then [(S.clerks c).command operation key value] else [] := by
  unfold puts Service.invoked
  rw [invoke_idle hidle, List.filterMap_append, List.filter_append]
  congr 1
  split_ifs with hput
  · simp [ClerkEvent.command?, Clerk.command, hput]
  · simp [ClerkEvent.command?, Clerk.command, hput]

/-- A put that is over has been executed where it was acknowledged, so its number is on record. -/
theorem OnceInv.lt_of_new (h : S.OnceInv boost uuid) {id : Int}
    (hprogress : ∀ x ∈ S.putsInProgress, x.requestId < id)
    (hpass : ∀ p, (S.apps p).kv.duplicateRequest uuid id = false) {x : Op} (hx : x ∈ S.puts) :
    x.requestId < id := by
  obtain hx' | ⟨c, a, p, hreturned⟩ := h.finished x hx
  · exact hprogress x hx'
  · have hrecorded := (h.tallies p).recorded x (h.answered c x a p hreturned)
    rw [(h.traced.operation_eq_put hx).2] at hrecorded
    obtain ⟨last, hlast, hle⟩ := KvServer.duplicateRequest_iff.1 hrecorded
    refine hle.trans_lt (lt_of_not_ge fun hge => ?_)
    exact absurd (KvServer.duplicateRequest_iff.2 ⟨last, hlast, hge⟩) (by simp [hpass p])

theorem OnceInv.put (h : S.OnceInv boost uuid) (c : Fin m) (key value : Bytes)
    (hguard : S.NewPut (.put c key value)) : (S.put c key value).OnceInv boost uuid := by
  unfold Service.put
  cases hcall : (S.clerks c).call with
  | some call =>
    have heq : S.invoke c .put key value = S := by
      unfold Service.invoke
      rw [hcall]
    rw [heq]
    exact h
  | none =>
    have hnew := hguard.resolve_left (by simp [hcall])
    have hprogress : ∀ x, x ∈ (S.invoke c .put key value).putsInProgress ↔
        x ∈ S.putsInProgress ∨ x = (S.clerks c).command .put key value := by
      intro x
      rw [mem_putsInProgress_invoke hcall]
      simp
    have hputs := puts_invoke hcall .put key value
    rw [if_pos rfl] at hputs
    set command := (S.clerks c).command .put key value with hcommand
    have hclient : command.clientId = uuid := h.traced.clerk c
    obtain ⟨hbelow, hpass⟩ := hnew
    rw [h.traced.clerk c] at hpass
    have hlt : ∀ x ∈ S.puts, x.requestId < command.requestId := fun x hx =>
      h.lt_of_new hbelow hpass hx
    have hinvoke := invoke_idle hcall .put key value
    have hhistory : ∀ event, event ∈ S.history →
        event ∈ (S.invoke c .put key value).history := by
      intro event hevent
      rw [hinvoke]
      exact List.mem_append_left _ hevent
    constructor
    · -- what is behind a duplicate check is an older put
      refine Traced.invoke (h.traced.mono fun p x hx hdone => ?_) c .put key value
      rcases hdone with hdone | hdone
      · rw [hinvoke]
        exact Or.inl hdone
      · refine Or.inr fun hmem => ?_
        obtain hmem | rfl := (hprogress x).1 hmem
        · exact hdone hmem
        · exact lt_irrefl _ (hlt _ hx)
    · rw [hputs]
      refine List.pairwise_append.2 ⟨h.ascending, List.pairwise_singleton _ _, ?_⟩
      intro x hx y hy
      obtain rfl := List.mem_singleton.1 hy
      exact hlt x hx
    · intro x hx
      rw [hputs] at hx
      rcases List.mem_append.1 hx with hx | hx
      · obtain hold | ⟨c', a, p, hreturned⟩ := h.finished x hx
        · exact Or.inl ((hprogress x).2 (Or.inl hold))
        · exact Or.inr ⟨c', a, p, hhistory _ hreturned⟩
      · exact Or.inl ((hprogress x).2 (Or.inr (List.mem_singleton.1 hx)))
    · intro c' x a p hreturned
      rw [hinvoke] at hreturned ⊢
      rcases List.mem_append.1 hreturned with hreturned | hreturned
      · exact h.answered c' x a p hreturned
      · cases List.mem_singleton.1 hreturned
    · intro p
      have htallies := h.tallies p
      rw [hinvoke]
      refine { htallies with current := fun x hx hdup => ?_ }
      rw [← hinvoke] at hx
      obtain hx | rfl := (hprogress x).1 hx
      · exact htallies.current x hx hdup
      · rw [hclient, hpass p] at hdup
        cases hdup

theorem OnceInv.get (h : S.OnceInv boost uuid) (c : Fin m) (key : Bytes) :
    (S.get c key).OnceInv boost uuid := by
  unfold Service.get
  cases hcall : (S.clerks c).call with
  | some call =>
    have heq : S.invoke c .get key [] = S := by
      unfold Service.invoke
      rw [hcall]
    rw [heq]
    exact h
  | none =>
    have hprogress : ∀ x, x ∈ (S.invoke c .get key []).putsInProgress ↔ x ∈ S.putsInProgress := by
      intro x
      rw [mem_putsInProgress_invoke hcall]
      simp
    have hputs : (S.invoke c .get key []).puts = S.puts := by
      simpa using puts_invoke hcall .get key []
    have hinvoke := invoke_idle hcall .get key []
    constructor
    · refine Traced.invoke (h.traced.mono fun p x hx hdone => ?_) c .get key []
      rcases hdone with hx | hx
      · rw [hinvoke]
        exact Or.inl hx
      · exact Or.inr fun hmem => hx ((hprogress x).1 hmem)
    · rw [hputs]
      exact h.ascending
    · intro x hx
      rw [hputs] at hx
      obtain hx | ⟨c', a, p, hreturned⟩ := h.finished x hx
      · exact Or.inl ((hprogress x).2 hx)
      · refine Or.inr ⟨c', a, p, ?_⟩
        rw [hinvoke]
        exact List.mem_append_left _ hreturned
    · intro c' x a p hreturned
      rw [hinvoke] at hreturned ⊢
      rcases List.mem_append.1 hreturned with hreturned | hreturned
      · exact h.answered c' x a p hreturned
      · cases List.mem_singleton.1 hreturned
    · intro p
      have htallies := (h.tallies p).mono fun x hx => (hprogress x).1 hx
      rw [hinvoke] at htallies ⊢
      exact htallies

theorem OnceInv.send (h : S.OnceInv boost uuid) (c : Fin m) : (S.send c).OnceInv boost uuid := by
  have htraced := h.traced.send c
  have hprogress : (S.send c).putsInProgress = S.putsInProgress := by
    unfold Service.send putsInProgress
    split
    swap
    · rfl
    rename_i command leaderId invokedAt hcall
    congr 1
    funext c'
    by_cases hc : c' = c
    · subst hc
      simp [hcall]
    · simp [Function.update_of_ne hc]
  have hrest : (S.send c).history = S.history ∧ (S.send c).apps = S.apps ∧
      (S.send c).executed = S.executed := by
    unfold Service.send
    split
    · exact ⟨rfl, rfl, rfl⟩
    · exact ⟨rfl, rfl, rfl⟩
  obtain ⟨hhistory, happs, hexecuted⟩ := hrest
  have hputs : (S.send c).puts = S.puts := by
    unfold puts Service.invoked
    rw [hhistory]
  constructor
  · have hdone : (S.send c).Done = S.Done := by
      unfold Done
      rw [hprogress, hexecuted]
    rw [hdone]
    exact htraced
  · rw [hputs]
    exact h.ascending
  · rw [hputs, hprogress, hhistory]
    exact h.finished
  · rw [hhistory, hexecuted]
    exact h.answered
  · rw [happs, hprogress, hexecuted]
    exact h.tallies

/-- The loop of a put ends with a reply that says `ok`. -/
theorem returned_of_loop [NeZero n] {clerk : Clerk n} {call : ClerkCall n} {c : Fin m}
    {reply : Option KvReply} (hput : call.command.operation = .put)
    (hkind : ∀ r, reply ≠ some (.get r)) (hend : (clerk.loop call reply).call = none) :
    .putReturned c call.command call.invokedAt call.leaderId ∈ call.returned c reply := by
  unfold Clerk.loop at hend
  cases reply with
  | none =>
    dsimp only at hend
    rw [if_pos hput] at hend
    cases hend
  | some reply =>
    cases reply with
    | get r => exact absurd rfl (hkind r)
    | put r =>
      dsimp only [Clerk.putLoop] at hend
      unfold ClerkCall.returned
      dsimp only
      by_cases hok : r.err = .ok
      · rw [if_pos hok]
        exact List.mem_singleton_self _
      · rw [if_neg hok] at hend
        split_ifs at hend
        · cases hend
        · cases hend

/-- A remote call is back. A reply that says `ok` comes from a server that has executed the put. -/
theorem OnceInv.resume [NeZero n] (h : S.OnceInv boost uuid) (c : Fin m)
    {reply : Op → Option KvReply}
    (hkind : ∀ call, (S.clerks c).call = some call → call.command.operation = .put →
      ∀ r, reply call.command ≠ some (.get r))
    (hreply : ∀ call, (S.clerks c).call = some call → ∀ r, reply call.command = some (.put r) →
      r.err = .ok → call.command.operation = .put ∧ call.command ∈ S.executed call.leaderId) :
    (S.resume c reply).OnceInv boost uuid := by
  have htraced := h.traced.resume c fun call hcall r hr hok => (hreply call hcall r hr hok).1
  unfold Service.resume at htraced ⊢
  split at htraced
  swap
  · exact h
  rename_i command leaderId t invokedAt hcall
  set call : ClerkCall n := ⟨command, leaderId, some t, invokedAt⟩ with hcalldef
  obtain ⟨hloop, -⟩ := (S.clerks c).loop_call call (reply command)
  set S' : Service n m := { S with
    clerks := Function.update S.clerks c ((S.clerks c).loop call (reply command))
    history := S.history ++ call.returned c (reply command) } with hS'
  have hputs : S'.puts = S.puts := by
    unfold puts Service.invoked
    rw [hS', List.filterMap_append, ClerkCall.returned_command?, List.append_nil]
  have hhistory : ∀ event ∈ S.history, event ∈ S'.history := fun event hevent =>
    List.mem_append_left _ hevent
  have hsub : ∀ x ∈ S'.putsInProgress, x ∈ S.putsInProgress := by
    intro x hx
    obtain ⟨c', call', hcall', rfl, hput⟩ := mem_putsInProgress.1 hx
    refine mem_putsInProgress.2 ?_
    by_cases hc : c' = c
    · subst hc
      simp only [hS', Function.update_self] at hcall'
      rcases hloop with hnone | ⟨leaderId', hsome⟩
      · rw [hnone] at hcall'
        cases hcall'
      · rw [hsome] at hcall'
        obtain rfl := Option.some.inj hcall'
        exact ⟨c', call, hcall, rfl, hput⟩
    · simp only [hS', Function.update_of_ne hc] at hcall'
      exact ⟨c', call', hcall', rfl, hput⟩
  have hends : ∀ x ∈ S.putsInProgress, x ∈ S'.putsInProgress ∨
      ∃ c a p, .putReturned c x a p ∈ S'.history := by
    intro x hx
    obtain ⟨c', call', hcall', rfl, hput⟩ := mem_putsInProgress.1 hx
    by_cases hc : c' = c
    · subst hc
      obtain rfl := Option.some.inj (hcall.symm.trans hcall')
      rcases hloop with hnone | ⟨leaderId', hsome⟩
      · have hreturned : .putReturned c' command invokedAt leaderId ∈
            call.returned c' (reply command) :=
          returned_of_loop hput (hkind call hcall hput) hnone
        exact Or.inr ⟨c', invokedAt, leaderId, List.mem_append_right _ hreturned⟩
      · refine Or.inl (mem_putsInProgress.2 ⟨c', { call with leaderId := leaderId', rpc := none }, ?_,
          rfl, hput⟩)
        simp only [hS', Function.update_self]
        exact hsome
    · refine Or.inl (mem_putsInProgress.2 ⟨c', call', ?_, rfl, hput⟩)
      simp only [hS', Function.update_of_ne hc]
      exact hcall'
  constructor
  · refine htraced.mono fun p x _ hdone => ?_
    rcases hdone with hx | hx
    · exact Or.inl hx
    · exact Or.inr fun hmem => hx (hsub x hmem)
  · rw [hputs]
    exact h.ascending
  · intro x hx
    rw [hputs] at hx
    obtain hx | ⟨c', a, p, hreturned⟩ := h.finished x hx
    · exact hends x hx
    · exact Or.inr ⟨c', a, p, hhistory _ hreturned⟩
  · intro c' x a p hreturned
    rcases List.mem_append.1 hreturned with hreturned | hreturned
    · exact h.answered c' x a p hreturned
    · obtain ⟨rfl, rfl, rfl, rfl, r, hr, hok⟩ := mem_returned hreturned
      exact (hreply call hcall r hr hok).2
  · exact fun p => (h.tallies p).mono hsub

theorem OnceInv.receive [NeZero n] (h : S.OnceInv boost uuid) (c : Fin m) :
    (S.receive c).OnceInv boost uuid := by
  unfold Service.receive
  split
  · exact h
  rename_i t ht
  split
  swap
  · exact h
  rename_i server command reply hrpc
  have hanswer : ∀ call, (S.clerks c).call = some call →
      server = call.leaderId ∧ command = call.command := by
    intro call hcall
    rw [hcall] at ht
    obtain ⟨rpc, hrpc', hserver, hcommand⟩ := h.traced.ticket c call t hcall ht
    obtain rfl := Option.some.inj (hrpc.symm.trans hrpc')
    exact ⟨hserver, hcommand⟩
  obtain ⟨-, hstage⟩ := h.traced.rpc _ (List.mem_of_getElem? hrpc)
  refine h.resume c ?_ ?_
  · rintro call hcall hput r hr
    obtain ⟨-, rfl⟩ := hanswer call hcall
    obtain rfl := Option.some.inj hr
    exact hstage.1 hput
  · rintro call hcall r hr hok
    obtain ⟨rfl, rfl⟩ := hanswer call hcall
    obtain rfl := Option.some.inj hr
    obtain ⟨hput, hx | hx⟩ := hstage hok
    · exact ⟨hput, hx⟩
    · exact absurd (mem_putsInProgress.2 ⟨c, call, hcall, rfl, hput⟩) hx

theorem OnceInv.step [NeZero n] (h : S.OnceInv boost uuid) {a : ServiceAction n m}
    (hguard : S.Orderly boost a) : (S.step boost a).OnceInv boost uuid := by
  obtain ⟨hnew, hrewritten⟩ := hguard
  cases a with
  | raft a =>
    by_cases ha : a.ForApp
    · simpa only [Service.step, if_pos ha] using h
    · simp only [Service.step, if_neg ha]
      exact h.quiet (Quiet.cluster (.refl S) _) (h.traced.raft ha)
  | take p => exact h.quiet (S.quiet_take p) (h.traced.take p)
  | push p => exact h.quiet (S.quiet_push p) (h.traced.setApp p (h.traced.app p).push)
  | pushMessage p k =>
    exact h.quiet (S.quiet_pushMessage p k) (h.traced.setApp p ((h.traced.app p).pushMessage k))
  | deliverSnapshot p k => exact h.quiet (S.quiet_deliverSnapshot p k) (h.traced.deliverSnapshot p k)
  | loop p => exact h.loop p hrewritten
  | put c key value => exact h.put c key value hnew
  | get c key => exact h.get c key
  | send c => exact h.send c
  | fail c =>
    refine h.resume c ?_ ?_
    · rintro call - - r ⟨⟩
    · rintro call - r ⟨⟩
  | empty c =>
    refine h.resume c ?_ ?_
    · intro call _ hput r
      rw [hput]
      rintro ⟨⟩
    · intro call _ r hr hok
      unfold KvReply.empty at hr
      split at hr
      · cases hr
        cases hok
      · cases hr
  | receive c => exact h.receive c
  | serve t => exact h.serve t hrewritten
  | timeout t => exact h.quiet (S.quiet_timeout t) (h.traced.timeout h.tells t)

end Service

/-- Node `p` of three is elected, and executes the first put of clerk `c`. -/
def firstPut (p : Fin 3) (c : Fin 2) : List (ServiceAction 3 2) :=
  [ .raft (.stand4Election p), .raft (.deliverVote p 0), .raft (.returnVote p 0),
    .put c [107] [118], .send c, .serve 0, .serve 0,
    .raft (.heartBeat p), .raft (.deliverAppend p 0), .raft (.returnAppend p 0),
    .take p, .push p, .loop p, .loop p, .loop p, .loop p, .loop p, .serve 0, .serve 0, .receive c ]

/-- The clerk gets the key and puts another value, which comes to be in the log twice: it gives up on
    node `p` after the first time, and comes back to it by way of the others. -/
def retriedPut (p : Fin 3) (c : Fin 2) : List (ServiceAction 3 2) :=
  [ .get c [107], .send c, .serve 1, .serve 1, .serve 1, .receive c,
    .put c [107] [119], .send c, .serve 2, .fail c, .send c, .serve 3, .receive c,
    .send c, .serve 4, .receive c, .send c, .serve 5, .serve 5,
    .raft (.heartBeat p), .raft (.deliverAppend p 2), .raft (.returnAppend p 2),
    .take p, .push p, .push p, .loop p, .loop p, .loop p, .loop p, .loop p,
    .loop p, .loop p, .loop p, .loop p, .serve 5, .serve 5, .receive c ]

/-- Clerk `c` puts again, and clerk `d`, which gets the key twice meanwhile, puts before that is over. -/
def overlappingPuts (p : Fin 3) (c d : Fin 2) : List (ServiceAction 3 2) :=
  [ .put c [107] [119], .send c, .serve 1, .serve 1,
    .get d [107], .send d, .serve 2, .serve 2, .serve 2, .receive d,
    .raft (.heartBeat p), .raft (.deliverAppend p 2), .raft (.returnAppend p 2),
    .take p, .push p, .loop p, .loop p, .loop p, .loop p, .loop p,
    .get d [107], .send d, .serve 3, .serve 3, .serve 3, .receive d,
    .put d [107] [120], .send d, .serve 4, .serve 4,
    .raft (.heartBeat p), .raft (.deliverAppend p 3), .raft (.returnAppend p 3),
    .take p, .push p, .loop p, .loop p, .loop p, .loop p, .loop p,
    .serve 1, .serve 1, .receive c, .serve 4, .serve 4, .receive d ]

/-- Puts that overlap are in order as well, if the servers come to them in the order of their
    numbers. -/
example : GuardedRun.Allowed (Service.step Boost.text) (Service.Orderly Boost.text)
    (Service.new 2 (fun i => i) (-1)) (firstPut 0 1 ++ overlappingPuts 0 1 0) := by
  decide +kernel

/-- The first put of another clerk `d`, with the number of the first put of clerk `c`. -/
def secondClerk (p : Fin 3) (d : Fin 2) : List (ServiceAction 3 2) :=
  [ .put d [107] [119], .send d, .serve 1, .serve 1,
    .raft (.heartBeat p), .raft (.deliverAppend p 2), .raft (.returnAppend p 2),
    .take p, .push p, .loop p, .loop p, .loop p, .loop p, .serve 1, .serve 1, .receive d ]

end RaftKVStorage
