import RaftKVStorage.Replica
import RaftKVStorage.RpcReply

set_option autoImplicit false

/-! # Request ids

A clerk numbers its calls with a `size_t`, the messages carry the number as an `int32`, and the
servers compare it as an `int`. From the 2^31-th call on the number that arrives is one that has been
used before, or negative. The servers are left to themselves here: they may meet any command that the
clerk has sent, in any order and as often as they like. -/

namespace RaftKVStorage

open ProtoWire KvServer

variable {n : ℕ}

/-! ## Three widths -/

/-- A `size_t` assigned to an `int32`. -/
def int32OfSize (k : BitVec 64) : Int := (k.setWidth 32).toInt

/-- The value of an `int32` field: of the last one of that number, if any. -/
def int32Value (number : ℕ) (fields : List Field) : Int :=
  fields.foldl (fun value f =>
    match f with
    | .varint m v => if m = number then (BitVec.ofNat 32 v).toInt else value
    | _ => value) 0

/-- What a server reads out of a field into which a clerk has put its counter. -/
def requestIdRead (number : ℕ) (requestId : BitVec 64) : Int :=
  ((fieldsOf (int32Field number (int32OfSize requestId))).map (int32Value number)).getD 0

theorem int32Field_eq_varintField (number : ℕ) (k : BitVec 64) :
    int32Field number (int32OfSize k) = varintField number (int32OfSize k % 2 ^ 64).toNat := by
  have hlt : 2 * int32OfSize k < 2 ^ 32 := BitVec.two_mul_toInt_lt
  have hle : -2 ^ 32 ≤ 2 * int32OfSize k := BitVec.le_two_mul_toInt
  unfold int32Field varintField
  by_cases h : int32OfSize k = 0
  · simp [h]
  · rw [if_neg h, if_neg (by omega)]

/-- The wire loses nothing more. -/
theorem requestIdRead_eq {number : ℕ} (hnumber : IsNumber number) (k : BitVec 64) :
    requestIdRead number k = int32OfSize k := by
  have hlt : 2 * int32OfSize k < 2 ^ 32 := BitVec.two_mul_toInt_lt
  have hle : -2 ^ 32 ≤ 2 * int32OfSize k := BitVec.le_two_mul_toInt
  have hfields := @fieldsOf_varintField number (int32OfSize k % 2 ^ 64).toNat hnumber (by omega) []
  rw [List.append_nil, fieldsOf_nil] at hfields
  rw [requestIdRead, int32Field_eq_varintField, hfields]
  by_cases h : int32OfSize k = 0
  · simp [h, int32Value]
  · have hvalue : (BitVec.ofNat 32 (int32OfSize k % 2 ^ 64).toNat).toInt = int32OfSize k := by
      rw [BitVec.toInt_ofNat', Int.toNat_of_nonneg (by omega), Int.bmod_def]
      omega
    rw [if_neg (by omega)]
    simpa [int32Value] using hvalue

/-- Below the limit the number arrives as it is. -/
theorem int32OfSize_ofNat {k : ℕ} (h : k < 2 ^ 31) : int32OfSize (BitVec.ofNat 64 k) = k := by
  rw [int32OfSize, BitVec.setWidth_ofNat_of_le (by decide), BitVec.toInt_ofNat', Int.bmod_def]
  omega

theorem int32OfSize_le (k : BitVec 64) : int32OfSize k ≤ 2 ^ 31 - 1 := by
  have hlt : 2 * int32OfSize k < 2 ^ 32 := BitVec.two_mul_toInt_lt
  omega

/-! ## A clerk and the servers -/

/-- A clerk, the commands of its calls so far, the `kvServer`s, and the snapshots they have handed
    over. -/
structure ClerkServers (n : ℕ) where
  clientId : Bytes
  requestId : BitVec 64 := 0
  calls : List Op := []
  servers : Fin n → KvServer
  snapshots : List Bytes := []

inductive ClerkInput (n : ℕ)
  | put (key value : Bytes)
  | get (key : Bytes)
  /-- A message is pushed into `_M_applyChan` of `p`. -/
  | push (p : Fin n) (msg : ApplyMessage)
  /-- `_L_popMessageLoop` of `p` runs a critical section. -/
  | loop (p : Fin n) (raftStateSize : Int)
  | executeGetOp (p : Fin n) (command : Op)
  | awaitIndex (p : Fin n) (index : Int)
  | eraseIndex (p : Fin n) (index : Int)

namespace ClerkServers

/-- Before the first call. -/
def new (n : ℕ) (clientId : Bytes) (maxRaftStateSize : Int) : ClerkServers n :=
  { clientId := clientId, servers := fun p => (Server.new p maxRaftStateSize).app.kv }

/-- The command `_L_put` makes of the arguments of the next call of `clerk::put`. -/
def putCommand (C : ClerkServers n) (key value : Bytes) : Op :=
  { operation := .put
    key := key
    value := value
    clientId := C.clientId
    requestId := requestIdRead 5 (C.requestId + 1) }

/-- The command `_L_get` makes of the arguments of the next call of `clerk::get`. -/
def getCommand (C : ClerkServers n) (key : Bytes) : Op :=
  { operation := .get
    key := key
    value := []
    clientId := C.clientId
    requestId := requestIdRead 3 (C.requestId + 1) }

/-- A call of the clerk. -/
def call (C : ClerkServers n) (command : Op) : ClerkServers n :=
  { C with requestId := C.requestId + 1, calls := C.calls ++ [command] }

/-- Server `p` becomes `s`. -/
def setServer (C : ClerkServers n) (p : Fin n) (s : KvServer) : ClerkServers n :=
  { C with servers := Function.update C.servers p s }

@[simp] theorem setServer_self (C : ClerkServers n) (p : Fin n) (s : KvServer) :
    (C.setServer p s).servers p = s := Function.update_self ..

theorem setServer_of_ne (C : ClerkServers n) {p q : Fin n} (s : KvServer) (h : q ≠ p) :
    (C.setServer p s).servers q = C.servers q := Function.update_of_ne h ..

def step (boost : Boost) (C : ClerkServers n) : ClerkInput n → ClerkServers n
  | .put key value => C.call (C.putCommand key value)
  | .get key => C.call (C.getCommand key)
  | .push p msg =>
      C.setServer p { C.servers p with applyChan := (C.servers p).applyChan ++ [msg] }
  | .loop p raftStateSize =>
      let out := (C.servers p).popMessageLoop boost raftStateSize
      { C.setServer p out.1 with snapshots := C.snapshots ++ out.2.toList.map Prod.snd }
  | .executeGetOp p command => C.setServer p ((C.servers p).executeGetOp command).1
  | .awaitIndex p index => C.setServer p ((C.servers p).awaitIndex index)
  | .eraseIndex p index => C.setServer p ((C.servers p).eraseIndex index)

/-- A command under the clerk's name is one the clerk has sent. -/
def Sent (C : ClerkServers n) (command : Op) : Prop :=
  command.clientId = C.clientId → command ∈ C.calls

/-- Commands are sent before they are executed, and a snapshot is one that was handed over, or bytes
    that are no archive. -/
def Legal (boost : Boost) (C : ClerkServers n) : ClerkInput n → Prop
  | .push _ msg =>
      (msg.validCommand = true → ∀ command, Op.load boost msg.command = some command →
        C.Sent command) ∧
      (msg.validSnapshot = true → msg.snapshot ∈ C.snapshots ∨ msg.snapshot = [] ∨
        boost.server.load msg.snapshot = none)
  | .executeGetOp _ command => C.Sent command
  | _ => True

/-- Were the next call a put, no server would have its number, or a greater one, on record. -/
def NewPutFresh (C : ClerkServers n) : Prop :=
  ∀ (key value : Bytes) (p : Fin n),
    (∀ last, (C.servers p).lastRequestId.lookup C.clientId = some last →
      last < (C.putCommand key value).requestId) ∧
    (C.servers p).duplicateRequest C.clientId (C.putCommand key value).requestId = false

/-! ## What the servers have on record -/

/-- Every number on record for the clerk is that of one of its calls. -/
def RecordsSent (C : ClerkServers n) (table : RequestTable) : Prop :=
  ∀ last, table.lookup C.clientId = some last → ∃ command ∈ C.calls, command.requestId = last

/-- A message that brings nothing but what was sent. -/
structure Brings (boost : Boost) (C : ClerkServers n) (msg : ApplyMessage) : Prop where
  command : msg.validCommand = true → ∀ command, Op.load boost msg.command = some command →
    C.Sent command
  snapshot : msg.validSnapshot = true → msg.snapshot ≠ [] → ∀ shot,
    boost.server.load msg.snapshot = some shot → C.RecordsSent shot.2

/-- Where `_L_popMessageLoop` is with such a message. -/
def StageBrings (boost : Boost) (C : ClerkServers n) : Stage → Prop
  | .pop => True
  | .executeCommand msg => msg.validCommand = true ∧ C.Brings boost msg
  | .executePutOp msg command => C.Brings boost msg ∧ C.Sent command
  | .maySnapshot msg _ => C.Brings boost msg
  | .persist msg _ => C.Brings boost msg
  | .tryPush2Wait msg _ => C.Brings boost msg
  | .installSnapshot msg => msg.validSnapshot = true ∧ C.Brings boost msg
  | .terminated => True

/-- A server that has only met what was sent. -/
structure Meets (boost : Boost) (C : ClerkServers n) (s : KvServer) : Prop where
  table : C.RecordsSent s.lastRequestId
  queue : ∀ msg ∈ s.applyChan, C.Brings boost msg
  stage : C.StageBrings boost s.stage

variable {boost : Boost} {C C' : ClerkServers n} {s : KvServer}

theorem RecordsSent.empty : C.RecordsSent ∅ := by
  intro last h
  simp at h

theorem RecordsSent.insert {table : RequestTable} (h : C.RecordsSent table) {command : Op}
    (hsent : C.Sent command) : C.RecordsSent (table.insert command.clientId command.requestId) := by
  intro last hlast
  by_cases hclient : command.clientId = C.clientId
  · rw [hclient, AList.lookup_insert] at hlast
    exact ⟨command, hsent hclient, Option.some.inj hlast⟩
  · rw [AList.lookup_insert_ne fun heq => hclient heq.symm] at hlast
    exact h last hlast

theorem Brings.afterCommand {msg : ApplyMessage} (h : C.Brings boost msg) :
    C.StageBrings boost (afterCommand msg) := by
  unfold KvServer.afterCommand
  by_cases hvalid : msg.validSnapshot = true
  · rw [if_pos hvalid]
    exact ⟨hvalid, h⟩
  · rw [if_neg hvalid]
    trivial

theorem Meets.installSnapshot (h : C.Meets boost s) {msg : ApplyMessage}
    (hvalid : msg.validSnapshot = true) (hmsg : C.Brings boost msg) :
    C.Meets boost (s.installSnapshot boost msg) := by
  rw [KvServer.installSnapshot, load]
  by_cases hnil : msg.snapshot = []
  · rw [if_pos hnil]
    exact ⟨h.table, h.queue, h.stage⟩
  rw [if_neg hnil]
  cases hload : boost.server.load msg.snapshot with
  | none => exact ⟨h.table, h.queue, trivial⟩
  | some shot =>
      cases hdata : loadData boost s.data shot.1 with
      | none =>
          simp only [Option.bind_eq_bind, Option.bind_some, hdata]
          exact ⟨h.table, h.queue, trivial⟩
      | some data =>
          simp only [Option.bind_eq_bind, Option.bind_some, hdata]
          exact ⟨hmsg.snapshot hvalid hnil shot hload, h.queue, h.stage⟩

theorem Meets.loop (h : C.Meets boost s) (size : Int) :
    C.Meets boost (s.popMessageLoop boost size).1 := by
  obtain ⟨htable, hqueue, hstage⟩ := h
  unfold popMessageLoop
  cases hs : s.stage with
  | pop =>
      cases hq : s.applyChan with
      | nil => exact ⟨htable, hqueue, hstage⟩
      | cons msg rest =>
          rw [hq] at hqueue
          have hmsg := hqueue msg List.mem_cons_self
          refine ⟨htable, fun m hm => hqueue m (List.mem_cons_of_mem _ hm), ?_⟩
          dsimp only
          by_cases hvalid : msg.validCommand = true
          · rw [if_pos hvalid]
            exact ⟨hvalid, hmsg⟩
          · rw [if_neg hvalid]
            exact hmsg.afterCommand
  | executeCommand msg =>
      rw [hs] at hstage
      obtain ⟨hvalid, hmsg⟩ := hstage
      by_cases hold : msg.commandIndex ≤ s.lastSnapshotCommandIndex
      · simp only [if_pos hold]
        exact ⟨htable, hqueue, hmsg.afterCommand⟩
      · simp only [if_neg hold]
        cases hload : Op.load boost msg.command with
        | none => exact ⟨htable, hqueue, trivial⟩
        | some command =>
            refine ⟨htable, hqueue, ?_⟩
            dsimp only [afterCheck]
            split_ifs
            · exact hmsg
            · exact ⟨hmsg, hmsg.command hvalid command hload⟩
            · exact hmsg
  | executePutOp msg command =>
      rw [hs] at hstage
      exact ⟨htable.insert hstage.2, hqueue, hstage.1⟩
  | maySnapshot msg command =>
      rw [hs] at hstage
      refine ⟨htable, hqueue, ?_⟩
      dsimp only
      split_ifs
      · exact hstage
      · exact hstage
  | persist msg command =>
      rw [hs] at hstage
      exact ⟨htable, hqueue, hstage⟩
  | tryPush2Wait msg command =>
      rw [hs] at hstage
      obtain ⟨appliedChan, hpush⟩ := tryPush2Wait_eq s command msg.commandIndex
      simp only [hpush]
      exact ⟨htable, hqueue, Brings.afterCommand hstage⟩
  | installSnapshot msg =>
      rw [hs] at hstage
      have hpop : C.Meets boost { s with stage := .pop } := ⟨htable, hqueue, trivial⟩
      exact hpop.installSnapshot hstage.1 hstage.2
  | terminated => exact ⟨htable, hqueue, hstage⟩

/-- What is handed over has the table of the server. -/
theorem Meets.handsOver (h : C.Meets boost s) {size : Int} {shot : Bytes}
    (hshot : shot ∈ (s.popMessageLoop boost size).2.toList.map Prod.snd) {x : Bytes × RequestTable}
    (hload : boost.server.load shot = some x) : C.RecordsSent x.2 := by
  obtain ⟨p, hp, rfl⟩ := List.mem_map.1 hshot
  obtain ⟨msg, command, -, rfl⟩ := popMessageLoop_persist (Option.mem_toList.1 hp)
  rw [dump, boost.server.load_save] at hload
  obtain rfl := Option.some.inj hload
  exact h.table

/-- One more call takes nothing away. -/
theorem Sent.mono {command : Op} (h : C.Sent command) (hcalls : C.calls ⊆ C'.calls)
    (hclient : C'.clientId = C.clientId) : C'.Sent command :=
  fun heq => hcalls (h (heq.trans hclient))

theorem RecordsSent.mono {table : RequestTable} (h : C.RecordsSent table)
    (hcalls : C.calls ⊆ C'.calls) (hclient : C'.clientId = C.clientId) : C'.RecordsSent table := by
  intro last hlast
  rw [hclient] at hlast
  obtain ⟨command, hmem, heq⟩ := h last hlast
  exact ⟨command, hcalls hmem, heq⟩

theorem Brings.mono {msg : ApplyMessage} (h : C.Brings boost msg) (hcalls : C.calls ⊆ C'.calls)
    (hclient : C'.clientId = C.clientId) : C'.Brings boost msg where
  command := fun hvalid command hload => (h.command hvalid command hload).mono hcalls hclient
  snapshot := fun hvalid hnil shot hload => (h.snapshot hvalid hnil shot hload).mono hcalls hclient

theorem Meets.mono (h : C.Meets boost s) (hcalls : C.calls ⊆ C'.calls)
    (hclient : C'.clientId = C.clientId) : C'.Meets boost s where
  table := h.table.mono hcalls hclient
  queue := fun msg hmsg => (h.queue msg hmsg).mono hcalls hclient
  stage := by
    have hstage := h.stage
    cases hs : s.stage with
    | pop => trivial
    | terminated => trivial
    | executeCommand msg =>
        rw [hs] at hstage
        exact ⟨hstage.1, hstage.2.mono hcalls hclient⟩
    | executePutOp msg command =>
        rw [hs] at hstage
        exact ⟨hstage.1.mono hcalls hclient, hstage.2.mono hcalls hclient⟩
    | installSnapshot msg =>
        rw [hs] at hstage
        exact ⟨hstage.1, hstage.2.mono hcalls hclient⟩
    | maySnapshot msg command =>
        rw [hs] at hstage
        exact Brings.mono hstage hcalls hclient
    | persist msg command =>
        rw [hs] at hstage
        exact Brings.mono hstage hcalls hclient
    | tryPush2Wait msg command =>
        rw [hs] at hstage
        exact Brings.mono hstage hcalls hclient

/-! ## The invariant -/

/-- The counter and the numbers of the calls go together, and the servers know no others. -/
structure Inv (boost : Boost) (C : ClerkServers n) : Prop where
  counter : C.requestId = BitVec.ofNat 64 C.calls.length
  numbered : ∀ (k : ℕ) (command : Op), C.calls[k]? = some command →
    command.requestId = int32OfSize (BitVec.ofNat 64 (k + 1))
  meets : ∀ p, C.Meets boost (C.servers p)
  snapshots : ∀ shot ∈ C.snapshots, ∀ x, boost.server.load shot = some x → C.RecordsSent x.2

theorem Inv.new (clientId : Bytes) (maxRaftStateSize : Int) :
    (new n clientId maxRaftStateSize).Inv boost where
  counter := rfl
  numbered := fun k command hk => by simp [ClerkServers.new] at hk
  meets := fun p => ⟨.empty, by simp [ClerkServers.new, Server.new], trivial⟩
  snapshots := fun shot hshot => by simp [ClerkServers.new] at hshot

theorem Inv.setServer (h : C.Inv boost) (p : Fin n) {s : KvServer} (hs : C.Meets boost s) :
    (C.setServer p s).Inv boost where
  counter := h.counter
  numbered := h.numbered
  meets := fun q => by
    by_cases hq : q = p
    · subst hq
      rw [C.setServer_self]
      exact hs.mono (fun _ hmem => hmem) rfl
    · rw [C.setServer_of_ne s hq]
      exact (h.meets q).mono (fun _ hmem => hmem) rfl
  snapshots := h.snapshots

/-- The number of the next call, as its command carries it. -/
theorem Inv.next (h : C.Inv boost) (number : ℕ) (hnumber : IsNumber number) :
    requestIdRead number (C.requestId + 1) = int32OfSize (BitVec.ofNat 64 (C.calls.length + 1)) := by
  rw [requestIdRead_eq hnumber, h.counter, ← BitVec.ofNat_add_ofNat]
  rfl

theorem Inv.call (h : C.Inv boost) {command : Op}
    (hcommand : command.requestId = int32OfSize (BitVec.ofNat 64 (C.calls.length + 1))) :
    (C.call command).Inv boost := by
  have hcalls : C.calls ⊆ (C.call command).calls := List.subset_append_left _ _
  refine ⟨?_, ?_, fun p => (h.meets p).mono hcalls rfl, fun shot hshot x hload =>
    (h.snapshots shot hshot x hload).mono hcalls rfl⟩
  · rw [ClerkServers.call, h.counter, List.length_append, List.length_singleton,
      ← BitVec.ofNat_add_ofNat]
    rfl
  · intro k c hk
    rcases lt_trichotomy k C.calls.length with hlt | rfl | hgt
    · exact h.numbered k c (by rwa [ClerkServers.call, List.getElem?_append_left hlt] at hk)
    · rw [ClerkServers.call, List.getElem?_concat_length] at hk
      rwa [← Option.some.inj hk]
    · rw [ClerkServers.call, List.getElem?_eq_none (by simp; omega)] at hk
      cases hk

theorem Inv.step (h : C.Inv boost) {input : ClerkInput n} (hlegal : C.Legal boost input) :
    (C.step boost input).Inv boost := by
  cases input with
  | put key value => exact h.call (h.next 5 (by decide))
  | get key => exact h.call (h.next 3 (by decide))
  | push p msg =>
      have hp := h.meets p
      refine h.setServer p ⟨hp.table, fun m hm => ?_, hp.stage⟩
      rcases List.mem_append.1 hm with hold | hnew
      · exact hp.queue m hold
      · obtain rfl := List.mem_singleton.1 hnew
        refine ⟨hlegal.1, fun hvalid hnil shot hload => ?_⟩
        rcases hlegal.2 hvalid with hmem | hempty | hnone
        · exact h.snapshots _ hmem shot hload
        · exact absurd hempty hnil
        · rw [hnone] at hload
          cases hload
  | loop p size =>
      have hset := h.setServer p ((h.meets p).loop size)
      refine ⟨hset.counter, hset.numbered, fun q => (hset.meets q).mono (fun _ hmem => hmem) rfl,
        fun shot hshot x hload => ?_⟩
      rcases List.mem_append.1 hshot with hold | hnew
      · exact h.snapshots shot hold x hload
      · exact (h.meets p).handsOver hnew hload
  | executeGetOp p command =>
      have hp := h.meets p
      exact h.setServer p ⟨hp.table.insert hlegal, hp.queue, hp.stage⟩
  | awaitIndex p index =>
      have hp := h.meets p
      obtain ⟨appliedChan, heq⟩ := (C.servers p).awaitIndex_eq index
      refine h.setServer p ?_
      rw [heq]
      exact ⟨hp.table, hp.queue, hp.stage⟩
  | eraseIndex p index =>
      have hp := h.meets p
      exact h.setServer p ⟨hp.table, hp.queue, hp.stage⟩

/-- A number on record is below the one of the next call, while that is below the limit. -/
theorem Inv.lt_next (h : C.Inv boost) (hlt : C.calls.length + 1 < 2 ^ 31) {p : Fin n} {last : Int}
    (hlast : (C.servers p).lastRequestId.lookup C.clientId = some last) :
    last < int32OfSize (BitVec.ofNat 64 (C.calls.length + 1)) := by
  obtain ⟨command, hmem, rfl⟩ := (h.meets p).table last hlast
  obtain ⟨k, hk⟩ := List.mem_iff_getElem?.1 hmem
  have hlen := (List.getElem?_eq_some_iff.1 hk).1
  rw [h.numbered k command hk, int32OfSize_ofNat (by omega), int32OfSize_ofNat hlt]
  omega

/-! ## Puts one after another -/

/-- A server executes a put that is new to it and drops one that is not. -/
theorem exists_loops {m : Int × Op} (h : s.Awaits boost [m]) (hput : s.IsPut m) :
    ∃ sizes : List Int,
      (GuardedRun.exec (act boost) s (sizes.map Call.loop)).Awaits boost [] ∧
      (GuardedRun.exec (act boost) s (sizes.map Call.loop)).lastSnapshotCommandIndex =
        s.lastSnapshotCommandIndex ∧
      (GuardedRun.exec (act boost) s (sizes.map Call.loop)).lastRequestId =
        if s.duplicateRequest m.2.clientId m.2.requestId then s.lastRequestId
        else s.lastRequestId.insert m.2.clientId m.2.requestId := by
  have hpop : s.act boost (.loop 0) =
      { s with applyChan := [], stage := .executeCommand (message boost m) } :=
    act_pop h.1 h.2
  have hcheck : act boost { s with applyChan := [], stage := .executeCommand (message boost m) }
      (.loop 0) = { s with applyChan := [], stage := s.afterCheck (message boost m) m.2 } :=
    act_check rfl hput.1
  by_cases hdup : s.duplicateRequest m.2.clientId m.2.requestId = true
  · have hstage : s.afterCheck (message boost m) m.2 = .maySnapshot (message boost m) m.2 := by
      rw [afterCheck, if_pos hdup]
    obtain ⟨appliedChan, hfinish⟩ : ∃ appliedChan,
        act boost (act boost { s with
            applyChan := []
            stage := .maySnapshot (message boost m) m.2 } (.loop s.maxRaftStateSize)) (.loop 0) =
          { s with applyChan := [], appliedChan := appliedChan, stage := .pop } :=
      act_finish rfl rfl
    refine ⟨[0, 0, s.maxRaftStateSize, 0], ?_⟩
    simp only [List.map_cons, List.map_nil, GuardedRun.exec, hpop, hcheck, hstage, hfinish, if_pos hdup]
    exact ⟨⟨rfl, rfl⟩, trivial, trivial⟩
  · have hstage : s.afterCheck (message boost m) m.2 = .executePutOp (message boost m) m.2 := by
      rw [afterCheck, if_neg hdup, if_pos hput.2]
    have hexecute : act boost { s with
          applyChan := []
          stage := .executePutOp (message boost m) m.2 } (.loop 0) =
        { s.executePutOp m.2 with
          applyChan := []
          stage := .maySnapshot (message boost m) m.2 } := act_executePutOp rfl
    obtain ⟨appliedChan, hfinish⟩ : ∃ appliedChan,
        act boost (act boost { s.executePutOp m.2 with
            applyChan := []
            stage := .maySnapshot (message boost m) m.2 } (.loop s.maxRaftStateSize)) (.loop 0) =
          { s.executePutOp m.2 with
            applyChan := []
            appliedChan := appliedChan
            stage := .pop } := act_finish rfl rfl
    refine ⟨[0, 0, 0, s.maxRaftStateSize, 0], ?_⟩
    simp only [List.map_cons, List.map_nil, GuardedRun.exec, hpop, hcheck, hstage, hexecute, hfinish,
      if_neg hdup]
    exact ⟨⟨rfl, rfl⟩, rfl, rfl⟩

/-- The loop of one server is that of a single replica. -/
theorem exec_loops (p : Fin n) (sizes : List Int) : ∀ C : ClerkServers n,
    (GuardedRun.exec (step boost) C (sizes.map (ClerkInput.loop p))).servers p =
        GuardedRun.exec (act boost) (C.servers p) (sizes.map Call.loop) ∧
      (GuardedRun.exec (step boost) C (sizes.map (ClerkInput.loop p))).calls = C.calls ∧
      (GuardedRun.exec (step boost) C (sizes.map (ClerkInput.loop p))).clientId = C.clientId := by
  induction sizes with
  | nil => exact fun _ => ⟨rfl, rfl, rfl⟩
  | cons size sizes ih =>
      intro C
      have hstep : (C.step boost (.loop p size)).servers p = (C.servers p).act boost (.loop size) :=
        C.setServer_self p _
      obtain ⟨hservers, hcalls, hclient⟩ := ih (C.step boost (.loop p size))
      rw [hstep] at hservers
      exact ⟨hservers, hcalls, hclient⟩

theorem allowed_loops (p : Fin n) (sizes : List Int) : ∀ C : ClerkServers n,
    GuardedRun.Allowed (step boost) (Legal boost) C (sizes.map (ClerkInput.loop p)) := by
  induction sizes with
  | nil => exact fun _ => trivial
  | cons size sizes ih => exact fun C => ⟨trivial, ih _⟩

/-- Server `p` has consumed everything, and has no snapshot. -/
def Settled (boost : Boost) (C : ClerkServers n) (p : Fin n) : Prop :=
  (C.servers p).Awaits boost [] ∧ (C.servers p).lastSnapshotCommandIndex = 0

/-- One more put, which the server deals with before the next. -/
theorem exists_put {init : ClerkServers n} {p : Fin n} (hclient : C.clientId = init.clientId)
    (h : GuardedRun.Reach init (step boost) (Legal boost) C) (hsettled : C.Settled boost p) :
    ∃ C', GuardedRun.Reach init (step boost) (Legal boost) C' ∧ C'.Settled boost p ∧
      C'.clientId = init.clientId ∧ C'.calls.length = C.calls.length + 1 ∧
      (C'.servers p).lastRequestId =
        if (C.servers p).duplicateRequest C.clientId (C.putCommand [] []).requestId then
          (C.servers p).lastRequestId
        else (C.servers p).lastRequestId.insert C.clientId (C.putCommand [] []).requestId := by
  obtain ⟨⟨hstage, hqueue⟩, hlast⟩ := hsettled
  -- the command takes the next place in the log
  let m : Int × Op := (C.calls.length + 1, C.putCommand [] [])
  let C₁ := C.step boost (.put [] [])
  let C₂ := C₁.step boost (.push p (message boost m))
  have hreach₁ : GuardedRun.Reach init (step boost) (Legal boost) C₁ := .step _ h trivial
  have hreach₂ : GuardedRun.Reach init (step boost) (Legal boost) C₂ := by
    refine .step _ hreach₁ ⟨fun _ command hload => ?_, fun hvalid => ?_⟩
    · have heq : some m.2 = some command := (Op.load_dump boost m.2).symm.trans hload
      rw [← Option.some.inj heq]
      exact fun _ => List.mem_append_right _ (List.mem_singleton_self _)
    · cases hvalid
  have hserver : C₂.servers p = { C.servers p with applyChan := [message boost m] } := by
    have hset : C₂.servers p = { C.servers p with
        applyChan := (C.servers p).applyChan ++ [message boost m] } := C₁.setServer_self p _
    rw [hset, hqueue]
    rfl
  have hawaits : (C₂.servers p).Awaits boost [m] := by
    rw [hserver]
    exact ⟨hstage, rfl⟩
  have hput : (C₂.servers p).IsPut m := by
    rw [hserver]
    exact ⟨by rw [hlast]; exact Int.lt_add_one_of_le (Int.natCast_nonneg _), rfl⟩
  obtain ⟨sizes, hdone, hindex, htable⟩ := exists_loops hawaits hput
  obtain ⟨hservers, hcalls, hname⟩ := @exec_loops n boost p sizes C₂
  refine ⟨_, hreach₂.exec (allowed_loops p sizes C₂), ⟨?_, ?_⟩, ?_, ?_, ?_⟩
  · rw [hservers]
    exact hdone
  · rw [hservers, hindex, hserver]
    exact hlast
  · rw [hname]
    exact hclient
  · rw [hcalls]
    exact List.length_append
  · rw [hservers, htable, hserver]
    rfl

/-- After `k` puts the last number on record is that of the last put, up to the greatest `int32`. -/
theorem exists_puts (boost : Boost) (clientId : Bytes) (maxRaftStateSize : Int) (p : Fin n) (k : ℕ) :
    ∃ C, GuardedRun.Reach (new n clientId maxRaftStateSize) (step boost) (Legal boost) C ∧
      C.Settled boost p ∧ C.clientId = clientId ∧ C.calls.length = k ∧
      (C.servers p).lastRequestId.lookup clientId =
        if k = 0 then none else some (min (k : Int) (2 ^ 31 - 1)) := by
  induction k with
  | zero =>
      refine ⟨_, .init, ⟨⟨rfl, rfl⟩, rfl⟩, rfl, rfl, ?_⟩
      exact AList.lookup_empty _
  | succ k ih =>
      obtain ⟨C, hreach, hsettled, hclient, hlen, hlookup⟩ := ih
      obtain ⟨C', hreach', hsettled', hclient', hlen', htable⟩ := exists_put hclient hreach hsettled
      have hinv : C.Inv boost := by
        refine hreach.invariant (.new clientId maxRaftStateSize) ?_
        exact fun C input _ hC hlegal => hC.step hlegal
      have hid : (C.putCommand [] []).requestId = int32OfSize (BitVec.ofNat 64 (k + 1)) := by
        rw [← hlen]
        exact hinv.next 5 (by decide)
      have hle := int32OfSize_le (BitVec.ofNat 64 (k + 1))
      refine ⟨C', hreach', hsettled', hclient', hlen'.trans (by rw [hlen]), ?_⟩
      rw [if_neg (Nat.succ_ne_zero k), htable, hid, hclient]
      by_cases hsmall : k + 1 < 2 ^ 31
      · -- the number is new, and greater than the one on record
        have hnew : ¬ (C.servers p).duplicateRequest clientId
            (int32OfSize (BitVec.ofNat 64 (k + 1))) = true := by
          rw [duplicateRequest, hlookup, int32OfSize_ofNat hsmall]
          by_cases hzero : k = 0
          · simp [hzero]
          · simp only [if_neg hzero, decide_eq_true_eq]
            omega
        have hmin : ((k + 1 : ℕ) : Int) = min ((k + 1 : ℕ) : Int) (2 ^ 31 - 1) := by omega
        rw [if_neg hnew, AList.lookup_insert, int32OfSize_ofNat hsmall]
        exact congrArg some hmin
      · -- no `int32` is greater than the one on record
        have hzero : k ≠ 0 := by omega
        have hold : (C.servers p).duplicateRequest clientId
            (int32OfSize (BitVec.ofNat 64 (k + 1))) = true := by
          rw [duplicateRequest, hlookup, if_neg hzero]
          simp only [decide_eq_true_eq]
          omega
        have hmin : min (k : Int) (2 ^ 31 - 1) = min ((k + 1 : ℕ) : Int) (2 ^ 31 - 1) := by omega
        rw [if_pos hold, hlookup, if_neg hzero]
        exact congrArg some hmin

end ClerkServers

open ClerkServers

/-- Whatever the servers have met, the `N`-th call's number is above all those on record exactly while
    `N` is less than 2^31, and until the call is over a server has a number on record that is not less
    only if it is the call's own. -/
theorem request_ids_fresh (boost : Boost) (clientId : Bytes) (maxRaftStateSize : Int) (p₀ : Fin n) :
    (∀ N : ℕ, (∀ C, GuardedRun.Reach (ClerkServers.new n clientId maxRaftStateSize)
        (ClerkServers.step boost) (ClerkServers.Legal boost) C →
        C.calls.length + 1 = N → C.NewPutFresh) ↔ N < 2 ^ 31) ∧
    ∀ C, GuardedRun.Reach (ClerkServers.new n clientId maxRaftStateSize)
        (ClerkServers.step boost) (ClerkServers.Legal boost) C →
      C.calls.length < 2 ^ 31 → ∀ command, C.calls.getLast? = some command → ∀ p last,
      (C.servers p).lastRequestId.lookup C.clientId = some last → last ≠ command.requestId →
      last < command.requestId := by
  have hinv : ∀ C, GuardedRun.Reach (ClerkServers.new n clientId maxRaftStateSize)
      (ClerkServers.step boost) (ClerkServers.Legal boost) C → C.Inv boost := by
    intro C h
    refine h.invariant (.new clientId maxRaftStateSize) ?_
    exact fun C input _ hC hlegal => hC.step hlegal
  constructor
  · intro N
    constructor
    · intro h
      by_contra hge
      obtain ⟨C, hreach, -, hclient, hlen, hlookup⟩ :=
        exists_puts boost clientId maxRaftStateSize p₀ (N - 1)
      have hfresh := (h C hreach (by omega) [] [] p₀).1 (min (((N - 1 : ℕ) : Int)) (2 ^ 31 - 1))
        (by rw [hclient, hlookup, if_neg (by omega)])
      have hid : (C.putCommand [] []).requestId = int32OfSize (C.requestId + 1) :=
        requestIdRead_eq (by decide) _
      have hle := int32OfSize_le (C.requestId + 1)
      omega
    · rintro hlt C hreach rfl key value p
      have hid : (C.putCommand key value).requestId =
          int32OfSize (BitVec.ofNat 64 (C.calls.length + 1)) := (hinv C hreach).next 5 (by decide)
      have hrecorded : ∀ last, (C.servers p).lastRequestId.lookup C.clientId = some last →
          last < (C.putCommand key value).requestId := by
        intro last hlast
        rw [hid]
        exact (hinv C hreach).lt_next hlt hlast
      refine ⟨hrecorded, ?_⟩
      rw [duplicateRequest]
      cases hlookup : (C.servers p).lastRequestId.lookup C.clientId with
      | none => rfl
      | some last => simpa using hrecorded last hlookup
  · intro C hreach hlt command hlast p last hlookup hne
    have h := hinv C hreach
    obtain ⟨other, hmem, rfl⟩ := (h.meets p).table last hlookup
    obtain ⟨k, hk⟩ := List.mem_iff_getElem?.1 hmem
    have hlen := (List.getElem?_eq_some_iff.1 hk).1
    rw [List.getLast?_eq_getElem?] at hlast
    have hother := h.numbered k other hk
    have hcommand := h.numbered (C.calls.length - 1) command hlast
    rw [int32OfSize_ofNat (by omega)] at hother hcommand
    omega

/-- The first put of a clerk is executed by server `p` of three. -/
def ClerkServers.firstPut (p : Fin 3) : ClerkServers 3 :=
  GuardedRun.exec (ClerkServers.step .text) (ClerkServers.new 3 [99] (-1))
    [.put [107] [118], .push p (.ofCommand 1 (Op.dump .text ⟨.put, [107], [118], [99], 1⟩)), .loop p 0,
      .loop p 0, .loop p 0]

/-- The second is new to all of them, to the one with the first on record too. -/
theorem request_ids_fresh_second :
    ((firstPut 0).servers 0).lastRequestId.lookup [99] = some 1 ∧ (firstPut 0).NewPutFresh := by
  have hreach : GuardedRun.Reach (ClerkServers.new 3 [99] (-1)) (ClerkServers.step .text)
      (ClerkServers.Legal .text) (firstPut 0) := by
    refine .exec .init ⟨trivial, ⟨fun _ command hload _ => ?_, fun hvalid => ?_⟩, trivial, trivial, trivial,
      trivial⟩
    · have heq : some ⟨.put, [107], [118], [99], 1⟩ = some command :=
        (Op.load_dump Boost.text _).symm.trans hload
      rw [← Option.some.inj heq]
      decide +kernel
    · cases hvalid
  exact ⟨by decide +kernel,
    ((request_ids_fresh Boost.text [99] (-1) (0 : Fin 3)).1 2).2 (by decide) _ hreach (by decide +kernel)⟩

/-- After 2^31 - 1 puts in a row the server drops the next. -/
theorem request_ids_wrapped :
    ¬ ∀ C : ClerkServers 1, GuardedRun.Reach (ClerkServers.new 1 [99] (-1))
        (ClerkServers.step Boost.text) (ClerkServers.Legal Boost.text) C →
      C.calls.length + 1 = 2 ^ 31 → C.NewPutFresh := by
  intro h
  obtain ⟨C, hreach, -, hclient, hlen, hlookup⟩ := exists_puts Boost.text [99] (-1) (0 : Fin 1) (2 ^ 31 - 1)
  have hfresh := (h C hreach (by omega) [] [] 0).1 (2 ^ 31 - 1) (by
    rw [hclient, hlookup, if_neg (by decide)]
    norm_num)
  have hid : (C.putCommand [] []).requestId = int32OfSize (C.requestId + 1) :=
    requestIdRead_eq (by decide) _
  have hle := int32OfSize_le (C.requestId + 1)
  omega

end RaftKVStorage
