import RaftKVStorage.PutWaiters
import RaftKVStorage.RaftIntSpec

set_option autoImplicit false

/-! # The server over `int`

The critical sections of a server that run in its raft node, with the handlers over `int`, and the puts
that wait on it. The index of a put comes from `_M_getNewCommandIndex`, so it is as good as the sum
there: past the last `int` it falls below every index given before. -/

namespace RaftKVStorage

variable {n : ℕ}

namespace Machine

/-- `_L_popMessageLoop` calls `raft::persist`, if at all, before its next critical section. -/
def persistIfAsked (P : Proc n) : Option (Int × Bytes) → Proc n
  | none => P
  | some (index, shot) => (step P (.persist index shot)).1

/-- One critical section of a server. -/
def serverStep (boost : Boost) (S : Server n) : ServerInput n → Server n
  | .raft input => { S with proc := (step S.proc input).1 }
  | .take =>
      { proc := if S.app.applyMsgs = [] then (step S.proc .getApplyMessages).1 else S.proc
        app := S.app.take (getApplyMessages S.proc.node) }
  | .installSnapshot args =>
      { proc := (step S.proc (.installSnapshot args)).1
        app := S.app.detach (installSnapshot S.proc.node args).ret.2 }
  | .loop =>
      let size := S.proc.node.getRaftStateSize boost
      { proc := persistIfAsked S.proc (S.app.kv.popMessageLoop boost size).2
        app := S.app.loop boost size }
  -- the others do not come near the raft node
  | .push => S.step boost .push
  | .pushMessage k => S.step boost (.pushMessage k)
  | .get command => S.step boost (.get command)
  | .awaitIndex index => S.step boost (.awaitIndex index)
  | .eraseIndex index => S.step boost (.eraseIndex index)

/-- `_L_put` calls `raft::execute`. -/
def put (boost : Boost) (W : WaitServer n) (command : Op) : WaitServer n :=
  let (index, term) := (execute W.server.proc.node (command.dump boost)).2
  { W with
    server := serverStep boost W.server (.raft (.execute (command.dump boost)))
    handlers :=
      if index = -1 ∨ term = -1 then W.handlers
      else W.handlers ++ [{ command := command, index := index }] }

/-- A step of a server with its waiting puts. -/
def waitStep (boost : Boost) (W : WaitServer n) : WaitInput n → WaitServer n
  | .server input => { W with server := serverStep boost W.server input }
  | .loop => { W.loop boost with server := serverStep boost W.server .loop }
  | .put command => put boost W command
  | .await a => W.await boost a
  | .pop a => W.pop a
  | .timeout a => W.timeout a
  | .erase a => W.erase boost a

end Machine

/-! ## What overflows -/

/-- The numbers of the requests and replies are `int`s. -/
def ServerInput.InInt : ServerInput n → Prop
  | .raft input => input.InInt
  | .installSnapshot args => Input.InInt (n := n) (.installSnapshot args)
  | _ => True

instance : (input : ServerInput n) → Decidable input.InInt
  | .raft input => inferInstanceAs (Decidable input.InInt)
  | .installSnapshot args => inferInstanceAs (Decidable (Input.InInt (n := n) (.installSnapshot args)))
  | .take | .push | .pushMessage _ | .loop | .get _ | .awaitIndex _ | .eraseIndex _ => .isTrue trivial

def WaitInput.InInt : WaitInput n → Prop
  | .server input => input.InInt
  | _ => True

instance : (input : WaitInput n) → Decidable input.InInt
  | .server input => inferInstanceAs (Decidable input.InInt)
  | .loop | .put _ | .await _ | .pop _ | .timeout _ | .erase _ => .isTrue trivial

/-- `_L_popMessageLoop` is about to call `raft::persist`. -/
def KvServer.compacts (s : KvServer) : Bool :=
  match s.stage with
  | .persist _ _ => true
  | _ => false

theorem KvServer.compacts_of_asked {boost : Boost} {s : KvServer} {size : Int} {ask : Int × Bytes}
    (h : (s.popMessageLoop boost size).2 = some ask) : s.compacts = true := by
  unfold KvServer.compacts
  unfold KvServer.popMessageLoop at h
  cases hs : s.stage with
  | persist msg command => rfl
  | _ =>
      rw [hs] at h
      grind [KvServer.installSnapshot]

/-- No sum of the raft node overflows in the critical section. -/
def Server.NoOverflow (S : Server n) : ServerInput n → Prop
  | .raft input => S.proc.NoOverflow input
  | .loop => S.app.kv.compacts = true → S.proc.node.lastSnapshotIndex < 2147483647
  | _ => True

instance (S : Server n) : (input : ServerInput n) → Decidable (S.NoOverflow input)
  | .raft input => inferInstanceAs (Decidable (S.proc.NoOverflow input))
  | .loop => inferInstanceAs (Decidable (_ → _))
  | .take | .push | .installSnapshot _ | .pushMessage _ | .get _ | .awaitIndex _ | .eraseIndex _ =>
      .isTrue trivial

/-- Neither does one in the step: a leader that takes a put has a last log index below the last
    `int`. -/
def WaitServer.NoOverflow (W : WaitServer n) : WaitInput n → Prop
  | .server input => W.server.NoOverflow input
  | .loop => W.server.NoOverflow .loop
  | .put _ => W.server.proc.node.identity = .leader →
      W.server.proc.node.getLastLogIndex < 2147483647
  | _ => True

instance (W : WaitServer n) : (input : WaitInput n) → Decidable (W.NoOverflow input)
  | .server input => inferInstanceAs (Decidable (W.server.NoOverflow input))
  | .loop => inferInstanceAs (Decidable (W.server.NoOverflow .loop))
  | .put _ => inferInstanceAs (Decidable (_ → _))
  | .await _ | .pop _ | .timeout _ | .erase _ => .isTrue trivial

namespace Machine

variable {boost : Boost}

/-! ## Steps without overflow -/

/-- The critical sections of a server are those over unbounded integers, and keep to `int`s. -/
theorem serverStep_eq (boost : Boost) {S : Server n} (h : S.proc.IndexInv) (hint : S.proc.InInt)
    (input : ServerInput n) (hlegal : S.Legal input) (harg : input.InInt) (hover : S.NoOverflow input) :
    serverStep boost S input = S.step boost input ∧ (S.step boost input).proc.InInt := by
  have hstep : ∀ input : Input n, input.WellFormed → input.InInt → S.proc.NoOverflow input →
      step S.proc input = S.proc.step input ∧ (S.proc.step input).1.InInt :=
    fun _ hinput harg hover => ⟨step_eq h hint hinput harg hover, hint.step h hinput harg hover⟩
  cases input with
  | raft input =>
    obtain ⟨heq, hkeep⟩ := hstep _ hlegal.1 harg hover
    exact ⟨by rw [serverStep, Server.step, heq], hkeep⟩
  | take =>
    obtain ⟨heq, hkeep⟩ := hstep .getApplyMessages trivial trivial trivial
    refine ⟨by rw [serverStep, Server.step, heq, getApplyMessages_eq h.node hint.last], ?_⟩
    simp only [Server.step]
    split
    · exact hkeep
    · exact hint
  | installSnapshot args =>
    obtain ⟨heq, hkeep⟩ := hstep (.installSnapshot args) trivial harg trivial
    exact ⟨by rw [serverStep, Server.step, heq, installSnapshot_eq h.node harg.2.2.1.2], hkeep⟩
  | loop =>
    simp only [serverStep, Server.step]
    rcases hask : (S.app.kv.popMessageLoop boost (S.proc.node.getRaftStateSize boost)).2 with
      _ | ⟨index, shot⟩
    · exact ⟨rfl, hint⟩
    · obtain ⟨heq, hkeep⟩ := hstep (.persist index shot) trivial trivial
        (hover (KvServer.compacts_of_asked hask))
      exact ⟨by rw [persistIfAsked, Proc.persistIfAsked, heq], hkeep⟩
  | push => exact ⟨rfl, hint⟩
  | pushMessage k => exact ⟨rfl, hint⟩
  | get command => exact ⟨rfl, hint⟩
  | awaitIndex index => exact ⟨rfl, hint⟩
  | eraseIndex index => exact ⟨rfl, hint⟩

/-- So are the steps of a server with its waiting puts. -/
theorem waitStep_eq (boost : Boost) {W : WaitServer n} (h : W.server.proc.IndexInv) (hint : W.server.proc.InInt)
    {input : WaitInput n} (hlegal : W.Legal input) (harg : input.InInt) (hover : W.NoOverflow input) :
    waitStep boost W input = W.step boost input ∧ (W.step boost input).server.proc.InInt := by
  cases input with
  | server input =>
    obtain ⟨heq, hkeep⟩ := serverStep_eq boost h hint input hlegal.1 harg hover
    exact ⟨by rw [waitStep, WaitServer.step, heq], hkeep⟩
  | loop =>
    obtain ⟨heq, hkeep⟩ := serverStep_eq boost h hint .loop trivial trivial hover
    refine ⟨?_, hkeep⟩
    rw [waitStep, WaitServer.step, heq]
    rfl
  | put command =>
    obtain ⟨heq, hkeep⟩ := serverStep_eq boost h hint
      (.raft (.execute (command.dump boost))) ⟨trivial, id⟩ trivial hover
    refine ⟨?_, hkeep⟩
    rw [waitStep, WaitServer.step, put, WaitServer.put, heq, execute_eq h.node.lastNonneg hover]
  | await a =>
    refine ⟨rfl, ?_⟩
    simp only [WaitServer.step, WaitServer.await]
    split
    · split
      · exact hint
      · exact hint
    · exact hint
  | pop a =>
    refine ⟨rfl, ?_⟩
    simp only [WaitServer.step, WaitServer.pop]
    split
    · split
      · split <;> exact hint
      · exact hint
    · exact hint
  | timeout a =>
    refine ⟨rfl, ?_⟩
    simp only [WaitServer.step, WaitServer.timeout]
    split <;> exact hint
  | erase a =>
    refine ⟨rfl, ?_⟩
    simp only [WaitServer.step, WaitServer.erase]
    split
    · split
      · exact hint
      · split <;> exact hint
    · exact hint

/-- Over any run of a server without restarts and without overflow, whatever elections, appends and
    snapshot installs happen, the slots of the waiting puts are private. -/
theorem waiter_slots_private (me : Fin n) (size : Int) {W : WaitServer n}
    (h : GuardedRun.Reach (WaitServer.new me size) (waitStep boost)
      (fun W input => W.Legal input ∧ input.InInt ∧ W.NoOverflow input) W) : W.SlotsPrivate := by
  have hinv : W.Inv ∧ W.server.proc.InInt := by
    refine h.invariant (P := fun W : WaitServer n => W.Inv ∧ W.server.proc.InInt)
      ⟨.new me size, .new me⟩ ?_
    rintro W input - ⟨hinv, hint⟩ ⟨hlegal, harg, hover⟩
    obtain ⟨heq, hkeep⟩ := waitStep_eq boost hinv.raft hint hlegal harg hover
    rw [heq]
    exact ⟨hinv.step hlegal, hkeep⟩
  exact hinv.1.slotsPrivate

/-- Two puts of a leader, the first of which is committed, executed and answered while the second
    waits. -/
theorem waiter_slots_private_twoPuts :
    let W := GuardedRun.exec (waitStep Boost.text) (WaitServer.new (0 : Fin 3) (-1))
      [.server (.raft .stand4Election), .server (.raft (.voteReply 0 ⟨1, true, .normal⟩)),
        .put ⟨.put, [107], [1], [99], 1⟩, .await 0, .server (.raft .heartBeat),
        .server (.raft (.appendReply 0 ⟨1, true, 0, .connected⟩)),
        .put ⟨.put, [107], [2], [100], 1⟩, .server .take, .server .push, .loop, .loop, .loop, .await 1,
        .loop, .loop, .pop 0, .erase 0]
    W.handlers.map PutHandler.stage = [.replied 0 .ok, .waiting 1] ∧ W.faults = [] := by
  intro W
  have hreach : GuardedRun.Reach (WaitServer.new (0 : Fin 3) (-1)) (waitStep Boost.text)
      (fun W input => W.Legal input ∧ input.InInt ∧ W.NoOverflow input) W :=
    .exec .init (by decide +kernel)
  have hrun := waiter_slots_private (0 : Fin 3) (-1) hreach
  exact ⟨by decide +kernel, hrun.noFault⟩

/-- A leader takes a put, installs a snapshot up to the last `int`, is elected again and takes
    another: its index is the smallest `int`. -/
theorem put_index_past_intMax :
    ¬ ∀ (n : ℕ) (me : Fin n) (size : Int) (W : WaitServer n),
      GuardedRun.Reach (WaitServer.new me size) (waitStep Boost.text)
        (fun W input => W.Legal input ∧ input.InInt) W → W.SlotsPrivate := by
  intro h
  have hreach : GuardedRun.Reach (WaitServer.new (0 : Fin 3) (-1)) (waitStep Boost.text)
      (fun W input => W.Legal input ∧ input.InInt)
      (GuardedRun.exec (waitStep Boost.text) (WaitServer.new (0 : Fin 3) (-1))
        [.server (.raft .stand4Election), .server (.raft (.voteReply 0 ⟨1, true, .normal⟩)),
          .put ⟨.put, [107], [1], [99], 1⟩, .server (.installSnapshot ⟨1, 2, 2147483647, 2, []⟩),
          .server (.raft .stand4Election), .server (.raft (.voteReply 1 ⟨3, true, .normal⟩)),
          .put ⟨.put, [107], [2], [100], 1⟩]) := .exec .init (by decide +kernel)
  exact absurd (h 3 0 (-1) _ hreach).ascending (by decide +kernel)

end Machine

end RaftKVStorage
