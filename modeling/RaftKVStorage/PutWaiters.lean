import RaftKVStorage.ClusterSpec
import RaftKVStorage.Server

set_option autoImplicit false

/-! # The queues of waiting puts

`_M_appliedChan` maps the index of a put to a queue on the heap: the handler in `_L_put` creates it,
`_L_tryPush2Wait` pushes the executed command, the handler pops from its own pointer without the lock
and deletes the queue when it is done. Here queues are cells with a number, so a deleted one stays
distinguishable from a new one at the same index. -/

namespace RaftKVStorage

variable {n : ℕ} {boost : Boost}

/-- A queue: the handler that created it, its commands, and the handlers that deleted it. -/
structure WaitQueue where
  creator : ℕ
  ops : List Op := []
  deletes : List ℕ := []

/-- Where `_L_put` is once `raft::execute` has given it an index. -/
inductive PutStage
  /-- About to look for a queue, or to create one. -/
  | executed
  /-- In `que->pop`. -/
  | waiting (que : ℕ)
  /-- About to erase the entry of its index and to delete the queue. -/
  | replying (que : ℕ) (err : Err)
  | replied (que : ℕ) (err : Err)
deriving DecidableEq

/-- A thread in `_L_put`. -/
structure PutHandler where
  command : Op
  index : Int
  stage : PutStage := .executed

/-- What is undefined in C++: a queue that was deleted is pushed to, popped from or deleted again, or
    there is none to delete. -/
inductive WaitFault
  | push (que : ℕ)
  | pop (que : ℕ)
  | delete (que : Option ℕ)
deriving DecidableEq

/-- A server with the threads in `_L_put`, in the order in which `raft::execute` answered them. -/
structure WaitServer (n : ℕ) where
  server : Server n
  appliedChan : Int → Option ℕ := fun _ => none
  queues : List WaitQueue := []
  handlers : List PutHandler := []
  faults : List WaitFault := []

inductive WaitInput (n : ℕ)
  /-- A critical section that does not concern the queues. -/
  | server (input : ServerInput n)
  | loop
  | put (command : Op)
  | await (a : ℕ)
  | pop (a : ℕ)
  | timeout (a : ℕ)
  | erase (a : ℕ)

/-- The inputs of a server that `WaitInput` has a case of its own for. -/
def ServerInput.ForQueues : ServerInput n → Prop
  | .raft (.execute _) => True
  | .loop => True
  | .awaitIndex _ => True
  | .eraseIndex _ => True
  | _ => False

instance : (input : ServerInput n) → Decidable input.ForQueues
  | .raft (.execute _) | .loop | .awaitIndex _ | .eraseIndex _ => .isTrue trivial
  | .raft (.persist _ _) | .raft .getApplyMessages | .raft .stand4Election | .raft .heartBeat
  | .raft (.requestVote _) | .raft (.appendEntries _) | .raft (.installSnapshot _)
  | .raft (.readSnapshot _) | .raft (.appendReply _ _) | .raft (.voteReply _ _)
  | .raft (.snapshotReply _ _) | .take | .push | .installSnapshot _ | .pushMessage _
  | .get _ => .isFalse id

namespace WaitServer

def new (me : Fin n) (maxRaftStateSize : Int) : WaitServer n :=
  { server := Server.new me maxRaftStateSize }

def setHandler (W : WaitServer n) (a : ℕ) (handler : PutHandler) (stage : PutStage) :
    WaitServer n :=
  { W with handlers := W.handlers.set a { handler with stage := stage } }

/-- `_L_tryPush2Wait`. -/
def tryPush2Wait (W : WaitServer n) (command : Op) (index : Int) : WaitServer n :=
  match W.appliedChan index with
  | none => W
  | some que =>
      match W.queues[que]? with
      | some ⟨creator, ops, []⟩ =>
          { W with queues := W.queues.set que { creator := creator, ops := ops ++ [command] } }
      | _ => { W with faults := W.faults ++ [.push que] }

/-- A critical section of `_L_popMessageLoop`. -/
def loop (boost : Boost) (W : WaitServer n) : WaitServer n :=
  let W' :=
    match W.server.app.kv.stage with
    | .tryPush2Wait msg command => W.tryPush2Wait command msg.commandIndex
    | _ => W
  { W' with server := W.server.step boost .loop }

/-- `_L_put` calls `raft::execute`. -/
def put (boost : Boost) (W : WaitServer n) (command : Op) : WaitServer n :=
  let (index, term) := (W.server.proc.node.execute (command.dump boost)).2
  { W with
    server := W.server.step boost (.raft (.execute (command.dump boost)))
    handlers :=
      if index = -1 ∨ term = -1 then W.handlers
      else W.handlers ++ [{ command := command, index := index }] }

/-- `_L_put` gets or creates the queue of its index. -/
def await (boost : Boost) (W : WaitServer n) (a : ℕ) : WaitServer n :=
  match W.handlers[a]? with
  | some ⟨command, index, .executed⟩ =>
      match W.appliedChan index with
      | some que => W.setHandler a ⟨command, index, .executed⟩ (.waiting que)
      | none =>
          { W.setHandler a ⟨command, index, .executed⟩ (.waiting W.queues.length) with
            server := W.server.step boost (.awaitIndex index)
            appliedChan := Function.update W.appliedChan index (some W.queues.length)
            queues := W.queues ++ [{ creator := a }] }
  | _ => W

/-- `que->pop` returns a command. -/
def pop (W : WaitServer n) (a : ℕ) : WaitServer n :=
  match W.handlers[a]? with
  | some ⟨command, index, .waiting que⟩ =>
      match W.queues[que]? with
      | some ⟨creator, ops, []⟩ =>
          match ops with
          | [] => W
          | raftCommitOp :: rest =>
              { W.setHandler a ⟨command, index, .waiting que⟩
                  (.replying que (KvServer.replyToPopped command raftCommitOp)) with
                queues := W.queues.set que { creator := creator, ops := rest }
                server :=
                  { W.server with
                    app :=
                      { W.server.app with
                        kv :=
                          { W.server.app.kv with
                            appliedChan :=
                              Function.update W.server.app.kv.appliedChan index (some rest) } } } }
      | _ => { W with faults := W.faults ++ [.pop que] }
  | _ => W

/-- `que->pop` times out. -/
def timeout (W : WaitServer n) (a : ℕ) : WaitServer n :=
  match W.handlers[a]? with
  | some ⟨command, index, .waiting que⟩ =>
      W.setHandler a ⟨command, index, .waiting que⟩
        (.replying que (W.server.app.kv.replyToTimeout command))
  | _ => W

/-- `_L_put` erases the entry of its index and deletes the queue it finds there. -/
def erase (boost : Boost) (W : WaitServer n) (a : ℕ) : WaitServer n :=
  match W.handlers[a]? with
  | some ⟨command, index, .replying que err⟩ =>
      let W' : WaitServer n :=
        { W.setHandler a ⟨command, index, .replying que err⟩ (.replied que err) with
          server := W.server.step boost (.eraseIndex index)
          appliedChan := Function.update W.appliedChan index none }
      match W.appliedChan index with
      | none => { W' with faults := W.faults ++ [.delete none] }
      | some que =>
          match W.queues[que]? with
          | some ⟨creator, ops, []⟩ =>
              { W' with queues := W.queues.set que { creator := creator, ops := ops, deletes := [a] } }
          | _ => { W' with faults := W.faults ++ [.delete (some que)] }
  | _ => W

def step (boost : Boost) (W : WaitServer n) : WaitInput n → WaitServer n
  | .server input => { W with server := W.server.step boost input }
  | .loop => W.loop boost
  | .put command => W.put boost command
  | .await a => W.await boost a
  | .pop a => W.pop a
  | .timeout a => W.timeout a
  | .erase a => W.erase boost a

/-- Well-formed requests, and no input twice over. -/
def Legal (W : WaitServer n) : WaitInput n → Prop
  | .server input => W.server.Legal input ∧ ¬input.ForQueues
  | _ => True

instance (W : WaitServer n) : (input : WaitInput n) → Decidable (W.Legal input)
  | .server input => inferInstanceAs (Decidable (W.server.Legal input ∧ ¬input.ForQueues))
  | .loop | .put _ | .await _ | .pop _ | .timeout _ | .erase _ => .isTrue trivial

end WaitServer

/-! ## The log only grows -/

/-- A leader answers with the index behind its last one. -/
theorem Node.execute_answer (s : Node n) (command : Bytes) :
    s.execute command = (Node.mPersist { s with logs := s.logs ++ [s.newEntry command] },
      s.getLastLogIndex + 1, s.term) ∨ s.execute command = (s, -1, -1) := by
  unfold Node.execute
  split
  · exact Or.inl rfl
  · exact Or.inr rfl

/-- Whatever a server does, the last index of its log does not go down. -/
theorem Server.step_advances (boost : Boost) {S : Server n} (h : S.proc.IndexInv) {input : ServerInput n}
    (hlegal : S.Legal input) :
    (S.step boost input).proc.IndexInv ∧
      S.proc.node.getLastLogIndex ≤ (S.step boost input).proc.node.getLastLogIndex := by
  have hproc : ∀ {input : Input n}, input.WellFormed → (S.proc.step input).1.IndexInv ∧
      S.proc.node.getLastLogIndex ≤ (S.proc.step input).1.node.getLastLogIndex :=
    fun hinput => ⟨(h.step hinput).1.1, (h.step hinput).1.2.last⟩
  cases input with
  | raft input => exact hproc hlegal.1
  | take =>
    by_cases hmsgs : S.app.applyMsgs = []
    · simp only [Server.step, if_pos hmsgs]
      exact hproc (show Input.WellFormed .getApplyMessages from trivial)
    · simp only [Server.step, if_neg hmsgs]
      exact ⟨h, le_rfl⟩
  | push => exact ⟨h, le_rfl⟩
  | installSnapshot args => exact hproc (show Input.WellFormed (.installSnapshot args) from trivial)
  | pushMessage k => exact ⟨h, le_rfl⟩
  | loop =>
    simp only [Server.step]
    unfold Proc.persistIfAsked
    split
    · exact ⟨h, le_rfl⟩
    · rename_i index shot _
      exact hproc (show Input.WellFormed (.persist index shot) from trivial)
  | get command => exact ⟨h, le_rfl⟩
  | awaitIndex index => exact ⟨h, le_rfl⟩
  | eraseIndex index => exact ⟨h, le_rfl⟩

/-! ## The invariant -/

/-- The queue a handler holds a pointer to and has not deleted. -/
def PutStage.que? : PutStage → Option ℕ
  | .waiting que => some que
  | .replying que _ => some que
  | _ => none

theorem getElem?_set_cases {α : Type} {l : List α} {a b : ℕ} {x y : α}
    (h : (l.set a x)[b]? = some y) : b = a ∧ y = x ∨ b ≠ a ∧ l[b]? = some y := by
  by_cases hb : b = a
  · subst hb
    have hlt : b < l.length := by
      have := (List.getElem?_eq_some_iff.1 h).1
      rwa [List.length_set] at this
    rw [List.getElem?_set_self hlt] at h
    exact Or.inl ⟨rfl, (Option.some.inj h).symm⟩
  · rw [List.getElem?_set_ne (Ne.symm hb)] at h
    exact Or.inr ⟨hb, h⟩

theorem getElem?_set_of_getElem? {α : Type} {l : List α} {a : ℕ} {x : α} (y : α)
    (h : l[a]? = some x) : (l.set a y)[a]? = some y :=
  List.getElem?_set_self (List.getElem?_eq_some_iff.1 h).1

namespace WaitServer

/-- Every handler has an index of its own; an entry of `_M_appliedChan` belongs to the handler of its
    index, which created the queue and holds the only other pointer to it. -/
structure Inv (W : WaitServer n) : Prop where
  raft : W.server.proc.IndexInv
  ascending : (W.handlers.map PutHandler.index).Pairwise (· < ·)
  le : ∀ handler ∈ W.handlers, handler.index ≤ W.server.proc.node.getLastLogIndex
  fresh : ∀ (a : ℕ) handler, W.handlers[a]? = some handler → handler.stage = .executed →
    W.appliedChan handler.index = none
  holds : ∀ (a : ℕ) handler que, W.handlers[a]? = some handler → handler.stage.que? = some que →
    W.appliedChan handler.index = some que ∧
      ∃ ops, W.queues[que]? = some { creator := a, ops := ops }
  entry : ∀ index que, W.appliedChan index = some que →
    ∃ (a : ℕ) (handler : PutHandler), W.handlers[a]? = some handler ∧ handler.index = index ∧
      handler.stage.que? = some que
  cell : ∀ (que : ℕ) queue, W.queues[que]? = some queue →
    ∃ handler, W.handlers[queue.creator]? = some handler ∧
      (handler.stage.que? = some que ∧ queue.deletes = [] ∨
        (∃ err, handler.stage = .replied que err) ∧ queue.deletes = [queue.creator])
  noFault : W.faults = []

variable {W : WaitServer n}

theorem Inv.new (me : Fin n) (size : Int) : (WaitServer.new me size).Inv where
  raft := Proc.IndexInv.new me
  ascending := List.Pairwise.nil
  le := by simp [WaitServer.new]
  fresh := by simp [WaitServer.new]
  holds := by simp [WaitServer.new]
  entry := by simp [WaitServer.new]
  cell := by simp [WaitServer.new]
  noFault := rfl

/-- Handlers with the same index are the same. -/
theorem Inv.eq_of_index (h : W.Inv) {a b : ℕ} {x y : PutHandler} (ha : W.handlers[a]? = some x)
    (hb : W.handlers[b]? = some y) (heq : x.index = y.index) : a = b := by
  have hasc := List.pairwise_iff_getElem.1 h.ascending
  obtain ⟨ha', hx⟩ := List.getElem?_eq_some_iff.1 ha
  obtain ⟨hb', hy⟩ := List.getElem?_eq_some_iff.1 hb
  rcases lt_trichotomy a b with hlt | rfl | hgt
  · have := hasc a b (by simpa using ha') (by simpa using hb') hlt
    simp only [List.getElem_map, hx, hy] at this
    omega
  · rfl
  · have := hasc b a (by simpa using hb') (by simpa using ha') hgt
    simp only [List.getElem_map, hx, hy] at this
    omega

/-- The server does something else. -/
theorem Inv.setServer (h : W.Inv) {server : Server n} (hraft : server.proc.IndexInv)
    (hlast : W.server.proc.node.getLastLogIndex ≤ server.proc.node.getLastLogIndex) :
    Inv { W with server := server } :=
  { h with
    raft := hraft
    le := fun handler hmem => (h.le handler hmem).trans hlast }

/-- The commands in a queue change. -/
theorem Inv.setOps (h : W.Inv) {que creator : ℕ} {ops : List Op}
    (hque : W.queues[que]? = some { creator := creator, ops := ops }) (ops' : List Op) :
    Inv { W with queues := W.queues.set que { creator := creator, ops := ops' } } := by
  refine { h with holds := ?_, cell := ?_ }
  · intro a handler que' ha hstage
    obtain ⟨hentry, ops₀, hcell⟩ := h.holds a handler que' ha hstage
    refine ⟨hentry, ?_⟩
    by_cases hq : que' = que
    · subst hq
      obtain ⟨rfl, -⟩ := WaitQueue.mk.inj (Option.some.inj (hcell.symm.trans hque))
      exact ⟨ops', getElem?_set_of_getElem? _ hque⟩
    · exact ⟨ops₀, (List.getElem?_set_ne (Ne.symm hq)).trans hcell⟩
  · intro que' queue hq
    rcases getElem?_set_cases hq with ⟨rfl, rfl⟩ | ⟨-, hq⟩
    · exact h.cell que' { creator := creator, ops := ops } hque
    · exact h.cell que' queue hq

theorem Inv.tryPush2Wait (h : W.Inv) (command : Op) (index : Int) :
    (W.tryPush2Wait command index).Inv ∧ (W.tryPush2Wait command index).server = W.server := by
  unfold WaitServer.tryPush2Wait
  split
  · exact ⟨h, rfl⟩
  · rename_i que hentry
    obtain ⟨a, handler, ha, -, hstage⟩ := h.entry index que hentry
    obtain ⟨-, ops, hcell⟩ := h.holds a handler que ha hstage
    rw [hcell]
    exact ⟨h.setOps hcell _, rfl⟩

theorem Inv.loop (h : W.Inv) : (W.loop boost).Inv := by
  have hlegal : W.server.Legal (.loop : ServerInput n) := trivial
  have hadv := Server.step_advances boost h.raft hlegal
  unfold WaitServer.loop
  cases hs : W.server.app.kv.stage with
  | tryPush2Wait msg command =>
    obtain ⟨hinv, hserver⟩ := h.tryPush2Wait command msg.commandIndex
    refine hinv.setServer hadv.1 ?_
    rw [hserver]
    exact hadv.2
  | pop => exact h.setServer hadv.1 hadv.2
  | executeCommand msg => exact h.setServer hadv.1 hadv.2
  | executePutOp msg command => exact h.setServer hadv.1 hadv.2
  | maySnapshot msg command => exact h.setServer hadv.1 hadv.2
  | persist msg command => exact h.setServer hadv.1 hadv.2
  | installSnapshot msg => exact h.setServer hadv.1 hadv.2
  | terminated => exact h.setServer hadv.1 hadv.2

/-- A new handler has an index above those of all others. -/
theorem Inv.put (h : W.Inv) (command : Op) : (W.put boost command).Inv := by
  set str := command.dump boost with hstr
  have hlegal : W.server.Legal (.raft (.execute str)) := ⟨trivial, id⟩
  have hadv := Server.step_advances boost h.raft hlegal
  unfold WaitServer.put
  rw [← hstr]
  rcases W.server.proc.node.execute_answer str with heq | heq
  swap
  · simp only [heq, true_or, if_true]
    exact h.setServer hadv.1 hadv.2
  simp only [heq]
  set index := W.server.proc.node.getLastLogIndex + 1 with hindex
  have hlast : index ≤ (W.server.step boost (.raft (.execute str))).proc.node.getLastLogIndex := by
    have hc := hadv.1.node.contiguous.getLastLogIndex
    have hc' := h.raft.node.contiguous.getLastLogIndex
    rw [hc]
    simp only [Server.step, Proc.step, heq, Node.mPersist_logs, Node.mPersist_lastSnapshotIndex,
      List.length_append, List.length_singleton]
    push_cast
    omega
  split_ifs
  · exact h.setServer hadv.1 hadv.2
  have hother : ∀ handler ∈ W.handlers, handler.index < index := by
    intro handler hmem
    have := h.le handler hmem
    omega
  -- what holds of the handlers so far holds of the longer list
  have hold : ∀ (a : ℕ) handler,
      (W.handlers ++ [{ command := command, index := index }])[a]? = some handler →
      W.handlers[a]? = some handler ∨
        handler = { command := command, index := index } := by
    intro a handler ha
    rcases lt_or_ge a W.handlers.length with hlt | hge
    · rw [List.getElem?_append_left hlt] at ha
      exact Or.inl ha
    · rw [List.getElem?_append_right hge] at ha
      exact Or.inr (List.mem_singleton.1 (List.mem_of_getElem? ha))
  have hkeep : ∀ (a : ℕ) handler, W.handlers[a]? = some handler →
      (W.handlers ++ [{ command := command, index := index }])[a]? = some handler := by
    intro a handler ha
    rw [List.getElem?_append_left (List.getElem?_eq_some_iff.1 ha).1]
    exact ha
  constructor
  · exact hadv.1
  · simp only [List.map_append, List.map_cons, List.map_nil, List.pairwise_append]
    refine ⟨h.ascending, List.pairwise_singleton _ _, ?_⟩
    intro i hi j hj
    obtain ⟨handler, hmem, rfl⟩ := List.mem_map.1 hi
    obtain rfl := List.mem_singleton.1 hj
    exact hother handler hmem
  · intro handler hmem
    rcases List.mem_append.1 hmem with hmem | hmem
    · exact (h.le handler hmem).trans hadv.2
    · obtain rfl := List.mem_singleton.1 hmem
      exact hlast
  · intro a handler ha hstage
    rcases hold a handler ha with ha | rfl
    · exact h.fresh a handler ha hstage
    · by_contra hsome
      obtain ⟨que, hentry⟩ := Option.ne_none_iff_exists'.1 hsome
      obtain ⟨b, other, hb, hidx, -⟩ := h.entry index que hentry
      have := hother other (List.mem_of_getElem? hb)
      omega
  · intro a handler que ha hstage
    rcases hold a handler ha with ha | rfl
    · exact h.holds a handler que ha hstage
    · cases hstage
  · intro index' que hentry
    obtain ⟨a, handler, ha, hrest⟩ := h.entry index' que hentry
    exact ⟨a, handler, hkeep a handler ha, hrest⟩
  · intro que queue hq
    obtain ⟨handler, ha, hrest⟩ := h.cell que queue hq
    exact ⟨handler, hkeep _ handler ha, hrest⟩
  · exact h.noFault

/-- A handler with a queue moves on and keeps it. -/
theorem Inv.setHandler (h : W.Inv) (stage : PutStage) {a que : ℕ} {handler : PutHandler}
    (ha : W.handlers[a]? = some handler) (hque : handler.stage.que? = some que)
    (hstage : stage.que? = some que) : (W.setHandler a handler stage).Inv := by
  have hne : stage ≠ .executed := by
    rintro rfl
    cases hstage
  constructor
  · exact h.raft
  · simp only [WaitServer.setHandler]
    rw [map_set_eq_map ha]
    · exact h.ascending
    · rfl
  · intro x hx
    rcases List.mem_or_eq_of_mem_set hx with hx | rfl
    · exact h.le x hx
    · exact h.le handler (List.mem_of_getElem? ha)
  · intro b x hb hx
    rcases getElem?_set_cases hb with ⟨-, rfl⟩ | ⟨-, hb⟩
    · exact absurd hx hne
    · exact h.fresh b x hb hx
  · intro b x q hb hx
    rcases getElem?_set_cases hb with ⟨rfl, rfl⟩ | ⟨-, hb⟩
    · obtain rfl := Option.some.inj (hstage.symm.trans hx)
      exact h.holds b handler que ha hque
    · exact h.holds b x q hb hx
  · intro index q hentry
    obtain ⟨b, x, hb, hidx, hx⟩ := h.entry index q hentry
    by_cases hba : b = a
    · subst hba
      obtain rfl : x = handler := Option.some.inj (hb.symm.trans ha)
      refine ⟨b, { x with stage := stage }, getElem?_set_of_getElem? _ ha, hidx, ?_⟩
      rw [hstage, ← hque, hx]
    · exact ⟨b, x, (List.getElem?_set_ne (Ne.symm hba)).trans hb, hidx, hx⟩
  · intro q queue hq
    obtain ⟨x, hx, hrest⟩ := h.cell q queue hq
    by_cases hc : queue.creator = a
    · rw [hc] at hx ⊢
      obtain rfl : x = handler := Option.some.inj (hx.symm.trans ha)
      refine ⟨{ x with stage := stage }, getElem?_set_of_getElem? _ ha, ?_⟩
      rcases hrest with ⟨hlive, hdel⟩ | ⟨⟨err, hdead⟩, -⟩
      · exact Or.inl ⟨hstage.trans (hque.symm.trans hlive), hdel⟩
      · rw [hdead] at hque
        cases hque
    · exact ⟨x, (List.getElem?_set_ne (Ne.symm hc)).trans hx, hrest⟩
  · exact h.noFault

/-- A handler finds no queue at its index, whose entry nobody else has, and creates one. -/
theorem Inv.await (h : W.Inv) (a : ℕ) : (W.await boost a).Inv := by
  unfold WaitServer.await
  split
  swap
  · exact h
  rename_i command index ha
  have hnone : W.appliedChan index = none := h.fresh a _ ha rfl
  rw [hnone]
  set handler : PutHandler := ⟨command, index, .waiting W.queues.length⟩ with hhandler
  constructor
  · exact h.raft
  · simp only [WaitServer.setHandler]
    rw [map_set_eq_map ha]
    · exact h.ascending
    · rfl
  · intro x hx
    rcases List.mem_or_eq_of_mem_set hx with hx | rfl
    · exact h.le x hx
    · exact h.le ⟨command, index, .executed⟩ (List.mem_of_getElem? ha)
  · intro b x hb hx
    rcases getElem?_set_cases hb with ⟨-, rfl⟩ | ⟨hba, hb⟩
    · cases hx
    · have hidx : x.index ≠ index := fun heq => hba (h.eq_of_index hb ha heq)
      simp only [Function.update_of_ne hidx]
      exact h.fresh b x hb hx
  · intro b x q hb hx
    rcases getElem?_set_cases hb with ⟨rfl, rfl⟩ | ⟨hba, hb⟩
    · obtain rfl := Option.some.inj hx
      exact ⟨Function.update_self .., [], List.getElem?_concat_length⟩
    · have hidx : x.index ≠ index := fun heq => hba (h.eq_of_index hb ha heq)
      obtain ⟨hentry, ops, hcell⟩ := h.holds b x q hb hx
      refine ⟨(Function.update_of_ne hidx ..).trans hentry, ops, ?_⟩
      exact (List.getElem?_append_left (List.getElem?_eq_some_iff.1 hcell).1).trans hcell
  · intro i q hentry
    by_cases hi : i = index
    · subst hi
      simp only [Function.update_self] at hentry
      obtain rfl := Option.some.inj hentry
      exact ⟨a, handler, getElem?_set_of_getElem? _ ha, rfl, rfl⟩
    · simp only [Function.update_of_ne hi] at hentry
      obtain ⟨b, x, hb, hidx, hx⟩ := h.entry i q hentry
      have hba : b ≠ a := by
        rintro rfl
        obtain rfl := Option.some.inj (hb.symm.trans ha)
        exact hi hidx.symm
      exact ⟨b, x, (List.getElem?_set_ne (Ne.symm hba)).trans hb, hidx, hx⟩
  · intro q queue hq
    rcases lt_or_ge q W.queues.length with hlt | hge
    · simp only [List.getElem?_append_left hlt] at hq
      obtain ⟨x, hx, hrest⟩ := h.cell q queue hq
      by_cases hc : queue.creator = a
      · -- the handler had no queue so far
        rw [hc] at hx
        obtain rfl := Option.some.inj (hx.symm.trans ha)
        rcases hrest with ⟨hlive, -⟩ | ⟨⟨err, hdead⟩, -⟩
        · cases hlive
        · cases hdead
      · exact ⟨x, (List.getElem?_set_ne (Ne.symm hc)).trans hx, hrest⟩
    · simp only [List.getElem?_append_right hge] at hq
      have hlt := (List.getElem?_eq_some_iff.1 hq).1
      have hqlen : q = W.queues.length := by
        simp only [List.length_singleton] at hlt
        omega
      obtain rfl := List.mem_singleton.1 (List.mem_of_getElem? hq)
      exact ⟨handler, getElem?_set_of_getElem? _ ha, Or.inl ⟨by rw [hqlen]; rfl, rfl⟩⟩
  · exact h.noFault

theorem Inv.pop (h : W.Inv) (a : ℕ) : (W.pop a).Inv := by
  unfold WaitServer.pop
  split
  swap
  · exact h
  rename_i command index que ha
  obtain ⟨-, ops, hcell⟩ := h.holds a _ que ha rfl
  rw [hcell]
  cases ops with
  | nil => exact h
  | cons raftCommitOp rest =>
    have hstage := h.setHandler (.replying que (KvServer.replyToPopped command raftCommitOp))
      ha rfl rfl
    exact (hstage.setOps hcell rest).setServer h.raft le_rfl

theorem Inv.timeout (h : W.Inv) (a : ℕ) : (W.timeout a).Inv := by
  unfold WaitServer.timeout
  split
  swap
  · exact h
  rename_i command index que ha
  exact h.setHandler _ ha rfl rfl

/-- A handler deletes the queue it has created. -/
theorem Inv.erase (h : W.Inv) (a : ℕ) : (W.erase boost a).Inv := by
  unfold WaitServer.erase
  split
  swap
  · exact h
  rename_i command index que err ha
  obtain ⟨hentry, ops, hcell⟩ := h.holds a _ que ha rfl
  dsimp only
  dsimp only at hentry
  rw [hentry]
  simp only [hcell]
  constructor
  · exact h.raft
  · simp only [WaitServer.setHandler]
    rw [map_set_eq_map ha]
    · exact h.ascending
    · rfl
  · intro x hx
    rcases List.mem_or_eq_of_mem_set hx with hx | rfl
    · exact h.le x hx
    · exact h.le ⟨command, index, .replying que err⟩ (List.mem_of_getElem? ha)
  · intro b x hb hx
    rcases getElem?_set_cases hb with ⟨-, rfl⟩ | ⟨hba, hb⟩
    · cases hx
    · have hidx : x.index ≠ index := fun heq => hba (h.eq_of_index hb ha heq)
      simp only [Function.update_of_ne hidx]
      exact h.fresh b x hb hx
  · intro b x q hb hx
    rcases getElem?_set_cases hb with ⟨-, rfl⟩ | ⟨hba, hb⟩
    · cases hx
    · have hidx : x.index ≠ index := fun heq => hba (h.eq_of_index hb ha heq)
      obtain ⟨hentry', ops', hcell'⟩ := h.holds b x q hb hx
      refine ⟨(Function.update_of_ne hidx ..).trans hentry', ops', ?_⟩
      have hq : q ≠ que := by
        rintro rfl
        obtain ⟨heq, -⟩ := WaitQueue.mk.inj (Option.some.inj (hcell'.symm.trans hcell))
        exact hba heq
      exact (List.getElem?_set_ne (Ne.symm hq)).trans hcell'
  · intro i q hi
    by_cases hidx : i = index
    · subst hidx
      simp only [Function.update_self] at hi
      cases hi
    · simp only [Function.update_of_ne hidx] at hi
      obtain ⟨b, x, hb, hx, hstage⟩ := h.entry i q hi
      have hba : b ≠ a := by
        rintro rfl
        obtain rfl := Option.some.inj (hb.symm.trans ha)
        exact hidx hx.symm
      exact ⟨b, x, (List.getElem?_set_ne (Ne.symm hba)).trans hb, hx, hstage⟩
  · intro q queue hq
    rcases getElem?_set_cases hq with ⟨rfl, rfl⟩ | ⟨hne, hq⟩
    · exact ⟨⟨command, index, .replied q err⟩, getElem?_set_of_getElem? _ ha,
        Or.inr ⟨⟨err, rfl⟩, rfl⟩⟩
    · obtain ⟨x, hx, hrest⟩ := h.cell q queue hq
      by_cases hc : queue.creator = a
      · rw [hc] at hx
        obtain rfl := Option.some.inj (hx.symm.trans ha)
        rcases hrest with ⟨hlive, -⟩ | ⟨⟨err', hdead⟩, -⟩
        · exact absurd (Option.some.inj hlive).symm hne
        · cases hdead
      · exact ⟨x, (List.getElem?_set_ne (Ne.symm hc)).trans hx, hrest⟩
  · exact h.noFault

theorem Inv.step (h : W.Inv) {input : WaitInput n} (hlegal : W.Legal input) :
    (W.step boost input).Inv := by
  cases input with
  | server input =>
    have hadv := Server.step_advances boost h.raft hlegal.1
    exact h.setServer hadv.1 hadv.2
  | loop => exact h.loop
  | put command => exact h.put command
  | await a => exact h.await a
  | pop a => exact h.pop a
  | timeout a => exact h.timeout a
  | erase a => exact h.erase a

/-! ### The queues by index -/

/-- The commands in the queue of an index. -/
def queueAt (W : WaitServer n) (index : Int) : Option (List Op) :=
  (W.appliedChan index).bind fun que => W.queues[que]?.map WaitQueue.ops

/-- Two entries never share a queue. -/
theorem Inv.entry_ne (h : W.Inv) {i j : Int} {que que' : ℕ} (hi : W.appliedChan i = some que)
    (hj : W.appliedChan j = some que') (hne : i ≠ j) : que ≠ que' := by
  rintro rfl
  obtain ⟨a, x, ha, rfl, hx⟩ := h.entry i que hi
  obtain ⟨b, y, hb, rfl, hy⟩ := h.entry j que hj
  obtain ⟨-, ops, hcell⟩ := h.holds a x que ha hx
  obtain ⟨-, ops', hcell'⟩ := h.holds b y que hb hy
  obtain ⟨rfl, -⟩ := WaitQueue.mk.inj (Option.some.inj (hcell.symm.trans hcell'))
  obtain rfl := Option.some.inj (ha.symm.trans hb)
  exact hne rfl

/-- The commands in one queue change. -/
theorem Inv.queueAt_set (h : W.Inv) {index : Int} {que creator : ℕ} {ops : List Op}
    (hentry : W.appliedChan index = some que)
    (hque : W.queues[que]? = some { creator := creator, ops := ops }) (ops' : List Op) :
    (fun i => (W.appliedChan i).bind fun q =>
      (W.queues.set que { creator := creator, ops := ops' })[q]?.map WaitQueue.ops) =
      Function.update W.queueAt index (some ops') := by
  funext i
  by_cases hi : i = index
  · subst hi
    rw [Function.update_self, hentry, Option.bind_some, getElem?_set_of_getElem? _ hque]
    rfl
  · rw [Function.update_of_ne hi, queueAt]
    rcases hq : W.appliedChan i with _ | q
    · rfl
    · rw [Option.bind_some, Option.bind_some,
        List.getElem?_set_ne (h.entry_ne hentry hq (Ne.symm hi))]

end WaitServer

/-- `_M_appliedChan` is left alone. -/
theorem Server.step_appliedChan (S : Server n) {input : ServerInput n} (h : ¬input.ForQueues) :
    (S.step boost input).app.kv.appliedChan = S.app.kv.appliedChan := by
  cases input with
  | raft input => rfl
  | take =>
    simp only [Server.step]
    unfold App.take
    split <;> rfl
  | push =>
    simp only [Server.step]
    unfold App.push
    split <;> rfl
  | installSnapshot args => rfl
  | pushMessage k =>
    simp only [Server.step]
    unfold App.pushMessage
    split <;> rfl
  | loop => exact absurd trivial h
  | get command => rfl
  | awaitIndex index => exact absurd trivial h
  | eraseIndex index => exact absurd trivial h

/-- Only `_L_tryPush2Wait` touches `_M_appliedChan`. -/
theorem KvServer.popMessageLoop_appliedChan (kv : KvServer) (size : Int) :
    (kv.popMessageLoop boost size).1.appliedChan =
      match kv.stage with
      | .tryPush2Wait msg command => (kv.tryPush2Wait command msg.commandIndex).appliedChan
      | _ => kv.appliedChan := by
  unfold KvServer.popMessageLoop
  cases hs : kv.stage with
  | pop => cases kv.applyChan <;> rfl
  | executeCommand msg =>
    simp only
    split_ifs
    · rfl
    · cases Op.load boost msg.command <;> rfl
  | executePutOp msg command => rfl
  | maySnapshot msg command => rfl
  | persist msg command => rfl
  | tryPush2Wait msg command => rfl
  | installSnapshot msg =>
    simp only [KvServer.installSnapshot]
    cases hload : ({ kv with stage := .pop } : KvServer).load boost msg.snapshot with
    | none => rfl
    | some kv' =>
      obtain ⟨data, lastRequestId, rfl⟩ := KvServer.load_eq hload
      rfl
  | terminated => rfl

namespace WaitServer

variable {W : WaitServer n}

/-- The `kvServer` with queues by index sees the same commands in them. -/
theorem Inv.refines (h : W.Inv) (hqueue : W.server.app.kv.appliedChan = W.queueAt)
    {input : WaitInput n} (hlegal : W.Legal input) :
    (W.step boost input).server.app.kv.appliedChan = (W.step boost input).queueAt := by
  cases input with
  | server input =>
    simp only [WaitServer.step]
    rw [Server.step_appliedChan _ hlegal.2, hqueue]
    rfl
  | loop =>
    simp only [WaitServer.step, WaitServer.loop, Server.step, App.loop]
    rw [KvServer.popMessageLoop_appliedChan]
    cases hs : W.server.app.kv.stage with
    | tryPush2Wait msg command =>
      simp only [WaitServer.tryPush2Wait, KvServer.tryPush2Wait, hqueue]
      rcases hentry : W.appliedChan msg.commandIndex with _ | que
      · simp only [queueAt, hentry, Option.bind_none]
        exact hqueue
      · obtain ⟨a, x, ha, -, hx⟩ := h.entry _ que hentry
        obtain ⟨-, ops, hcell⟩ := h.holds a x que ha hx
        have hat : W.queueAt msg.commandIndex = some ops := by
          rw [queueAt, hentry, Option.bind_some, hcell]
          rfl
        simp only [hat, hcell]
        exact (h.queueAt_set hentry hcell _).symm
    | pop => exact hqueue
    | executeCommand msg => exact hqueue
    | executePutOp msg command => exact hqueue
    | maySnapshot msg command => exact hqueue
    | persist msg command => exact hqueue
    | installSnapshot msg => exact hqueue
    | terminated => exact hqueue
  | put command => exact hqueue
  | await a =>
    simp only [WaitServer.step]
    unfold WaitServer.await
    split
    swap
    · exact hqueue
    rename_i command index ha
    have hnone : W.appliedChan index = none := h.fresh a _ ha rfl
    have hat : W.queueAt index = none := by rw [queueAt, hnone, Option.bind_none]
    rw [hnone]
    simp only [Server.step, KvServer.awaitIndex, hqueue, hat, WaitServer.setHandler]
    funext i
    by_cases hi : i = index
    · subst hi
      rw [Function.update_self, queueAt]
      simp only [Function.update_self, Option.bind_some, List.getElem?_concat_length]
      rfl
    · rw [Function.update_of_ne hi]
      simp only [queueAt, Function.update_of_ne hi]
      rcases hq : W.appliedChan i with _ | q
      · rfl
      · obtain ⟨b, y, hb, -, hy⟩ := h.entry i q hq
        obtain ⟨-, ops, hcell⟩ := h.holds b y q hb hy
        rw [Option.bind_some, Option.bind_some,
          List.getElem?_append_left (List.getElem?_eq_some_iff.1 hcell).1]
  | pop a =>
    simp only [WaitServer.step]
    unfold WaitServer.pop
    split
    swap
    · exact hqueue
    rename_i command index que ha
    obtain ⟨hentry, ops, hcell⟩ := h.holds a _ que ha rfl
    rw [hcell]
    cases ops with
    | nil => exact hqueue
    | cons raftCommitOp rest =>
      simp only [hqueue]
      exact (h.queueAt_set hentry hcell rest).symm
  | timeout a =>
    simp only [WaitServer.step]
    unfold WaitServer.timeout
    split
    · exact hqueue
    · exact hqueue
  | erase a =>
    simp only [WaitServer.step]
    unfold WaitServer.erase
    split
    swap
    · exact hqueue
    rename_i command index que err ha
    obtain ⟨hentry, ops, hcell⟩ := h.holds a _ que ha rfl
    dsimp only at hentry ⊢
    rw [hentry]
    simp only [hcell, Server.step, KvServer.eraseIndex, hqueue, WaitServer.setHandler]
    funext i
    by_cases hi : i = index
    · subst hi
      rw [Function.update_self, queueAt]
      simp only [Function.update_self, Option.bind_none]
    · rw [Function.update_of_ne hi]
      simp only [queueAt, Function.update_of_ne hi]
      rcases hq : W.appliedChan i with _ | q
      · rfl
      · rw [Option.bind_some, Option.bind_some,
          List.getElem?_set_ne (h.entry_ne hentry hq (Ne.symm hi))]

theorem inv_of_reach (me : Fin n) (size : Int)
    (h : GuardedRun.Reach (WaitServer.new me size) (step boost) Legal W) : W.Inv :=
  GuardedRun.Reach.invariant (P := Inv) (.new me size) (fun _ _ _ hW hlegal => hW.step hlegal) h

/-- In every run the queues by index of the `kvServer` are the queues the handlers point to. -/
theorem queues_refined (me : Fin n) (size : Int)
    (h : GuardedRun.Reach (WaitServer.new me size) (step boost) Legal W) :
    W.server.app.kv.appliedChan = W.queueAt := by
  refine GuardedRun.Reach.invariant (P := fun W => W.server.app.kv.appliedChan = W.queueAt) rfl
    (fun W input hreach hW hlegal => ?_) h
  exact (inv_of_reach me size hreach).refines hW hlegal

/-- The indices that `raft::execute` has given to the puts rise strictly; no two handlers use the same
    entry or the same queue, a queue is deleted by its creator alone, once and when that is done, and
    nothing reaches a deleted queue. -/
structure SlotsPrivate (W : WaitServer n) : Prop where
  ascending : (W.handlers.map PutHandler.index).Pairwise (· < ·)
  apart : ∀ (a b : ℕ) x y, W.handlers[a]? = some x → W.handlers[b]? = some y → a ≠ b →
    x.index ≠ y.index ∧ ∀ que, x.stage.que? = some que → y.stage.que? ≠ some que
  deleted : ∀ (que : ℕ) queue, W.queues[que]? = some queue →
    ∃ x, W.handlers[queue.creator]? = some x ∧
      (x.stage.que? = some que ∧ queue.deletes = [] ∨
        (∃ err, x.stage = .replied que err) ∧ queue.deletes = [queue.creator])
  noFault : W.faults = []

theorem Inv.slotsPrivate (h : W.Inv) : W.SlotsPrivate := by
  refine ⟨h.ascending, fun a b x y ha hb hne => ⟨fun heq => ?_, fun que hx hy => ?_⟩, h.cell,
    h.noFault⟩
  · exact hne (h.eq_of_index ha hb heq)
  · obtain ⟨-, ops, hcell⟩ := h.holds a x que ha hx
    obtain ⟨-, ops', hcell'⟩ := h.holds b y que hb hy
    exact hne (WaitQueue.mk.inj (Option.some.inj (hcell.symm.trans hcell'))).1

end WaitServer

end RaftKVStorage
