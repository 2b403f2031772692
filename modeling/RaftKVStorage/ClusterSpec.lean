import RaftKVStorage.IndexInvariant

set_option autoImplicit false

/-! # Steps of the cluster

Every step of the cluster feeds one process an input; a delivery also notes the reply with the call
it answers. `Cluster.Move` lists the cases, so that an invariant is shown for `Cluster.feed` and for
the noting of a reply, and nothing else. -/

namespace RaftKVStorage

variable {n : ℕ}

/-- The inputs that carry no message. -/
def Input.Local : Input n → Prop
  | .execute _ => True
  | .persist _ _ => True
  | .getApplyMessages => True
  | .stand4Election => True
  | .heartBeat => True
  | .readSnapshot _ => True
  | _ => False

theorem Input.Local.wellFormed {input : Input n} (h : input.Local) : input.WellFormed := by
  cases input with
  | appendEntries args => exact absurd h id
  | _ => trivial

/-- The inputs that are another node's requests. -/
def Input.Request : Input n → Prop
  | .appendEntries _ => True
  | .requestVote _ => True
  | .installSnapshot _ => True
  | _ => False

/-! ## Noting replies -/

/-- The `k`-th appendEntries call of `p` becomes `call`. -/
def Cluster.answerAppend (σ : Cluster n) (p : Fin n) (k : ℕ) (call : AppendCall n) : Cluster n :=
  σ.setProc p { σ.procs p with appendCalls := (σ.procs p).appendCalls.set k call }

/-- The server of the `k`-th appendEntries call of `p` died handling it. -/
def Cluster.dropAppend (σ : Cluster n) (p : Fin n) (k : ℕ) : Cluster n :=
  σ.setProc p { σ.procs p with appendCalls := (σ.procs p).appendCalls.eraseIdx k }

/-- The `k`-th requestVote call of `p` becomes `call`. -/
def Cluster.answerVote (σ : Cluster n) (p : Fin n) (k : ℕ) (call : VoteCall n) : Cluster n :=
  σ.setProc p { σ.procs p with voteCalls := (σ.procs p).voteCalls.set k call }

/-- The `k`-th installSnapshot call of `p` becomes `call`. -/
def Cluster.answerSnapshot (σ : Cluster n) (p : Fin n) (k : ℕ) (call : SnapshotCall n) :
    Cluster n :=
  σ.setProc p { σ.procs p with snapshotCalls := (σ.procs p).snapshotCalls.set k call }

/-- The server of the `k`-th installSnapshot call of `p` died handling it. -/
def Cluster.dropSnapshot (σ : Cluster n) (p : Fin n) (k : ℕ) : Cluster n :=
  σ.setProc p { σ.procs p with snapshotCalls := (σ.procs p).snapshotCalls.eraseIdx k }

/-- The commands handed out at `p` are recorded. -/
def Cluster.record (σ : Cluster n) (p : Fin n) (messages : List ApplyMessage) : Cluster n :=
  { σ with history := σ.history ++ [.applied p messages] }

/-! ## The moves -/

/-- The ways an action changes the cluster. -/
inductive Cluster.Move (σ : Cluster n) : Action n → Cluster n → Prop
  | idle (a : Action n) : Move σ a σ
  | run (a : Action n) (p : Fin n) {input : Input n} (hlocal : input.Local) :
      Move σ a (σ.feed p input)
  | apply (p : Fin n) (hfault : (σ.procs p).node.getApplyMessages.fault = none) :
      Move σ (.getApplyMessages p)
        ((σ.feed p .getApplyMessages).record p (σ.procs p).node.getApplyMessages.ret)
  | deliverAppend (p : Fin n) (k : ℕ) {call : AppendCall n}
      (hcall : (σ.procs p).appendCalls[k]? = some call) (hreply : call.reply = none)
      (hfault : ((σ.procs call.server).node.appendEntries call.args).fault = none) :
      Move σ (.deliverAppend p k) ((σ.feed call.server (.appendEntries call.args)).answerAppend p k
        { call with reply := some ((σ.procs call.server).node.appendEntries call.args).ret })
  | loseAppend (p : Fin n) (k : ℕ) {call : AppendCall n} {fault : Fault}
      (hcall : (σ.procs p).appendCalls[k]? = some call) (hreply : call.reply = none)
      (hfault : ((σ.procs call.server).node.appendEntries call.args).fault = some fault) :
      Move σ (.deliverAppend p k) ((σ.feed call.server (.appendEntries call.args)).dropAppend p k)
  | deliverVote (p : Fin n) (k : ℕ) {call : VoteCall n}
      (hcall : (σ.procs p).voteCalls[k]? = some call) :
      Move σ (.deliverVote p k) ((σ.feed call.server (.requestVote call.args)).answerVote p k
        { call with reply := some ((σ.procs call.server).node.requestVote call.args).2 })
  | deliverSnapshot (p : Fin n) (k : ℕ) {call : SnapshotCall n} {args : InstallSnapshotArgs}
      (hcall : (σ.procs p).snapshotCalls[k]? = some call) (hargs : call.args = some args)
      (hfault : ((σ.procs call.server).node.installSnapshot args).fault = none) :
      Move σ (.deliverSnapshot p k) ((σ.feed call.server (.installSnapshot args)).answerSnapshot p k
        { call with reply := some ((σ.procs call.server).node.installSnapshot args).ret.1 })
  | loseSnapshot (p : Fin n) (k : ℕ) {call : SnapshotCall n} {args : InstallSnapshotArgs}
      {fault : Fault} (hcall : (σ.procs p).snapshotCalls[k]? = some call)
      (hargs : call.args = some args)
      (hfault : ((σ.procs call.server).node.installSnapshot args).fault = some fault) :
      Move σ (.deliverSnapshot p k) ((σ.feed call.server (.installSnapshot args)).dropSnapshot p k)
  | returnAppend (p : Fin n) (k : ℕ) {call : AppendCall n} {reply : AppendEntriesReply}
      (hcall : (σ.procs p).appendCalls[k]? = some call) (hreply : call.reply = some reply) :
      Move σ (.returnAppend p k) (σ.feed p (.appendReply k reply))
  | returnVote (p : Fin n) (k : ℕ) {call : VoteCall n} {reply : RequestVoteReply}
      (hcall : (σ.procs p).voteCalls[k]? = some call) (hreply : call.reply = some reply) :
      Move σ (.returnVote p k) (σ.feed p (.voteReply k reply))
  | returnSnapshot (p : Fin n) (k : ℕ) {call : SnapshotCall n} {reply : InstallSnapshotReply}
      (hcall : (σ.procs p).snapshotCalls[k]? = some call) (hreply : call.reply = some reply) :
      Move σ (.returnSnapshot p k) (σ.feed p (.snapshotReply k reply))

theorem Cluster.getApplyMessages_move (σ : Cluster n) (p : Fin n) :
    σ.Move (.getApplyMessages p) (σ.getApplyMessages p) := by
  unfold Cluster.getApplyMessages
  dsimp only
  split
  · exact .apply p ‹_›
  · exact .run _ p trivial

theorem Cluster.deliverAppend_move (σ : Cluster n) (p : Fin n) (k : ℕ) :
    σ.Move (.deliverAppend p k) (σ.deliverAppend p k) := by
  unfold Cluster.deliverAppend
  split
  · rename_i server args cell hcall
    rcases hfault : ((σ.procs server).node.appendEntries args).fault with _ | fault
    · simp only [hfault]
      exact Move.deliverAppend p k hcall rfl hfault
    · simp only [hfault]
      exact Move.loseAppend p k hcall rfl hfault
  · exact .idle _

theorem Cluster.deliverVote_move (σ : Cluster n) (p : Fin n) (k : ℕ) :
    σ.Move (.deliverVote p k) (σ.deliverVote p k) := by
  unfold Cluster.deliverVote
  split
  · rename_i server args cell hcall
    exact Move.deliverVote p k hcall
  · exact .idle _

theorem Cluster.deliverSnapshot_move (σ : Cluster n) (p : Fin n) (k : ℕ) :
    σ.Move (.deliverSnapshot p k) (σ.deliverSnapshot p k) := by
  unfold Cluster.deliverSnapshot
  split
  · rename_i server args hcall
    rcases hfault : ((σ.procs server).node.installSnapshot args).fault with _ | fault
    · simp only [hfault]
      exact Move.deliverSnapshot p k hcall rfl hfault
    · simp only [hfault]
      exact Move.loseSnapshot p k hcall rfl hfault
  · exact .idle _

/-- Every step is one of the moves. -/
theorem Cluster.step_move (σ : Cluster n) (a : Action n) : σ.Move a (σ.step a) := by
  cases a with
  | execute p command => exact .run _ p trivial
  | persist p index shot => exact .run _ p trivial
  | getApplyMessages p => exact σ.getApplyMessages_move p
  | stand4Election p => exact .run _ p trivial
  | heartBeat p => exact .run _ p trivial
  | readSnapshot p k => exact .run _ p trivial
  | deliverAppend p k => exact σ.deliverAppend_move p k
  | deliverVote p k => exact σ.deliverVote_move p k
  | deliverSnapshot p k => exact σ.deliverSnapshot_move p k
  | returnAppend p k =>
      simp only [Cluster.step]
      split
      · exact .returnAppend p k ‹_› rfl
      · exact .idle _
  | returnVote p k =>
      simp only [Cluster.step]
      split
      · exact .returnVote p k ‹_› rfl
      · exact .idle _
  | returnSnapshot p k =>
      simp only [Cluster.step]
      split
      · exact .returnSnapshot p k ‹_› rfl
      · exact .idle _

/-! ## Processes and history after a move -/

section Effects

variable (σ : Cluster n) (p : Fin n)

theorem Cluster.feed_procs (input : Input n) :
    (σ.feed p input).procs = Function.update σ.procs p ((σ.procs p).step input).1 := rfl

@[simp] theorem Cluster.feed_procs_self (input : Input n) :
    (σ.feed p input).procs p = ((σ.procs p).step input).1 := by simp [Cluster.feed_procs]

theorem Cluster.feed_procs_ne (input : Input n) {q : Fin n} (h : q ≠ p) :
    (σ.feed p input).procs q = σ.procs q := by simp [Cluster.feed_procs, h]

theorem Cluster.feed_history (input : Input n) : (σ.feed p input).history =
    σ.history ++ observe p (σ.procs p).node ((σ.procs p).step input).1.node := rfl

/-- Nothing is observed where the node stays the same. -/
theorem observe_self (s : Node n) : observe p s s = [] := by
  simp only [observe, ne_eq, not_true_eq_false, or_self, if_false, List.nil_append, and_not_self,
    lt_self_iff_false, and_false]

theorem Cluster.setProc_history {P : Proc n} (h : P.node = (σ.procs p).node) :
    (σ.setProc p P).history = σ.history := by
  simp [Cluster.setProc, h, observe_self]

theorem Cluster.setProc_node {P : Proc n} (h : P.node = (σ.procs p).node) (q : Fin n) :
    ((σ.setProc p P).procs q).node = (σ.procs q).node := by
  rcases eq_or_ne q p with rfl | hq
  · simpa [Cluster.setProc] using h
  · simp [Cluster.setProc, hq]

/-- A property of all processes holds after `setProc` if it holds of the new process. -/
theorem Cluster.forall_setProc {I : Fin n → Proc n → Prop} {P : Proc n}
    (h : ∀ q, I q (σ.procs q)) (hP : I p P) (q : Fin n) : I q ((σ.setProc p P).procs q) := by
  rcases eq_or_ne q p with rfl | hq
  · simpa [Cluster.setProc] using hP
  · simpa [Cluster.setProc, hq] using h q

/-- A request leaves the threads of every process alone. -/
theorem Cluster.feed_request (server : Fin n) (input : Input n) (h : input.Request) :
    ((σ.feed server input).procs p).appendCalls = (σ.procs p).appendCalls ∧
      ((σ.feed server input).procs p).voteCalls = (σ.procs p).voteCalls ∧
      ((σ.feed server input).procs p).snapshotCalls = (σ.procs p).snapshotCalls ∧
      ((σ.feed server input).procs p).appendNums = (σ.procs p).appendNums ∧
      ((σ.feed server input).procs p).voteNums = (σ.procs p).voteNums := by
  rcases eq_or_ne p server with rfl | hp
  · rw [Cluster.feed_procs_self]
    cases input with
    | appendEntries args => exact ⟨rfl, rfl, rfl, rfl, rfl⟩
    | requestVote args => exact ⟨rfl, rfl, rfl, rfl, rfl⟩
    | installSnapshot args => exact ⟨rfl, rfl, rfl, rfl, rfl⟩
    | _ => exact absurd h id
  · rw [σ.feed_procs_ne server input hp]
    exact ⟨rfl, rfl, rfl, rfl, rfl⟩

end Effects

/-! ## The index invariant of every process -/

theorem Cluster.feed_indexInv {σ : Cluster n} (h : ∀ p, (σ.procs p).IndexInv) (p : Fin n)
    (input : Input n) (hinput : input.WellFormed) (q : Fin n) : ((σ.feed p input).procs q).IndexInv :=
  σ.forall_setProc p (I := fun _ P => P.IndexInv) h ((h p).step hinput).1.1 q

/-- Noting a reply changes nothing the index invariant looks at. -/
theorem Proc.IndexInv.answer {P P' : Proc n} (h : P.IndexInv) (hnode : P'.node = P.node)
    (happend : ∀ call ∈ P'.appendCalls, ∃ call' ∈ P.appendCalls, call.args = call'.args)
    (hsnap : ∀ call ∈ P'.snapshotCalls, ∃ call' ∈ P.snapshotCalls, call.args = call'.args) :
    P'.IndexInv := by
  refine ⟨hnode ▸ h.node, fun call hc => ?_, fun call hc => ?_, fun call hc args ha => ?_⟩
  · obtain ⟨call', hc', heq⟩ := happend call hc
    rw [heq]
    exact h.appendConsecutive call' hc'
  · obtain ⟨call', hc', heq⟩ := happend call hc
    rw [heq, hnode]
    exact h.appendLeLast call' hc'
  · obtain ⟨call', hc', heq⟩ := hsnap call hc
    rw [hnode]
    exact h.snapshotLeLast call' hc' args (heq ▸ ha)

/-- A member of a list with one place overwritten is an old member or the new one. -/
theorem exists_of_mem_set {α β : Type} {l : List α} {k : ℕ} {x y a : α} {f : α → β}
    (hx : l[k]? = some x) (ha : a ∈ l.set k y) (hf : f y = f x) : ∃ b ∈ l, f a = f b := by
  rcases List.mem_or_eq_of_mem_set ha with h | rfl
  · exact ⟨a, h, rfl⟩
  · exact ⟨x, List.mem_of_getElem? hx, hf⟩

theorem map_set_eq_map {α β : Type} {l : List α} {k : ℕ} {x y : α} {f : α → β}
    (hx : l[k]? = some x) (hf : f y = f x) : (l.set k y).map f = l.map f := by
  obtain ⟨hk, rfl⟩ := List.getElem?_eq_some_iff.1 hx
  rw [List.map_set, hf, ← List.getElem_map f (h := by simpa using hk), List.set_getElem_self]

theorem Cluster.Move.indexInv {σ σ' : Cluster n} {a : Action n} (hmove : σ.Move a σ')
    (h : ∀ p, (σ.procs p).IndexInv) : ∀ p, (σ'.procs p).IndexInv := by
  cases hmove with
  | idle => exact h
  | run _ p hlocal => exact Cluster.feed_indexInv h p _ hlocal.wellFormed
  | apply p _ => exact Cluster.feed_indexInv h p .getApplyMessages trivial
  | @deliverAppend p k call hcall _ _ =>
      have hf := Cluster.feed_indexInv h call.server (.appendEntries call.args)
        ((h p).appendConsecutive call (List.mem_of_getElem? hcall))
      rw [← (σ.feed_request p call.server (.appendEntries call.args) trivial).1] at hcall
      exact Cluster.forall_setProc _ p (I := fun _ P => P.IndexInv) hf ((hf p).answer rfl
        (fun c hc => exists_of_mem_set (f := AppendCall.args) hcall hc rfl) fun c hc => ⟨c, hc, rfl⟩)
  | @loseAppend p k call _ hcall _ _ =>
      have hf := Cluster.feed_indexInv h call.server (.appendEntries call.args)
        ((h p).appendConsecutive call (List.mem_of_getElem? hcall))
      exact Cluster.forall_setProc _ p (I := fun _ P => P.IndexInv) hf ((hf p).answer rfl
        (fun c hc => ⟨c, List.mem_of_mem_eraseIdx hc, rfl⟩) fun c hc => ⟨c, hc, rfl⟩)
  | @deliverVote p k call hcall =>
      have hf := Cluster.feed_indexInv h call.server (.requestVote call.args) trivial
      exact Cluster.forall_setProc _ p (I := fun _ P => P.IndexInv) hf ((hf p).answer rfl
        (fun c hc => ⟨c, hc, rfl⟩) fun c hc => ⟨c, hc, rfl⟩)
  | @deliverSnapshot p k call args hcall hargs _ =>
      have hf := Cluster.feed_indexInv h call.server (.installSnapshot args) trivial
      rw [← (σ.feed_request p call.server (.installSnapshot args) trivial).2.2.1] at hcall
      exact Cluster.forall_setProc _ p (I := fun _ P => P.IndexInv) hf ((hf p).answer rfl
        (fun c hc => ⟨c, hc, rfl⟩) fun c hc =>
          exists_of_mem_set (f := SnapshotCall.args) hcall hc rfl)
  | @loseSnapshot p k call args _ hcall hargs _ =>
      have hf := Cluster.feed_indexInv h call.server (.installSnapshot args) trivial
      exact Cluster.forall_setProc _ p (I := fun _ P => P.IndexInv) hf ((hf p).answer rfl
        (fun c hc => ⟨c, hc, rfl⟩) fun c hc => ⟨c, List.mem_of_mem_eraseIdx hc, rfl⟩)
  | returnAppend p k _ _ => exact Cluster.feed_indexInv h p _ trivial
  | returnVote p k _ _ => exact Cluster.feed_indexInv h p _ trivial
  | returnSnapshot p k _ _ => exact Cluster.feed_indexInv h p _ trivial

/-- The index invariant holds of every process in every run. -/
theorem Cluster.Reachable.indexInv {σ : Cluster n} (h : σ.Reachable) (p : Fin n) :
    (σ.procs p).IndexInv := by
  refine GuardedRun.Reach.invariant (P := fun σ => ∀ p, (σ.procs p).IndexInv)
    (fun p => .new p) (fun σ a _ hσ _ => (σ.step_move a).indexInv hσ) h p

end RaftKVStorage
