import RaftKVStorage.LogRepair

set_option autoImplicit false

/-! # What a leader has on record about its peers

`_M_matchIndex` and `_M_nextIndex` are written on three paths. A success raises the first and puts the
second right behind it. A rejection takes over the peer's hint as it is, and a finished snapshot its
last index, also when a later acknowledgement has long overtaken them. -/

namespace RaftKVStorage

variable {n : ℕ}

/-- `_M_nextIndex[i]` is above `_M_matchIndex[i]` for every peer. -/
def Node.NextAboveMatch (s : Node n) : Prop := ∀ i, s.matchIndex i + 1 ≤ s.nextIndex i

/-- No peer is noted further back in `s'` than in `s`, or is to be sent again what it has in `s'`. -/
structure Node.Progress (s s' : Node n) : Prop where
  matchIndex : ∀ i, s.matchIndex i ≤ s'.matchIndex i
  nextIndex : s'.NextAboveMatch

/-- A rejection that a leader heeds although the peer has acknowledged the entry it asks for. -/
def Node.OldHint (s : Node n) (server : Fin n) (reply : AppendEntriesReply) : Prop :=
  s.identity = .leader ∧ reply.state = .connected ∧ reply.term = s.term ∧ reply.success = false ∧
    reply.updateNextIndex ≠ invalidUpdateNextIndex ∧
    reply.updateNextIndex ≤ s.matchIndex server

/-- A finished snapshot that a leader takes note of although the peer has acknowledged more. -/
def Node.OldSnapshot (s : Node n) (server : Fin n) (args : InstallSnapshotArgs)
    (reply : InstallSnapshotReply) : Prop :=
  s.identity = .leader ∧ reply.term ≤ s.term ∧ args.term = s.term ∧
    args.lastIndex < s.matchIndex server

instance Node.OldHint.decidable (s : Node n) (server : Fin n) (reply : AppendEntriesReply) :
    Decidable (s.OldHint server reply) := by
  unfold Node.OldHint
  infer_instance

instance Node.OldSnapshot.decidable (s : Node n) (server : Fin n) (args : InstallSnapshotArgs)
    (reply : InstallSnapshotReply) : Decidable (s.OldSnapshot server args reply) := by
  unfold Node.OldSnapshot
  infer_instance

/-- The action brings a leader a reply that a later acknowledgement has overtaken. -/
def Cluster.Overtaken (σ : Cluster n) : Action n → Prop
  | .returnAppend p k =>
      match (σ.procs p).appendCalls[k]? with
      | some ⟨server, _, _, some reply⟩ => (σ.procs p).node.OldHint server reply
      | _ => False
  | .returnSnapshot p k =>
      match (σ.procs p).snapshotCalls[k]? with
      | some ⟨server, some args, some reply⟩ => (σ.procs p).node.OldSnapshot server args reply
      | _ => False
  | _ => False

/-- `p` leads in term `T`. -/
def Cluster.Leads (σ : Cluster n) (p : Fin n) (T : Int) : Prop :=
  (σ.procs p).node.identity = .leader ∧ (σ.procs p).node.term = T

instance Cluster.Leads.decidable (σ : Cluster n) (p : Fin n) (T : Int) :
    Decidable (σ.Leads p T) := by
  unfold Cluster.Leads
  infer_instance

/-! ## The replies -/

section Replies

variable {s s' : Node n}

theorem Node.Progress.of_eq (h : s.NextAboveMatch) (hmatch : s'.matchIndex = s.matchIndex)
    (hnext : s'.nextIndex = s.nextIndex) : s.Progress s' := by
  refine ⟨fun i => by rw [hmatch], fun i => ?_⟩
  rw [hmatch, hnext]
  exact h i

/-- One peer is noted further on. -/
theorem Node.Progress.update (h : s.NextAboveMatch) {server : Fin n} {index next : Int}
    (hmatch : s'.matchIndex = Function.update s.matchIndex server index)
    (hnext : s'.nextIndex = Function.update s.nextIndex server next)
    (hle : s.matchIndex server ≤ index) (hlt : index + 1 ≤ next) : s.Progress s' := by
  refine ⟨fun i => ?_, fun i => ?_⟩
  · rw [hmatch]
    by_cases hi : i = server
    · subst hi
      rwa [Function.update_self]
    · rw [Function.update_of_ne hi]
  · rw [hmatch, hnext]
    by_cases hi : i = server
    · subst hi
      rwa [Function.update_self, Function.update_self]
    · rw [Function.update_of_ne hi, Function.update_of_ne hi]
      exact h i

theorem Node.IndexInv.sendAppendEntries_progress (hinv : s.IndexInv) (h : s.NextAboveMatch)
    {server : Fin n} {args : AppendEntriesArgs} (reply : AppendEntriesReply) (num : ℕ)
    (hargs : args.prevLogIndex + args.entries.length ≤ s.getLastLogIndex)
    (hnew : ¬ s.OldHint server reply) :
    s.Progress (s.sendAppendEntries server args reply num).node := by
  by_cases hstate : reply.state = .disconnected
  · have heq : s.sendAppendEntries server args reply num = ⟨s, num, none⟩ := by
      rw [Node.sendAppendEntries, if_pos hstate]
    rw [heq]
    exact .of_eq h rfl rfl
  have hconnected : reply.state = .connected := by
    cases hs : reply.state with
    | disconnected => exact absurd hs hstate
    | connected => rfl
  rcases s.sendAppendEntries_cases server args reply num hinv.commitLeLast
    (hinv.matchLeLast server) hargs with
    heq | ⟨-, heq⟩ | ⟨hterm, hid, hfail, hvalid, heq⟩ | ⟨-, -, -, ⟨-, heq⟩ | ⟨-, heq⟩⟩
  · rw [heq]
    exact .of_eq h rfl rfl
  · rw [heq]
    exact .of_eq h rfl rfl
  · rw [heq]
    have hlt : s.matchIndex server < reply.updateNextIndex :=
      not_le.1 fun hle => hnew ⟨hid, hconnected, hterm, hfail, hvalid, hle⟩
    exact .update h (Function.update_eq_self server s.matchIndex).symm rfl le_rfl hlt
  · rw [heq]
    exact .update h rfl rfl (le_max_left _ _) le_rfl
  · rw [heq]
    rcases (s.recordMatch server args).updateCommitIndex_cases args with heq' | ⟨-, heq'⟩
    · rw [heq']
      exact .update h rfl rfl (le_max_left _ _) le_rfl
    · rw [heq']
      exact .update h rfl rfl (le_max_left _ _) le_rfl

theorem Node.sendSnapshot_progress (h : s.NextAboveMatch) {server : Fin n}
    {args : InstallSnapshotArgs} (reply : InstallSnapshotReply)
    (hnew : ¬ s.OldSnapshot server args reply) : s.Progress (s.sendSnapshot server args reply) := by
  rw [Node.sendSnapshot]
  by_cases hnewer : reply.term > s.term
  · rw [if_pos hnewer]
    exact .of_eq h rfl rfl
  rw [if_neg hnewer]
  by_cases hover : s.identity ≠ .leader ∨ args.term ≠ s.term
  · rw [if_pos hover]
    exact .of_eq h rfl rfl
  rw [if_neg hover]
  push Not at hover
  have hle : s.matchIndex server ≤ args.lastIndex :=
    not_lt.1 fun hlt => hnew ⟨hover.1, not_lt.1 hnewer, hover.2, hlt⟩
  exact .update h rfl rfl hle le_rfl

end Replies

/-! ## The other steps -/

/-- If the node leads afterwards, its notes are in order, and better than before if it led before. -/
def Node.StaysAhead (s s' : Node n) : Prop :=
  s'.identity = .leader → s'.NextAboveMatch ∧ (s.identity = .leader → s.Progress s')

theorem Node.becomeLeader_nextAboveMatch {s : Node n} (h : s.IndexInv) :
    s.becomeLeader.NextAboveMatch := by
  intro i
  have hlast := h.lastNonneg
  show Function.update (fun _ => (0 : Int)) s.me s.getLastLogIndex i + 1 ≤ s.getLastLogIndex + 1
  by_cases hi : i = s.me
  · subst hi
    rw [Function.update_self]
  · rw [Function.update_of_ne hi]
    omega

/-- Only replies write the two arrays. -/
theorem Proc.IndexInv.step_arrays {P : Proc n} (h : P.IndexInv) {input : Input n}
    (hinput : input.WellFormed) (happend : ∀ k reply, input ≠ .appendReply k reply)
    (hvote : ∀ k reply, input ≠ .voteReply k reply)
    (hsnap : ∀ k reply, input ≠ .snapshotReply k reply) :
    (P.step input).1.node.matchIndex = P.node.matchIndex ∧
      (P.step input).1.node.nextIndex = P.node.nextIndex := by
  cases input with
  | execute command =>
      rcases P.node.execute_cases command with ⟨-, heq⟩ | ⟨-, heq⟩
      all_goals simp [Proc.step, heq]
  | persist index shot =>
      rcases h.node.contiguous.persist_cases h.node.commitLeLast index shot with
        heq | ⟨e, -, -, -, -, heq⟩
      all_goals simp [Proc.step, heq, Node.compacted]
  | getApplyMessages =>
      simp [Proc.step, h.node.getApplyMessages_eq]
  | stand4Election =>
      rcases P.node.stand4Election_cases with ⟨-, heq⟩ | ⟨-, heq⟩
      all_goals simp [Proc.step, Proc.stand4Election, heq]
  | heartBeat =>
      simp only [Proc.step, Proc.heartBeat]
      split <;> exact ⟨rfl, rfl⟩
  | requestVote args =>
      rcases P.node.requestVote_cases args with
        ⟨-, heq | ⟨-, heq⟩⟩ | ⟨-, -, -, ⟨-, -, heq⟩ | ⟨-, heq⟩⟩
      all_goals simp [Proc.step, heq]
  | appendEntries args =>
      rcases h.node.contiguous.appendEntries_cases hinput with
        ⟨-, heq⟩ | ⟨-, index, heq, -⟩ | ⟨-, -, -, -, heq⟩ | ⟨-, -, _, _, _, _, -, -, -, -, -, -, heq, -⟩
      <;> simp [Proc.step, heq, Node.appended]
  | installSnapshot args =>
      rcases h.node.contiguous.installSnapshot_cases args with
        ⟨-, heq⟩ | ⟨-, -, heq⟩ | ⟨-, -, heq⟩ <;> simp [Proc.step, heq, Node.installed]
  | readSnapshot k =>
      simp only [Proc.step, Proc.readSnapshot]
      split <;> exact ⟨rfl, rfl⟩
  | appendReply k reply => exact absurd rfl (happend k reply)
  | voteReply k reply => exact absurd rfl (hvote k reply)
  | snapshotReply k reply => exact absurd rfl (hsnap k reply)

/-- One step of a process, if no reply it takes in has been overtaken. -/
theorem Proc.IndexInv.step_staysAhead {P : Proc n} (h : P.IndexInv)
    (hnotes : P.node.identity = .leader → P.node.NextAboveMatch) {input : Input n}
    (hinput : input.WellFormed)
    (hhint : ∀ k reply call, input = .appendReply k reply → P.appendCalls[k]? = some call →
      ¬ P.node.OldHint call.server reply)
    (hsnap : ∀ k reply call args, input = .snapshotReply k reply →
      P.snapshotCalls[k]? = some call → call.args = some args →
      ¬ P.node.OldSnapshot call.server args reply) :
    P.node.StaysAhead (P.step input).1.node := by
  intro hid
  have hleads := ((h.voteStep hinput).leads hid).2
  cases input with
  | appendReply k reply =>
      have hleader : P.node.identity = .leader := by
        rcases hleads with hl | ⟨_, _, heq⟩
        · exact hl
        · cases heq
      have hprogress : P.node.Progress (P.step (.appendReply k reply)).1.node := by
        simp only [Proc.step, Proc.appendReply]
        split
        · exact .of_eq (hnotes hleader) rfl rfl
        · rename_i call hcall
          exact h.node.sendAppendEntries_progress (hnotes hleader) reply _
            (h.appendLeLast call (List.mem_of_getElem? hcall)) (hhint k reply call rfl hcall)
      exact ⟨hprogress.nextIndex, fun _ => hprogress⟩
  | snapshotReply k reply =>
      have hleader : P.node.identity = .leader := by
        rcases hleads with hl | ⟨_, _, heq⟩
        · exact hl
        · cases heq
      have hprogress : P.node.Progress (P.step (.snapshotReply k reply)).1.node := by
        simp only [Proc.step, Proc.snapshotReply]
        split
        · rename_i server args _ hcall
          exact Node.sendSnapshot_progress (hnotes hleader) reply
            (hsnap k reply _ args rfl hcall rfl)
        · exact .of_eq (hnotes hleader) rfl rfl
      exact ⟨hprogress.nextIndex, fun _ => hprogress⟩
  | voteReply k reply =>
      simp only [Proc.step, Proc.voteReply] at hid ⊢
      split at hid
      · exact ⟨hnotes hid, fun hl => .of_eq (hnotes hl) rfl rfl⟩
      · rename_i call _
        rcases P.node.sendRequestVote_cases reply (P.voteNums.getD call.voteNum 0) with
          ⟨-, heq⟩ | heq | ⟨-, -, ⟨-, heq⟩ | ⟨-, -, heq⟩ | ⟨-, hnot, heq⟩⟩
        all_goals
          rw [heq] at hid ⊢
        · cases hid
        · exact ⟨hnotes hid, fun hl => .of_eq (hnotes hl) rfl rfl⟩
        · exact ⟨hnotes hid, fun hl => .of_eq (hnotes hl) rfl rfl⟩
        · exact ⟨hnotes hid, fun hl => .of_eq (hnotes hl) rfl rfl⟩
        · exact ⟨Node.becomeLeader_nextAboveMatch h.node, fun hl => absurd hl hnot⟩
  | _ =>
      have hleader : P.node.identity = .leader := by
        rcases hleads with hl | ⟨_, _, heq⟩
        · exact hl
        · cases heq
      obtain ⟨hmatch, hnext⟩ := h.step_arrays hinput (by simp) (by simp) (by simp)
      have hprogress := Node.Progress.of_eq (hnotes hleader) hmatch hnext
      exact ⟨hprogress.nextIndex, fun _ => hprogress⟩

/-! ## Runs -/

section Run

variable {σ σ' : Cluster n}

theorem Cluster.overtaken_returnAppend {p : Fin n} {k : ℕ} {call : AppendCall n}
    {reply : AppendEntriesReply} (hcall : (σ.procs p).appendCalls[k]? = some call)
    (hreply : call.reply = some reply) :
    σ.Overtaken (.returnAppend p k) ↔ (σ.procs p).node.OldHint call.server reply := by
  obtain ⟨server, args, cell, reply'⟩ := call
  simp only at hreply
  subst hreply
  simp [Cluster.Overtaken, hcall]

theorem Cluster.overtaken_returnSnapshot {p : Fin n} {k : ℕ} {call : SnapshotCall n}
    {args : InstallSnapshotArgs} {reply : InstallSnapshotReply}
    (hcall : (σ.procs p).snapshotCalls[k]? = some call) (hargs : call.args = some args)
    (hreply : call.reply = some reply) :
    σ.Overtaken (.returnSnapshot p k) ↔ (σ.procs p).node.OldSnapshot call.server args reply := by
  obtain ⟨server, args', reply'⟩ := call
  simp only at hargs hreply
  subst hargs hreply
  simp [Cluster.Overtaken, hcall]

instance Cluster.Overtaken.decidable (σ : Cluster n) : (a : Action n) → Decidable (σ.Overtaken a)
  | .returnAppend p k =>
      match hcall : (σ.procs p).appendCalls[k]? with
      | none => isFalse fun h => by simp [Cluster.Overtaken, hcall] at h
      | some ⟨_, _, _, none⟩ => isFalse fun h => by simp [Cluster.Overtaken, hcall] at h
      | some ⟨_, _, _, some _⟩ => decidable_of_iff _ (Cluster.overtaken_returnAppend hcall rfl).symm
  | .returnSnapshot p k =>
      match hcall : (σ.procs p).snapshotCalls[k]? with
      | none => isFalse fun h => by simp [Cluster.Overtaken, hcall] at h
      | some ⟨_, none, _⟩ => isFalse fun h => by simp [Cluster.Overtaken, hcall] at h
      | some ⟨_, some _, none⟩ => isFalse fun h => by simp [Cluster.Overtaken, hcall] at h
      | some ⟨_, some _, some _⟩ =>
          decidable_of_iff _ (Cluster.overtaken_returnSnapshot hcall rfl rfl).symm
  | .execute _ _ => isFalse id
  | .persist _ _ _ => isFalse id
  | .getApplyMessages _ => isFalse id
  | .stand4Election _ => isFalse id
  | .heartBeat _ => isFalse id
  | .readSnapshot _ _ => isFalse id
  | .deliverAppend _ _ => isFalse id
  | .deliverVote _ _ => isFalse id
  | .deliverSnapshot _ _ => isFalse id
  | .returnVote _ _ => isFalse id

/-- The notes of every leader are in order. -/
def Cluster.NotesInv (σ : Cluster n) : Prop :=
  ∀ p, (σ.procs p).node.identity = .leader → (σ.procs p).node.NextAboveMatch

theorem Cluster.NotesInv.feed (h : σ.NotesInv) (hinv : ∀ p, (σ.procs p).IndexInv) (p : Fin n)
    (input : Input n) (hinput : input.WellFormed)
    (hhint : ∀ k reply call, input = .appendReply k reply →
      (σ.procs p).appendCalls[k]? = some call → ¬ (σ.procs p).node.OldHint call.server reply)
    (hsnap : ∀ k reply call args, input = .snapshotReply k reply →
      (σ.procs p).snapshotCalls[k]? = some call → call.args = some args →
      ¬ (σ.procs p).node.OldSnapshot call.server args reply) (q : Fin n) :
    (σ.procs q).node.StaysAhead ((σ.feed p input).procs q).node := by
  by_cases hq : q = p
  · subst hq
    rw [σ.feed_procs_self]
    exact (hinv q).step_staysAhead (h q) hinput hhint hsnap
  · rw [σ.feed_procs_ne p input hq]
    exact fun hid => ⟨h q hid, fun hid => .of_eq (h q hid) rfl rfl⟩

/-- Noting a reply leaves every node alone. -/
theorem Node.StaysAhead.setProc {s : Node n} {q : Fin n} (h : s.StaysAhead (σ.procs q).node)
    (p : Fin n) {P : Proc n} (hP : P.node = (σ.procs p).node) :
    s.StaysAhead ((σ.setProc p P).procs q).node := by
  rwa [σ.setProc_node p hP q]

theorem Cluster.Move.staysAhead {a : Action n} (hmove : σ.Move a σ') (hnew : ¬ σ.Overtaken a)
    (h : σ.NotesInv) (hinv : ∀ p, (σ.procs p).IndexInv) (q : Fin n) :
    (σ.procs q).node.StaysAhead (σ'.procs q).node := by
  cases hmove with
  | idle => exact fun hid => ⟨h q hid, fun hid => .of_eq (h q hid) rfl rfl⟩
  | run _ p hlocal =>
      refine h.feed hinv p _ hlocal.wellFormed ?_ ?_ q
      · rintro k reply call rfl
        exact absurd hlocal id
      · rintro k reply call args rfl
        exact absurd hlocal id
  | apply p _ => exact h.feed hinv p .getApplyMessages trivial (by simp) (by simp) q
  | @deliverAppend p k call hcall _ _ =>
      exact (h.feed hinv call.server (.appendEntries call.args)
        ((hinv p).appendConsecutive call (List.mem_of_getElem? hcall)) (by simp) (by simp) q).setProc
        p rfl
  | @loseAppend p k call _ hcall _ _ =>
      exact (h.feed hinv call.server (.appendEntries call.args)
        ((hinv p).appendConsecutive call (List.mem_of_getElem? hcall)) (by simp) (by simp) q).setProc
        p rfl
  | @deliverVote p k call _ =>
      exact (h.feed hinv call.server (.requestVote call.args) trivial (by simp) (by simp) q).setProc p rfl
  | @deliverSnapshot p k call args _ _ _ =>
      exact (h.feed hinv call.server (.installSnapshot args) trivial (by simp) (by simp) q).setProc p rfl
  | @loseSnapshot p k call args _ _ _ _ =>
      exact (h.feed hinv call.server (.installSnapshot args) trivial (by simp) (by simp) q).setProc p rfl
  | @returnAppend p k call reply hcall hreply =>
      refine h.feed hinv p (.appendReply k reply) trivial ?_ (by simp) q
      rintro k' reply' call' ⟨rfl, rfl⟩ hcall'
      obtain rfl := Option.some.inj (hcall.symm.trans hcall')
      rwa [Cluster.overtaken_returnAppend hcall hreply] at hnew
  | @returnVote p k _ reply _ _ => exact h.feed hinv p (.voteReply k reply) trivial (by simp) (by simp) q
  | @returnSnapshot p k call reply hcall hreply =>
      refine h.feed hinv p (.snapshotReply k reply) trivial (by simp) ?_ q
      rintro k' reply' call' args ⟨rfl, rfl⟩ hcall' hargs
      obtain rfl := Option.some.inj (hcall.symm.trans hcall')
      rwa [Cluster.overtaken_returnSnapshot hcall hargs hreply] at hnew

theorem Cluster.notesInv
    (h : GuardedRun.Reach (Cluster.new n) Cluster.step (fun σ a => ¬ σ.Overtaken a) σ) :
    σ.NotesInv := by
  refine GuardedRun.Reach.invariant (P := Cluster.NotesInv) (fun p hid => ?_)
    (fun σ a hreach hσ hnew p hid => ?_) h
  · cases hid
  · have hreach : σ.Reachable := hreach.mono fun _ _ _ => trivial
    exact ((σ.step_move a).staysAhead hnew hσ hreach.indexInv p hid).1

/-- A reply that was overtaken sets a peer back, or has it sent again what it has. -/
theorem Cluster.Overtaken.setback {a : Action n} (h : σ.Overtaken a) :
    ∃ p T, σ.Leads p T ∧ (σ.step a).Leads p T ∧
      ¬ (σ.procs p).node.Progress ((σ.step a).procs p).node := by
  cases a with
  | returnAppend p k =>
      rcases hcall : (σ.procs p).appendCalls[k]? with _ | ⟨server, args, cell, _ | reply⟩
      · simp [Cluster.Overtaken, hcall] at h
      · simp [Cluster.Overtaken, hcall] at h
      · rw [Cluster.overtaken_returnAppend hcall rfl] at h
        obtain ⟨hid, hstate, hterm, hfail, hvalid, hle⟩ := h
        have hnode : ((σ.step (.returnAppend p k)).procs p).node =
            { (σ.procs p).node with
              nextIndex :=
                Function.update (σ.procs p).node.nextIndex server reply.updateNextIndex } := by
          simp only [Cluster.step, hcall, Cluster.feed_procs_self, Proc.step, Proc.appendReply]
          exact Node.sendAppendEntries_rejected _ server args reply _ hstate hterm hid hfail hvalid
        refine ⟨p, (σ.procs p).node.term, ⟨hid, rfl⟩, ?_, fun hprogress => ?_⟩
        · rw [Cluster.Leads, hnode]
          exact ⟨hid, rfl⟩
        · have hnext := hprogress.nextIndex server
          rw [hnode] at hnext
          simp only [Function.update_self] at hnext
          exact absurd hle (not_le.2 hnext)
  | returnSnapshot p k =>
      rcases hcall : (σ.procs p).snapshotCalls[k]? with _ | ⟨server, _ | args, _ | reply⟩
      · simp [Cluster.Overtaken, hcall] at h
      · simp [Cluster.Overtaken, hcall] at h
      · simp [Cluster.Overtaken, hcall] at h
      · simp [Cluster.Overtaken, hcall] at h
      · rw [Cluster.overtaken_returnSnapshot hcall rfl rfl] at h
        obtain ⟨hid, hterm, hargs, hlt⟩ := h
        have hnode : ((σ.step (.returnSnapshot p k)).procs p).node =
            { (σ.procs p).node with
              matchIndex := Function.update (σ.procs p).node.matchIndex server args.lastIndex
              nextIndex :=
                Function.update (σ.procs p).node.nextIndex server (args.lastIndex + 1) } := by
          simp only [Cluster.step, hcall, Cluster.feed_procs_self, Proc.step, Proc.snapshotReply]
          rw [Node.sendSnapshot, if_neg (not_lt.2 hterm), if_neg (by simp [hid, hargs])]
        refine ⟨p, (σ.procs p).node.term, ⟨hid, rfl⟩, ?_, fun hprogress => ?_⟩
        · rw [Cluster.Leads, hnode]
          exact ⟨hid, rfl⟩
        · have hmatch := hprogress.matchIndex server
          rw [hnode] at hmatch
          simp only [Function.update_self] at hmatch
          exact absurd hlt (not_lt.2 hmatch)
  | _ => exact absurd h id

/-- In a run in which no reply has been overtaken, `_M_matchIndex` of a leader never falls in its
    term and `_M_nextIndex` stays above it; a reply that was overtaken breaks the one or the other. -/
theorem acknowledged_progress
    (h : GuardedRun.Reach (Cluster.new n) Cluster.step (fun σ a => ¬ σ.Overtaken a) σ) :
    (∀ p T, σ.Leads p T → ∀ σ',
      GuardedRun.Reach σ Cluster.step (fun σ a => ¬ σ.Overtaken a ∧ (σ.step a).Leads p T) σ' →
      ∀ i, (σ.procs p).node.matchIndex i ≤ (σ'.procs p).node.matchIndex i ∧
        (σ'.procs p).node.matchIndex i + 1 ≤ (σ'.procs p).node.nextIndex i) ∧
    ∀ a, σ.Overtaken a → ∃ p T, σ.Leads p T ∧ (σ.step a).Leads p T ∧ ∃ i,
      ¬ ((σ.procs p).node.matchIndex i ≤ ((σ.step a).procs p).node.matchIndex i ∧
        ((σ.step a).procs p).node.matchIndex i + 1 ≤ ((σ.step a).procs p).node.nextIndex i) := by
  constructor
  · intro p T hleads σ' hrun
    have hinv : (σ.procs p).node.Progress (σ'.procs p).node ∧ σ'.Leads p T := by
      refine hrun.invariant (P := fun σ' => (σ.procs p).node.Progress (σ'.procs p).node ∧
        σ'.Leads p T) ⟨.of_eq (Cluster.notesInv h p hleads.1) rfl rfl, hleads⟩ ?_
      rintro σ₁ a hrun ⟨hprogress, hleads⟩ ⟨hnew, hleads'⟩
      have hguarded := h.trans (hrun.mono fun _ _ hok => hok.1)
      have hreach : σ₁.Reachable := hguarded.mono fun _ _ _ => trivial
      have hahead := (σ₁.step_move a).staysAhead hnew (Cluster.notesInv hguarded) hreach.indexInv p
      have hstep := (hahead hleads'.1).2 hleads.1
      exact ⟨⟨fun i => (hprogress.matchIndex i).trans (hstep.matchIndex i), hstep.nextIndex⟩, hleads'⟩
    exact fun i => ⟨hinv.1.matchIndex i, hinv.1.nextIndex i⟩
  · intro a hover
    obtain ⟨p, T, hleads, hleads', hsetback⟩ := hover.setback
    refine ⟨p, T, hleads, hleads', ?_⟩
    by_contra hall
    push Not at hall
    exact hsetback ⟨fun i => (hall i).1, fun i => (hall i).2⟩

end Run

/-- Node `p₀` of three takes in a command in term 1, before `p₁` stands in term 2, and wins term 3
    with it. -/
def secondTerm (p₀ p₁ : Fin 3) : List (Action 3) :=
  [ .stand4Election p₀, .deliverVote p₀ 0, .returnVote p₀ 0, .execute p₀ [7],
    .stand4Election p₁, .deliverVote p₁ 0, .stand4Election p₀, .deliverVote p₀ 2, .returnVote p₀ 2 ]

/-- Two heartbeats reach node 1, which lacks the entry, and the rejection of the first is taken in;
    the heartbeat after it brings the entry. The second rejection is still on its way. -/
def rejectedTwice (p₀ : Fin 3) : List (Action 3) :=
  [ .heartBeat p₀, .deliverAppend p₀ 0, .heartBeat p₀, .deliverAppend p₀ 2, .returnAppend p₀ 0,
    .heartBeat p₀, .deliverAppend p₀ 3, .returnAppend p₀ 3 ]

theorem acknowledged_progress_secondTerm :
    let σ := GuardedRun.exec Cluster.step (Cluster.new 3) (secondTerm 0 1)
    let σ' := GuardedRun.exec Cluster.step σ (rejectedTwice 0)
    (σ'.procs 0).node.matchIndex 1 = 1 ∧ ∀ i,
      (σ.procs 0).node.matchIndex i ≤ (σ'.procs 0).node.matchIndex i ∧
      (σ'.procs 0).node.matchIndex i + 1 ≤ (σ'.procs 0).node.nextIndex i := by
  intro σ σ'
  have hrun : GuardedRun.Reach (Cluster.new 3) Cluster.step (fun σ a => ¬ σ.Overtaken a) σ :=
    .exec .init (by decide +kernel)
  refine ⟨by decide +kernel, (acknowledged_progress hrun).1 0 3 (by decide +kernel) σ' ?_⟩
  exact .exec .init (by decide +kernel)

/-- The second rejection, taken in last, has node 0 send again what node 1 has acknowledged. -/
theorem acknowledged_progress_overtaken :
    ¬ ∀ (n : ℕ) (σ σ' : Cluster n) (p : Fin n) (T : Int), σ.Reachable → σ.Leads p T →
      GuardedRun.Reach σ Cluster.step (fun σ a => (σ.step a).Leads p T) σ' →
      ∀ i, (σ.procs p).node.matchIndex i ≤ (σ'.procs p).node.matchIndex i ∧
        (σ'.procs p).node.matchIndex i + 1 ≤ (σ'.procs p).node.nextIndex i := by
  intro h
  have hreach : (GuardedRun.exec Cluster.step (Cluster.new 3) (secondTerm 0 1)).Reachable :=
    .exec .init (.of_forall (fun _ _ => trivial) _ _)
  have hnotes := (h 3 _ (GuardedRun.exec Cluster.step
    (GuardedRun.exec Cluster.step (Cluster.new 3) (secondTerm 0 1))
    (rejectedTwice 0 ++ [.returnAppend 0 1])) 0 3 hreach (by decide +kernel)
    (.exec .init (by decide +kernel)) 1).2
  exact absurd hnotes (by decide +kernel)

end RaftKVStorage
