import RaftKVStorage.Election

set_option autoImplicit false

/-! # Entry identity

An entry is created once, by the leader of its term at the end of its own log, and copied from then
on. So index and term determine the command, in every log and in every request on its way. -/

namespace RaftKVStorage

variable {n : ℕ}

/-! ## Where entries come from -/

/-- `e` is in the log of the process or in one of its appendEntries requests. -/
def Proc.Holds (P : Proc n) (e : LogEntry) : Prop :=
  e ∈ P.node.logs ∨ ∃ call ∈ P.appendCalls, e ∈ call.args.entries

theorem Proc.Holds.of_subset {P P' : Proc n} {e : LogEntry} (h : P'.Holds e)
    (hlogs : ∀ e ∈ P'.node.logs, e ∈ P.node.logs)
    (hcalls : ∀ call ∈ P'.appendCalls, ∃ call' ∈ P.appendCalls, call.args = call'.args) :
    P.Holds e := by
  rcases h with h | ⟨call, hc, he⟩
  · exact Or.inl (hlogs e h)
  · obtain ⟨call', hc', heq⟩ := hcalls call hc
    exact Or.inr ⟨call', hc', heq ▸ he⟩

/-- A step adds no entry but those of a request it accepts and the one of a command it takes in. -/
theorem Proc.IndexInv.step_holds {P : Proc n} (h : P.IndexInv) {input : Input n}
    {e : LogEntry} (he : (P.step input).1.Holds e) :
    P.Holds e ∨ (∃ args, input = .appendEntries args ∧ e ∈ args.entries) ∨
      ∃ command, input = .execute command ∧ P.node.identity = .leader ∧
        e = P.node.newEntry command := by
  cases input with
  | execute command =>
      rcases P.node.execute_cases command with ⟨hid, heq⟩ | ⟨-, heq⟩
      all_goals simp only [Proc.step, heq, Proc.Holds, Node.mPersist_logs] at he
      · rcases he with he | he
        · rcases List.mem_append.1 he with he | he
          · exact Or.inl (Or.inl he)
          · exact Or.inr (Or.inr ⟨command, rfl, hid, by simpa using he⟩)
        · exact Or.inl (Or.inr he)
      · exact Or.inl he
  | persist index shot =>
      left
      rcases h.node.contiguous.persist_cases h.node.commitLeLast index shot with
        heq | ⟨x, -, -, -, -, heq⟩
      all_goals simp only [Proc.step, heq] at he
      · exact he
      · exact he.of_subset (fun x hx => List.mem_of_mem_drop hx) fun c hc => ⟨c, hc, rfl⟩
  | getApplyMessages =>
      left
      simp only [Proc.step, h.node.getApplyMessages_eq] at he
      exact he
  | stand4Election =>
      left
      rcases P.node.stand4Election_cases with ⟨-, heq⟩ | ⟨-, heq⟩
      all_goals
        simp only [Proc.step, Proc.stand4Election, heq] at he
        exact he
  | heartBeat =>
      left
      simp only [Proc.step, Proc.heartBeat] at he
      split at he
      swap
      · exact he
      rename_i hleader
      rcases he with he | ⟨call, hc, he⟩
      · exact Or.inl he
      rcases List.mem_append.1 hc with hc | hc
      · exact Or.inr ⟨call, hc, he⟩
      · obtain ⟨server, args, hmem, rfl⟩ := mem_toAppendCall hc
        rw [Node.heartBeat, if_pos hleader] at hmem
        obtain ⟨-, -, -, hargs⟩ := Node.mem_heartBeatPeers hmem
        obtain ⟨-, -, -, -, -, -, hentries⟩ := h.node.contiguous.heartBeatArgs hargs
        simp only [hentries] at he
        exact Or.inl (List.mem_of_mem_drop he)
  | requestVote args =>
      left
      rcases P.node.requestVote_cases args with
        ⟨-, heq | ⟨-, heq⟩⟩ | ⟨-, -, -, ⟨-, -, heq⟩ | ⟨-, heq⟩⟩
      all_goals
        simp only [Proc.step, heq] at he
        exact he
  | appendEntries args =>
      rcases he with he | he
      · rcases Node.mem_appendEntries he with he | he
        · exact Or.inl (Or.inl he)
        · exact Or.inr (Or.inl ⟨args, rfl, he⟩)
      · exact Or.inl (Or.inr he)
  | installSnapshot args =>
      left
      rcases h.node.contiguous.installSnapshot_cases args with ⟨-, heq⟩ | ⟨-, -, heq⟩ | ⟨-, -, heq⟩
      all_goals simp only [Proc.step, heq] at he
      · exact he
      · exact he.of_subset (fun x hx => by simpa using hx) fun c hc => ⟨c, hc, rfl⟩
      · exact he.of_subset (fun x hx => List.mem_of_mem_drop hx) fun c hc => ⟨c, hc, rfl⟩
  | readSnapshot k =>
      left
      simp only [Proc.step, Proc.readSnapshot] at he
      split at he <;> exact he
  | appendReply k reply =>
      left
      simp only [Proc.step, Proc.appendReply] at he
      split at he
      · exact he
      · rename_i call hcall
        refine he.of_subset (fun x hx => ?_) fun c hc => ⟨c, List.mem_of_mem_eraseIdx hc, rfl⟩
        rcases P.node.sendAppendEntries_cases call.server call.args reply
          (P.appendNums.getD call.appendNum 0) h.node.commitLeLast (h.node.matchLeLast _)
          (h.appendLeLast call (List.mem_of_getElem? hcall)) with
          heq | ⟨-, heq⟩ | ⟨-, -, -, -, heq⟩ | ⟨-, -, -, ⟨-, heq⟩ | ⟨-, heq⟩⟩
        all_goals simp only [heq] at hx
        · exact hx
        · exact hx
        · exact hx
        · exact hx
        · rcases (P.node.recordMatch call.server call.args).updateCommitIndex_cases call.args with
            heq' | ⟨-, heq'⟩
          all_goals
            rw [heq'] at hx
            exact hx
  | voteReply k reply =>
      left
      simp only [Proc.step, Proc.voteReply] at he
      split at he
      · exact he
      · refine he.of_subset (fun x hx => ?_) fun c hc => ⟨c, hc, rfl⟩
        rename_i call _
        rcases P.node.sendRequestVote_cases reply (P.voteNums.getD call.voteNum 0) with
          ⟨-, heq⟩ | heq | ⟨-, -, ⟨-, heq⟩ | ⟨-, -, heq⟩ | ⟨-, -, heq⟩⟩
        all_goals
          simp only [heq] at hx
          exact hx
  | snapshotReply k reply =>
      left
      simp only [Proc.step, Proc.snapshotReply] at he
      split at he
      · refine he.of_subset (fun x hx => ?_) fun c hc => ⟨c, hc, rfl⟩
        rename_i server args _ _
        rcases P.node.sendSnapshot_cases server args reply with ⟨-, heq⟩ | heq | ⟨-, -, heq⟩
        all_goals
          simp only [heq] at hx
          exact hx
      · exact he

/-! ## Where snapshots come from -/

/-- Where the position of the snapshot comes from: the last entry compacted, or an installed snapshot. -/
theorem Proc.IndexInv.step_snapshotPosition {P : Proc n} (h : P.IndexInv) {input : Input n}
    (hinput : input.WellFormed) :
    ((P.step input).1.node.lastSnapshotIndex = P.node.lastSnapshotIndex ∧
        (P.step input).1.node.lastSnapshotTerm = P.node.lastSnapshotTerm) ∨
      (∃ e ∈ P.node.logs, (P.step input).1.node.lastSnapshotIndex = e.index ∧
        (P.step input).1.node.lastSnapshotTerm = e.term) ∨
      ∃ args, input = .installSnapshot args ∧
        (P.step input).1.node.lastSnapshotIndex = args.lastIndex ∧
        (P.step input).1.node.lastSnapshotTerm = args.lastTerm := by
  cases input with
  | execute command =>
      left
      rcases P.node.execute_cases command with ⟨-, heq⟩ | ⟨-, heq⟩
      all_goals simp [Proc.step, heq]
  | persist index shot =>
      rcases h.node.contiguous.persist_cases h.node.commitLeLast index shot with
        heq | ⟨e, -, -, hslot, hidx, heq⟩
      · left
        simp [Proc.step, heq]
      · right; left
        refine ⟨e, List.mem_of_getElem? hslot, ?_⟩
        simp [Proc.step, heq, Node.compacted, hidx]
  | getApplyMessages =>
      left
      simp [Proc.step, h.node.getApplyMessages_eq]
  | stand4Election =>
      left
      rcases P.node.stand4Election_cases with ⟨-, heq⟩ | ⟨-, heq⟩
      all_goals simp [Proc.step, Proc.stand4Election, heq]
  | heartBeat =>
      left
      simp only [Proc.step, Proc.heartBeat]
      split <;> exact ⟨rfl, rfl⟩
  | requestVote args =>
      left
      rcases P.node.requestVote_cases args with
        ⟨-, heq | ⟨-, heq⟩⟩ | ⟨-, -, -, ⟨-, -, heq⟩ | ⟨-, heq⟩⟩ <;> simp [Proc.step, heq]
  | appendEntries args =>
      left
      rcases h.node.contiguous.appendEntries_cases hinput with
        ⟨-, heq⟩ | ⟨-, index, heq, -⟩ | ⟨-, -, -, -, heq⟩ | ⟨-, -, _, _, _, _, -, -, -, -, -, -, heq, -⟩
      <;> simp [Proc.step, heq, Node.appended]
  | installSnapshot args =>
      rcases h.node.contiguous.installSnapshot_cases args with
        ⟨-, heq⟩ | ⟨-, -, heq⟩ | ⟨-, -, heq⟩
      · left
        simp [Proc.step, heq]
      · left
        simp [Proc.step, heq]
      · right; right
        exact ⟨args, rfl, by simp [Proc.step, heq, Node.installed]⟩
  | readSnapshot k =>
      left
      simp only [Proc.step, Proc.readSnapshot]
      split <;> exact ⟨rfl, rfl⟩
  | appendReply k reply =>
      left
      simp only [Proc.step, Proc.appendReply]
      split
      · exact ⟨rfl, rfl⟩
      · rename_i call hcall
        rcases P.node.sendAppendEntries_cases call.server call.args reply
          (P.appendNums.getD call.appendNum 0) h.node.commitLeLast (h.node.matchLeLast _)
          (h.appendLeLast call (List.mem_of_getElem? hcall)) with
          heq | ⟨-, heq⟩ | ⟨-, -, -, -, heq⟩ | ⟨-, -, -, ⟨-, heq⟩ | ⟨-, heq⟩⟩
        all_goals rw [heq]
        iterate 4 exact ⟨rfl, rfl⟩
        rcases (P.node.recordMatch call.server call.args).updateCommitIndex_cases call.args with
          heq' | ⟨-, heq'⟩
        all_goals
          rw [heq']
          exact ⟨rfl, rfl⟩
  | voteReply k reply =>
      left
      simp only [Proc.step, Proc.voteReply]
      split
      · exact ⟨rfl, rfl⟩
      · rename_i call _
        rcases P.node.sendRequestVote_cases reply (P.voteNums.getD call.voteNum 0) with
          ⟨-, heq⟩ | heq | ⟨-, -, ⟨-, heq⟩ | ⟨-, -, heq⟩ | ⟨-, -, heq⟩⟩
        all_goals
          rw [heq]
          exact ⟨rfl, rfl⟩
  | snapshotReply k reply =>
      left
      simp only [Proc.step, Proc.snapshotReply]
      split
      · rename_i server args _ _
        rcases P.node.sendSnapshot_cases server args reply with ⟨-, heq⟩ | heq | ⟨-, -, heq⟩
        all_goals simp [heq]
      · exact ⟨rfl, rfl⟩

/-- A snapshot on its way is one that was on its way before, or the node's own. -/
theorem Proc.mem_step_snapshotCalls (P : Proc n) (input : Input n) {call : SnapshotCall n}
    (hcall : call ∈ (P.step input).1.snapshotCalls) {args : InstallSnapshotArgs}
    (hargs : call.args = some args) :
    (∃ call' ∈ P.snapshotCalls, call'.args = some args) ∨ args = P.node.snapshotArgs := by
  cases input with
  | stand4Election =>
      simp only [Proc.step, Proc.stand4Election] at hcall
      split at hcall
      all_goals exact Or.inl ⟨call, hcall, hargs⟩
  | heartBeat =>
      simp only [Proc.step, Proc.heartBeat] at hcall
      split at hcall
      · rcases List.mem_append.1 hcall with hold | hnew
        · exact Or.inl ⟨call, hold, hargs⟩
        · obtain ⟨server, rfl⟩ := mem_toSnapshotCall hnew
          simp at hargs
      · exact Or.inl ⟨call, hcall, hargs⟩
  | readSnapshot k =>
      simp only [Proc.step, Proc.readSnapshot] at hcall
      split at hcall
      · rcases List.mem_or_eq_of_mem_set hcall with hold | rfl
        · exact Or.inl ⟨call, hold, hargs⟩
        · obtain rfl := Option.some.inj hargs
          exact Or.inr rfl
      · exact Or.inl ⟨call, hcall, hargs⟩
  | appendReply k reply =>
      simp only [Proc.step, Proc.appendReply] at hcall
      split at hcall
      all_goals exact Or.inl ⟨call, hcall, hargs⟩
  | voteReply k reply =>
      simp only [Proc.step, Proc.voteReply] at hcall
      split at hcall
      all_goals exact Or.inl ⟨call, hcall, hargs⟩
  | snapshotReply k reply =>
      simp only [Proc.step, Proc.snapshotReply] at hcall
      split at hcall
      · exact Or.inl ⟨call, List.mem_of_mem_eraseIdx hcall, hargs⟩
      · exact Or.inl ⟨call, hcall, hargs⟩
  | _ => exact Or.inl ⟨call, hcall, hargs⟩

/-! ## The invariant -/

/-- `e` is in a log or in a request. -/
def Cluster.Holds (σ : Cluster n) (e : LogEntry) : Prop := ∃ p, (σ.procs p).Holds e

/-- An entry held after a step of `p` was held before, or is new: then `p` leads and created it. -/
theorem Cluster.holds_feed {σ : Cluster n} (hinv : ∀ p, (σ.procs p).IndexInv) (p : Fin n)
    (input : Input n)
    (hargs : ∀ args, input = .appendEntries args → ∀ e ∈ args.entries, σ.Holds e) {e : LogEntry}
    (he : (σ.feed p input).Holds e) :
    σ.Holds e ∨ ∃ command, input = .execute command ∧ (σ.procs p).node.identity = .leader ∧
      e = (σ.procs p).node.newEntry command := by
  obtain ⟨q, hq⟩ := he
  rcases eq_or_ne q p with rfl | hqp
  · rw [σ.feed_procs_self] at hq
    rcases (hinv q).step_holds hq with hold | ⟨args, rfl, he⟩ | hnew
    · exact Or.inl ⟨q, hold⟩
    · exact Or.inl (hargs args rfl e he)
    · exact Or.inr hnew
  · rw [σ.feed_procs_ne p input hqp] at hq
    exact Or.inl ⟨q, hq⟩

theorem Cluster.holds_setProc {σ : Cluster n} (p : Fin n) {P : Proc n}
    (hnode : P.node = (σ.procs p).node)
    (hcalls : ∀ call ∈ P.appendCalls, ∃ call' ∈ (σ.procs p).appendCalls, call.args = call'.args)
    {e : LogEntry} (he : (σ.setProc p P).Holds e) : σ.Holds e := by
  obtain ⟨q, hq⟩ := he
  rcases eq_or_ne q p with rfl | hqp
  · have hP : P.Holds e := by simpa [Cluster.setProc] using hq
    exact ⟨q, hP.of_subset (fun x hx => hnode ▸ hx) hcalls⟩
  · exact ⟨q, by simpa [Cluster.setProc, hqp] using hq⟩

/-- Index and term determine the command, and the leader of the term still has a log that reaches
    past the index. -/
structure Cluster.EntryInv (σ : Cluster n) : Prop where
  unique : ∀ e e', σ.Holds e → σ.Holds e' → e.index = e'.index → e.term = e'.term →
    e.command = e'.command
  owned : ∀ e, σ.Holds e →
    ∃ p, σ.Elected p e.term ∧ e.index ≤ (σ.procs p).node.getLastLogIndex

/-- No entry is new, no election is undone and no log gets shorter. -/
theorem Cluster.EntryInv.of_subset {σ σ' : Cluster n} (h : σ.EntryInv)
    (hholds : ∀ e, σ'.Holds e → σ.Holds e) (helected : ∀ p T, σ.Elected p T → σ'.Elected p T)
    (hlast : ∀ p, (σ.procs p).node.getLastLogIndex ≤ (σ'.procs p).node.getLastLogIndex) :
    σ'.EntryInv := by
  refine ⟨fun e e' he he' => h.unique e e' (hholds e he) (hholds e' he'), fun e he => ?_⟩
  obtain ⟨p, hp, hle⟩ := h.owned e (hholds e he)
  exact ⟨p, helected p _ hp, hle.trans (hlast p)⟩

/-- The entries of a request never differ in the command from an entry of the receiver. -/
theorem Cluster.EntryInv.appendEntries_fault {σ : Cluster n} (h : σ.EntryInv)
    (hinv : ∀ p, (σ.procs p).IndexInv) {p : Fin n} {call : AppendCall n}
    (hcall : call ∈ (σ.procs p).appendCalls) :
    ((σ.procs call.server).node.appendEntries call.args).fault = none := by
  rcases hf : ((σ.procs call.server).node.appendEntries call.args).fault with _ | fault
  · rfl
  · obtain ⟨own, e, he, hown, hidx, hterm, hcmd, -⟩ :=
      ((hinv call.server).node.appendEntries ((hinv p).appendConsecutive call hcall)).2.2 fault hf
    exact absurd (h.unique own e ⟨call.server, Or.inl hown⟩ ⟨p, Or.inr ⟨call, hcall, he⟩⟩ hidx hterm)
      hcmd

theorem Cluster.EntryInv.feed {σ : Cluster n} (h : σ.EntryInv) (helect : σ.ElectionInv)
    (hinv : ∀ p, (σ.procs p).IndexInv) (p : Fin n) (input : Input n) (hwf : input.WellFormed)
    (hfault : ∀ args, input = .appendEntries args →
      ((σ.procs p).node.appendEntries args).fault = none)
    (hargs : ∀ args, input = .appendEntries args → ∀ e ∈ args.entries, σ.Holds e) :
    (σ.feed p input).EntryInv := by
  have helected : ∀ q T, σ.Elected q T → (σ.feed p input).Elected q T :=
    fun q T hT => (σ.elected_feed p input).2 (Or.inl hT)
  have hlast : ∀ q, (σ.procs q).node.getLastLogIndex
      ≤ ((σ.feed p input).procs q).node.getLastLogIndex := by
    intro q
    rcases eq_or_ne q p with rfl | hq
    · rw [σ.feed_procs_self]
      exact ((hinv q).step hwf).1.2.last
    · rw [σ.feed_procs_ne p input hq]
  have hnew := fun e (he : (σ.feed p input).Holds e) => σ.holds_feed hinv p input hargs he
  -- the index it got is past every entry of the term
  have hfresh : ∀ e command, σ.Holds e → (σ.procs p).node.identity = .leader →
      e.index = ((σ.procs p).node.newEntry command).index →
      e.term ≠ ((σ.procs p).node.newEntry command).term := by
    intro e command he hid hidx hterm
    obtain ⟨q, hq, hle⟩ := h.owned e he
    rw [hterm] at hq
    obtain rfl := helect.unique hq (helect.leader p hid)
    rw [hidx] at hle
    simp only [Node.newEntry, Node.getNewCommandIndex] at hle
    omega
  refine ⟨fun e e' he he' hidx hterm => ?_, fun e he => ?_⟩
  · rcases hnew e he with hold | ⟨command, rfl, hid, rfl⟩
    · rcases hnew e' he' with hold' | ⟨command, rfl, hid, rfl⟩
      · exact h.unique e e' hold hold' hidx hterm
      · exact absurd hterm (hfresh e command hold hid hidx)
    · rcases hnew e' he' with hold' | ⟨command', heq, -, rfl⟩
      · exact absurd hterm.symm (hfresh e' command hold' hid hidx.symm)
      · obtain rfl := Input.execute.inj heq
        rfl
  · rcases hnew e he with hold | ⟨command, rfl, hid, rfl⟩
    · obtain ⟨q, hq, hle⟩ := h.owned e hold
      exact ⟨q, helected q _ hq, hle.trans (hlast q)⟩
    · refine ⟨p, helected p _ (helect.leader p hid), ?_⟩
      rw [σ.feed_procs_self]
      have hc := ((hinv p).node.execute command).1.contiguous.getLastLogIndex
      have hc' := (hinv p).node.contiguous.getLastLogIndex
      simp only [Proc.step, hc, Node.newEntry, Node.getNewCommandIndex, hc']
      rcases (σ.procs p).node.execute_cases command with ⟨-, heq⟩ | ⟨hne, -⟩
      · rw [heq]
        simp only [Node.mPersist_lastSnapshotIndex, Node.mPersist_logs, List.length_append,
          List.length_singleton]
        omega
      · exact absurd hid hne

theorem Cluster.EntryInv.setProc {σ : Cluster n} (h : σ.EntryInv) (p : Fin n) {P : Proc n}
    (hnode : P.node = (σ.procs p).node)
    (hcalls : ∀ call ∈ P.appendCalls, ∃ call' ∈ (σ.procs p).appendCalls, call.args = call'.args) :
    (σ.setProc p P).EntryInv := by
  refine h.of_subset ?_ ?_ fun q => (congrArg Node.getLastLogIndex (σ.setProc_node p hnode q)).ge
  · exact fun e he => σ.holds_setProc p hnode hcalls he
  · intro q T hT
    rw [Cluster.Elected, σ.setProc_history p hnode]
    exact hT

theorem Cluster.Move.entryInv {σ σ' : Cluster n} {a : Action n} (hmove : σ.Move a σ') (h : σ.EntryInv)
    (helect : σ.ElectionInv) (hinv : ∀ p, (σ.procs p).IndexInv) : σ'.EntryInv := by
  cases hmove with
  | idle => exact h
  | run _ p hlocal =>
      refine h.feed helect hinv p _ hlocal.wellFormed ?_ ?_
      all_goals
        rintro args rfl
        exact absurd hlocal id
  | apply p _ =>
      have hf := h.feed helect hinv p .getApplyMessages trivial (by simp) (by simp)
      refine hf.of_subset (fun e he => he) (fun q T hT => ?_) fun q => le_rfl
      rw [Cluster.record_elected]
      exact hT
  | @deliverAppend p k call hcall _ hfault =>
      have hmem := List.mem_of_getElem? hcall
      have hf := h.feed helect hinv call.server (.appendEntries call.args)
        ((hinv p).appendConsecutive call hmem) (by rintro args ⟨rfl⟩; exact hfault)
        (by rintro args ⟨rfl⟩ e he; exact ⟨p, Or.inr ⟨call, hmem, he⟩⟩)
      rw [← (σ.feed_request p call.server (.appendEntries call.args) trivial).1] at hcall
      exact hf.setProc p rfl fun c hc => exists_of_mem_set (f := AppendCall.args) hcall hc rfl
  | @loseAppend p k call _ hcall _ hfault =>
      rw [h.appendEntries_fault hinv (List.mem_of_getElem? hcall)] at hfault
      simp at hfault
  | @deliverVote p k call hcall =>
      have hf := h.feed helect hinv call.server (.requestVote call.args) trivial (by simp) (by simp)
      exact hf.setProc p rfl fun c hc => ⟨c, hc, rfl⟩
  | @deliverSnapshot p k call args _ _ _ =>
      have hf := h.feed helect hinv call.server (.installSnapshot args) trivial (by simp) (by simp)
      exact hf.setProc p rfl fun c hc => ⟨c, hc, rfl⟩
  | @loseSnapshot p k call args _ _ _ _ =>
      have hf := h.feed helect hinv call.server (.installSnapshot args) trivial (by simp) (by simp)
      exact hf.setProc p rfl fun c hc => ⟨c, hc, rfl⟩
  | returnAppend p k _ _ => exact h.feed helect hinv p _ trivial (by simp) (by simp)
  | returnVote p k _ _ => exact h.feed helect hinv p _ trivial (by simp) (by simp)
  | returnSnapshot p k _ _ => exact h.feed helect hinv p _ trivial (by simp) (by simp)

theorem Cluster.Reachable.entryInv {σ : Cluster n} (h : σ.Reachable) : σ.EntryInv := by
  refine GuardedRun.Reach.invariant (P := Cluster.EntryInv) ⟨?_, ?_⟩
    (fun σ a hreach hσ _ => ?_) h
  · rintro e e' ⟨p, hp⟩
    simp [Proc.Holds, Cluster.new, Proc.new, Node.new, Node.load, Persister.new] at hp
  · rintro e ⟨p, hp⟩
    simp [Proc.Holds, Cluster.new, Proc.new, Node.new, Node.load, Persister.new] at hp
  · exact (σ.step_move a).entryInv hσ (Cluster.Reachable.electionInv hreach)
      (Cluster.Reachable.indexInv hreach)

/-- Entry identity: in every run, entries of equal index and term carry the same command wherever
    they are, so no appendEntries request ever finds different commands. -/
theorem entry_identity {σ : Cluster n} (h : σ.Reachable) :
    (∀ e e', σ.Holds e → σ.Holds e' → e.index = e'.index → e.term = e'.term →
      e.command = e'.command) ∧
    ∀ p, ∀ call ∈ (σ.procs p).appendCalls,
      ((σ.procs call.server).node.appendEntries call.args).fault = none :=
  ⟨h.entryInv.unique, fun _ _ hcall => h.entryInv.appendEntries_fault h.indexInv hcall⟩

/-- Node 0 of three leads and node 1 has taken over its entry; the request to node 2 is under way. -/
theorem entry_identity_three :
    let σ := GuardedRun.exec Cluster.step (Cluster.new 3)
      [.stand4Election 0, .deliverVote 0 0, .returnVote 0 0, .execute 0 [1], .heartBeat 0,
        .deliverAppend 0 0]
    σ.Holds ⟨[1], 1, 1⟩ ∧ (∀ e, σ.Holds e → e.index = 1 → e.term = 1 → e.command = [1]) ∧
      (σ.procs 0).appendCalls.length = 2 ∧
      ∀ call ∈ (σ.procs 0).appendCalls,
        ((σ.procs call.server).node.appendEntries call.args).fault = none := by
  intro σ
  have hreach : σ.Reachable := .exec .init (.of_forall (fun _ _ => trivial) _ _)
  have hholds : σ.Holds ⟨[1], 1, 1⟩ :=
    ⟨1, .inl (show _ ∈ (σ.procs 1).node.logs from by decide +kernel)⟩
  obtain ⟨hunique, hfault⟩ := entry_identity hreach
  exact ⟨hholds, fun e he hindex hterm => hunique e _ he hholds hindex hterm, by decide +kernel,
    hfault 0⟩

/-- A handler runs, and its caller takes note of the reply. -/
theorem Cluster.holds_feed_setProc {σ : Cluster n} (p server : Fin n) (input : Input n) {P : Proc n}
    (hinv : ∀ p, (σ.procs p).IndexInv)
    (hargs : ∀ args, input = .appendEntries args → ∀ e ∈ args.entries, σ.Holds e)
    (hexec : ∀ command, input ≠ .execute command)
    (hnode : P.node = ((σ.feed server input).procs p).node)
    (hcalls : ∀ call ∈ P.appendCalls, ∃ call' ∈ ((σ.feed server input).procs p).appendCalls,
      call.args = call'.args) {e : LogEntry}
    (he : ((σ.feed server input).setProc p P).Holds e) : σ.Holds e := by
  have hfeed := Cluster.holds_setProc p hnode hcalls he
  rcases σ.holds_feed hinv server input hargs hfeed with hold | ⟨command, heq, -⟩
  · exact hold
  · exact absurd heq (hexec command)

/-- Only `execute` brings a command into the cluster. -/
theorem Cluster.Reachable.step_holds {σ : Cluster n} (h : σ.Reachable) {a : Action n} {e : LogEntry}
    (he : (σ.step a).Holds e) : σ.Holds e ∨ ∃ p, a = .execute p e.command := by
  have hinv := h.indexInv
  -- a critical section that takes in neither a request nor a command
  have hquiet : ∀ (p : Fin n) (input : Input n), (∀ args, input ≠ .appendEntries args) →
      (∀ command, input ≠ .execute command) → input.WellFormed → (σ.feed p input).Holds e →
      σ.Holds e := by
    intro p input hargs hexec hwf he
    rcases σ.holds_feed hinv p input (fun args heq => absurd heq (hargs args)) he with hold | ⟨command, heq, -⟩
    · exact hold
    · exact absurd heq (hexec command)
  cases a with
  | execute p command =>
      rcases σ.holds_feed hinv p (.execute command) (by simp) he with
        hold | ⟨command', heq, -, rfl⟩
      · exact Or.inl hold
      · obtain rfl := Input.execute.inj heq
        exact Or.inr ⟨p, rfl⟩
  | persist p index shot =>
      exact Or.inl (hquiet p (.persist index shot) (by simp) (by simp) trivial he)
  | getApplyMessages p =>
      simp only [Cluster.step, Cluster.getApplyMessages] at he
      split at he
      all_goals exact Or.inl (hquiet p .getApplyMessages (by simp) (by simp) trivial he)
  | stand4Election p => exact Or.inl (hquiet p .stand4Election (by simp) (by simp) trivial he)
  | heartBeat p => exact Or.inl (hquiet p .heartBeat (by simp) (by simp) trivial he)
  | readSnapshot p k => exact Or.inl (hquiet p (.readSnapshot k) (by simp) (by simp) trivial he)
  | deliverAppend p k =>
      left
      simp only [Cluster.step, Cluster.deliverAppend] at he
      split at he
      swap
      · exact he
      rename_i server args cell hcall
      have hmem := List.mem_of_getElem? hcall
      have hfault := h.entryInv.appendEntries_fault hinv hmem
      simp only [hfault] at he
      refine Cluster.holds_feed_setProc p server (.appendEntries args) hinv ?_ (by simp) ?_ ?_ he
      · rintro args ⟨rfl⟩ e he
        exact ⟨p, Or.inr ⟨_, hmem, he⟩⟩
      · rfl
      · rw [← (σ.feed_request p server (.appendEntries args) trivial).1] at hcall
        exact fun c hc => exists_of_mem_set (f := AppendCall.args) hcall hc rfl
  | deliverVote p k =>
      left
      simp only [Cluster.step, Cluster.deliverVote] at he
      split at he
      swap
      · exact he
      rename_i server args cell hcall
      refine Cluster.holds_feed_setProc p server (.requestVote args) hinv (by simp)
        (by simp) ?_ ?_ he
      · rfl
      · exact fun c hc => ⟨c, hc, rfl⟩
  | deliverSnapshot p k =>
      left
      simp only [Cluster.step, Cluster.deliverSnapshot] at he
      split at he
      swap
      · exact he
      rename_i server args hcall
      refine Cluster.holds_feed_setProc p server (.installSnapshot args) hinv (by simp)
        (by simp) ?_ ?_ he
      · rfl
      · exact fun c hc => ⟨c, hc, rfl⟩
  | returnAppend p k =>
      left
      simp only [Cluster.step] at he
      split at he
      · rename_i reply _
        exact hquiet p (.appendReply k reply) (by simp) (by simp) trivial he
      · exact he
  | returnVote p k =>
      left
      simp only [Cluster.step] at he
      split at he
      · rename_i reply _
        exact hquiet p (.voteReply k reply) (by simp) (by simp) trivial he
      · exact he
  | returnSnapshot p k =>
      left
      simp only [Cluster.step] at he
      split at he
      · rename_i reply _
        exact hquiet p (.snapshotReply k reply) (by simp) (by simp) trivial he
      · exact he

end RaftKVStorage
