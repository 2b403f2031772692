import RaftKVStorage.LogRepair
import RaftKVStorage.CommitQuorum

set_option autoImplicit false

/-! # Making a peer ready

Whatever a leader has noted about a peer, finitely many heartbeats lead to a request that follows on the
peer's log: a rejection names a nearer index, and a peer that lacks compacted entries installs the
snapshot. -/

namespace RaftKVStorage

open GuardedRun

variable {n : ℕ} {s f : Node n} {peer : Fin n}

/-! ## A leader and a peer -/

theorem Node.Contiguous.termAt_of_getLogTerm (h : s.Contiguous) {index t : Int}
    (hlo : s.lastSnapshotIndex ≤ index) (hhi : index ≤ s.getLastLogIndex)
    (ht : s.getLogTerm index = .ok t) : s.termAt index = some t := by
  rw [Node.termAt]
  by_cases hsnap : index = s.lastSnapshotIndex
  · rw [Node.getLogTerm, if_pos hsnap] at ht
    rw [if_pos hsnap, Except.ok.inj ht]
  · obtain ⟨e, he, hterm⟩ := h.entryAt_of_getLogTerm (lt_of_le_of_ne hlo (Ne.symm hsnap)) hhi ht
    rw [if_neg hsnap, he, Option.map_some, hterm]

theorem Node.SameLog.termAt {s' : Node n} (h : s.SameLog s') (index : Int) :
    s'.termAt index = s.termAt index := by
  rw [Node.termAt, Node.termAt, h.snapshotIndex, h.snapshotTerm, h.entryAt]

/-- The leader's next request for the peer follows on the peer's log. -/
structure Node.Ready (s f : Node n) (peer : Fin n) : Prop where
  leader : s.identity = .leader
  term : f.term ≤ s.term
  above : s.lastSnapshotIndex < s.nextIndex peer
  below : s.nextIndex peer ≤ s.getLastLogIndex + 1
  agree : ∃ t, s.termAt (s.nextIndex peer - 1) = some t ∧ f.termAt (s.nextIndex peer - 1) = some t

/-- The snapshot of the peer covers nothing that the leader does not have. -/
structure Node.Mendable (s f : Node n) (peer : Fin n) : Prop where
  leader : s.identity = .leader
  term : f.term ≤ s.term
  below : s.nextIndex peer ≤ s.getLastLogIndex + 1
  covered : f.lastSnapshotIndex ≤ s.getLastLogIndex
  known : s.lastSnapshotIndex ≤ f.lastSnapshotIndex →
    s.termAt f.lastSnapshotIndex = some f.lastSnapshotTerm

/-- How many exchanges are left at most, unless the peer has no need of the rest. -/
def Node.mendDistance (s f : Node n) (peer : Fin n) : ℕ :=
  if s.nextIndex peer ≤ s.lastSnapshotIndex then
    if f.lastSnapshotIndex < s.lastSnapshotIndex then 0 else 3
  else if s.nextIndex peer ≤ f.lastSnapshotIndex then 2
  else (s.nextIndex peer - f.lastSnapshotIndex).toNat

/-- A peer that is ready accepts. -/
theorem Node.Ready.appendEntries (h : s.Ready f peer) (hs : s.Contiguous) (hf : f.Contiguous)
    {args : AppendEntriesArgs} (hargs : s.heartBeatArgs peer = .ok args)
    (hfault : (f.appendEntries args).fault = none) (hnonneg : 0 ≤ args.prevLogTerm) :
    f.appendEntries args =
      ⟨f.appended args, { term := args.term, success := true, state := .connected }, none⟩ := by
  obtain ⟨args', hargs', hprev⟩ := hs.exists_heartBeatArgs h.above h.below
  obtain rfl := Except.ok.inj (hargs'.symm.trans hargs)
  obtain ⟨hterm, -, -, hlo, hhi, hsent, hentries⟩ := hs.heartBeatArgs hargs
  have hcons := (hs.heartBeatArgs_entries hlo hhi).1
  rw [← hentries] at hcons
  obtain ⟨t, hst, hft⟩ := h.agree
  rw [← hprev] at hst hft
  obtain ⟨hflo, hfhi, hfget⟩ := hf.termAt_range hft
  have hsget := (hs.termAt_range hst).2.2
  have hprevTerm : t = args'.prevLogTerm := Except.ok.inj (hsget.symm.trans hsent)
  have hle := h.term
  rcases hf.appendEntries_cases hcons with
    ⟨hstale, -⟩ | ⟨-, index, -, hindex⟩ | ⟨-, -, -, -, heq⟩ |
      ⟨-, -, _, _, _, _, -, -, -, -, -, -, -, hcut, -⟩
  · omega
  · rcases hindex with ⟨hnew, -⟩ | ⟨hold, -⟩ | ⟨-, -, hmiss | hmiss, -⟩
    · omega
    · omega
    · exact absurd (hprevTerm ▸ hfget) hmiss
    · omega
  · exact heq
  · rw [hcut] at hfault
    cases hfault

/-- A peer that is not ready names an index where to go on that is nearer to its snapshot. -/
theorem Node.Mendable.rejected (h : s.Mendable f peer) (hs : s.Contiguous) (hf : f.Contiguous)
    (habove : s.lastSnapshotIndex < s.nextIndex peer) (hready : ¬s.Ready f peer)
    {args : AppendEntriesArgs} (hargs : s.heartBeatArgs peer = .ok args)
    (hfault : (f.appendEntries args).fault = none) :
    ∃ index, f.appendEntries args = ⟨(f.followTerm args.term).mPersist,
        { term := args.term, updateNextIndex := index, state := .connected }, none⟩ ∧
      f.lastSnapshotIndex < index ∧ index ≤ s.getLastLogIndex + 1 ∧
      (index < s.nextIndex peer ∨
        s.nextIndex peer ≤ f.lastSnapshotIndex ∧ index = f.lastSnapshotIndex + 1) := by
  obtain ⟨args', hargs', hprev⟩ := hs.exists_heartBeatArgs habove h.below
  obtain rfl := Except.ok.inj (hargs'.symm.trans hargs)
  obtain ⟨hterm, -, -, hlo, hhi, hsent, hentries⟩ := hs.heartBeatArgs hargs
  have hcons := (hs.heartBeatArgs_entries hlo hhi).1
  rw [← hentries] at hcons
  have hle := h.term
  have hcovered := h.covered
  have hbelow := h.below
  have hflast := hf.getLastLogIndex
  -- the peer does not know the leader's term at `prevLogIndex`
  have hdiffer : ∀ t, s.termAt args'.prevLogIndex = some t → f.termAt args'.prevLogIndex ≠ some t := by
    intro t hst hft
    rw [hprev] at hst hft
    exact hready ⟨h.leader, h.term, habove, h.below, t, hst, hft⟩
  have hsterm := hs.termAt_of_getLogTerm hlo hhi hsent
  rcases hf.appendEntries_cases hcons with
    ⟨hstale, -⟩ | ⟨-, index, heq, hindex⟩ | ⟨-, hflo, hfhi, hfget, -⟩ |
      ⟨-, -, _, _, _, _, -, -, -, -, -, -, -, hcut, -⟩
  · omega
  · refine ⟨index, heq, ?_⟩
    rcases hindex with ⟨hnew, rfl⟩ | ⟨hold, rfl⟩ | ⟨hin, -, -, rfl | hindex⟩
    · omega
    · omega
    · have hne : args'.prevLogIndex ≠ f.lastSnapshotIndex := by
        intro hsnap
        refine hdiffer f.lastSnapshotTerm ?_ ?_
        · rw [hsnap]
          exact h.known (by omega)
        · rw [hsnap, Node.termAt, if_pos rfl]
      omega
    · omega
  · exact absurd (hf.termAt_of_getLogTerm hflo hfhi hfget) (hdiffer _ hsterm)
  · rw [hcut] at hfault
    cases hfault

/-- The leader takes the peer's hint. -/
theorem Node.Mendable.hinted (h : s.Mendable f peer) (habove : s.lastSnapshotIndex < s.nextIndex peer)
    {index : Int} (hlo : f.lastSnapshotIndex < index) (hhi : index ≤ s.getLastLogIndex + 1)
    (hnearer : index < s.nextIndex peer ∨
      s.nextIndex peer ≤ f.lastSnapshotIndex ∧ index = f.lastSnapshotIndex + 1)
    {s' f' : Node n} (hs' : s' = { s with nextIndex := Function.update s.nextIndex peer index })
    (hf' : f' = (f.followTerm s.term).mPersist) :
    s'.Mendable f' peer ∧
      (s'.Ready f' peer ∨ s'.mendDistance f' peer < s.mendDistance f peer) := by
  have hnext : s'.nextIndex peer = index := by simp only [hs', Function.update_self]
  have hlast : s'.getLastLogIndex = s.getLastLogIndex := by rw [hs']; rfl
  have hsterm : ∀ i, s'.termAt i = s.termAt i := fun i => by rw [hs']; rfl
  have hsnap : s'.lastSnapshotIndex = s.lastSnapshotIndex := by rw [hs']
  have hleader : s'.identity = .leader := by rw [hs']; exact h.leader
  have hfsnap : f'.lastSnapshotIndex = f.lastSnapshotIndex := by rw [hf']; simp
  have hfterm : f'.term = s'.term := by
    rw [hf', hs', Node.mPersist_term, Node.followTerm_term f s.term h.term]
  have hfsnapTerm : f'.lastSnapshotTerm = f.lastSnapshotTerm := by rw [hf']; simp
  have hmendable : s'.Mendable f' peer := by
    refine ⟨hleader, hfterm.le, by rw [hnext, hlast]; exact hhi, by rw [hfsnap, hlast]; exact h.covered,
      ?_⟩
    rw [hfsnap, hfsnapTerm, hsterm, hsnap]
    exact h.known
  refine ⟨hmendable, ?_⟩
  rcases hnearer with hlt | ⟨hold, heq⟩
  · right
    have hold : s.mendDistance f peer = (s.nextIndex peer - f.lastSnapshotIndex).toNat := by
      rw [Node.mendDistance, if_neg (by omega), if_neg (by omega)]
    rw [hold, Node.mendDistance, hnext, hsnap, hfsnap]
    by_cases hcompacted : index ≤ s.lastSnapshotIndex
    · rw [if_pos hcompacted, if_pos (by omega)]
      omega
    · rw [if_neg hcompacted, if_neg (by omega)]
      omega
  · left
    refine ⟨hleader, hfterm.le, by rw [hnext, hsnap]; omega, by rw [hnext, hlast]; exact hhi,
      f.lastSnapshotTerm, ?_, ?_⟩
    · rw [hnext, hsterm, heq, add_sub_cancel_right]
      exact h.known (by omega)
    · rw [hnext, heq, add_sub_cancel_right, Node.termAt, hfsnap, if_pos rfl, hfsnapTerm]

/-- The leader hands the peer its snapshot. -/
theorem Node.Mendable.snapshot (h : s.Mendable f peer) (hs : s.Contiguous) (hf : f.Contiguous)
    (hnonneg : 0 ≤ s.term) (hbelow : s.nextIndex peer ≤ s.lastSnapshotIndex) :
    ∃ f' reply message, f.installSnapshot s.snapshotArgs = ⟨f', (reply, message), none⟩ ∧
      (s.sendSnapshot peer s.snapshotArgs reply).Mendable f' peer ∧
      ((s.sendSnapshot peer s.snapshotArgs reply).Ready f' peer ∨
        (s.sendSnapshot peer s.snapshotArgs reply).mendDistance f' peer < s.mendDistance f peer) := by
  have hlast := hs.getLastLogIndex
  have hsend : ∀ reply : InstallSnapshotReply, reply.term ≤ s.term →
      s.sendSnapshot peer s.snapshotArgs reply =
        { s with
          matchIndex := Function.update s.matchIndex peer s.lastSnapshotIndex
          nextIndex := Function.update s.nextIndex peer (s.lastSnapshotIndex + 1) } := by
    intro reply hreply
    rw [Node.sendSnapshot, if_neg (by omega), if_neg (by simp [h.leader, Node.snapshotArgs])]
    rfl
  rcases hf.installSnapshot_cases s.snapshotArgs with ⟨hlt, -⟩ | ⟨-, hold, heq⟩ | ⟨hle, hnew, heq⟩
  · exact absurd h.term (not_le.2 hlt)
  · -- the peer has compacted at least as much
    refine ⟨_, _, _, heq, ?_⟩
    rw [hsend _ hnonneg]
    replace hold : s.lastSnapshotIndex ≤ f.lastSnapshotIndex := hold
    refine ⟨⟨h.leader, ?_, ?_, ?_, ?_⟩, Or.inr ?_⟩
    · rw [Node.followTerm_term f s.snapshotArgs.term h.term]
      exact le_rfl
    · simp only [Function.update_self]
      show s.lastSnapshotIndex + 1 ≤ s.getLastLogIndex + 1
      omega
    · rw [Node.followTerm_lastSnapshotIndex]
      exact h.covered
    · rw [Node.followTerm_lastSnapshotIndex, Node.followTerm_lastSnapshotTerm]
      exact h.known
    · simp only [Node.mendDistance, Function.update_self, Node.followTerm_lastSnapshotIndex]
      rw [if_pos hbelow]
      split
      · omega
      · split <;> split <;> omega
  · -- the peer installs it
    refine ⟨_, _, _, heq, ?_⟩
    have hterm : (f.installed s.snapshotArgs).term = s.term :=
      Node.followTerm_term f s.snapshotArgs.term h.term
    rw [hsend _ le_rfl]
    have hknown : ∀ s' : Node n, s'.lastSnapshotIndex = s.lastSnapshotIndex →
        s'.lastSnapshotTerm = s.lastSnapshotTerm →
        s'.termAt s.lastSnapshotIndex = some s.lastSnapshotTerm := by
      intro s' hindex hsnapTerm
      rw [Node.termAt, if_pos hindex.symm, hsnapTerm]
    refine ⟨⟨h.leader, hterm.le, ?_, ?_, fun _ => hknown _ rfl rfl⟩, Or.inl ⟨h.leader, hterm.le, ?_, ?_,
      s.lastSnapshotTerm, ?_, ?_⟩⟩
    · simp only [Function.update_self]
      show s.lastSnapshotIndex + 1 ≤ s.getLastLogIndex + 1
      omega
    · show s.lastSnapshotIndex ≤ s.getLastLogIndex
      omega
    · simp only [Function.update_self]
      omega
    · simp only [Function.update_self]
      show s.lastSnapshotIndex + 1 ≤ s.getLastLogIndex + 1
      omega
    · simp only [Function.update_self, add_sub_cancel_right]
      exact hknown _ rfl rfl
    · simp only [Function.update_self, add_sub_cancel_right]
      exact hknown _ rfl rfl

/-! ## Exchanges in the cluster -/

variable {σ : Cluster n} {p q : Fin n}

/-- A heartbeat that is not cut short reaches every peer. -/
theorem Node.heartBeatPeers_complete (s : Node n) {peers : List (Fin n)} (hne : q ≠ s.me)
    (hfault : (s.heartBeatPeers peers).2 = none) (hq : q ∈ peers) :
    (s.nextIndex q ≤ s.lastSnapshotIndex → .sendSnapshot q ∈ (s.heartBeatPeers peers).1) ∧
      (s.lastSnapshotIndex < s.nextIndex q → ∃ args, s.heartBeatArgs q = .ok args ∧
        .sendAppendEntries q args ∈ (s.heartBeatPeers peers).1) := by
  induction peers with
  | nil => exact absurd hq List.not_mem_nil
  | cons i rest ih =>
    rw [Node.heartBeatPeers] at hfault ⊢
    by_cases hme : i = s.me
    · rw [if_pos hme] at hfault ⊢
      exact ih hfault ((List.mem_cons.1 hq).resolve_left fun heq => hne (heq.trans hme))
    rw [if_neg hme] at hfault ⊢
    by_cases hnext : s.nextIndex i ≤ s.lastSnapshotIndex
    · rw [if_pos hnext] at hfault ⊢
      rcases List.mem_cons.1 hq with rfl | hrest
      · exact ⟨fun _ => List.mem_cons_self .., fun hlt => absurd hnext (not_le.2 hlt)⟩
      · obtain ⟨hsnapshot, happend⟩ := ih hfault hrest
        refine ⟨fun hle => List.mem_cons_of_mem _ (hsnapshot hle), fun hlt => ?_⟩
        obtain ⟨args, hargs, hmem⟩ := happend hlt
        exact ⟨args, hargs, List.mem_cons_of_mem _ hmem⟩
    · rw [if_neg hnext] at hfault ⊢
      cases hbuilt : s.heartBeatArgs i with
      | error fault =>
        rw [hbuilt] at hfault
        cases hfault
      | ok built =>
        rw [hbuilt] at hfault
        rcases List.mem_cons.1 hq with rfl | hrest
        · exact ⟨fun hle => absurd hle hnext, fun _ => ⟨built, hbuilt, List.mem_cons_self ..⟩⟩
        · obtain ⟨hsnapshot, happend⟩ := ih hfault hrest
          refine ⟨fun hle => List.mem_cons_of_mem _ (hsnapshot hle), fun hlt => ?_⟩
          obtain ⟨args, hargs, hmem⟩ := happend hlt
          exact ⟨args, hargs, List.mem_cons_of_mem _ hmem⟩

/-- What a heartbeat leaves at a leader whose notes are in range. -/
theorem Proc.IndexInv.heartBeat_calls {P : Proc n} (h : P.IndexInv) (hleader : P.node.identity = .leader)
    (hnext : P.node.NextInv) (hne : q ≠ P.node.me) :
    P.heartBeat.node = P.node ∧ P.heartBeat.appendNums[P.appendNums.length]? = some 1 ∧
      (P.node.nextIndex q ≤ P.node.lastSnapshotIndex → ⟨q, none, none⟩ ∈ P.heartBeat.snapshotCalls) ∧
      (P.node.lastSnapshotIndex < P.node.nextIndex q → ∃ args, P.node.heartBeatArgs q = .ok args ∧
        ⟨q, args, P.appendNums.length, none⟩ ∈ P.heartBeat.appendCalls) := by
  have hfault := h.node.heartBeat_fault hnext
  have heq : P.node.heartBeat = P.node.heartBeatPeers (List.finRange n) := by
    rw [Node.heartBeat, if_pos hleader]
  rw [heq] at hfault
  obtain ⟨hsnapshot, happend⟩ := P.node.heartBeatPeers_complete hne hfault (List.mem_finRange q)
  rw [Proc.heartBeat, if_pos hleader, heq]
  refine ⟨rfl, List.getElem?_concat_length, fun hle => ?_, fun hlt => ?_⟩
  · refine List.mem_append_right _ (List.mem_filterMap.2 ⟨_, hsnapshot hle, rfl⟩)
  · obtain ⟨args, hargs, hmem⟩ := happend hlt
    exact ⟨args, hargs, List.mem_append_right _ (List.mem_filterMap.2 ⟨_, hmem, rfl⟩)⟩

theorem Cluster.step_deliverAppend {args : AppendEntriesArgs} {cell k : ℕ} (hq : q ≠ p)
    (hk : (σ.procs p).appendCalls[k]? = some ⟨q, args, cell, none⟩) {f' : Node n}
    {reply : AppendEntriesReply} (happend : (σ.procs q).node.appendEntries args = ⟨f', reply, none⟩) :
    (σ.step (.deliverAppend p k)).procs = Function.update
      (Function.update σ.procs q { σ.procs q with node := f' }) p
      { σ.procs p with
        appendCalls := (σ.procs p).appendCalls.set k ⟨q, args, cell, some reply⟩ } := by
  simp only [Cluster.step, Cluster.deliverAppend, hk, Cluster.setProc, Cluster.feed_procs,
    Function.update_of_ne hq.symm, Proc.step, happend]

/-- A request arrives and is answered. -/
theorem Cluster.askAppend {args : AppendEntriesArgs} {cell k : ℕ} (hq : q ≠ p)
    (hk : (σ.procs p).appendCalls[k]? = some ⟨q, args, cell, none⟩) {f' : Node n}
    {reply : AppendEntriesReply} (happend : (σ.procs q).node.appendEntries args = ⟨f', reply, none⟩) :
    (exec Cluster.step σ [.deliverAppend p k, .returnAppend p k]).procs = Function.update
      (Function.update σ.procs q { σ.procs q with node := f' }) p
      { σ.procs p with
        node := ((σ.procs p).node.sendAppendEntries q args reply
          ((σ.procs p).appendNums.getD cell 0)).node
        appendNums := (σ.procs p).appendNums.set cell
          ((σ.procs p).node.sendAppendEntries q args reply ((σ.procs p).appendNums.getD cell 0)).ret
        appendCalls := (σ.procs p).appendCalls.eraseIdx k } := by
  have hdeliver := σ.step_deliverAppend hq hk happend
  have hself : ((σ.step (.deliverAppend p k)).procs p).appendCalls[k]? =
      some ⟨q, args, cell, some reply⟩ := by
    rw [hdeliver, Function.update_self]
    exact List.getElem?_set_self (List.getElem?_eq_some_iff.1 hk).1
  show ((σ.step (.deliverAppend p k)).step (.returnAppend p k)).procs = _
  rw [Cluster.step_returnAppend hself rfl, Cluster.feed_procs, Proc.step, Proc.appendReply, hself]
  dsimp only
  rw [hdeliver, Function.update_self, Function.update_idem]
  dsimp only
  rw [List.eraseIdx_set_eq]

theorem Cluster.step_readSnapshot {k : ℕ} (hk : (σ.procs p).snapshotCalls[k]? = some ⟨q, none, none⟩) :
    (σ.step (.readSnapshot p k)).procs = Function.update σ.procs p
      { σ.procs p with
        snapshotCalls :=
          (σ.procs p).snapshotCalls.set k ⟨q, some (σ.procs p).node.snapshotArgs, none⟩ } := by
  simp only [Cluster.step, Cluster.feed_procs, Proc.step, Proc.readSnapshot, hk]

theorem Cluster.step_deliverSnapshot {args : InstallSnapshotArgs} {k : ℕ} (hq : q ≠ p)
    (hk : (σ.procs p).snapshotCalls[k]? = some ⟨q, some args, none⟩) {f' : Node n}
    {reply : InstallSnapshotReply} {message : Option ApplyMessage}
    (hinstall : (σ.procs q).node.installSnapshot args = ⟨f', (reply, message), none⟩) :
    (σ.step (.deliverSnapshot p k)).procs = Function.update
      (Function.update σ.procs q { σ.procs q with node := f' }) p
      { σ.procs p with
        snapshotCalls := (σ.procs p).snapshotCalls.set k ⟨q, some args, some reply⟩ } := by
  simp only [Cluster.step, Cluster.deliverSnapshot, hk, Cluster.setProc, Cluster.feed_procs,
    Function.update_of_ne hq.symm, Proc.step, hinstall]

theorem Cluster.step_returnSnapshot {args : InstallSnapshotArgs} {k : ℕ} {reply : InstallSnapshotReply}
    (hk : (σ.procs p).snapshotCalls[k]? = some ⟨q, some args, some reply⟩) :
    (σ.step (.returnSnapshot p k)).procs = Function.update σ.procs p
      { σ.procs p with
        node := (σ.procs p).node.sendSnapshot q args reply
        snapshotCalls := (σ.procs p).snapshotCalls.eraseIdx k } := by
  rw [Cluster.step, hk]
  simp only [Cluster.feed_procs, Proc.step, Proc.snapshotReply, hk]

/-- A snapshot is sent and the peer's answer taken in. -/
theorem Cluster.askSnapshot {k : ℕ} (hq : q ≠ p)
    (hk : (σ.procs p).snapshotCalls[k]? = some ⟨q, none, none⟩) {f' : Node n}
    {reply : InstallSnapshotReply} {message : Option ApplyMessage}
    (hinstall : (σ.procs q).node.installSnapshot (σ.procs p).node.snapshotArgs =
      ⟨f', (reply, message), none⟩) :
    (exec Cluster.step σ [.readSnapshot p k, .deliverSnapshot p k, .returnSnapshot p k]).procs =
      Function.update (Function.update σ.procs q { σ.procs q with node := f' }) p
        { σ.procs p with
          node := (σ.procs p).node.sendSnapshot q (σ.procs p).node.snapshotArgs reply
          snapshotCalls := (σ.procs p).snapshotCalls.eraseIdx k } := by
  have hlt := (List.getElem?_eq_some_iff.1 hk).1
  have hread := Cluster.step_readSnapshot hk
  have hcall : ((σ.step (.readSnapshot p k)).procs p).snapshotCalls[k]? =
      some ⟨q, some (σ.procs p).node.snapshotArgs, none⟩ := by
    rw [hread, Function.update_self]
    exact List.getElem?_set_self hlt
  have hdeliver := Cluster.step_deliverSnapshot hq hcall
    (by rw [hread, Function.update_of_ne hq]; exact hinstall)
  rw [hread, Function.update_of_ne hq, Function.update_self, Function.update_comm hq,
    Function.update_idem, Function.update_comm hq.symm] at hdeliver
  dsimp only at hdeliver
  rw [List.set_set] at hdeliver
  have hanswered : (((σ.step (.readSnapshot p k)).step (.deliverSnapshot p k)).procs p).snapshotCalls[k]? =
      some ⟨q, some (σ.procs p).node.snapshotArgs, some reply⟩ := by
    rw [hdeliver, Function.update_self]
    exact List.getElem?_set_self hlt
  show (((σ.step (.readSnapshot p k)).step (.deliverSnapshot p k)).step (.returnSnapshot p k)).procs = _
  rw [Cluster.step_returnSnapshot hanswered, hdeliver, Function.update_self, Function.update_idem]
  dsimp only
  rw [List.eraseIdx_set_eq]

/-! ## Mending a log -/

/-- Only the leader `p` and peers in `W` have acted, and `p` has kept its log and its notes about the
    others. -/
structure Cluster.Attended (p : Fin n) (W : Finset (Fin n)) (σ σ' : Cluster n) : Prop where
  others : ∀ x, x ≠ p → x ∉ W → σ'.procs x = σ.procs x
  log : (σ.procs p).node.SameLog (σ'.procs p).node
  leader : (σ'.procs p).node.identity = (σ.procs p).node.identity
  next : ∀ x ∉ W, (σ'.procs p).node.nextIndex x = (σ.procs p).node.nextIndex x

namespace Cluster.Attended

variable {W W' : Finset (Fin n)} {σ' σ'' : Cluster n}

theorem refl (p : Fin n) (W : Finset (Fin n)) (σ : Cluster n) : Attended p W σ σ :=
  ⟨fun _ _ _ => rfl, .refl _, rfl, fun _ _ => rfl⟩

theorem trans (h : Attended p W σ σ') (h' : Attended p W σ' σ'') : Attended p W σ σ'' :=
  ⟨fun x hxp hxW => (h'.others x hxp hxW).trans (h.others x hxp hxW),
    ⟨h'.log.logs.trans h.log.logs, h'.log.snapshotIndex.trans h.log.snapshotIndex,
      h'.log.snapshotTerm.trans h.log.snapshotTerm, h'.log.term.trans h.log.term⟩,
    h'.leader.trans h.leader, fun x hx => (h'.next x hx).trans (h.next x hx)⟩

theorem mono (h : Attended p W σ σ') (hW : W ⊆ W') : Attended p W' σ σ' :=
  ⟨fun x hxp hxW => h.others x hxp fun hx => hxW (hW hx), h.log, h.leader,
    fun x hx => h.next x fun hxW => hx (hW hxW)⟩

theorem of_update {P P' : Proc n}
    (hprocs : σ'.procs = Function.update (Function.update σ.procs q P) p P')
    (hlog : (σ.procs p).node.SameLog P'.node) (hleader : P'.node.identity = (σ.procs p).node.identity)
    (hnext : ∀ x, x ≠ q → P'.node.nextIndex x = (σ.procs p).node.nextIndex x) :
    Attended p {q} σ σ' := by
  refine ⟨fun x hxp hxq => ?_, ?_, ?_, fun x hx => ?_⟩
  · rw [Finset.mem_singleton] at hxq
    rw [hprocs, Function.update_of_ne hxp, Function.update_of_ne hxq]
  · rw [hprocs, Function.update_self]
    exact hlog
  · rw [hprocs, Function.update_self]
    exact hleader
  · rw [Finset.mem_singleton] at hx
    rw [hprocs, Function.update_self]
    exact hnext x hx

/-- A leader sends a heartbeat. -/
theorem heartBeat (W : Finset (Fin n)) (hnode : (σ.procs p).heartBeat.node = (σ.procs p).node) :
    Attended p W σ (σ.step (.heartBeat p)) := by
  have hself : ((σ.step (.heartBeat p)).procs p).node = (σ.procs p).node := by
    rw [← hnode]
    exact congrArg Proc.node (σ.feed_procs_self p .heartBeat)
  refine ⟨fun x hxp _ => σ.feed_procs_ne p .heartBeat hxp, ?_, ?_, fun x _ => ?_⟩
  · rw [hself]
    exact .refl _
  · rw [hself]
  · rw [hself]

end Cluster.Attended

/-- One exchange with a peer that is not ready. -/
theorem Cluster.exists_mendStep (h : σ.Reachable) (hne : q ≠ p) (hnext : (σ.procs p).node.NextInv)
    (hmend : (σ.procs p).node.Mendable (σ.procs q).node q)
    (hready : ¬(σ.procs p).node.Ready (σ.procs q).node q) :
    ∃ as, Attended p {q} σ (exec Cluster.step σ as) ∧
      ((exec Cluster.step σ as).procs p).node.Mendable ((exec Cluster.step σ as).procs q).node q ∧
      (((exec Cluster.step σ as).procs p).node.Ready ((exec Cluster.step σ as).procs q).node q ∨
        ((exec Cluster.step σ as).procs p).node.mendDistance ((exec Cluster.step σ as).procs q).node q <
          (σ.procs p).node.mendDistance (σ.procs q).node q) := by
  have hinv := h.indexInv
  have hme : q ≠ (σ.procs p).node.me := by rwa [h.electionInv.me]
  obtain ⟨hnode, -, hsnapshot, happend⟩ := (hinv p).heartBeat_calls hmend.leader hnext hme
  have hbeat := Attended.heartBeat {q} hnode
  have hp : (σ.step (.heartBeat p)).procs p = (σ.procs p).heartBeat := σ.feed_procs_self p .heartBeat
  have hq : (σ.step (.heartBeat p)).procs q = σ.procs q := σ.feed_procs_ne p .heartBeat hne
  -- what is left to show of the exchange after the heartbeat
  have hexchange : ∀ (bs : List (Action n)) (P P' : Proc n),
      (exec Cluster.step (σ.step (.heartBeat p)) bs).procs =
        Function.update (Function.update (σ.step (.heartBeat p)).procs q P) p P' →
      (σ.procs p).node.SameLog P'.node →
      (∀ x, x ≠ q → P'.node.nextIndex x = (σ.procs p).node.nextIndex x) →
      P'.node.Mendable P.node q →
      (P'.node.Ready P.node q ∨
        P'.node.mendDistance P.node q < (σ.procs p).node.mendDistance (σ.procs q).node q) →
      ∃ as, Attended p {q} σ (exec Cluster.step σ as) ∧
        ((exec Cluster.step σ as).procs p).node.Mendable ((exec Cluster.step σ as).procs q).node q ∧
        (((exec Cluster.step σ as).procs p).node.Ready ((exec Cluster.step σ as).procs q).node q ∨
          ((exec Cluster.step σ as).procs p).node.mendDistance ((exec Cluster.step σ as).procs q).node q <
            (σ.procs p).node.mendDistance (σ.procs q).node q) := by
    intro bs P P' hprocs hlog hnotes hmend' hdone
    have hafter : Attended p {q} (σ.step (.heartBeat p))
        (exec Cluster.step (σ.step (.heartBeat p)) bs) := by
      refine .of_update hprocs ?_ ?_ ?_
      · rw [hp, hnode]
        exact hlog
      · rw [hp, hnode, hmend'.leader, hmend.leader]
      · rw [hp, hnode]
        exact hnotes
    refine ⟨.heartBeat p :: bs, hbeat.trans hafter, ?_⟩
    show ((exec Cluster.step (σ.step (.heartBeat p)) bs).procs p).node.Mendable
      ((exec Cluster.step (σ.step (.heartBeat p)) bs).procs q).node q ∧
        (((exec Cluster.step (σ.step (.heartBeat p)) bs).procs p).node.Ready
          ((exec Cluster.step (σ.step (.heartBeat p)) bs).procs q).node q ∨
        ((exec Cluster.step (σ.step (.heartBeat p)) bs).procs p).node.mendDistance
          ((exec Cluster.step (σ.step (.heartBeat p)) bs).procs q).node q < _)
    rw [hprocs, Function.update_self, Function.update_of_ne hne, Function.update_self]
    exact ⟨hmend', hdone⟩
  by_cases hbelow : (σ.procs p).node.nextIndex q ≤ (σ.procs p).node.lastSnapshotIndex
  · obtain ⟨k, hk⟩ := List.mem_iff_getElem?.1 (hsnapshot hbelow)
    obtain ⟨f', reply, message, hinstall, hmend', hdone⟩ := hmend.snapshot (hinv p).node.contiguous
      (hinv q).node.contiguous (h.termsNonneg p).term hbelow
    have hprocs := (σ.step (.heartBeat p)).askSnapshot hne (by rw [hp]; exact hk)
      (by rw [hp, hq, hnode]; exact hinstall)
    rw [hp, hnode] at hprocs
    refine hexchange _ _ _ hprocs ?_ ?_ hmend' hdone
    · rcases (σ.procs p).node.sendSnapshot_cases q (σ.procs p).node.snapshotArgs reply with
        ⟨hlt, heq⟩ | heq | ⟨-, -, heq⟩
      · have hleader := hmend'.leader
        rw [heq] at hleader
        cases hleader
      · simp only [heq]
        exact .refl _
      · simp only [heq]
        exact ⟨rfl, rfl, rfl, rfl⟩
    · intro x hx
      rcases (σ.procs p).node.sendSnapshot_cases q (σ.procs p).node.snapshotArgs reply with
        ⟨-, heq⟩ | heq | ⟨-, -, heq⟩
      · simp only [heq, Node.identityChange_nextIndex]
      · simp only [heq]
      · simp only [heq, Function.update_of_ne hx]
  · have habove := not_le.1 hbelow
    obtain ⟨args, hargs, hcall⟩ := happend habove
    have hreach : (σ.step (.heartBeat p)).Reachable := .step _ h trivial
    have hfault := hreach.entryInv.appendEntries_fault hreach.indexInv (by rw [hp]; exact hcall)
    rw [hq] at hfault
    obtain ⟨index, hreject, hlo, hhi, hnearer⟩ := hmend.rejected (hinv p).node.contiguous
      (hinv q).node.contiguous habove hready hargs hfault
    obtain ⟨hterm, -⟩ := (hinv p).node.contiguous.heartBeatArgs hargs
    have hnonneg := (hinv q).node.snapshotNonneg
    obtain ⟨k, hk⟩ := List.mem_iff_getElem?.1 hcall
    have hprocs := (σ.step (.heartBeat p)).askAppend hne (by rw [hp]; exact hk)
      (by rw [hq]; exact hreject)
    have hsent := (σ.procs p).node.sendAppendEntries_rejected q args
      { term := args.term, updateNextIndex := index, state := .connected }
      ((σ.procs p).heartBeat.appendNums.getD (σ.procs p).appendNums.length 0) rfl hterm hmend.leader rfl
      (by show index ≠ -2; omega)
    rw [hp, hnode, hsent] at hprocs
    obtain ⟨hmend', hdone⟩ := hmend.hinted habove hlo hhi hnearer rfl rfl
    rw [hterm] at hprocs
    refine hexchange _ _ _ hprocs ⟨rfl, rfl, rfl, rfl⟩ ?_ hmend' hdone
    intro x hx
    exact Function.update_of_ne hx _ _

/-- What the leader knows of a peer is read off its log and its note about the peer. -/
theorem Node.Mendable.congr {s' : Node n} (h : s.Mendable f peer) (hlog : s.SameLog s')
    (hleader : s'.identity = s.identity) (hnext : s'.nextIndex peer = s.nextIndex peer) :
    s'.Mendable f peer := by
  refine ⟨hleader.trans h.leader, ?_, ?_, ?_, ?_⟩
  · rw [hlog.term]
    exact h.term
  · rw [hnext, hlog.getLastLogIndex]
    exact h.below
  · rw [hlog.getLastLogIndex]
    exact h.covered
  · rw [hlog.snapshotIndex, hlog.termAt]
    exact h.known

theorem Node.Ready.congr {s' : Node n} (h : s.Ready f peer) (hlog : s.SameLog s')
    (hleader : s'.identity = s.identity) (hnext : s'.nextIndex peer = s.nextIndex peer) :
    s'.Ready f peer := by
  refine ⟨hleader.trans h.leader, ?_, ?_, ?_, ?_⟩
  · rw [hlog.term]
    exact h.term
  · rw [hnext, hlog.snapshotIndex]
    exact h.above
  · rw [hnext, hlog.getLastLogIndex]
    exact h.below
  · rw [hnext, hlog.termAt]
    exact h.agree

/-- The leader's notes stay in range if those about the peers in `W` do. -/
theorem Cluster.Attended.nextInv {W : Finset (Fin n)} {σ' : Cluster n} (h : Attended p W σ σ')
    (hnext : (σ.procs p).node.NextInv)
    (hW : ∀ q ∈ W, (σ'.procs p).node.nextIndex q ≤ (σ'.procs p).node.getLastLogIndex + 1) :
    (σ'.procs p).node.NextInv := by
  intro hleader x
  by_cases hx : x ∈ W
  · exact hW x hx
  · rw [h.next x hx, h.log.getLastLogIndex]
    exact hnext (h.leader ▸ hleader) x

theorem Cluster.Reachable.run (h : σ.Reachable) (as : List (Action n)) :
    (exec Cluster.step σ as).Reachable :=
  h.exec (.of_forall (fun _ _ => trivial) _ _)

/-- A peer can be made ready, exchange by exchange. -/
theorem Cluster.exists_mended (hne : q ≠ p) (k : ℕ) : ∀ {σ : Cluster n}, σ.Reachable →
    (σ.procs p).node.NextInv → (σ.procs p).node.Mendable (σ.procs q).node q →
      (σ.procs p).node.mendDistance (σ.procs q).node q ≤ k →
      ∃ as, Attended p {q} σ (exec Cluster.step σ as) ∧
        ((exec Cluster.step σ as).procs p).node.Ready ((exec Cluster.step σ as).procs q).node q := by
  induction k with
  | zero =>
    intro σ h hnext hmend hk
    by_cases hready : (σ.procs p).node.Ready (σ.procs q).node q
    · exact ⟨[], .refl p {q} σ, hready⟩
    · obtain ⟨as, hattended, -, hready' | hlt⟩ := Cluster.exists_mendStep h hne hnext hmend hready
      · exact ⟨as, hattended, hready'⟩
      · omega
  | succ k ih =>
    intro σ h hnext hmend hk
    by_cases hready : (σ.procs p).node.Ready (σ.procs q).node q
    · exact ⟨[], .refl p {q} σ, hready⟩
    · obtain ⟨as, hattended, hmend', hready' | hlt⟩ := Cluster.exists_mendStep h hne hnext hmend hready
      · exact ⟨as, hattended, hready'⟩
      · have hnext' := hattended.nextInv hnext fun x hx => by
          rw [Finset.mem_singleton.1 hx]
          exact hmend'.below
        obtain ⟨bs, hattended', hready'⟩ := ih (h.run as) hnext' hmend' (by omega)
        refine ⟨as ++ bs, ?_⟩
        rw [exec_append]
        exact ⟨hattended.trans hattended', hready'⟩

/-- All peers can be made ready, one after the other. -/
theorem Cluster.exists_allReady (W : Finset (Fin n)) : ∀ {σ : Cluster n}, σ.Reachable →
    (σ.procs p).node.NextInv → p ∉ W → (∀ q ∈ W, (σ.procs p).node.Mendable (σ.procs q).node q) →
      ∃ as, Attended p W σ (exec Cluster.step σ as) ∧
        ∀ q ∈ W, ((exec Cluster.step σ as).procs p).node.Ready ((exec Cluster.step σ as).procs q).node q := by
  induction W using Finset.induction_on with
  | empty =>
    intro σ h hnext hp hmend
    exact ⟨[], .refl p ∅ σ, fun q hq => absurd hq (Finset.notMem_empty q)⟩
  | insert q W hqW ih =>
    intro σ h hnext hp hmend
    rw [Finset.mem_insert, not_or] at hp
    obtain ⟨as, hattended, hready⟩ := Cluster.exists_mended (Ne.symm hp.1) _ h hnext
      (hmend q (Finset.mem_insert_self q W)) le_rfl
    have hnext' := hattended.nextInv hnext fun x hx => by
      rw [Finset.mem_singleton.1 hx]
      exact hready.below
    obtain ⟨bs, hattended', hready'⟩ := ih (h.run as) hnext' hp.2 fun x hx => by
      have hxq : x ≠ q := fun heq => hqW (heq ▸ hx)
      have hxp : x ≠ p := fun heq => hp.2 (heq ▸ hx)
      have hx' : x ∉ ({q} : Finset (Fin n)) := fun hmem => hxq (Finset.mem_singleton.1 hmem)
      rw [hattended.others x hxp hx']
      exact (hmend x (Finset.mem_insert_of_mem hx)).congr hattended.log hattended.leader
        (hattended.next x hx')
    refine ⟨as ++ bs, ?_⟩
    rw [exec_append]
    refine ⟨(hattended.mono (Finset.singleton_subset_iff.2 (Finset.mem_insert_self q W))).trans
      (hattended'.mono (Finset.subset_insert q W)), fun x hx => ?_⟩
    rcases Finset.mem_insert.1 hx with rfl | hx
    · rw [hattended'.others x (Ne.symm hp.1) hqW]
      exact hready.congr hattended'.log hattended'.leader (hattended'.next x hqW)
    · exact hready' x hx

end RaftKVStorage
