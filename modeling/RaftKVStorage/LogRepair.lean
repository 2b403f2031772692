import RaftKVStorage.FollowerLog
import RaftKVStorage.EntryIdentity

set_option autoImplicit false

/-! # Bringing a follower's log into line

What one request of `_L_heartBeat` does to a follower's commit index, and what repeating the exchange
of request and reply does to its log. -/

namespace RaftKVStorage

variable {n : ℕ} {s f : Node n}

/-! ## The commit index a request leaves -/

/-- The request of a heartbeat holds the sender's own entries. -/
theorem Node.Contiguous.heartBeatArgs_entryAt (h : s.Contiguous) {peer : Fin n}
    {args : AppendEntriesArgs} (hargs : s.heartBeatArgs peer = .ok args) {index : Int}
    (hlo : args.prevLogIndex < index) :
    args.entries[(index - args.prevLogIndex - 1).toNat]? = s.entryAt index := by
  obtain ⟨-, -, -, hsnap, -, -, hentries⟩ := h.heartBeatArgs hargs
  rw [hentries, List.getElem?_drop, Node.entryAt, Node.logAt, Node.getSlicesIndexFromLogIndex,
    if_pos (by omega)]
  congr 1
  omega

/-- The new log of a follower that accepts the request of a heartbeat. -/
theorem Node.Contiguous.entryAt_accepted (h : s.Contiguous) (hf : f.Contiguous) {peer : Fin n}
    {args : AppendEntriesArgs} (hargs : s.heartBeatArgs peer = .ok args) (haccepts : f.Accepts args) :
    (f.appendEntries args).node = f.appended args ∧
      f.lastSnapshotIndex ≤ args.prevLogIndex ∧ args.prevLogIndex ≤ f.getLastLogIndex ∧
      f.getLogTerm args.prevLogIndex = .ok args.prevLogTerm ∧
      ∀ index, (f.appended args).entryAt index =
        if args.prevLogIndex < index ∧ index ≤ s.getLastLogIndex then s.entryAt index
        else f.entryAt index := by
  obtain ⟨-, -, -, hlo, hhi, -, hentries⟩ := h.heartBeatArgs hargs
  obtain ⟨hcons, hreach⟩ := h.heartBeatArgs_entries hlo hhi
  rw [← hentries] at hcons hreach
  obtain ⟨hfault, hsuccess⟩ := haccepts
  rcases hf.appendEntries_cases hcons with
    ⟨-, heq⟩ | ⟨-, _, heq, -⟩ | ⟨-, hflo, hfhi, hterm, heq⟩ |
      ⟨-, -, _, _, _, _, -, -, -, -, -, -, -, hcut, -⟩
  · rw [heq] at hsuccess
    cases hsuccess
  · rw [heq] at hsuccess
    cases hsuccess
  · refine ⟨by rw [heq], hflo, hfhi, hterm, fun index => ?_⟩
    have hlen : (args.prevLogIndex - f.lastSnapshotIndex).toNat ≤ f.logs.length := by
      have := hf.getLastLogIndex
      omega
    rw [Node.entryAt_appended hflo hlen, hreach]
    by_cases hin : args.prevLogIndex < index ∧ index ≤ s.getLastLogIndex
    · rw [if_pos hin, if_pos hin, h.heartBeatArgs_entryAt hargs hin.1]
    · rw [if_neg hin, if_neg hin]
  · rw [hcut] at hfault
    cases hfault

/-- With `nextIndex` above the snapshot and at most one past the log a request can be built. -/
theorem Node.Contiguous.exists_heartBeatArgs (h : s.Contiguous) {peer : Fin n}
    (hlo : s.lastSnapshotIndex < s.nextIndex peer) (hhi : s.nextIndex peer ≤ s.getLastLogIndex + 1) :
    ∃ args, s.heartBeatArgs peer = .ok args ∧ args.prevLogIndex = s.nextIndex peer - 1 := by
  unfold Node.heartBeatArgs Node.getPreviousLogInfo
  by_cases hfirst : s.nextIndex peer = s.lastSnapshotIndex + 1
  · rw [if_pos hfirst]
    exact ⟨_, rfl, by simp only; omega⟩
  · rw [if_neg hfirst]
    obtain ⟨e, he, -, -⟩ := h.logAt (i := s.nextIndex peer - 1) (by omega) (by omega)
    simp only [he]
    exact ⟨_, rfl, rfl⟩

/-- A follower's commit index only moves over entries the request has checked against the leader. -/
theorem Node.commit_covers_verified (h : s.Contiguous) (hcommit : s.commitIndex ≤ s.getLastLogIndex)
    (hf : f.Contiguous) (peer : Fin n) (hlo : s.lastSnapshotIndex < s.nextIndex peer)
    (hhi : s.nextIndex peer ≤ s.getLastLogIndex + 1) :
    ∃ args, s.heartBeatArgs peer = .ok args ∧ (f.Accepts args →
      (f.appendEntries args).node.commitIndex ≠ f.commitIndex →
      (f.appendEntries args).node.commitIndex ≤ args.prevLogIndex + args.entries.length ∧
      ∀ index, args.prevLogIndex < index → index ≤ (f.appendEntries args).node.commitIndex →
        ∃ e, s.entryAt index = some e ∧ (f.appendEntries args).node.entryAt index = some e) := by
  obtain ⟨args, hargs, -⟩ := h.exists_heartBeatArgs hlo hhi
  refine ⟨args, hargs, fun haccepts hmoved => ?_⟩
  obtain ⟨-, -, hleader, hplo, hphi, -, hentries⟩ := h.heartBeatArgs hargs
  -- the whole suffix was sent, so the request ends with the leader's last entry
  have hreach := (h.heartBeatArgs_entries hplo hphi).2
  rw [← hentries] at hreach
  obtain ⟨hnode, -, -, -, hat⟩ := h.entryAt_accepted hf hargs haccepts
  rw [hnode] at hmoved ⊢
  have hle : (f.appended args).commitIndex ≤ s.commitIndex := by
    have heq : (f.appended args).commitIndex = if args.leaderCommit > f.commitIndex then
        min args.leaderCommit (max f.getLastLogIndex (args.prevLogIndex + args.entries.length))
      else f.commitIndex := rfl
    rw [heq] at hmoved ⊢
    by_cases hgt : args.leaderCommit > f.commitIndex
    · rw [if_pos hgt, hleader]
      exact min_le_left _ _
    · rw [if_neg hgt] at hmoved
      exact absurd rfl hmoved
  refine ⟨by omega, fun index hindex hindex' => ?_⟩
  obtain ⟨e, he⟩ := h.isSome_entryAt index (by omega) (by omega)
  refine ⟨e, he, ?_⟩
  rw [hat, if_pos ⟨hindex, by omega⟩]
  exact he

/-- Node 0 of three commits an entry with node 1 and sends it to node 2. -/
theorem Node.commit_covers_verified_three :
    let σ := GuardedRun.exec Cluster.step (Cluster.new 3)
      [.stand4Election 0, .deliverVote 0 0, .returnVote 0 0, .execute 0 [7], .heartBeat 0,
        .deliverAppend 0 0, .returnAppend 0 0]
    let f := ((σ.procs 2).node.appendEntries ⟨1, 0, 0, 0, [⟨[7], 1, 1⟩], 1⟩).node
    f.commitIndex = 1 ∧ f.commitIndex ≤ 0 + 1 ∧ ∀ index, 0 < index → index ≤ f.commitIndex →
      ∃ e, (σ.procs 0).node.entryAt index = some e ∧ f.entryAt index = some e := by
  intro σ f
  have hreach : σ.Reachable := .exec .init (.of_forall (fun _ _ => trivial) _ _)
  have hargs : (σ.procs 0).node.heartBeatArgs 2 = .ok ⟨1, 0, 0, 0, [⟨[7], 1, 1⟩], 1⟩ := by
    decide +kernel
  obtain ⟨args, hargs', hcommit⟩ := Node.commit_covers_verified
    (hreach.indexInv 0).node.contiguous (hreach.indexInv 0).node.commitLeLast
    (hreach.indexInv 2).node.contiguous 2 (by decide +kernel) (by decide +kernel)
  obtain rfl := Except.ok.inj (hargs'.symm.trans hargs)
  exact ⟨by decide +kernel, hcommit ⟨by decide +kernel, by decide +kernel⟩ (by decide +kernel)⟩

/-! ## Repeating the exchange -/

/-- A leader, one of its peers, and whether the peer has accepted a request of it. -/
structure Session (n : ℕ) where
  leader : Node n
  follower : Node n
  accepted : Bool := false

/-- One heartbeat as far as it concerns the peer: the request, its handler, and the reply. With
    `nextIndex` at or below the snapshot there is no such request. -/
def Session.round (peer : Fin n) (c : Session n) : Session n :=
  if c.leader.nextIndex peer ≤ c.leader.lastSnapshotIndex then c
  else
    match c.leader.heartBeatArgs peer with
    | .error _ => c
    | .ok args =>
        let o := c.follower.appendEntries args
        match o.fault with
        | some _ => { c with follower := o.node }
        | none =>
            { leader := (c.leader.sendAppendEntries peer args o.ret 1).node
              follower := o.node
              accepted := o.ret.success }

/-- The term a node knows for an index, that of the last compacted entry included. -/
def Node.termAt (s : Node n) (index : Int) : Option Int :=
  if index = s.lastSnapshotIndex then some s.lastSnapshotTerm
  else (s.entryAt index).map LogEntry.term

theorem Node.Contiguous.termAt_range (h : s.Contiguous) {index t : Int}
    (ht : s.termAt index = some t) :
    s.lastSnapshotIndex ≤ index ∧ index ≤ s.getLastLogIndex ∧ s.getLogTerm index = .ok t := by
  have hlast := h.getLastLogIndex
  rw [Node.termAt] at ht
  by_cases hsnap : index = s.lastSnapshotIndex
  · rw [if_pos hsnap, Option.some.injEq] at ht
    exact ⟨hsnap.ge, by omega, by rw [Node.getLogTerm, if_pos hsnap, ht]⟩
  · rw [if_neg hsnap, Option.map_eq_some_iff] at ht
    obtain ⟨e, he, rfl⟩ := ht
    obtain ⟨-, hlo, hhi, hslot⟩ := h.index_of_logAt he
    refine ⟨hlo.le, hhi, ?_⟩
    rcases h.getLogTerm hlo.le hhi with ⟨heq, -⟩ | ⟨e', -, hslot', -, hterm⟩
    · exact absurd heq hsnap
    · obtain rfl := Option.some.inj (hslot.symm.trans hslot')
      exact hterm

/-- An entry found by its term. -/
theorem Node.Contiguous.entryAt_of_getLogTerm (h : s.Contiguous) {index t : Int}
    (hlo : s.lastSnapshotIndex < index) (hhi : index ≤ s.getLastLogIndex)
    (ht : s.getLogTerm index = .ok t) : ∃ e, s.entryAt index = some e ∧ e.term = t := by
  obtain ⟨e, he⟩ := h.isSome_entryAt index hlo hhi
  refine ⟨e, he, ?_⟩
  have hterm := (h.termAt_range (t := e.term) (by rw [Node.termAt, if_neg hlo.ne', he]; rfl)).2.2
  rw [hterm] at ht
  exact Except.ok.inj ht

/-- Equal terms at an index mean equal entries there and at every lower index both logs hold. -/
def LogsMatch (s f : Node n) : Prop :=
  ∀ index e e', s.entryAt index = some e → f.entryAt index = some e' → e.term = e'.term →
    ∀ j ≤ index, ∀ d d', s.entryAt j = some d → f.entryAt j = some d' → d = d'

/-- Everything that a handler reads of a log. -/
structure Node.SameLog (s s' : Node n) : Prop where
  logs : s'.logs = s.logs
  snapshotIndex : s'.lastSnapshotIndex = s.lastSnapshotIndex
  snapshotTerm : s'.lastSnapshotTerm = s.lastSnapshotTerm
  term : s'.term = s.term

namespace Node.SameLog

variable {s' : Node n}

theorem refl (s : Node n) : s.SameLog s := ⟨rfl, rfl, rfl, rfl⟩

theorem getLastLogIndex (h : s.SameLog s') : s'.getLastLogIndex = s.getLastLogIndex := by
  simp only [Node.getLastLogIndex, h.logs, h.snapshotIndex]

theorem entryAt (h : s.SameLog s') (index : Int) : s'.entryAt index = s.entryAt index := by
  unfold Node.entryAt Node.logAt Node.getSlicesIndexFromLogIndex
  rw [h.logs, h.snapshotIndex]

theorem getLogTerm (h : s.SameLog s') (index : Int) : s'.getLogTerm index = s.getLogTerm index := by
  unfold Node.getLogTerm Node.logAt Node.getSlicesIndexFromLogIndex
  rw [h.getLastLogIndex, h.logs, h.snapshotIndex, h.snapshotTerm]

theorem contiguous (h : s.SameLog s') (hs : s.Contiguous) : s'.Contiguous := by
  intro i e he
  rw [h.snapshotIndex]
  exact hs i e (h.logs ▸ he)

/-- A request of the node's own term leaves the log as it is unless it is accepted. -/
theorem followed (h : s.SameLog s') {term : Int} (hterm : term = s'.term) :
    s.SameLog (s'.followTerm term).mPersist := by
  refine ⟨?_, ?_, ?_, ?_⟩
  · rw [Node.mPersist_logs, Node.followTerm_logs, h.logs]
  · rw [Node.mPersist_lastSnapshotIndex, Node.followTerm_lastSnapshotIndex, h.snapshotIndex]
  · rw [Node.mPersist_lastSnapshotTerm, Node.followTerm_lastSnapshotTerm, h.snapshotTerm]
  · rw [Node.mPersist_term, Node.followTerm_term s' term hterm.ge, hterm, h.term]

end Node.SameLog

/-- A leader and a follower of its term whose logs match, where the leader still knows the term at
    which the follower's snapshot ends. -/
structure Node.Repairable (s f : Node n) : Prop where
  leader : s.identity = .leader
  term : s.term = f.term
  leaderLog : s.Contiguous
  followerLog : f.Contiguous
  snapshotNonneg : 0 ≤ s.lastSnapshotIndex
  logsMatch : LogsMatch s f
  snapshotTerm : s.termAt f.lastSnapshotIndex = some f.lastSnapshotTerm
  /-- `-2` is what `_M_getLogTerm` reports for an index it does not have. -/
  snapshotTermNonneg : 0 ≤ f.lastSnapshotTerm

/-- The peer holds everything the leader has above the peer's snapshot. -/
def Session.InLine (s f : Node n) (c : Session n) : Prop :=
  c.accepted = true ∧ ∀ index, f.lastSnapshotIndex < index → index ≤ s.getLastLogIndex →
    c.follower.entryAt index = s.entryAt index

/-- No request has been accepted yet, so neither log has changed. -/
structure Session.Pending (s f : Node n) (peer : Fin n) (c : Session n) : Prop where
  leader : s.SameLog c.leader
  identity : c.leader.identity = .leader
  follower : f.SameLog c.follower
  above : s.lastSnapshotIndex < c.leader.nextIndex peer
  below : c.leader.nextIndex peer ≤ s.getLastLogIndex + 1

/-- Below the follower's snapshot one rejection leads right behind it; above, every rejection leads
    down, and never into the snapshot. -/
def Session.distance (f : Node n) (peer : Fin n) (c : Session n) : ℕ :=
  if c.leader.nextIndex peer ≤ f.lastSnapshotIndex then 2
  else (c.leader.nextIndex peer - f.lastSnapshotIndex).toNat

section Round

variable {peer : Fin n} {c : Session n}

/-- What a leader makes of a rejection of its own term. -/
theorem Node.sendAppendEntries_rejected (s : Node n) (peer : Fin n) (args : AppendEntriesArgs)
    (reply : AppendEntriesReply) (num : ℕ) (hstate : reply.state = .connected) (hterm : reply.term = s.term)
    (hleader : s.identity = .leader) (hfail : reply.success = false)
    (hvalid : reply.updateNextIndex ≠ invalidUpdateNextIndex) :
    (s.sendAppendEntries peer args reply num).node =
      { s with nextIndex := Function.update s.nextIndex peer reply.updateNextIndex } := by
  simp [Node.sendAppendEntries, hstate, hterm, hleader, hfail, hvalid]

/-- A rejected request moves `nextIndex` towards the point where the logs agree, or right behind the
    follower's snapshot. -/
theorem Session.Pending.hint (hs : s.Repairable f) (h : c.Pending s f peer) {args : AppendEntriesArgs}
    (hargs : c.leader.heartBeatArgs peer = .ok args)
    (hprev : args.prevLogIndex = c.leader.nextIndex peer - 1) {index : Int}
    (hindex : (c.follower.getLastLogIndex < args.prevLogIndex ∧
        index = c.follower.getLastLogIndex + 1) ∨
      (args.prevLogIndex < c.follower.lastSnapshotIndex ∧
        index = c.follower.lastSnapshotIndex + 1) ∨
      (c.follower.lastSnapshotIndex ≤ args.prevLogIndex ∧
        args.prevLogIndex ≤ c.follower.getLastLogIndex ∧
        (c.follower.getLogTerm args.prevLogIndex ≠ .ok args.prevLogTerm ∨ args.prevLogTerm = -2) ∧
        (index = args.prevLogIndex ∨
          c.follower.lastSnapshotIndex < index ∧ index ≤ args.prevLogIndex))) :
    f.lastSnapshotIndex < index ∧ index ≤ s.getLastLogIndex + 1 ∧
      (index < c.leader.nextIndex peer ∨
        c.leader.nextIndex peer ≤ f.lastSnapshotIndex ∧ index = f.lastSnapshotIndex + 1) := by
  obtain ⟨hlo, hhi, -⟩ := hs.leaderLog.termAt_range hs.snapshotTerm
  have hbelow := h.below
  have hflast := hs.followerLog.getLastLogIndex
  rw [h.follower.getLastLogIndex, h.follower.snapshotIndex] at hindex
  rcases hindex with ⟨hnew, rfl⟩ | ⟨hold, rfl⟩ | ⟨hin, -, hterm, hindex⟩
  · omega
  · omega
  · rcases hindex with rfl | ⟨hin', hle⟩
    · -- at the snapshot itself the terms agree
      have hne : args.prevLogIndex ≠ f.lastSnapshotIndex := by
        intro heq
        have hleader := (h.leader.contiguous hs.leaderLog).heartBeatArgs hargs
        obtain ⟨-, -, -, -, -, hsent, -⟩ := hleader
        rw [heq, h.leader.getLogTerm, (hs.leaderLog.termAt_range hs.snapshotTerm).2.2] at hsent
        have hsent := Except.ok.inj hsent
        have hnonneg := hs.snapshotTermNonneg
        rcases hterm with hterm | hterm
        · rw [heq, h.follower.getLogTerm, Node.getLogTerm, if_pos rfl, hsent] at hterm
          exact hterm rfl
        · omega
      omega
    · omega

/-- The log of a follower that accepts a request of the leader's. -/
theorem Session.Pending.accepted (hs : s.Repairable f) (h : c.Pending s f peer)
    {args : AppendEntriesArgs} (hargs : c.leader.heartBeatArgs peer = .ok args)
    (haccepts : c.follower.Accepts args) {index : Int} (hlo : f.lastSnapshotIndex < index)
    (hhi : index ≤ s.getLastLogIndex) :
    (c.follower.appended args).entryAt index = s.entryAt index := by
  have hl := h.leader.contiguous hs.leaderLog
  have hg := h.follower.contiguous hs.followerLog
  obtain ⟨-, -, -, hplo, hphi, hsent, -⟩ := hl.heartBeatArgs hargs
  obtain ⟨-, hfplo, hfphi, hfterm, hat⟩ := hl.entryAt_accepted hg hargs haccepts
  obtain ⟨hsnap, -, -⟩ := hs.leaderLog.termAt_range hs.snapshotTerm
  rw [h.leader.getLastLogIndex] at hphi hat
  rw [h.leader.snapshotIndex] at hplo
  rw [h.follower.getLastLogIndex] at hfphi
  rw [hat, h.leader.entryAt, h.follower.entryAt]
  by_cases hsuffix : args.prevLogIndex < index ∧ index ≤ s.getLastLogIndex
  · rw [if_pos hsuffix]
  · rw [if_neg hsuffix]
    -- the terms at `prev_log_index` agree, so the logs do below it
    have hle : index ≤ args.prevLogIndex := by omega
    rw [h.leader.getLogTerm] at hsent
    rw [h.follower.getLogTerm] at hfterm
    obtain ⟨e, he, heterm⟩ := hs.leaderLog.entryAt_of_getLogTerm (by omega) hphi hsent
    obtain ⟨e', he', heterm'⟩ := hs.followerLog.entryAt_of_getLogTerm (by omega) hfphi hfterm
    obtain ⟨d, hd⟩ := hs.leaderLog.isSome_entryAt index (by omega) hhi
    obtain ⟨d', hd'⟩ := hs.followerLog.isSome_entryAt index hlo (by omega)
    rw [hd, hd', hs.logsMatch _ e e' he he' (heterm.trans heterm'.symm) index hle d d' hd hd']

/-- One exchange brings the peer into line or the two closer to it. -/
theorem Session.Pending.round (hs : s.Repairable f) (h : c.Pending s f peer) :
    (c.round peer).InLine s f ∨ (c.round peer).Pending s f peer ∧
      (c.round peer).distance f peer < c.distance f peer := by
  have hl := h.leader.contiguous hs.leaderLog
  have hg := h.follower.contiguous hs.followerLog
  have hnext : ¬ c.leader.nextIndex peer ≤ c.leader.lastSnapshotIndex := by
    rw [h.leader.snapshotIndex]
    exact not_le.2 h.above
  obtain ⟨args, hargs, hprev⟩ := hl.exists_heartBeatArgs (not_le.1 hnext)
    (by rw [h.leader.getLastLogIndex]; exact h.below)
  obtain ⟨hterm, -, -, hplo, hphi, hsent, hentries⟩ := hl.heartBeatArgs hargs
  obtain ⟨hcons, -⟩ := hl.heartBeatArgs_entries hplo hphi
  rw [← hentries] at hcons
  have hsame : c.follower.term = c.leader.term := by
    rw [h.follower.term, h.leader.term, hs.term]
  have hround : c.round peer = match (c.follower.appendEntries args).fault with
      | some _ => { c with follower := (c.follower.appendEntries args).node }
      | none =>
          { leader := (c.leader.sendAppendEntries peer args (c.follower.appendEntries args).ret 1).node
            follower := (c.follower.appendEntries args).node
            accepted := (c.follower.appendEntries args).ret.success } := by
    rw [Session.round, if_neg hnext, hargs]
  obtain ⟨hsnap, -, -⟩ := hs.leaderLog.termAt_range hs.snapshotTerm
  rcases hg.appendEntries_cases hcons with
    ⟨hstale, -⟩ | ⟨-, index, heq, hindex⟩ | ⟨-, hlo, hhi, hfterm, heq⟩ |
      ⟨-, hlo, logs, own, e, j, hown, he, hsameTerm, hcommand, -, -, -, -, -, -⟩
  · omega
  · -- rejected, with a hint
    obtain ⟨hilo, hihi, hcloser⟩ := h.hint hs hargs hprev hindex
    have hvalid : index ≠ invalidUpdateNextIndex := by
      have := hs.snapshotNonneg
      unfold invalidUpdateNextIndex
      omega
    have hnode := c.leader.sendAppendEntries_rejected peer args
      { term := args.term, updateNextIndex := index, state := .connected } 1 rfl hterm h.identity rfl
      hvalid
    have hnew : (c.round peer).leader.nextIndex peer = index := by
      rw [hround, heq]
      simp only [hnode, Function.update_self]
    refine Or.inr ⟨?_, ?_⟩
    · rw [hround, heq]
      simp only [hnode]
      exact ⟨⟨h.leader.logs, h.leader.snapshotIndex, h.leader.snapshotTerm, h.leader.term⟩,
        h.identity, h.follower.followed (by omega),
        by simp only [Function.update_self]; omega, by simp only [Function.update_self]; omega⟩
    · rw [Session.distance, Session.distance, hnew, if_neg (by omega)]
      split <;> omega
  · left
    have haccepts : c.follower.Accepts args := by
      rw [Node.Accepts, heq]
      exact ⟨rfl, rfl⟩
    rw [hround, heq]
    exact ⟨rfl, fun index hilo hihi => h.accepted hs hargs haccepts hilo hihi⟩
  · -- both logs would have an entry of one index and term, with different commands
    exfalso
    have hindex := hcons j e he
    have hfown : f.entryAt e.index = some own := by
      rw [← h.follower.entryAt, Node.entryAt, Node.logAt, Node.getSlicesIndexFromLogIndex,
        if_pos (by omega), ← hown]
      congr 1
      omega
    have hse : s.entryAt e.index = some e := by
      rw [← h.leader.entryAt, ← hl.heartBeatArgs_entryAt hargs (by omega), ← he]
      congr 1
      omega
    exact hcommand (congrArg LogEntry.command
      (hs.logsMatch e.index e own hse hfown hsameTerm.symm e.index le_rfl e own hse hfown)).symm

/-- Log repair terminates: after finitely many exchanges the follower has accepted a request, and it
    then holds the leader's entries from its own snapshot on. -/
theorem Session.repair_terminates (hs : s.Repairable f)
    (hlo : s.lastSnapshotIndex < s.nextIndex peer) (hhi : s.nextIndex peer ≤ s.getLastLogIndex + 1) :
    ∃ k, ((Session.round peer)^[k] ⟨s, f, false⟩).accepted = true ∧
      ∀ index, f.lastSnapshotIndex < index → index ≤ s.getLastLogIndex →
        ((Session.round peer)^[k] ⟨s, f, false⟩).follower.entryAt index = s.entryAt index := by
  have hstart : Session.Pending s f peer ⟨s, f, false⟩ := ⟨.refl s, hs.leader, .refl f, hlo, hhi⟩
  obtain ⟨k, -, hdone⟩ := GuardedRun.exists_iterate_done (Session.distance f peer)
    (fun c hc => Session.Pending.round hs hc) hstart
  exact ⟨k, hdone⟩

end Round

/-- Node 0 brings an entry of term 1 into term 2 and sends node 1, which is empty, what follows it. -/
theorem Session.repair_terminates_emptyLog :
    let s : Node 3 := (Node.new 0 Persister.new).stand4Election.1.becomeLeader.execute [7] |>.1
    let s := (s.identityChange .follower 1 (-1)).stand4Election.1.becomeLeader
    let f : Node 3 := (Node.new 1 Persister.new).identityChange .follower 2 (-1)
    s.nextIndex 1 = 2 ∧ ∃ k, ((Session.round 1)^[k] ⟨s, f, false⟩).accepted = true ∧
      ∀ index, 0 < index → index ≤ 1 →
        ((Session.round 1)^[k] ⟨s, f, false⟩).follower.entryAt index = s.entryAt index := by
  intro s₀ s f
  have hleaderLogs : s.logs = [⟨[7], 1, 1⟩] := by decide
  have hnone : ∀ index, f.entryAt index = none := by
    intro index
    unfold Node.entryAt Node.logAt
    split
    · rfl
    · rfl
  have hrepairable : s.Repairable f := by
    refine ⟨by decide, by decide, ?_, ?_, by decide, ?_, by decide, by decide⟩
    · intro i e he
      rw [hleaderLogs] at he
      cases i with
      | zero =>
        obtain rfl : (⟨[7], 1, 1⟩ : LogEntry) = e := by simpa using he
        decide
      | succ i => simp at he
    · intro i e he
      have hlogs : f.logs = [] := rfl
      simp [hlogs] at he
    · intro index e e' _ he'
      rw [hnone] at he'
      cases he'
  exact ⟨by decide, Session.repair_terminates hrepairable (by decide) (by decide)⟩

/-! ## Terms are never negative -/

/-- Every term a process knows of is that of an election. -/
structure Proc.TermsNonneg (P : Proc n) : Prop where
  term : 0 ≤ P.node.term
  held : ∀ e, P.Holds e → 0 ≤ e.term
  snapshot : 0 ≤ P.node.lastSnapshotTerm
  sent : ∀ call ∈ P.snapshotCalls, ∀ args, call.args = some args → 0 ≤ args.lastTerm

theorem Proc.TermsNonneg.step {P : Proc n} (h : P.TermsNonneg) (hinv : P.IndexInv) {input : Input n}
    (hinput : input.WellFormed)
    (happend : ∀ args, input = .appendEntries args →
      (P.node.appendEntries args).fault = none ∧ ∀ e ∈ args.entries, 0 ≤ e.term)
    (hinstall : ∀ args, input = .installSnapshot args → 0 ≤ args.lastTerm) :
    (P.step input).1.TermsNonneg := by
  refine ⟨h.term.trans (hinv.voteStep hinput).term, fun e he => ?_, ?_, fun call hcall args hargs => ?_⟩
  · rcases hinv.step_holds he with
      hold | ⟨args, heq, he⟩ | ⟨command, -, -, rfl⟩
    · exact h.held e hold
    · exact (happend args heq).2 e he
    · exact h.term
  · rcases hinv.step_snapshotPosition hinput with ⟨-, heq⟩ | ⟨e, he, -, heq⟩ | ⟨args, hargs, -, heq⟩
    · exact heq ▸ h.snapshot
    · exact heq ▸ h.held e (Or.inl he)
    · exact heq ▸ hinstall args hargs
  · rcases P.mem_step_snapshotCalls input hcall hargs with ⟨call', hcall', hargs'⟩ | heq
    · exact h.sent call' hcall' args hargs'
    · rw [heq]
      exact h.snapshot

/-- Noting a reply changes no term. -/
theorem Proc.TermsNonneg.answer {P P' : Proc n} (h : P.TermsNonneg) (hnode : P'.node = P.node)
    (happend : ∀ call ∈ P'.appendCalls, ∃ call' ∈ P.appendCalls, call.args = call'.args)
    (hsnap : ∀ call ∈ P'.snapshotCalls, ∃ call' ∈ P.snapshotCalls, call.args = call'.args) :
    P'.TermsNonneg := by
  refine ⟨hnode ▸ h.term, fun e he => h.held e (he.of_subset (fun x hx => hnode ▸ hx) happend),
    hnode ▸ h.snapshot, fun call hcall args hargs => ?_⟩
  obtain ⟨call', hcall', heq⟩ := hsnap call hcall
  exact h.sent call' hcall' args (heq ▸ hargs)

theorem Cluster.feed_termsNonneg {σ : Cluster n} (h : ∀ q, (σ.procs q).TermsNonneg) (p : Fin n)
    (hinv : (σ.procs p).IndexInv) (input : Input n) (hinput : input.WellFormed)
    (happend : ∀ args, input = .appendEntries args →
      ((σ.procs p).node.appendEntries args).fault = none ∧ ∀ e ∈ args.entries, 0 ≤ e.term)
    (hinstall : ∀ args, input = .installSnapshot args → 0 ≤ args.lastTerm) (q : Fin n) :
    ((σ.feed p input).procs q).TermsNonneg :=
  σ.forall_setProc p (I := fun _ P => P.TermsNonneg) h
    ((h p).step hinv hinput happend hinstall) q

theorem Cluster.Move.termsNonneg {σ σ' : Cluster n} {a : Action n} (hmove : σ.Move a σ')
    (hreach : σ.Reachable) (h : ∀ q, (σ.procs q).TermsNonneg) : ∀ q, (σ'.procs q).TermsNonneg := by
  have hinv := hreach.indexInv
  cases hmove with
  | idle => exact h
  | run _ p hlocal =>
      refine Cluster.feed_termsNonneg h p (hinv p) _ hlocal.wellFormed ?_ ?_
      all_goals
        rintro args rfl
        exact absurd hlocal id
  | apply p _ =>
      exact Cluster.feed_termsNonneg h p (hinv p) .getApplyMessages trivial (by simp) (by simp)
  | @deliverAppend p k call hcall _ hfault =>
      have hmem := List.mem_of_getElem? hcall
      have hf := Cluster.feed_termsNonneg h call.server (hinv call.server)
        (.appendEntries call.args) ((hinv p).appendConsecutive call hmem)
        (by rintro args ⟨rfl⟩; exact ⟨hfault, fun e he => (h p).held e (Or.inr ⟨call, hmem, he⟩)⟩)
        (by simp)
      rw [← (σ.feed_request p call.server (.appendEntries call.args) trivial).1] at hcall
      exact Cluster.forall_setProc _ p (I := fun _ P => P.TermsNonneg) hf ((hf p).answer rfl
        (fun c hc => exists_of_mem_set (f := AppendCall.args) hcall hc rfl) fun c hc => ⟨c, hc, rfl⟩)
  | @loseAppend p k call _ hcall _ hfault =>
      rw [hreach.entryInv.appendEntries_fault hinv (List.mem_of_getElem? hcall)] at hfault
      cases hfault
  | @deliverVote p k call hcall =>
      have hf := Cluster.feed_termsNonneg h call.server (hinv call.server)
        (.requestVote call.args) trivial (by simp) (by simp)
      exact Cluster.forall_setProc _ p (I := fun _ P => P.TermsNonneg) hf ((hf p).answer rfl
        (fun c hc => ⟨c, hc, rfl⟩) fun c hc => ⟨c, hc, rfl⟩)
  | @deliverSnapshot p k call args hcall hargs _ =>
      have hf := Cluster.feed_termsNonneg h call.server (hinv call.server)
        (.installSnapshot args) trivial (by simp)
        (by rintro args' ⟨rfl⟩; exact (h p).sent call (List.mem_of_getElem? hcall) args hargs)
      rw [← (σ.feed_request p call.server (.installSnapshot args) trivial).2.2.1] at hcall
      exact Cluster.forall_setProc _ p (I := fun _ P => P.TermsNonneg) hf ((hf p).answer rfl
        (fun c hc => ⟨c, hc, rfl⟩) fun c hc =>
          exists_of_mem_set (f := SnapshotCall.args) hcall hc rfl)
  | @loseSnapshot p k call args _ hcall hargs _ =>
      have hf := Cluster.feed_termsNonneg h call.server (hinv call.server)
        (.installSnapshot args) trivial (by simp)
        (by rintro args' ⟨rfl⟩; exact (h p).sent call (List.mem_of_getElem? hcall) args hargs)
      exact Cluster.forall_setProc _ p (I := fun _ P => P.TermsNonneg) hf ((hf p).answer rfl
        (fun c hc => ⟨c, hc, rfl⟩) fun c hc => ⟨c, List.mem_of_mem_eraseIdx hc, rfl⟩)
  | returnAppend p k _ _ =>
      exact Cluster.feed_termsNonneg h p (hinv p) _ trivial (by simp) (by simp)
  | returnVote p k _ _ =>
      exact Cluster.feed_termsNonneg h p (hinv p) _ trivial (by simp) (by simp)
  | returnSnapshot p k _ _ =>
      exact Cluster.feed_termsNonneg h p (hinv p) _ trivial (by simp) (by simp)

/-- In every run every term is at least 0, so none is mistaken for the `-2` of a missing entry. -/
theorem Cluster.Reachable.termsNonneg {σ : Cluster n} (h : σ.Reachable) (p : Fin n) :
    (σ.procs p).TermsNonneg := by
  refine GuardedRun.Reach.invariant (P := fun σ => ∀ p, (σ.procs p).TermsNonneg)
    (fun p => ⟨le_rfl, ?_, le_rfl, ?_⟩)
    (fun σ a hreach hσ _ => (σ.step_move a).termsNonneg hreach hσ) h p
  · simp [Proc.Holds, Cluster.new, Proc.new, Node.new, Node.load, Persister.new]
  · simp [Cluster.new, Proc.new]

end RaftKVStorage
