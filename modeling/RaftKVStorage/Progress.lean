import RaftKVStorage.Availability
import RaftKVStorage.Mending
import RaftKVStorage.NextIndexBound

set_option autoImplicit false

/-! # A majority can serve its clients

Once a majority has a leader, the leader makes the other members ready, and then any commands it is given
can be committed by all members, by one round that spreads them and one that spreads the commit index. -/

namespace RaftKVStorage

open GuardedRun LeaderLogs

variable {n : ℕ} {s f : Node n} {peer : Fin n} {σ : Cluster n} {p q : Fin n}

/-! ## A round of requests -/

/-- `f'` is the peer `f` once it has what the heartbeat of `s` sent it. -/
structure Node.Served (s f f' : Node n) (peer : Fin n) : Prop where
  entries : ∀ index, f'.entryAt index =
    if s.nextIndex peer ≤ index ∧ index ≤ s.getLastLogIndex then s.entryAt index else f.entryAt index
  commit : s.commitIndex ≤ f'.commitIndex
  term : f'.term = s.term
  agree : ∃ t, s.termAt s.getLastLogIndex = some t ∧ f'.termAt s.getLastLogIndex = some t

theorem Node.Ready.served (h : s.Ready f peer) (hs : s.Contiguous) (hf : f.Contiguous)
    (hcommit : s.commitIndex ≤ s.getLastLogIndex) {args : AppendEntriesArgs}
    (hargs : s.heartBeatArgs peer = .ok args) (haccepts : f.Accepts args) :
    s.Served f (f.appended args) peer := by
  obtain ⟨args', hargs', hprev⟩ := hs.exists_heartBeatArgs h.above h.below
  obtain rfl := Except.ok.inj (hargs'.symm.trans hargs)
  obtain ⟨hterm, -, hleader, hlo, hhi, -, hentries⟩ := hs.heartBeatArgs hargs
  have hreach := (hs.heartBeatArgs_entries hlo hhi).2
  rw [← hentries] at hreach
  obtain ⟨-, hflo, -, -, hat⟩ := hs.entryAt_accepted hf hargs haccepts
  have hsnap : (f.appended args').lastSnapshotIndex = f.lastSnapshotIndex :=
    Node.followTerm_lastSnapshotIndex ..
  have hsnapTerm : (f.appended args').lastSnapshotTerm = f.lastSnapshotTerm :=
    Node.followTerm_lastSnapshotTerm ..
  have hftermEq : (f.appended args').term = s.term := by
    rw [← hterm]
    exact Node.followTerm_term f args'.term (hterm ▸ h.term)
  have hentriesAt : ∀ index, (f.appended args').entryAt index =
      if s.nextIndex peer ≤ index ∧ index ≤ s.getLastLogIndex then s.entryAt index
      else f.entryAt index := by
    intro index
    rw [hat]
    by_cases hin : s.nextIndex peer ≤ index ∧ index ≤ s.getLastLogIndex
    · rw [if_pos hin, if_pos (by omega)]
    · rw [if_neg hin, if_neg (by omega)]
  refine ⟨hentriesAt, ?_, hftermEq, ?_⟩
  · have heq : (f.appended args').commitIndex = if args'.leaderCommit > f.commitIndex then
        min args'.leaderCommit (max f.getLastLogIndex (args'.prevLogIndex + args'.entries.length))
      else f.commitIndex := rfl
    rw [heq, hreach, hleader]
    split <;> omega
  · rcases lt_or_ge args'.prevLogIndex s.getLastLogIndex with hlt | hge
    · obtain ⟨e, he⟩ := hs.isSome_entryAt s.getLastLogIndex (by omega) le_rfl
      refine ⟨e.term, ?_, ?_⟩
      · rw [Node.termAt, if_neg (by omega), he, Option.map_some]
      · rw [Node.termAt, hsnap, if_neg (by omega), hentriesAt, if_pos (by omega), he, Option.map_some]
    · -- there was nothing to send
      obtain ⟨t, hst, hft⟩ := h.agree
      have hlast : s.nextIndex peer - 1 = s.getLastLogIndex := by omega
      rw [hlast] at hst hft
      have hkept : (f.appended args').entryAt s.getLastLogIndex = f.entryAt s.getLastLogIndex := by
        rw [hentriesAt, if_neg (by omega)]
      refine ⟨t, hst, ?_⟩
      rw [Node.termAt, hsnap, hsnapTerm, hkept]
      exact hft

/-- What a leader notes once a request of its term is accepted: `num` counts the acceptances so far. -/
structure Node.Noted (s : Node n) (peer : Fin n) (args : AppendEntriesArgs) (num : ℕ)
    (o : Outcome n ℕ) : Prop where
  log : s.SameLog o.node
  leader : o.node.identity = s.identity
  next : o.node.nextIndex = Function.update s.nextIndex peer
    (max (s.matchIndex peer) (args.prevLogIndex + args.entries.length) + 1)
  commit : s.commitIndex ≤ o.node.commitIndex
  overHalf : n / 2 + 1 ≤ num + 1 → ∀ e ∈ args.entries.getLast?, e.term = s.term →
    args.prevLogIndex + args.entries.length ≤ o.node.commitIndex
  counted : ¬n / 2 + 1 ≤ num + 1 → o.ret = num + 1

theorem Node.sendAppendEntries_accepted (s : Node n) (peer : Fin n) {args : AppendEntriesArgs}
    {reply : AppendEntriesReply} (num : ℕ) (hstate : reply.state = .connected)
    (hterm : reply.term = s.term) (hleader : s.identity = .leader) (hsuccess : reply.success = true)
    (hnext : max (s.matchIndex peer) (args.prevLogIndex + args.entries.length) ≤ s.getLastLogIndex) :
    s.Noted peer args num (s.sendAppendEntries peer args reply num) := by
  have hlast : (s.recordMatch peer args).getLastLogIndex = s.getLastLogIndex := rfl
  have hnoted : (s.recordMatch peer args).nextIndex peer =
      max (s.matchIndex peer) (args.prevLogIndex + args.entries.length) + 1 := by
    simp [Node.recordMatch]
  rw [Node.sendAppendEntries, if_neg (by simp [hstate]), if_neg (by omega),
    if_neg (by simp [hterm, hleader]), if_neg (by simp [hsuccess])]
  dsimp only
  rw [hlast, hnoted, if_neg (by omega)]
  by_cases hmaj : n / 2 + 1 ≤ num + 1
  · rw [if_pos hmaj, if_pos hmaj]
    rcases (s.recordMatch peer args).updateCommitIndex_cases args with heq | ⟨-, heq⟩
    · refine ⟨?_, ?_, ?_, ?_, fun _ e he hown => ?_, fun hlt => absurd hmaj hlt⟩
      · rw [heq]
        exact ⟨rfl, rfl, rfl, rfl⟩
      · rw [heq]
        rfl
      · rw [heq]
        rfl
      · rw [heq]
        exact le_rfl
      · have hcommit : ((s.recordMatch peer args).updateCommitIndex args).commitIndex =
            max s.commitIndex (args.prevLogIndex + args.entries.length) := by
          have hown' : e.term = (s.recordMatch peer args).term := hown
          rw [Node.updateCommitIndex, Option.mem_def.1 he]
          dsimp only
          rw [if_pos hown']
          rfl
        exact hcommit ▸ le_max_right _ _
    · rw [heq]
      exact ⟨⟨rfl, rfl, rfl, rfl⟩, rfl, rfl, le_max_left _ _, fun _ _ _ _ => le_max_right _ _,
        fun hlt => absurd hmaj hlt⟩
  · rw [if_neg hmaj, if_neg hmaj]
    exact ⟨⟨rfl, rfl, rfl, rfl⟩, rfl, rfl, le_rfl, fun hle => absurd hle hmaj, fun _ => rfl⟩

/-- A term in a log is that of an election. -/
theorem Proc.TermsNonneg.getLogTerm {P : Proc n} (h : P.TermsNonneg) (hlog : P.node.Contiguous)
    {index t : Int} (hlo : P.node.lastSnapshotIndex ≤ index) (hhi : index ≤ P.node.getLastLogIndex)
    (ht : P.node.getLogTerm index = .ok t) : 0 ≤ t := by
  rcases hlog.getLogTerm hlo hhi with ⟨-, heq⟩ | ⟨e, -, hslot, -, heq⟩
  · rw [heq] at ht
    exact Except.ok.inj ht ▸ h.snapshot
  · rw [heq] at ht
    exact Except.ok.inj ht ▸ h.held e (Or.inl (List.mem_of_getElem? hslot))

/-- The entry that makes a round count: it is of the leader's term, and every peer in `W` is sent it. -/
def Node.Carries (s : Node n) (W : Finset (Fin n)) : Prop :=
  (∃ e, s.entryAt s.getLastLogIndex = some e ∧ e.term = s.term) ∧
    ∀ q ∈ W, s.nextIndex q ≤ s.getLastLogIndex

/-- Peer `q` has been sent what `args` says in the round that counts in `cell`, and has yet to answer. -/
structure Cluster.Asked (σ : Cluster n) (p : Fin n) (s : Node n) (cell : ℕ) (q : Fin n) : Prop where
  ready : s.Ready (σ.procs q).node q
  call : ∃ args, s.heartBeatArgs q = .ok args ∧ ⟨q, args, cell, none⟩ ∈ (σ.procs p).appendCalls

/-- A peer is asked and accepts. -/
theorem Cluster.Reachable.exists_served (h : σ.Reachable) (hne : q ≠ p) {s : Node n} {cell : ℕ}
    (hs : s.IndexInv) (hsame : s.SameLog (σ.procs p).node)
    (hleader : (σ.procs p).node.identity = .leader) (hasked : σ.Asked p s cell q) :
    ∃ as, Attended p {q} σ (exec Cluster.step σ as) ∧
      s.Served (σ.procs q).node ((exec Cluster.step σ as).procs q).node q ∧
      ((exec Cluster.step σ as).procs p).node.nextIndex q = s.getLastLogIndex + 1 ∧
      (σ.procs p).node.commitIndex ≤ ((exec Cluster.step σ as).procs p).node.commitIndex ∧
      (∀ votes, (σ.procs p).appendNums[cell]? = some votes → s.Carries {q} →
        n / 2 + 1 ≤ votes + 1 ∧
            s.getLastLogIndex ≤ ((exec Cluster.step σ as).procs p).node.commitIndex ∨
          ¬n / 2 + 1 ≤ votes + 1 ∧
            ((exec Cluster.step σ as).procs p).appendNums[cell]? = some (votes + 1)) ∧
      ∀ x args, x ≠ q → ⟨x, args, cell, none⟩ ∈ (σ.procs p).appendCalls →
        ⟨x, args, cell, none⟩ ∈ ((exec Cluster.step σ as).procs p).appendCalls := by
  have hinv := h.indexInv
  obtain ⟨hready, args, hargs, hcall⟩ := hasked
  obtain ⟨k, hk⟩ := List.mem_iff_getElem?.1 hcall
  have hfault := h.entryInv.appendEntries_fault hinv hcall
  obtain ⟨hterm, -, -, hlo, hhi, hsent, hentries⟩ := hs.contiguous.heartBeatArgs hargs
  have hreach := (hs.contiguous.heartBeatArgs_entries hlo hhi).2
  rw [← hentries] at hreach
  have hnonneg : 0 ≤ args.prevLogTerm := by
    have hlo' : (σ.procs p).node.lastSnapshotIndex ≤ args.prevLogIndex := by
      rw [hsame.snapshotIndex]
      exact hlo
    have hhi' : args.prevLogIndex ≤ (σ.procs p).node.getLastLogIndex := by
      rw [hsame.getLastLogIndex]
      exact hhi
    have hsent' := (hsame.getLogTerm args.prevLogIndex).trans hsent
    exact (h.termsNonneg p).getLogTerm (hinv p).node.contiguous hlo' hhi' hsent'
  have happend := hready.appendEntries hs.contiguous (hinv q).node.contiguous hargs hfault hnonneg
  have haccepts : (σ.procs q).node.Accepts args := by
    rw [Node.Accepts, happend]
    exact ⟨rfl, rfl⟩
  have hprocs := σ.askAppend hne hk happend
  have hmatch := (hinv p).node.matchLeLast q
  rw [hsame.getLastLogIndex] at hmatch
  have hnoted : (σ.procs p).node.Noted q args ((σ.procs p).appendNums.getD cell 0)
      ((σ.procs p).node.sendAppendEntries q args
        { term := args.term, success := true, state := .connected }
        ((σ.procs p).appendNums.getD cell 0)) :=
    Node.sendAppendEntries_accepted _ q _ rfl (hterm.trans hsame.term.symm) hleader rfl
      (by rw [hsame.getLastLogIndex]; omega)
  refine ⟨_, .of_update hprocs hnoted.log hnoted.leader fun x hx => ?_, ?_, ?_, ?_, ?_, ?_⟩
  · rw [hnoted.next, Function.update_of_ne hx]
  · rw [hprocs, Function.update_of_ne hne, Function.update_self]
    exact hready.served hs.contiguous (hinv q).node.contiguous hs.commitLeLast hargs haccepts
  · rw [hprocs, Function.update_self]
    dsimp only
    rw [hnoted.next, Function.update_self]
    omega
  · rw [hprocs, Function.update_self]
    exact hnoted.commit
  · rintro votes hvotes ⟨⟨e, he, hown⟩, hsent⟩
    have hcount : (σ.procs p).appendNums.getD cell 0 = votes := by
      rw [List.getD_eq_getElem?_getD, hvotes, Option.getD_some]
    rw [hcount] at hnoted
    rw [hprocs, Function.update_self, hcount]
    by_cases hmaj : n / 2 + 1 ≤ votes + 1
    · refine Or.inl ⟨hmaj, ?_⟩
      rw [← hreach]
      refine hnoted.overHalf hmaj e ?_ (hown.trans hsame.term.symm)
      -- the request ends with the leader's last entry
      have hlt := hsent q (Finset.mem_singleton_self q)
      obtain ⟨args', hargs', hprev⟩ := hs.contiguous.exists_heartBeatArgs hready.above hready.below
      obtain rfl := Except.ok.inj (hargs'.symm.trans hargs)
      have hlast : args'.entries[(s.getLastLogIndex - args'.prevLogIndex - 1).toNat]? =
          s.entryAt s.getLastLogIndex :=
        hs.contiguous.heartBeatArgs_entryAt hargs (by omega)
      rw [Option.mem_def, List.getLast?_eq_getElem?, ← he, ← hlast]
      congr 1
      omega
    · refine Or.inr ⟨hmaj, ?_⟩
      dsimp only
      rw [hnoted.counted hmaj]
      exact List.getElem?_set_self (List.getElem?_eq_some_iff.1 hvotes).1
  · intro x args' hx hmem
    rw [hprocs, Function.update_self]
    obtain ⟨hlt, hget⟩ := List.getElem?_eq_some_iff.1 hk
    have hperm := List.getElem_cons_eraseIdx_perm hlt
    rw [hget] at hperm
    refine (List.mem_cons.1 (hperm.mem_iff.2 hmem)).resolve_left fun heq => hx ?_
    exact congrArg AppendCall.server heq

/-- The peers in `W` are asked one after the other. If they are enough, the leader commits its log. -/
theorem Cluster.exists_allServed {s : Node n} {cell : ℕ} (hs : s.IndexInv) (W : Finset (Fin n)) :
    ∀ {σ : Cluster n}, σ.Reachable → p ∉ W → s.SameLog (σ.procs p).node →
      (σ.procs p).node.identity = .leader → (∀ q ∈ W, σ.Asked p s cell q) →
      (s.getLastLogIndex ≤ (σ.procs p).node.commitIndex ∨
        ∃ votes, (σ.procs p).appendNums[cell]? = some votes ∧ s.Carries W ∧ votes < n / 2 + 1 ∧
          n / 2 + 1 ≤ votes + W.card) →
      ∃ as, Attended p W σ (exec Cluster.step σ as) ∧
        (∀ q ∈ W, s.Served (σ.procs q).node ((exec Cluster.step σ as).procs q).node q ∧
          ((exec Cluster.step σ as).procs p).node.nextIndex q = s.getLastLogIndex + 1) ∧
        s.getLastLogIndex ≤ ((exec Cluster.step σ as).procs p).node.commitIndex := by
  induction W using Finset.induction_on with
  | empty =>
    intro σ h hp hsame hleader hasked hcount
    refine ⟨[], .refl p ∅ σ, fun q hq => absurd hq (Finset.notMem_empty q), hcount.resolve_right ?_⟩
    rintro ⟨votes, -, -, hlt, hle⟩
    rw [Finset.card_empty] at hle
    omega
  | insert q W hqW ih =>
    intro σ h hp hsame hleader hasked hcount
    rw [Finset.mem_insert, not_or] at hp
    obtain ⟨as, hattended, hserved, hnext, hcommit, hvotes, hcalls⟩ := h.exists_served (Ne.symm hp.1) hs
      hsame hleader (hasked q (Finset.mem_insert_self q W))
    have hsame' : s.SameLog ((exec Cluster.step σ as).procs p).node :=
      ⟨hattended.log.logs.trans hsame.logs, hattended.log.snapshotIndex.trans hsame.snapshotIndex,
        hattended.log.snapshotTerm.trans hsame.snapshotTerm, hattended.log.term.trans hsame.term⟩
    have hother : ∀ x ∈ W, x ≠ q ∧ (exec Cluster.step σ as).procs x = σ.procs x := by
      intro x hx
      have hxq : x ≠ q := fun heq => hqW (heq ▸ hx)
      exact ⟨hxq, hattended.others x (fun heq => hp.2 (heq ▸ hx))
        fun hmem => hxq (Finset.mem_singleton.1 hmem)⟩
    obtain ⟨bs, hattended', hserved', hcommit'⟩ := ih (h.run as) hp.2 hsame'
      (hattended.leader.trans hleader)
      (fun x hx => by
        obtain ⟨hready, args, hargs, hmem⟩ := hasked x (Finset.mem_insert_of_mem hx)
        refine ⟨?_, args, hargs, hcalls x args (hother x hx).1 hmem⟩
        rw [(hother x hx).2]
        exact hready)
      (by
        rcases hcount with hdone | ⟨votes, hcell, ⟨hentry, hsent⟩, hlt, hle⟩
        · exact Or.inl (hdone.trans hcommit)
        · rw [Finset.card_insert_of_notMem hqW] at hle
          have hsentW : ∀ x ∈ W, s.nextIndex x ≤ s.getLastLogIndex := fun x hx =>
            hsent x (Finset.mem_insert_of_mem hx)
          have hsentq : s.Carries {q} := by
            refine ⟨hentry, fun x hx => hsent x ?_⟩
            rw [Finset.mem_singleton.1 hx]
            exact Finset.mem_insert_self q W
          rcases hvotes votes hcell hsentq with ⟨-, hdone⟩ | ⟨hmin, hcell'⟩
          · exact Or.inl hdone
          · exact Or.inr ⟨votes + 1, hcell', ⟨hentry, hsentW⟩, by omega, by omega⟩)
    refine ⟨as ++ bs, ?_⟩
    rw [exec_append]
    refine ⟨(hattended.mono (Finset.singleton_subset_iff.2 (Finset.mem_insert_self q W))).trans
      (hattended'.mono (Finset.subset_insert q W)), fun x hx => ?_, hcommit'⟩
    rcases Finset.mem_insert.1 hx with rfl | hx
    · rw [hattended'.others x (Ne.symm hp.1) hqW, hattended'.next x hqW]
      exact ⟨hserved, hnext⟩
    · obtain ⟨hx', hnext'⟩ := hserved' x hx
      rw [(hother x hx).2] at hx'
      exact ⟨hx', hnext'⟩

/-- A peer that has been served is ready for what comes next. -/
theorem Node.Served.ready {f' s' : Node n} (h : s.Served f f' peer) (hs : s.Contiguous)
    (hsame : s.SameLog s') (hleader : s'.identity = .leader)
    (hnext : s'.nextIndex peer = s.getLastLogIndex + 1) : s'.Ready f' peer := by
  have hlast := hs.getLastLogIndex
  refine ⟨hleader, (h.term.trans hsame.term.symm).le, ?_, ?_, ?_⟩
  · rw [hnext, hsame.snapshotIndex]
    omega
  · rw [hnext, hsame.getLastLogIndex]
  · rw [hnext, add_sub_cancel_right, hsame.termAt]
    exact h.agree

/-- A heartbeat goes out to peers that are ready, and all of them answer. -/
theorem Cluster.exists_round (h : σ.Reachable) (hn : 2 ≤ n) {W : Finset (Fin n)} (hp : p ∉ W)
    (hleader : (σ.procs p).node.identity = .leader) (hnext : (σ.procs p).node.NextInv)
    (hready : ∀ q ∈ W, (σ.procs p).node.Ready (σ.procs q).node q)
    (hcount : (σ.procs p).node.getLastLogIndex ≤ (σ.procs p).node.commitIndex ∨
      (σ.procs p).node.Carries W ∧ n / 2 ≤ W.card) :
    ∃ as, Attended p W σ (exec Cluster.step σ as) ∧
      (∀ q ∈ W, (σ.procs p).node.Served (σ.procs q).node ((exec Cluster.step σ as).procs q).node q ∧
        ((exec Cluster.step σ as).procs p).node.Ready ((exec Cluster.step σ as).procs q).node q) ∧
      (σ.procs p).node.getLastLogIndex ≤ ((exec Cluster.step σ as).procs p).node.commitIndex := by
  have hinv := h.indexInv
  have hself : (σ.step (.heartBeat p)).procs p = (σ.procs p).heartBeat := σ.feed_procs_self p .heartBeat
  have hcalls : ∀ q ∈ W, (σ.procs p).heartBeat.node = (σ.procs p).node ∧
      (σ.procs p).heartBeat.appendNums[(σ.procs p).appendNums.length]? = some 1 ∧
      ∃ args, (σ.procs p).node.heartBeatArgs q = .ok args ∧
        ⟨q, args, (σ.procs p).appendNums.length, none⟩ ∈ (σ.procs p).heartBeat.appendCalls := by
    intro q hq
    have hne : q ≠ (σ.procs p).node.me := by
      rw [h.electionInv.me]
      exact fun heq => hp (heq ▸ hq)
    obtain ⟨hnode, hcell, -, happend⟩ := (hinv p).heartBeat_calls hleader hnext hne
    exact ⟨hnode, hcell, happend (hready q hq).above⟩
  have hnode : (σ.procs p).heartBeat.node = (σ.procs p).node := by
    rw [Proc.heartBeat, if_pos hleader]
  have hbeat := Attended.heartBeat W hnode
  have hreach : (σ.step (.heartBeat p)).Reachable := .step _ h trivial
  have hother : ∀ q ∈ W, (σ.step (.heartBeat p)).procs q = σ.procs q := fun q hq =>
    σ.feed_procs_ne p .heartBeat fun heq => hp (heq ▸ hq)
  have hasked : ∀ q ∈ W, (σ.step (.heartBeat p)).Asked p (σ.procs p).node (σ.procs p).appendNums.length q := by
    intro q hq
    obtain ⟨-, -, args, hargs, hmem⟩ := hcalls q hq
    refine ⟨?_, args, hargs, ?_⟩
    · rw [hother q hq]
      exact hready q hq
    · rw [hself]
      exact hmem
  have hcount' : (σ.procs p).node.getLastLogIndex ≤ ((σ.step (.heartBeat p)).procs p).node.commitIndex ∨
      ∃ votes, ((σ.step (.heartBeat p)).procs p).appendNums[(σ.procs p).appendNums.length]? = some votes ∧
        (σ.procs p).node.Carries W ∧ votes < n / 2 + 1 ∧ n / 2 + 1 ≤ votes + W.card := by
    rw [hself, hnode]
    refine hcount.imp_right fun hfresh => ⟨1, ?_, hfresh.1, by omega, by omega⟩
    obtain ⟨q, hq⟩ := Finset.card_pos.1 (show 0 < W.card by omega)
    exact (hcalls q hq).2.1
  obtain ⟨as, hattended, hserved, hcommit⟩ := Cluster.exists_allServed (hinv p).node W hreach hp hbeat.log
    (hbeat.leader.trans hleader) hasked hcount'
  refine ⟨.heartBeat p :: as, hbeat.trans hattended, fun q hq => ?_, hcommit⟩
  obtain ⟨hserved, hnext'⟩ := hserved q hq
  rw [hother q hq] at hserved
  exact ⟨hserved, hserved.ready (hinv p).node.contiguous (hbeat.trans hattended).log
    ((hbeat.trans hattended).leader.trans hleader) hnext'⟩

/-! ## Taking in commands -/

/-- The entries made of `commands` in `term`, from `index` on. -/
def newEntries (term : Int) : Int → List Bytes → List LogEntry
  | _, [] => []
  | index, command :: commands =>
      { command := command, term := term, index := index } :: newEntries term (index + 1) commands

theorem term_of_mem_newEntries {term : Int} {e : LogEntry} : ∀ {commands : List Bytes} {index : Int},
    e ∈ newEntries term index commands → e.term = term := by
  intro commands
  induction commands with
  | nil =>
    intro index he
    cases he
  | cons command commands ih =>
    intro index he
    rcases List.mem_cons.1 he with rfl | he
    · rfl
    · exact ih he

/-- `s'` is the leader `s` with `commands` at the end of its log. -/
structure Node.Executed (s s' : Node n) (commands : List Bytes) : Prop where
  logs : s'.logs = s.logs ++ newEntries s.term (s.getLastLogIndex + 1) commands
  last : s'.getLastLogIndex = s.getLastLogIndex + commands.length
  snapshotIndex : s'.lastSnapshotIndex = s.lastSnapshotIndex
  snapshotTerm : s'.lastSnapshotTerm = s.lastSnapshotTerm
  term : s'.term = s.term
  leader : s'.identity = s.identity
  next : s'.nextIndex = s.nextIndex

/-- A leader takes in the commands. -/
theorem Cluster.exec_execute (p : Fin n) (commands : List Bytes) : ∀ {σ : Cluster n},
    (σ.procs p).node.identity = .leader →
      (∀ q, q ≠ p → (exec Cluster.step σ (commands.map (.execute p))).procs q = σ.procs q) ∧
      (σ.procs p).node.Executed ((exec Cluster.step σ (commands.map (.execute p))).procs p).node
        commands := by
  induction commands with
  | nil =>
    intro σ _
    exact ⟨fun _ _ => rfl, ⟨(List.append_nil _).symm, (add_zero _).symm, rfl, rfl, rfl, rfl, rfl⟩⟩
  | cons command commands ih =>
    intro σ hleader
    have hself : ((σ.step (.execute p command)).procs p).node =
        Node.mPersist { (σ.procs p).node with
          logs := (σ.procs p).node.logs ++ [(σ.procs p).node.newEntry command] } := by
      have hp : (σ.step (.execute p command)).procs p = ((σ.procs p).step (.execute command)).1 :=
        σ.feed_procs_self p (.execute command)
      rw [hp]
      rcases (σ.procs p).node.execute_cases command with ⟨-, heq⟩ | ⟨hnot, -⟩
      · exact heq
      · exact absurd hleader hnot
    have hlast : ((σ.step (.execute p command)).procs p).node.getLastLogIndex =
        (σ.procs p).node.getLastLogIndex + 1 := by
      rw [hself, Node.getLastLogIndex, Node.mPersist_logs, List.getLast?_concat]
      rfl
    obtain ⟨hothers, hrest⟩ := ih (σ := σ.step (.execute p command)) (by rw [hself]; exact hleader)
    refine ⟨fun q hq => (hothers q hq).trans (σ.feed_procs_ne p (.execute command) hq), ?_⟩
    show (σ.procs p).node.Executed
      ((exec Cluster.step (σ.step (.execute p command)) (commands.map (.execute p))).procs p).node _
    refine ⟨?_, ?_, ?_, ?_, ?_, ?_, ?_⟩
    · rw [hrest.logs, hlast, hself, Node.mPersist_logs, Node.mPersist_term, List.append_assoc]
      rfl
    · rw [hrest.last, hlast, List.length_cons]
      push_cast
      omega
    · rw [hrest.snapshotIndex, hself]
      rfl
    · rw [hrest.snapshotTerm, hself]
      rfl
    · rw [hrest.term, hself]
      rfl
    · rw [hrest.leader, hself]
      rfl
    · rw [hrest.next, hself]
      rfl

namespace Node.Executed

variable {s' : Node n} {commands : List Bytes}

theorem entryAt (h : s.Executed s' commands) (hs : s.Contiguous) {index : Int}
    (hle : index ≤ s.getLastLogIndex) : s'.entryAt index = s.entryAt index := by
  have hlast := hs.getLastLogIndex
  rw [Node.entryAt, Node.entryAt, Node.logAt, Node.logAt, Node.getSlicesIndexFromLogIndex,
    Node.getSlicesIndexFromLogIndex, h.snapshotIndex, h.logs]
  by_cases hlo : 0 ≤ index - s.lastSnapshotIndex - 1
  · rw [if_pos hlo, if_pos hlo, List.getElem?_append_left (by omega)]
  · rw [if_neg hlo, if_neg hlo]

theorem termAt (h : s.Executed s' commands) (hs : s.Contiguous) {index : Int}
    (hle : index ≤ s.getLastLogIndex) : s'.termAt index = s.termAt index := by
  rw [Node.termAt, Node.termAt, h.snapshotIndex, h.snapshotTerm, h.entryAt hs hle]

theorem ready (h : s.Executed s' commands) (hs : s.Contiguous) (hready : s.Ready f peer) :
    s'.Ready f peer := by
  have hbelow := hready.below
  refine ⟨h.leader.trans hready.leader, ?_, ?_, ?_, ?_⟩
  · rw [h.term]
    exact hready.term
  · rw [h.next, h.snapshotIndex]
    exact hready.above
  · rw [h.next, h.last]
    omega
  · rw [h.next, h.termAt hs (by omega)]
    exact hready.agree

/-- A round that brings the peers a new command counts. -/
theorem carries (h : s.Executed s' commands) (hs : s.Contiguous) (hs' : s'.Contiguous)
    (hcommands : commands ≠ []) {W : Finset (Fin n)}
    (hW : ∀ q ∈ W, s.nextIndex q ≤ s.getLastLogIndex + 1) : s'.Carries W := by
  have hpos := List.length_pos_iff.2 hcommands
  have hlast := h.last
  have hslast := hs.getLastLogIndex
  have hsnap := h.snapshotIndex
  refine ⟨?_, fun q hq => ?_⟩
  · obtain ⟨e, he⟩ := hs'.isSome_entryAt s'.getLastLogIndex (by omega) le_rfl
    refine ⟨e, he, ?_⟩
    rw [Node.entryAt, Node.logAt, Node.getSlicesIndexFromLogIndex, if_pos (by omega), h.logs,
      List.getElem?_append_right (by omega)] at he
    rw [h.term]
    exact term_of_mem_newEntries (List.mem_of_getElem? he)
  · have hle := hW q hq
    rw [h.next]
    omega

end Node.Executed

/-! ## Serving clients -/

/-- What a leader knows from the abstract protocol about the snapshot of a node of its term or an older
    one: it is committed, hence in the leader log. -/
theorem Cluster.Sim.mendable {S : Ghost n} (h : σ.Sim S) (hinv : ∀ x, (σ.procs x).IndexInv)
    (hleader : (σ.procs p).node.identity = .leader)
    (hterm : (σ.procs q).node.term ≤ (σ.procs p).node.term)
    (hbelow : (σ.procs p).node.nextIndex q ≤ (σ.procs p).node.getLastLogIndex + 1) :
    (σ.procs p).node.Mendable (σ.procs q).node q := by
  obtain ⟨hled, hlog⟩ := (h.node p).leader h.inv hleader
  obtain ⟨hcommit, -, -, hsnapTerm⟩ := (h.node q).commit_lead h.inv (hinv q).node hled hterm
  obtain ⟨-, -, -, hownTerm⟩ := (h.node p).commit_lead h.inv (hinv p).node hled le_rfl
  have hlast := (h.node p).getLastLogIndex (hinv p).node
  rw [hlog] at hlast
  have hqsnap := (hinv q).node.snapshotLeApplied.trans (hinv q).node.appliedLeCommit
  have hpsnap := (hinv p).node.snapshotNonneg
  refine ⟨hleader, hterm, hbelow, by omega, fun hle => ?_⟩
  rw [Node.termAt]
  by_cases hsame : (σ.procs q).node.lastSnapshotIndex = (σ.procs p).node.lastSnapshotIndex
  · rw [if_pos hsame, ← hsnapTerm, ← hownTerm, hsame]
  · rw [if_neg hsame]
    obtain ⟨i, hi⟩ : ∃ i : ℕ, (σ.procs q).node.lastSnapshotIndex = i + 1 :=
      ⟨((σ.procs q).node.lastSnapshotIndex - 1).toNat, by omega⟩
    have hlt : i < (S.lead (σ.procs p).node.term).length := by omega
    have hentry : (S.lead (σ.procs p).node.term)[i]? = some (S.lead (σ.procs p).node.term)[i] :=
      List.getElem?_eq_getElem hlt
    have hheld : (σ.procs p).node.entryAt (σ.procs q).node.lastSnapshotIndex =
        some (S.lead (σ.procs p).node.term)[i] := by
      rw [Node.entryAt, Node.logAt, Node.getSlicesIndexFromLogIndex, if_pos (by omega),
        (h.node p).getElem?_log, hlog, ← hentry]
      congr 1
      omega
    have htake := lastTerm_take hentry
    rw [hheld, Option.map_some, ← hsnapTerm, ← htake, hi]
    congr 2

/-- In a run that delivers nothing over a stale tail, every leader's notes are in range, and it can
    bring every node that is not ahead of its term into line. -/
theorem Cluster.exists_sim_next {σ : Cluster n}
    (h : GuardedRun.Reach (Cluster.new n) Cluster.step Cluster.NoStaleTail σ) :
    ∃ S, σ.Sim S ∧ σ.NextSim S := by
  refine GuardedRun.Reach.invariant (P := fun σ => ∃ S, σ.Sim S ∧ σ.NextSim S)
    ⟨State.start 0, .new, by simp [Cluster.new, Proc.new], fun p hl => ?_⟩
    (fun σ a hσ ⟨S, hsim, hnext⟩ hok => ?_) h
  · simp [Cluster.new, Proc.new, Node.new, Node.load, Persister.new] at hl
  · have hreach : σ.Reachable := hσ.mono fun _ _ _ => trivial
    obtain ⟨S', hsim', g⟩ := hsim.step hreach hok
    exact ⟨S', hsim', hnext.step hsim hreach g⟩

theorem Action.Electoral.noStaleTail {a : Action n} (h : a.Electoral) (σ : Cluster n) :
    σ.NoStaleTail a := by
  cases a with
  | deliverAppend p k => exact absurd h id
  | _ => trivial

/-- Two rounds spread the leader's log and then its commit index over peers that are ready. -/
theorem Cluster.exists_spread (h : σ.Reachable) (hn : 2 ≤ n) {W : Finset (Fin n)} (hp : p ∉ W)
    (hW : n / 2 ≤ W.card) (hleader : (σ.procs p).node.identity = .leader)
    (hnext : (σ.procs p).node.NextInv)
    (hready : ∀ q ∈ W, (σ.procs p).node.Ready (σ.procs q).node q)
    (hcarries : (σ.procs p).node.Carries W) :
    ∃ as, Attended p W σ (exec Cluster.step σ as) ∧
      (∀ q ∈ insert p W, (σ.procs p).node.getLastLogIndex ≤
        ((exec Cluster.step σ as).procs q).node.commitIndex) ∧
      ∀ q ∈ W, ∀ index, (σ.procs p).node.nextIndex q ≤ index →
        index ≤ (σ.procs p).node.getLastLogIndex →
        ((exec Cluster.step σ as).procs q).node.entryAt index = (σ.procs p).node.entryAt index := by
  obtain ⟨as, hattended, hserved, hcommit⟩ := Cluster.exists_round h hn hp hleader hnext hready
    (Or.inr ⟨hcarries, hW⟩)
  have hlast := hattended.log.getLastLogIndex
  have hnext' := hattended.nextInv hnext fun q hq => (hserved q hq).2.below
  obtain ⟨bs, hattended', hserved', hcommit'⟩ := Cluster.exists_round (h.run as) hn hp
    (hattended.leader.trans hleader) hnext' (fun q hq => (hserved q hq).2)
    (Or.inl (by rw [hlast]; exact hcommit))
  refine ⟨as ++ bs, ?_⟩
  rw [exec_append]
  refine ⟨hattended.trans hattended', fun q hq => ?_, fun q hq index hlo hhi => ?_⟩
  · rcases Finset.mem_insert.1 hq with rfl | hq
    · rw [← hlast]
      exact hcommit'
    · exact hcommit.trans (hserved' q hq).1.commit
  · have hfirst : ((exec Cluster.step σ as).procs q).node.entryAt index =
        (σ.procs p).node.entryAt index := by
      rw [(hserved q hq).1.entries, if_pos ⟨hlo, hhi⟩]
    rw [(hserved' q hq).1.entries, hattended.log.entryAt, hfirst, ite_self]

/-- `σ'` follows on `σ`: `p` leads with `commands` at the end of its log, and it and the peers in `W`
    hold and have committed all of them. -/
structure Cluster.Committed (p : Fin n) (W : Finset (Fin n)) (commands : List Bytes)
    (σ σ' : Cluster n) : Prop where
  leader : (σ'.procs p).node.identity = .leader
  logs : (σ'.procs p).node.logs = (σ.procs p).node.logs ++
    newEntries (σ'.procs p).node.term ((σ.procs p).node.getLastLogIndex + 1) commands
  commit : ∀ q ∈ insert p W, (σ'.procs p).node.getLastLogIndex ≤ (σ'.procs q).node.commitIndex
  entries : ∀ q ∈ insert p W, ∀ index, (σ.procs p).node.getLastLogIndex < index →
    index ≤ (σ'.procs p).node.getLastLogIndex →
    (σ'.procs q).node.entryAt index = (σ'.procs p).node.entryAt index
  others : ∀ q, q ≠ p → q ∉ W → σ'.procs q = σ.procs q

/-- A leader that can bring enough peers into line can have any commands committed. -/
theorem Cluster.Reachable.exists_committed (h : σ.Reachable) (hn : 2 ≤ n) {W : Finset (Fin n)}
    (hp : p ∉ W) (hW : n / 2 ≤ W.card) (hleader : (σ.procs p).node.identity = .leader)
    (hnext : (σ.procs p).node.NextInv)
    (hmend : ∀ q ∈ W, (σ.procs p).node.Mendable (σ.procs q).node q) {commands : List Bytes}
    (hcommands : commands ≠ []) :
    ∃ as, Committed p W commands σ (exec Cluster.step σ as) := by
  -- the peers are made ready
  obtain ⟨as, hmended, hready⟩ := Cluster.exists_allReady W h hnext hp hmend
  have h₁ := h.run as
  have hleader₁ := hmended.leader.trans hleader
  have hnext₁ := hmended.nextInv hnext fun q hq => (hready q hq).below
  have hlast₁ := hmended.log.getLastLogIndex
  have hs₁ := (h₁.indexInv p).node.contiguous
  -- the commands come in
  obtain ⟨hothers, hexecuted⟩ := Cluster.exec_execute p commands hleader₁
  have h₂ := h₁.run (commands.map (.execute p))
  have hs₂ := (h₂.indexInv p).node.contiguous
  rw [← exec_append] at hothers hexecuted h₂ hs₂
  have hleader₂ := hexecuted.leader.trans hleader₁
  have hother₂ : ∀ q ∈ W, (exec Cluster.step σ (as ++ commands.map (.execute p))).procs q =
      (exec Cluster.step σ as).procs q := fun q hq => hothers q fun heq => hp (heq ▸ hq)
  have hnext₂ : ((exec Cluster.step σ (as ++ commands.map (.execute p))).procs p).node.NextInv := by
    intro _ x
    have hle := hnext₁ hleader₁ x
    rw [hexecuted.next, hexecuted.last]
    omega
  -- two rounds follow
  obtain ⟨bs, hspread, hcommit, hentries⟩ := Cluster.exists_spread h₂ hn hp hW hleader₂ hnext₂
    (fun q hq => by rw [hother₂ q hq]; exact hexecuted.ready hs₁ (hready q hq))
    (hexecuted.carries hs₁ hs₂ hcommands fun q hq => (hready q hq).below)
  refine ⟨(as ++ commands.map (.execute p)) ++ bs, ?_⟩
  rw [exec_append]
  refine ⟨hspread.leader.trans hleader₂, ?_, fun q hq => ?_, fun q hq index hlo hhi => ?_,
    fun q hqp hqW => ?_⟩
  · rw [hspread.log.logs, hspread.log.term, hexecuted.logs, hexecuted.term, hlast₁, hmended.log.logs]
  · rw [hspread.log.getLastLogIndex]
    exact hcommit q hq
  · rcases Finset.mem_insert.1 hq with rfl | hq
    · rfl
    have hbelow := (hready q hq).below
    rw [hspread.log.getLastLogIndex] at hhi
    rw [hspread.log.entryAt]
    refine hentries q hq index ?_ hhi
    rw [hexecuted.next]
    omega
  · exact (hspread.others q hqp hqW).trans ((hothers q hqp).trans (hmended.others q hqp hqW))

/-- In every run that has delivered nothing over a stale tail, any majority can go on to commit whatever
    commands its clients have, while the other nodes do nothing: one of its members comes to lead, the
    commands follow in its log on what it had, and all members hold them and know them to be committed. -/
theorem commands_committable {σ : Cluster n}
    (h : GuardedRun.Reach (Cluster.new n) Cluster.step Cluster.NoStaleTail σ) (hn : 2 ≤ n)
    {Q : Finset (Fin n)} (hQ : n < 2 * Q.card) {commands : List Bytes} (hcommands : commands ≠ []) :
    ∃ as, ∃ p ∈ Q, ((exec Cluster.step σ as).procs p).node.identity = .leader ∧
      ((exec Cluster.step σ as).procs p).node.logs = (σ.procs p).node.logs ++
        newEntries ((exec Cluster.step σ as).procs p).node.term ((σ.procs p).node.getLastLogIndex + 1)
          commands ∧
      (∀ q ∈ Q, ((exec Cluster.step σ as).procs p).node.getLastLogIndex ≤
          ((exec Cluster.step σ as).procs q).node.commitIndex ∧
        ∀ index, (σ.procs p).node.getLastLogIndex < index →
          index ≤ ((exec Cluster.step σ as).procs p).node.getLastLogIndex →
          ((exec Cluster.step σ as).procs q).node.entryAt index =
            ((exec Cluster.step σ as).procs p).node.entryAt index) ∧
      ∀ q ∉ Q, (exec Cluster.step σ as).procs q = σ.procs q := by
  have hreach : σ.Reachable := h.mono fun _ _ _ => trivial
  obtain ⟨as, p, hp, hleader, hterms, hpolled⟩ := hreach.exists_leader hn hQ
  have hafter := h.exec (.of_forall_mem as σ fun a ha s => (hpolled.electoral a ha).noStaleTail s)
  obtain ⟨S, hsim, hnext⟩ := Cluster.exists_sim_next hafter
  have hcard := Finset.card_erase_add_one hp
  obtain ⟨bs, hcommitted⟩ := (hreach.run as).exists_committed hn (Finset.notMem_erase p Q) (by omega)
    hleader (hnext.next p) (fun q hq => hsim.mendable (hreach.run as).indexInv hleader
      (hterms q (Finset.mem_of_mem_erase hq)) (hnext.next p hleader q)) hcommands
  have hkept := hpolled.logs p
  refine ⟨as ++ bs, p, hp, ?_⟩
  rw [exec_append, ← hkept.getLastLogIndex, ← hkept.logs]
  refine ⟨hcommitted.leader, hcommitted.logs, fun q hq => ?_, fun q hq => ?_⟩
  · rw [← Finset.insert_erase hp] at hq
    exact ⟨hcommitted.commit q hq, hcommitted.entries q hq⟩
  · have hqp : q ≠ p := fun heq => hq (heq ▸ hp)
    have hqQ : q ∉ Q.erase p := fun hmem => hq (Finset.mem_of_mem_erase hmem)
    exact (hcommitted.others q hqp hqQ).trans (hpolled.others q hq)

/-- Node 1 leads and has taken in a command when it goes down; the others commit two more. -/
theorem commands_committable_three :
    let σ := exec Cluster.step (Cluster.new 3)
      [.stand4Election 1, .deliverVote 1 0, .returnVote 1 0, .execute 1 [7]]
    ∃ as, ∃ p ∈ ({0, 2} : Finset (Fin 3)), ((exec Cluster.step σ as).procs p).node.identity = .leader ∧
      ((exec Cluster.step σ as).procs p).node.logs = (σ.procs p).node.logs ++
        newEntries ((exec Cluster.step σ as).procs p).node.term ((σ.procs p).node.getLastLogIndex + 1)
          [[8], [9]] ∧
      (∀ q ∈ ({0, 2} : Finset (Fin 3)), ((exec Cluster.step σ as).procs p).node.getLastLogIndex ≤
          ((exec Cluster.step σ as).procs q).node.commitIndex ∧
        ∀ index, (σ.procs p).node.getLastLogIndex < index →
          index ≤ ((exec Cluster.step σ as).procs p).node.getLastLogIndex →
          ((exec Cluster.step σ as).procs q).node.entryAt index =
            ((exec Cluster.step σ as).procs p).node.entryAt index) ∧
      ∀ q ∉ ({0, 2} : Finset (Fin 3)), (exec Cluster.step σ as).procs q = σ.procs q :=
  commands_committable (.exec .init (by decide +kernel)) (by decide) (by decide) (by decide)

end RaftKVStorage
