import RaftKVStorage.EntryIdentity

set_option autoImplicit false

/-! # Ghost logs

The cluster as an instance of `LeaderLogs`. Every node gets a ghost log, the log it would hold if
nothing were ever compacted; `NodeSim` says how the node's own fields are read off it, `CallsSim`
what the requests and replies on their way say about the leader logs.

A snapshot may be installed under entries that do not belong to it, because the installing node
keeps everything above it unseen. The ghost log then disagrees with the snapshot, which is why
`NodeSim.commit` asks for a committed log `K` of its own instead of a prefix of the ghost log. -/

namespace RaftKVStorage

open LeaderLogs

variable {n : ℕ}

abbrev Ghost (n : ℕ) := LeaderLogs.State (Fin n) Int LogEntry

/-! ## The term a log ends in -/

/-- The term of the last entry, zero for the empty log. -/
def lastTerm (l : List LogEntry) : Int :=
  match l.getLast? with
  | none => 0
  | some e => e.term

theorem lastTerm_of_getLast? {l : List LogEntry} {e : LogEntry} (h : l.getLast? = some e) :
    lastTerm l = e.term := by
  simp [lastTerm, h]

theorem lastTerm_take {l : List LogEntry} {i : ℕ} {e : LogEntry} (h : l[i]? = some e) :
    lastTerm (l.take (i + 1)) = e.term := by
  obtain ⟨hi, rfl⟩ := List.getElem?_eq_some_iff.1 h
  apply lastTerm_of_getLast?
  rw [List.getLast?_eq_getElem?, List.length_take, min_eq_left (by omega), Nat.add_sub_cancel,
    List.getElem?_take_of_lt (by omega), h]

/-- A non-empty suffix ends in the same entry. -/
theorem getLast?_drop_eq {l : List LogEntry} {k : ℕ} (h : k < l.length) :
    (l.drop k).getLast? = l.getLast? := by
  rw [List.getLast?_drop, if_neg (by omega)]

/-! ## Committed logs -/

/-- `K` is empty or committed in a term up to `B`. -/
def Certified (S : Ghost n) (B : Int) (K : List LogEntry) : Prop := K = [] ∨ S.CommittedLog B K

section Certified

variable {S S' : Ghost n} {B B' : Int} {K K' : List LogEntry}

theorem Certified.mono (h : Certified S B K) (g : Grows S S') (hB : B ≤ B') : Certified S' B' K :=
  h.imp_right fun hc => hc.mono g hB

theorem Certified.restrict (h : Certified S B K) (hK : K' <+: K) : Certified S B K' := by
  rcases h with rfl | h
  · exact Or.inl (List.prefix_nil.1 hK)
  · exact Or.inr (h.restrict hK)

theorem Certified.prefix_lead (h : Certified S B K) (hS : Inv LogEntry.term S) {X : Int}
    (hX : S.led X) (hBX : B ≤ X) : K <+: S.lead X := by
  rcases h with rfl | h
  · exact List.nil_prefix
  · exact hS.committedLog_prefix_lead h hX hBX

theorem Certified.comparable (h : Certified S B K) (h' : Certified S B' K')
    (hS : Inv LogEntry.term S) : K <+: K' ∨ K' <+: K := by
  rcases h with rfl | h
  · exact Or.inl List.nil_prefix
  rcases h' with rfl | h'
  · exact Or.inr List.nil_prefix
  · exact hS.committed_comparable h h'

end Certified

/-- `q` acknowledged the first `N` entries of the leader log of term `T`, unless these are known to
    be committed anyway. -/
def Acked (S : Ghost n) (q : Fin n) (T : Int) (N : ℕ) : Prop :=
  S.led T ∧ N ≤ (S.lead T).length ∧ (N ≤ S.ack q T ∨ Certified S T ((S.lead T).take N))

theorem Acked.mono {S S' : Ghost n} (g : Grows S S') {q : Fin n} {T : Int} {N : ℕ}
    (h : Acked S q T N) : Acked S' q T N := by
  obtain ⟨hled, hlen, hack⟩ := h
  refine ⟨g.led T hled, hlen.trans (g.length_lead hled), ?_⟩
  rcases hack with hack | hcert
  · exact Or.inl (hack.trans (g.ack q T))
  · rw [g.take_lead hled hlen]
    exact Or.inr (hcert.mono g le_rfl)

/-- What a majority acknowledged is committed, if its last entry is of the leader's own term. -/
theorem certified_of_majority {S : Ghost n} (hS : Inv LogEntry.term S) {Q : Finset (Fin n)}
    (hQ : Majority Q) {T : Int} {N : ℕ} (hack : ∀ v ∈ Q, Acked S v T (N + 1)) {e : LogEntry}
    (he : (S.lead T)[N]? = some e) (hterm : e.term = T) :
    Certified S T ((S.lead T).take (N + 1)) := by
  by_cases hcert : Certified S T ((S.lead T).take (N + 1))
  · exact hcert
  obtain ⟨v, hv, -⟩ := hQ.inter hQ
  obtain ⟨hled, hlen, -⟩ := hack v hv
  have hbase : S.base T < N + 1 := by
    by_contra hge
    have := (hS.leadTerm T hled N e he).1 (by omega)
    omega
  refine Or.inr ⟨T, N + 1, le_rfl, ⟨⟨hled, hbase, hlen⟩, Q, hQ, fun u hu => ?_⟩, List.prefix_rfl⟩
  exact (hack u hu).2.2.resolve_right hcert

/-! ## Nodes -/

/-- How the fields of node `p` are read off its ghost log. -/
structure NodeSim (S : Ghost n) (p : Fin n) (s : Node n) : Prop where
  term : S.term p = s.term
  termNonneg : 0 ≤ s.term
  leading : S.leading p ↔ s.identity = .leader
  logs : s.logs = (S.log p).drop s.lastSnapshotIndex.toNat
  snapLe : s.lastSnapshotIndex.toNat ≤ (S.log p).length
  snapTerm : (S.log p).length = s.lastSnapshotIndex.toNat →
    s.lastSnapshotTerm = lastTerm (S.log p)
  commit : ∃ K, Certified S s.term K ∧ K.length = s.commitIndex.toNat ∧
    K.drop s.lastSnapshotIndex.toNat <+: s.logs ∧
    lastTerm (K.take s.lastSnapshotIndex.toNat) = s.lastSnapshotTerm

section NodeSim

variable {S S' : Ghost n} {p : Fin n} {s s' : Node n}

/-- Term, log and leadership of the node are all that matters, as long as nothing is taken back. -/
theorem NodeSim.frame (h : NodeSim S p s) (g : Grows S S') (hterm : S'.term p = S.term p)
    (hlog : S'.log p = S.log p) (hlead : S'.leading p = S.leading p) : NodeSim S' p s := by
  obtain ⟨K, hK, hlen, hpre, hlast⟩ := h.commit
  refine ⟨hterm.trans h.term, h.termNonneg, by rw [hlead]; exact h.leading, ?_, ?_, ?_,
    K, hK.mono g le_rfl, hlen, hpre, hlast⟩
  · rw [hlog]; exact h.logs
  · rw [hlog]; exact h.snapLe
  · rw [hlog]; exact h.snapTerm

/-- Only term, identity, log, snapshot and commit index are simulated. -/
theorem NodeSim.congr (h : NodeSim S p s) (hterm : s'.term = s.term)
    (hid : s'.identity = .leader ↔ s.identity = .leader) (hlogs : s'.logs = s.logs)
    (hsnap : s'.lastSnapshotIndex = s.lastSnapshotIndex)
    (hsnapTerm : s'.lastSnapshotTerm = s.lastSnapshotTerm)
    (hcommit : s'.commitIndex = s.commitIndex) : NodeSim S p s' := by
  obtain ⟨h1, h2, h3, h4, h5, h6, h7⟩ := h
  refine ⟨by rw [hterm]; exact h1, by rw [hterm]; exact h2, h3.trans hid.symm, ?_, ?_, ?_, ?_⟩
  · rw [hlogs, hsnap]; exact h4
  · rw [hsnap]; exact h5
  · rw [hsnap, hsnapTerm]; exact h6
  · rw [hterm, hcommit, hsnap, hsnapTerm, hlogs]; exact h7

theorem NodeSim.getLastLogIndex (h : NodeSim S p s) (hinv : s.IndexInv) :
    s.getLastLogIndex = (S.log p).length := by
  have hsnap := hinv.snapshotNonneg
  have hle := h.snapLe
  rw [hinv.contiguous.getLastLogIndex, h.logs, List.length_drop]
  omega

theorem NodeSim.getLastLogTerm (h : NodeSim S p s) : s.getLastLogTerm = lastTerm (S.log p) := by
  unfold Node.getLastLogTerm
  rw [h.logs]
  rcases h.snapLe.lt_or_eq with hlt | heq
  · rw [getLast?_drop_eq hlt, lastTerm]
    rcases hlast : (S.log p).getLast? with _ | e
    · rw [List.getLast?_eq_none_iff] at hlast
      simp [hlast] at hlt
    · rfl
  · rw [List.drop_eq_nil_of_le heq.ge]
    exact h.snapTerm heq.symm

/-- An entry of the node's log, in the ghost log. -/
theorem NodeSim.getElem?_log (h : NodeSim S p s) (i : ℕ) :
    s.logs[i]? = (S.log p)[s.lastSnapshotIndex.toNat + i]? := by
  rw [h.logs, List.getElem?_drop]

/-- A leader's ghost log is the leader log of its term, and its commit index a committed part. -/
theorem NodeSim.leader (h : NodeSim S p s) (hS : Inv LogEntry.term S) (hid : s.identity = .leader) :
    S.led s.term ∧ S.log p = S.lead s.term := by
  have := hS.leadingLog p (h.leading.2 hid)
  rwa [h.term] at this

/-- What a node knows to be committed, in the leader log of any term from its own on. -/
theorem NodeSim.commit_lead (h : NodeSim S p s) (hS : Inv LogEntry.term S) (hinv : s.IndexInv)
    {X : Int} (hX : S.led X) (hle : s.term ≤ X) :
    s.commitIndex.toNat ≤ (S.lead X).length ∧
      Certified S s.term ((S.lead X).take s.commitIndex.toNat) ∧
      ((S.lead X).take s.commitIndex.toNat).drop s.lastSnapshotIndex.toNat <+: s.logs ∧
      lastTerm ((S.lead X).take s.lastSnapshotIndex.toNat) = s.lastSnapshotTerm := by
  obtain ⟨K, hK, hlen, hpre, hlast⟩ := h.commit
  have hKlead := hK.prefix_lead hS hX hle
  have htake : (S.lead X).take s.commitIndex.toNat = K := by
    rw [← hlen]
    exact (List.prefix_iff_eq_take.1 hKlead).symm
  have hsnap : s.lastSnapshotIndex.toNat ≤ s.commitIndex.toNat := by
    have := hinv.snapshotLeApplied
    have := hinv.appliedLeCommit
    omega
  refine ⟨by rw [← hlen]; exact hKlead.length_le, by rw [htake]; exact hK,
    by rw [htake]; exact hpre, ?_⟩
  rw [← hlast, ← htake, List.take_take, min_eq_left hsnap]

end NodeSim

/-! ## Requests and replies -/

/-- An appendEntries request is a segment of the leader log of its term. -/
structure AppendSim (S : Ghost n) (args : AppendEntriesArgs) : Prop where
  led : S.led args.term
  prevNonneg : 0 ≤ args.prevLogIndex
  lenLe : args.prevLogIndex.toNat + args.entries.length ≤ (S.lead args.term).length
  entries : args.entries =
    ((S.lead args.term).drop args.prevLogIndex.toNat).take args.entries.length
  prevTerm : args.prevLogTerm = lastTerm ((S.lead args.term).take args.prevLogIndex.toNat)
  commitLe : args.leaderCommit ≤ args.prevLogIndex + args.entries.length
  commit : Certified S args.term ((S.lead args.term).take args.leaderCommit.toNat)

/-- A requestVote request describes the log its candidate stood with. -/
def OfferSim (S : Ghost n) (p : Fin n) (args : RequestVoteArgs) : Prop :=
  ∃ l, S.offer p args.term = some l ∧ args.lastLogIndex = l.length ∧ args.lastLogTerm = lastTerm l

/-- A snapshot covers a committed log. -/
def SnapSim (S : Ghost n) (args : InstallSnapshotArgs) : Prop :=
  ∃ K, Certified S args.term K ∧ (K.length : Int) = args.lastIndex ∧ lastTerm K = args.lastTerm

section Requests

variable {S S' : Ghost n}

theorem AppendSim.mono {args : AppendEntriesArgs} (h : AppendSim S args) (g : Grows S S') :
    AppendSim S' args := by
  obtain ⟨hled, h0, hlen, hentries, hprev, hle, hcommit⟩ := h
  have hle' : args.leaderCommit.toNat ≤ (S.lead args.term).length := by omega
  refine ⟨g.led _ hled, h0, hlen.trans (g.length_lead hled), ?_, ?_, hle, ?_⟩
  · have htake := g.take_lead hled hlen
    rw [List.take_drop] at hentries ⊢
    rw [htake]
    exact hentries
  · rw [g.take_lead hled (by omega)]
    exact hprev
  · rw [g.take_lead hled hle']
    exact hcommit.mono g le_rfl

theorem OfferSim.mono {p : Fin n} {args : RequestVoteArgs} (h : OfferSim S p args)
    (g : Grows S S') : OfferSim S' p args := by
  obtain ⟨l, hl, hidx, hterm⟩ := h
  exact ⟨l, g.offer p args.term l hl, hidx, hterm⟩

theorem SnapSim.mono {args : InstallSnapshotArgs} (h : SnapSim S args) (g : Grows S S') :
    SnapSim S' args := by
  obtain ⟨K, hK, hlen, hterm⟩ := h
  exact ⟨K, hK.mono g le_rfl, hlen, hterm⟩

/-- The entry of a request at slot `j` is the one of the leader log. -/
theorem AppendSim.getElem? {args : AppendEntriesArgs} (h : AppendSim S args) {j : ℕ}
    (hj : j < args.entries.length) :
    args.entries[j]? = (S.lead args.term)[args.prevLogIndex.toNat + j]? := by
  rw [h.entries, List.getElem?_take_of_lt hj, List.getElem?_drop]

end Requests

/-- What the calls of process `p` say. A round of appendEntries calls all ends at one index `N` of
    one term `T`, and its counter counts acknowledgements of that index. -/
structure CallsSim (S : Ghost n) (p : Fin n) (P : Proc n) : Prop where
  append : ∀ call ∈ P.appendCalls, AppendSim S call.args
  appendReply : ∀ call ∈ P.appendCalls, ∀ reply, call.reply = some reply → reply.success = true →
    reply.term = call.args.term ∧ Acked S call.server call.args.term
      (call.args.prevLogIndex.toNat + call.args.entries.length)
  rounds : ∃ (T : ℕ → Int) (N : ℕ → ℕ),
    (∀ call ∈ P.appendCalls, call.args.term = T call.appendNum ∧
      call.args.prevLogIndex.toNat + call.args.entries.length = N call.appendNum) ∧
    Tally.Sound p (fun c q => Acked S q (T c) (N c)) (fun _ => False)
      (P.appendCalls.map fun call => (call.appendNum, call.server)) P.appendNums
  vote : ∀ call ∈ P.voteCalls, OfferSim S p call.args
  snapshot : ∀ call ∈ P.snapshotCalls, ∀ args, call.args = some args → SnapSim S args

theorem CallsSim.mono {S S' : Ghost n} {p : Fin n} {P : Proc n} (h : CallsSim S p P)
    (g : Grows S S') : CallsSim S' p P := by
  obtain ⟨T, N, hcalls, hsound⟩ := h.rounds
  exact ⟨fun call hc => (h.append call hc).mono g,
    fun call hc reply hr hs =>
      ⟨(h.appendReply call hc reply hr hs).1, (h.appendReply call hc reply hr hs).2.mono g⟩,
    ⟨T, N, hcalls, hsound.mono (fun _ _ _ hq => hq.mono g) fun _ _ hw => hw⟩,
    fun call hc => (h.vote call hc).mono g,
    fun call hc args ha => (h.snapshot call hc args ha).mono g⟩

/-- Only the threads matter to what the calls say. -/
theorem CallsSim.congr {S : Ghost n} {p : Fin n} {P P' : Proc n} (h : CallsSim S p P)
    (happend : P'.appendCalls = P.appendCalls) (hnums : P'.appendNums = P.appendNums)
    (hvote : ∀ call ∈ P'.voteCalls, ∃ call' ∈ P.voteCalls, call.args = call'.args)
    (hsnap : ∀ call ∈ P'.snapshotCalls, ∃ call' ∈ P.snapshotCalls, call.args = call'.args) :
    CallsSim S p P' := by
  refine ⟨?_, ?_, ?_, fun call hc => ?_, fun call hc args ha => ?_⟩
  · rw [happend]; exact h.append
  · rw [happend]; exact h.appendReply
  · rw [happend, hnums]; exact h.rounds
  · obtain ⟨call', hc', heq⟩ := hvote call hc
    rw [heq]
    exact h.vote call' hc'
  · obtain ⟨call', hc', heq⟩ := hsnap call hc
    exact h.snapshot call' hc' args (heq ▸ ha)

end RaftKVStorage
