import RaftKVStorage.Ghost

set_option autoImplicit false

/-! # The handlers simulate the ghost steps

One lemma for every handler: from a node that matches its ghost state, the node the handler leaves
matches the ghost state after a few steps of `LeaderLogs` by the same node. The only handler that
needs a condition is `_L_appendEntries`, which must not overwrite an entry while the log goes on
past the request (`Node.StaleTail`). -/

namespace RaftKVStorage

open LeaderLogs

variable {n : ℕ}

/-- Node `p` went from `s` to `s'` while the ghost state went from `S` to `S'`. -/
structure SimStep (S S' : Ghost n) (p : Fin n) (s s' : Node n) : Prop where
  steps : Steps LogEntry.term p S S'
  node : NodeSim S' p s'
  vote : ∀ v T c, S'.vote v T = some c ↔ S.vote v T = some c ∨
    v = p ∧ T = s'.term ∧ s'.vote4 = (c : ℕ) ∧ (s'.term ≠ s.term ∨ s'.vote4 ≠ s.vote4)
  led : ∀ T, S'.led T ↔ S.led T ∨ T = s'.term ∧ s'.identity = .leader ∧ s.identity ≠ .leader
  base : s'.identity = .leader → s.identity ≠ .leader →
    S'.base s'.term = (S'.lead s'.term).length

section Steps

variable {S S' : Ghost n} {p : Fin n} {s s' : Node n}

/-- A step with no vote and no election. -/
theorem SimStep.quiet (hsteps : Steps LogEntry.term p S S') (hnode : NodeSim S' p s')
    (hvote : S'.vote = S.vote) (hled : S'.led = S.led)
    (hkeep : s'.vote4 = -1 ∨ s'.term = s.term ∧ s'.vote4 = s.vote4)
    (hid : s'.identity = .leader → s.identity = .leader) : SimStep S S' p s s' := by
  refine ⟨hsteps, hnode, fun v T c => ?_, fun T => ?_, fun hl hl' => absurd (hid hl) hl'⟩
  · rw [hvote]
    refine ⟨Or.inl, fun h => h.resolve_right ?_⟩
    rintro ⟨-, -, hc, hne⟩
    rcases hkeep with hkeep | ⟨hterm, hkeep⟩
    · omega
    · exact hne.elim (fun h => h hterm) fun h => h hkeep
  · rw [hled]
    exact ⟨Or.inl, fun h => h.resolve_right fun ⟨_, hl, hl'⟩ => hl' (hid hl)⟩

/-- A step that the ghost state does not see. -/
theorem SimStep.stay (h : NodeSim S p s) (hterm : s'.term = s.term) (hvote : s'.vote4 = s.vote4)
    (hid : s'.identity = s.identity) (hlogs : s'.logs = s.logs)
    (hsnap : s'.lastSnapshotIndex = s.lastSnapshotIndex)
    (hsnapTerm : s'.lastSnapshotTerm = s.lastSnapshotTerm)
    (hcommit : s'.commitIndex = s.commitIndex) : SimStep S S p s s' :=
  .quiet .refl (h.congr hterm (by rw [hid]) hlogs hsnap hsnapTerm hcommit) rfl rfl
    (Or.inr ⟨hterm, hvote⟩) (by rw [hid]; exact id)

theorem NodeSim.follow (h : NodeSim S p s) (s' : Node n) (hle : s.term ≤ s'.term) (hid : s'.identity ≠ .leader)
    (hlogs : s'.logs = s.logs) (hsnap : s'.lastSnapshotIndex = s.lastSnapshotIndex)
    (hsnapTerm : s'.lastSnapshotTerm = s.lastSnapshotTerm)
    (hcommit : s'.commitIndex = s.commitIndex) : NodeSim (S.follow p s'.term) p s' := by
  have g : Grows S (S.follow p s'.term) := Inv.grows_follow (by rw [h.term]; exact hle)
  obtain ⟨K, hK, hlen, hpre, hlast⟩ := h.commit
  refine ⟨by simp [State.follow], h.termNonneg.trans hle, by simp [State.follow, hid], ?_, ?_, ?_,
    K, hK.mono g hle, ?_, ?_, ?_⟩
  · rw [hlogs, hsnap]; exact h.logs
  · rw [hsnap]; exact h.snapLe
  · rw [hsnap, hsnapTerm]; exact h.snapTerm
  · rw [hcommit]; exact hlen
  · rw [hlogs, hsnap]; exact hpre
  · rw [hsnap, hsnapTerm]; exact hlast

/-- The node stops leading, in its term or a later one. -/
theorem SimStep.follow (h : NodeSim S p s) (s' : Node n) (hle : s.term ≤ s'.term) (hid : s'.identity ≠ .leader)
    (hkeep : s'.vote4 = -1 ∨ s'.term = s.term ∧ s'.vote4 = s.vote4) (hlogs : s'.logs = s.logs)
    (hsnap : s'.lastSnapshotIndex = s.lastSnapshotIndex)
    (hsnapTerm : s'.lastSnapshotTerm = s.lastSnapshotTerm)
    (hcommit : s'.commitIndex = s.commitIndex) : SimStep S (S.follow p s'.term) p s s' :=
  .quiet (.single (.follow p s'.term (by rw [h.term]; exact hle)))
    (h.follow s' hle hid hlogs hsnap hsnapTerm hcommit) rfl rfl hkeep fun hl => absurd hl hid

/-- The node learns of a later term. -/
theorem SimStep.stepDown (h : NodeSim S p s) {T : Int} (hlt : s.term < T) :
    SimStep S (S.follow p T) p s (s.identityChange .follower T (-1)) :=
  .follow h (s.identityChange .follower T (-1)) hlt.le (by simp) (Or.inl rfl) rfl rfl rfl rfl

/-! ## The application's calls -/

theorem sim_execute (h : NodeSim S p s) (hS : Inv LogEntry.term S) (command : Bytes) :
    ∃ S', SimStep S S' p s (s.execute command).1 := by
  rcases s.execute_cases command with ⟨hid, heq⟩ | ⟨-, heq⟩
  · rw [heq]
    have hlead := h.leading.2 hid
    have g : Grows S (S.propose p (s.newEntry command)) := hS.grows_propose hlead
    refine ⟨S.propose p (s.newEntry command),
      .quiet (.single (.propose p _ hlead h.term.symm)) ?_ rfl rfl (Or.inr ⟨rfl, rfl⟩) id⟩
    obtain ⟨K, hK, hlen, hpre, hlast⟩ := h.commit
    have hlog : (S.propose p (s.newEntry command)).log p = S.log p ++ [s.newEntry command] := by
      simp [State.propose]
    refine ⟨h.term, h.termNonneg, h.leading, ?_, ?_, fun hlen => ?_, K, hK.mono g le_rfl, hlen,
      hpre.trans (List.prefix_append _ _), hlast⟩
    · rw [hlog]
      simp only [Node.mPersist_logs, Node.mPersist_lastSnapshotIndex]
      rw [List.drop_append_of_le_length h.snapLe, ← h.logs]
    · rw [hlog, List.length_append]
      exact h.snapLe.trans (Nat.le_add_right _ _)
    · have hle := h.snapLe
      rw [hlog, List.length_append, List.length_singleton] at hlen
      simp only [Node.mPersist_lastSnapshotIndex] at hlen
      omega
  · rw [heq]
    exact ⟨S, .stay h rfl rfl rfl rfl rfl rfl rfl⟩

theorem sim_persist (h : NodeSim S p s) (hinv : s.IndexInv) (index : Int) (shot : Bytes) :
    SimStep S S p s (s.persist index shot).node := by
  rcases hinv.contiguous.persist_cases hinv.commitLeLast index shot with
    heq | ⟨e, hlo, hhi, hslot, -, heq⟩
  · rw [heq]
    exact .stay h rfl rfl rfl rfl rfl rfl rfl
  rw [heq]
  have hsnap := hinv.snapshotNonneg
  have hidx : s.lastSnapshotIndex.toNat + (index - s.lastSnapshotIndex - 1).toNat = index.toNat - 1 := by
    omega
  have hlog : (S.log p)[index.toNat - 1]? = some e := by rw [← hidx, ← h.getElem?_log, hslot]
  have hlt := (List.getElem?_eq_some_iff.1 hlog).1
  have hpos : index.toNat - 1 + 1 = index.toNat := by omega
  obtain ⟨K, hK, hlen, hpre, hlast⟩ := h.commit
  -- the entry at `index` is the last one the new snapshot covers
  have hKe : K[index.toNat - 1]? = some e := by
    have hlt' : (index - s.lastSnapshotIndex - 1).toNat < (K.drop s.lastSnapshotIndex.toNat).length := by
      rw [List.length_drop]
      omega
    rw [← hidx, ← List.getElem?_drop, List.getElem?_eq_getElem hlt',
      hpre.getElem hlt', ← List.getElem?_eq_getElem, hslot]
  refine .quiet .refl ⟨h.term, h.termNonneg, h.leading, ?_, ?_, fun hlen => ?_, K, hK, hlen, ?_, ?_⟩
    rfl rfl (Or.inr ⟨rfl, rfl⟩) id
  · show s.logs.drop (index - s.lastSnapshotIndex).toNat = (S.log p).drop index.toNat
    rw [h.logs, List.drop_drop]
    congr 1
    omega
  · show index.toNat ≤ (S.log p).length
    omega
  · show e.term = lastTerm (S.log p)
    have hlen' : (S.log p).length = index.toNat := hlen
    have := lastTerm_take hlog
    rw [hpos, ← hlen', List.take_length] at this
    exact this.symm
  · show K.drop index.toNat <+: s.logs.drop (index - s.lastSnapshotIndex).toNat
    have hd : K.drop index.toNat
        = (K.drop s.lastSnapshotIndex.toNat).drop (index - s.lastSnapshotIndex).toNat := by
      rw [List.drop_drop]
      congr 1
      omega
    rw [hd]
    exact hpre.drop _
  · show lastTerm (K.take index.toNat) = e.term
    rw [← hpos]
    exact lastTerm_take hKe

theorem sim_getApplyMessages (h : NodeSim S p s) (hinv : s.IndexInv) :
    SimStep S S p s s.getApplyMessages.node := by
  rw [hinv.getApplyMessages_eq]
  exact .stay h rfl rfl rfl rfl rfl rfl rfl

/-! ## Elections -/

theorem sim_stand4Election (h : NodeSim S p s) (hS : Inv LogEntry.term S) (hme : s.me = p) :
    SimStep S (S.stand p (s.term + 1)) p s (s.identityChange .candidate (s.term + 1) s.me) := by
  have hlt : S.term p < s.term + 1 := by rw [h.term]; omega
  have g : Grows S (S.stand p (s.term + 1)) := hS.grows_stand hlt
  obtain ⟨K, hK, hlen, hpre, hlast⟩ := h.commit
  refine ⟨.single (.stand p _ hlt), ⟨?_, ?_, ?_, h.logs, h.snapLe, h.snapTerm, K, ?_, hlen, hpre, hlast⟩,
    fun v T c => ?_, fun T => ?_, fun hl => by simp at hl⟩
  · simp [State.stand]
  · have := h.termNonneg
    simp only [Node.identityChange_term]
    omega
  · simp [State.stand]
  · exact hK.mono g (by simp)
  · simp only [Node.identityChange_term, Node.identityChange_vote4, hme]
    constructor
    · intro hv
      rcases State.stand_vote hv with ⟨rfl, rfl, rfl⟩ | hv
      · exact Or.inr ⟨rfl, rfl, rfl, Or.inl (by omega)⟩
      · exact Or.inl hv
    · rintro (hv | ⟨rfl, rfl, hc, -⟩)
      · exact g.vote v T c hv
      · obtain rfl : v = c := Fin.ext (by exact_mod_cast hc)
        simp [State.stand]
  · simp [State.stand]

/-- A candidate's vote request is granted only to an offer that is up to date. -/
theorem NodeSim.upToDate (h : NodeSim S p s) (hinv : s.IndexInv) (hS : Inv LogEntry.term S)
    (hled : ∀ T, S.led T → 0 ≤ T) {args : RequestVoteArgs} {l : List LogEntry}
    (hidx : args.lastLogIndex = l.length) (hterm : args.lastLogTerm = lastTerm l)
    (hrec : s.receiveVote args.lastLogIndex args.lastLogTerm = true) :
    UpToDate LogEntry.term l (S.log p) := by
  rw [Node.receiveVote, h.getLastLogTerm, h.getLastLogIndex hinv, hidx, hterm] at hrec
  simp only [gt_iff_lt, ge_iff_le, Bool.or_eq_true, decide_eq_true_eq, Bool.and_eq_true,
    Nat.cast_le] at hrec
  intro e' he'
  have he'' : (S.log p).getLast? = some e' := he'
  rw [lastTerm_of_getLast? he''] at hrec
  rcases hlast : l.getLast? with _ | e
  · rw [List.getLast?_eq_none_iff] at hlast
    subst hlast
    have hnn : 0 ≤ e'.term := by
      obtain ⟨hled', -⟩ := (hS.logRooted p).prefix_of_last he''
      exact hled _ hled'
    have hne : S.log p ≠ [] := by rintro hnil; simp [hnil] at he''
    have := List.length_pos_of_ne_nil hne
    simp only [lastTerm, List.getLast?_nil, List.length_nil] at hrec
    omega
  · refine ⟨e, rfl, ?_⟩
    rw [lastTerm_of_getLast? hlast] at hrec
    rcases hrec with hlt | ⟨heq, hlen⟩
    · exact Or.inl hlt
    · exact Or.inr ⟨heq.symm, hlen⟩

theorem sim_requestVote (h : NodeSim S p s) (hinv : s.IndexInv) (hS : Inv LogEntry.term S)
    (hled : ∀ T, S.led T → 0 ≤ T)
    (hvote : ∀ c : Fin n, S.vote p s.term = some c ↔ s.vote4 = (c : ℕ)) {c : Fin n}
    {args : RequestVoteArgs} (hoffer : OfferSim S c args) (hcand : args.candidateId = (c : ℕ)) :
    ∃ S', SimStep S S' p s (s.requestVote args).1 := by
  obtain ⟨l, hl, hidx, hlast⟩ := hoffer
  rcases s.requestVote_cases args with
    ⟨-, heq | ⟨hlt, heq⟩⟩ | ⟨-, -, hrec, ⟨hterm, hfree, heq⟩ | ⟨hlt, heq⟩⟩
  · rw [heq]
    exact ⟨S, .stay h rfl rfl rfl rfl rfl rfl rfl⟩
  · rw [heq]
    exact ⟨_, .follow h _ hlt.le (by simp) (Or.inl rfl) rfl rfl rfl rfl⟩
  · rw [heq]
    have hup := h.upToDate hinv hS hled hidx hlast hrec
    have hfree' : ∀ c', S.vote p (S.term p) = some c' → c' = c := by
      intro c' hc'
      rw [h.term, hvote c'] at hc'
      rcases hfree with hfree | hfree
      · omega
      · rw [hc', hcand] at hfree
        exact Fin.ext (by exact_mod_cast hfree)
    rw [← hterm, ← h.term] at hl
    have g : Grows S (S.grant p c) := Inv.grows_grant hfree'
    refine ⟨S.grant p c, .single (.grant p c l hfree' hl hup),
      (h.frame g rfl rfl rfl).congr rfl Iff.rfl rfl rfl rfl rfl, fun v T c' => ?_,
      fun T => ⟨Or.inl, fun h => h.resolve_right fun hx => hx.2.2 hx.2.1⟩,
      fun hl' hl => absurd hl' hl⟩
    simp only [Node.mPersist_term, Node.mPersist_vote4, hcand, ne_eq, not_true_eq_false, false_or]
    constructor
    · intro hv
      rcases State.grant_vote hv with ⟨rfl, rfl, rfl⟩ | hv
      · by_cases hsame : s.vote4 = (c' : ℕ)
        · exact Or.inl (by rw [h.term, hvote, hsame])
        · exact Or.inr ⟨rfl, h.term, rfl, fun heq => hsame heq.symm⟩
      · exact Or.inl hv
    · rintro (hv | ⟨rfl, rfl, hc, -⟩)
      · exact g.vote v T c' hv
      · obtain rfl : c = c' := Fin.ext (by exact_mod_cast hc)
        rw [← h.term]
        simp [State.grant]
  · rw [heq]
    have hup := h.upToDate hinv hS hled hidx hlast hrec
    have hlt' : S.term p < args.term := by rw [h.term]; exact hlt
    have g₁ : Grows S (S.follow p args.term) := Inv.grows_follow hlt'.le
    have h₁ : NodeSim (S.follow p args.term) p (s.identityChange .follower args.term (-1)) :=
      h.follow (s.identityChange .follower args.term (-1)) hlt.le (by simp) rfl rfl rfl rfl
    have hterm : (S.follow p args.term).term p = args.term := by simp [State.follow]
    -- nobody has voted in a term it has not reached
    have hfree' : ∀ c', (S.follow p args.term).vote p ((S.follow p args.term).term p) = some c' →
        c' = c := by
      intro c' hc'
      rw [hterm] at hc'
      exact absurd (hS.voteTerm p args.term c' hc') (not_le.2 hlt')
    have g₂ := Inv.grows_grant hfree'
    refine ⟨(S.follow p args.term).grant p c,
      (Relation.ReflTransGen.single (.follow p args.term hlt'.le)).tail
        (.grant p c l hfree' (by rw [hterm]; exact hl) hup),
      (h₁.frame g₂ rfl rfl rfl).congr rfl Iff.rfl rfl rfl rfl rfl, fun v T c' => ?_,
      fun T => ⟨Or.inl, fun h => h.resolve_right fun hx => by simp at hx⟩,
      fun hl' => by simp at hl'⟩
    simp only [Node.mPersist_term, Node.mPersist_vote4, Node.identityChange_term, hcand]
    constructor
    · intro hv
      rcases State.grant_vote hv with ⟨rfl, rfl, rfl⟩ | hv
      · exact Or.inr ⟨rfl, hterm, rfl, Or.inl hlt.ne'⟩
      · exact Or.inl hv
    · rintro (hv | ⟨rfl, rfl, hc, -⟩)
      · exact g₂.vote v T c' hv
      · obtain rfl : c = c' := Fin.ext (by exact_mod_cast hc)
        simp [State.grant, hterm]

theorem sim_becomeLeader (h : NodeSim S p s) (hid : s.identity ≠ .leader) {Q : Finset (Fin n)}
    (hQ : Majority Q) (hvotes : ∀ v ∈ Q, S.vote v s.term = some p) (hnew : ¬ S.led s.term) :
    SimStep S (S.elect p) p s s.becomeLeader := by
  have hnew' : ¬ S.led (S.term p) := by rw [h.term]; exact hnew
  have g : Grows S (S.elect p) := Inv.grows_elect hnew'
  obtain ⟨K, hK, hlen, hpre, hlast⟩ := h.commit
  refine ⟨.single (.elect p Q hQ (by rw [h.term]; exact hvotes) hnew'),
    ⟨h.term, h.termNonneg, ?_, h.logs, h.snapLe, h.snapTerm, K, hK.mono g le_rfl, hlen, hpre, hlast⟩,
    fun v T c => ⟨Or.inl, fun h => h.resolve_right ?_⟩, fun T => ?_, fun _ _ => ?_⟩
  · simp [State.elect, Node.becomeLeader]
  · rintro ⟨-, -, -, hne⟩
    exact hne.elim (fun h => h rfl) fun h => h rfl
  · simp [State.elect, Node.becomeLeader, h.term, hid]
  · simp [State.elect, Node.becomeLeader, h.term]

/-! ## Replication, the receiver's side -/

/-- The request is accepted, its entries end before the log does, and one of them meets an entry of
    another term: the entry is overwritten and the old tail stays behind it. -/
def Node.StaleTail (s : Node n) (args : AppendEntriesArgs) : Prop :=
  s.term ≤ args.term ∧ s.lastSnapshotIndex ≤ args.prevLogIndex ∧
    s.getLogTerm args.prevLogIndex = .ok args.prevLogTerm ∧
    args.prevLogIndex + args.entries.length < s.getLastLogIndex ∧
    ∃ e ∈ args.entries, ∃ own ∈ s.logs, own.index = e.index ∧ own.term ≠ e.term

instance (s : Node n) (args : AppendEntriesArgs) : Decidable (s.StaleTail args) :=
  inferInstanceAs (Decidable (_ ∧ _ ∧ _ ∧ _ ∧ _))

section Append

variable {args : AppendEntriesArgs}

/-- Where the request's term check succeeds, the ghost log is the leader log up to there. The check
    against the snapshot says nothing about the ghost log. -/
theorem NodeSim.take_prev (h : NodeSim S p s) (hinv : s.IndexInv) (hS : Inv LogEntry.term S)
    (hargs : AppendSim S args) (hlo : s.lastSnapshotIndex ≤ args.prevLogIndex)
    (hhi : args.prevLogIndex ≤ s.getLastLogIndex)
    (hget : s.getLogTerm args.prevLogIndex = .ok args.prevLogTerm) :
    args.prevLogIndex = s.lastSnapshotIndex ∨
      (S.log p).take args.prevLogIndex.toNat =
        (S.lead args.term).take args.prevLogIndex.toNat := by
  rcases hinv.contiguous.getLogTerm hlo hhi with ⟨heq, -⟩ | ⟨e, hlt, hslot, -, hterm⟩
  · exact Or.inl heq
  right
  have hsnap := hinv.snapshotNonneg
  have hpos : args.prevLogIndex.toNat - 1 + 1 = args.prevLogIndex.toNat := by omega
  rw [h.getElem?_log, show s.lastSnapshotIndex.toNat + (args.prevLogIndex - s.lastSnapshotIndex - 1).toNat
    = args.prevLogIndex.toNat - 1 by omega] at hslot
  have hlen := hargs.lenLe
  obtain ⟨x, hx⟩ : ∃ x, (S.lead args.term)[args.prevLogIndex.toNat - 1]? = some x :=
    ⟨_, List.getElem?_eq_getElem (by omega)⟩
  have hsame : e.term = x.term := by
    rw [hterm] at hget
    have h1 := hargs.prevTerm
    rw [← hpos, lastTerm_take hx] at h1
    exact (Except.ok.inj hget).trans h1
  have := (hS.logRooted p).take_eq (hS.leadRooted _ hargs.led) hslot hx hsame
  rwa [hpos] at this

/-- A request that reaches the end of the log makes the ghost log a prefix of the leader log. -/
theorem NodeSim.overlay_long (h : NodeSim S p s) (hinv : s.IndexInv) (hargs : AppendSim S args)
    (hlo : s.lastSnapshotIndex ≤ args.prevLogIndex)
    (hpre : args.prevLogIndex = s.lastSnapshotIndex ∨ (S.log p).take args.prevLogIndex.toNat =
      (S.lead args.term).take args.prevLogIndex.toNat)
    (hlong : (S.log p).length ≤ args.prevLogIndex.toNat + args.entries.length) :
    s.overlay args = ((S.lead args.term).take (args.prevLogIndex.toNat + args.entries.length)).drop
      s.lastSnapshotIndex.toNat := by
  have hsnap := hinv.snapshotNonneg
  have hlen := hargs.lenLe
  have hk : (args.prevLogIndex - s.lastSnapshotIndex).toNat
      = args.prevLogIndex.toNat - s.lastSnapshotIndex.toNat := by omega
  have htail : s.logs.drop (args.prevLogIndex.toNat - s.lastSnapshotIndex.toNat + args.entries.length)
      = [] := by
    rw [List.drop_eq_nil_iff, h.logs, List.length_drop]
    omega
  have hhead : s.logs.take (args.prevLogIndex.toNat - s.lastSnapshotIndex.toNat)
      = ((S.lead args.term).take args.prevLogIndex.toNat).drop s.lastSnapshotIndex.toNat := by
    rcases hpre with heq | hpre
    · rw [heq, Nat.sub_self, List.take_zero, List.drop_eq_nil_of_le (by simp)]
    · rw [← hpre, h.logs, List.drop_take]
  have hsplit : (S.lead args.term).take (args.prevLogIndex.toNat + args.entries.length)
      = (S.lead args.term).take args.prevLogIndex.toNat ++ args.entries := by
    rw [List.take_add, ← hargs.entries]
  rw [Node.overlay, hk, htail, List.append_nil, hhead, hsplit, List.drop_append_of_le_length]
  rw [List.length_take]
  omega

/-- Without a stale tail, the entries of a shorter request are those of the ghost log. -/
theorem NodeSim.take_entries (h : NodeSim S p s) (hinv : s.IndexInv) (hS : Inv LogEntry.term S)
    (hargs : AppendSim S args) (hcons : Consecutive args.prevLogIndex args.entries)
    (hle : s.term ≤ args.term) (hlo : s.lastSnapshotIndex ≤ args.prevLogIndex)
    (hget : s.getLogTerm args.prevLogIndex = .ok args.prevLogTerm) (hstale : ¬ s.StaleTail args)
    (hshort : args.prevLogIndex.toNat + args.entries.length < (S.log p).length) {j : ℕ}
    (hj : j < args.entries.length) :
    (S.log p).take (args.prevLogIndex.toNat + j + 1) =
      (S.lead args.term).take (args.prevLogIndex.toNat + j + 1) := by
  have hsnap := hinv.snapshotNonneg
  have h0 := hargs.prevNonneg
  have hlen : args.prevLogIndex.toNat + j < (S.log p).length := by omega
  have hown : (S.log p)[args.prevLogIndex.toNat + j]? = some (S.log p)[args.prevLogIndex.toNat + j] :=
    List.getElem?_eq_getElem hlen
  have he : args.entries[j]? = some args.entries[j] := List.getElem?_eq_getElem hj
  have hlead : (S.lead args.term)[args.prevLogIndex.toNat + j]? = some args.entries[j] := by
    rw [← hargs.getElem? hj, he]
  have hslot : s.logs[args.prevLogIndex.toNat - s.lastSnapshotIndex.toNat + j]?
      = some (S.log p)[args.prevLogIndex.toNat + j] := by
    rw [h.getElem?_log, ← hown]
    congr 1
    omega
  refine (hS.logRooted p).take_eq (hS.leadRooted _ hargs.led) hown hlead ?_
  by_contra hne
  refine hstale ⟨hle, hlo, hget, ?_, _, List.mem_of_getElem? he, _, List.mem_of_getElem? hslot, ?_, hne⟩
  · rw [h.getLastLogIndex hinv]
    omega
  · rw [hcons j _ he, hinv.contiguous _ _ hslot]
    push_cast
    omega

theorem NodeSim.overlay_short (h : NodeSim S p s) (hinv : s.IndexInv) (hargs : AppendSim S args)
    (hlo : s.lastSnapshotIndex ≤ args.prevLogIndex)
    (hsame : ∀ j < args.entries.length, (S.log p).take (args.prevLogIndex.toNat + j + 1) =
      (S.lead args.term).take (args.prevLogIndex.toNat + j + 1)) :
    s.overlay args = s.logs := by
  have hsnap := hinv.snapshotNonneg
  have hk : (args.prevLogIndex - s.lastSnapshotIndex).toNat
      = args.prevLogIndex.toNat - s.lastSnapshotIndex.toNat := by omega
  have hentries : args.entries = (s.logs.drop
      (args.prevLogIndex.toNat - s.lastSnapshotIndex.toNat)).take args.entries.length := by
    refine List.ext_getElem? fun j => ?_
    rcases Nat.lt_or_ge j args.entries.length with hj | hj
    · rw [hargs.getElem? hj, List.getElem?_take_of_lt hj, List.getElem?_drop, h.getElem?_log,
        ← Nat.add_assoc, Nat.add_sub_cancel' (by omega)]
      have := congrArg (fun l => l[args.prevLogIndex.toNat + j]?) (hsame j hj)
      simp only [List.getElem?_take_of_lt (Nat.lt_succ_self _)] at this
      exact this.symm
    · rw [List.getElem?_eq_none hj, List.getElem?_eq_none]
      exact (List.length_take_le _ _).trans hj
  rw [Node.overlay, hk, hentries]
  have hlen : ((s.logs.drop (args.prevLogIndex.toNat - s.lastSnapshotIndex.toNat)).take
      args.entries.length).length = args.entries.length := by rw [← hentries]
  rw [hlen, List.append_assoc, ← List.drop_drop, List.take_append_drop, List.take_append_drop]

/-- The node that accepted a request, over a ghost log `l` in the request's term. -/
theorem NodeSim.appended (h : NodeSim S p s) (hinv : s.IndexInv) (hS : Inv LogEntry.term S)
    (hargs : AppendSim S args) (hle : s.term ≤ args.term) (g : Grows S S')
    (hterm : S'.term p = args.term) (hlead : ¬ S'.leading p)
    (hlogs : s.overlay args = (S'.log p).drop s.lastSnapshotIndex.toNat)
    (hlen : ((S'.log p).length : Int) =
      max s.getLastLogIndex (args.prevLogIndex + args.entries.length))
    (hsnap : (S'.log p).length = s.lastSnapshotIndex.toNat →
      s.lastSnapshotTerm = lastTerm (S'.log p))
    (hold : ((S.lead args.term).take s.commitIndex.toNat).drop s.lastSnapshotIndex.toNat <+:
      (S'.log p).drop s.lastSnapshotIndex.toNat)
    (hnew : s.commitIndex < args.leaderCommit → (S.lead args.term).take args.leaderCommit.toNat <+:
      S'.log p) :
    NodeSim S' p (s.appended args) := by
  obtain ⟨hcle, hcert, -, hlast⟩ := h.commit_lead hS hinv hargs.led hle
  have hsnapc : s.lastSnapshotIndex ≤ s.commitIndex :=
    hinv.snapshotLeApplied.trans hinv.appliedLeCommit
  have hsnap0 := hinv.snapshotNonneg
  have hnode_term : (s.appended args).term = args.term := by
    simp [Node.appended, Node.followTerm_term s args.term hle]
  have hnode_snap : (s.appended args).lastSnapshotIndex = s.lastSnapshotIndex := by
    simp [Node.appended]
  have hnode_snapTerm : (s.appended args).lastSnapshotTerm = s.lastSnapshotTerm := by
    simp [Node.appended]
  have hnode_logs : (s.appended args).logs = (S'.log p).drop s.lastSnapshotIndex.toNat := by
    rw [← hlogs]
    rfl
  refine ⟨by rw [hterm, hnode_term], by rw [hnode_term]; exact h.termNonneg.trans hle,
    iff_of_false hlead (by simp [Node.appended]), by rw [hnode_logs, hnode_snap], ?_, ?_, ?_⟩
  · rw [hnode_snap]
    have := hinv.commitLeLast
    omega
  · rw [hnode_snap, hnode_snapTerm]
    exact hsnap
  · have hcle' := hargs.commitLe
    have hlenLe := hargs.lenLe
    have h0 := hargs.prevNonneg
    rw [hnode_term, hnode_snap, hnode_snapTerm, hnode_logs]
    by_cases hlt : s.commitIndex < args.leaderCommit
    · have hcommit : (s.appended args).commitIndex = args.leaderCommit := by
        show (if args.leaderCommit > s.commitIndex then _ else _) = _
        rw [if_pos hlt]
        omega
      refine ⟨(S.lead args.term).take args.leaderCommit.toNat, hargs.commit.mono g le_rfl, ?_,
        (hnew hlt).drop _, ?_⟩
      · rw [hcommit, List.length_take]
        omega
      · rw [List.take_take, min_eq_left (by omega), hlast]
    · have hcommit : (s.appended args).commitIndex = s.commitIndex := by
        show (if args.leaderCommit > s.commitIndex then _ else _) = _
        rw [if_neg hlt]
      refine ⟨(S.lead args.term).take s.commitIndex.toNat, hcert.mono g hle, ?_, hold, ?_⟩
      · rw [hcommit, List.length_take, min_eq_left hcle]
      · rw [List.take_take, min_eq_left (by omega), hlast]

/-- An accepted request. Its reply acknowledges the leader log up to the request's end. -/
theorem sim_appended (h : NodeSim S p s) (hinv : s.IndexInv) (hS : Inv LogEntry.term S)
    (hargs : AppendSim S args) (hcons : Consecutive args.prevLogIndex args.entries)
    (hle : s.term ≤ args.term) (hlo : s.lastSnapshotIndex ≤ args.prevLogIndex)
    (hhi : args.prevLogIndex ≤ s.getLastLogIndex)
    (hget : s.getLogTerm args.prevLogIndex = .ok args.prevLogTerm) (hstale : ¬ s.StaleTail args) :
    ∃ S', SimStep S S' p s (s.appended args) ∧
      Acked S' p args.term (args.prevLogIndex.toNat + args.entries.length) := by
  have hlast := h.getLastLogIndex hinv
  have hsnap0 := hinv.snapshotNonneg
  have hcommit := hinv.commitLeLast
  have hlenLe := hargs.lenLe
  have h0 := hargs.prevNonneg
  have hterm : (s.appended args).term = args.term := by
    simp [Node.appended, Node.followTerm_term s args.term hle]
  have hkeep : (s.appended args).vote4 = -1 ∨
      (s.appended args).term = s.term ∧ (s.appended args).vote4 = s.vote4 := by
    have hvote : (s.appended args).vote4 = (s.followTerm args.term).vote4 := rfl
    rw [hterm, hvote, Node.followTerm_vote4]
    rcases hle.lt_or_eq with hlt | heq
    · exact Or.inl (if_pos hlt)
    · exact Or.inr ⟨heq.symm, if_neg (by omega)⟩
  have hid : (s.appended args).identity = .leader → s.identity = .leader := by
    simp [Node.appended]
  obtain ⟨hcle, hcert, hcpre, hsnapTerm⟩ := h.commit_lead hS hinv hargs.led hle
  have hpre := h.take_prev hinv hS hargs hlo hhi hget
  -- first the node enters the request's term
  have hle' : S.term p ≤ args.term := by rw [h.term]; exact hle
  have hfollow : Step LogEntry.term S p (S.follow p args.term) := .follow p args.term hle'
  have hself : (S.follow p args.term).term p = args.term := by simp [State.follow]
  have g₁ : Grows S (S.follow p args.term) := Inv.grows_follow hle'
  by_cases hlong : (S.log p).length ≤ args.prevLogIndex.toNat + args.entries.length
  · -- the request reaches the end: the ghost log is cut over to the leader log
    have haccept : Step LogEntry.term (S.follow p args.term) p _ :=
      .accept p (args.prevLogIndex.toNat + args.entries.length) (by rw [hself]; exact hargs.led)
        (by rw [hself]; exact hlenLe) hlong
    rw [hself] at haccept
    have g₂ := g₁.trans (Inv.grows_replace (s := S.follow p args.term) (v := p)
      (l := (S.lead args.term).take (args.prevLogIndex.toNat + args.entries.length)))
    have hack : Step LogEntry.term ((S.follow p args.term).replace p
        ((S.lead args.term).take (args.prevLogIndex.toNat + args.entries.length))) p _ :=
      .acknowledge p (args.prevLogIndex.toNat + args.entries.length)
        (by simpa [State.replace, State.follow] using hargs.led)
        (by simpa [State.replace, State.follow] using hlenLe) (by simp [State.replace, State.follow])
    have g₃ := g₂.trans (Inv.grows_acknowledge (s := (S.follow p args.term).replace p
      ((S.lead args.term).take (args.prevLogIndex.toNat + args.entries.length))) (v := p)
      (m := args.prevLogIndex.toNat + args.entries.length))
    refine ⟨_, .quiet (((Relation.ReflTransGen.single hfollow).tail haccept).tail hack) ?_ rfl rfl
      hkeep hid, hargs.led, hlenLe, Or.inl ?_⟩
    · refine h.appended hinv hS hargs hle g₃ ?_ ?_ ?_ ?_ ?_ ?_ ?_
      · simp [State.acknowledge, State.replace, State.follow]
      · simp [State.acknowledge, State.replace]
      · simpa [State.acknowledge, State.replace] using h.overlay_long hinv hargs hlo hpre hlong
      · simp only [State.acknowledge, State.replace, Function.update_self, List.length_take]
        omega
      · simp only [State.acknowledge, State.replace, Function.update_self, List.length_take]
        intro hlen
        rw [← hsnapTerm]
        congr 2
        omega
      · simp only [State.acknowledge, State.replace, Function.update_self]
        exact (List.take_prefix_take_left (by omega)).drop _
      · intro _
        have hcle' := hargs.commitLe
        simp only [State.acknowledge, State.replace, Function.update_self]
        exact List.take_prefix_take_left (by omega)
    · simp [State.acknowledge, State.replace, State.follow]
  · -- the log goes on past the request, which it therefore contains
    rw [not_le] at hlong
    have hsame : ∀ j < args.entries.length, (S.log p).take (args.prevLogIndex.toNat + j + 1) =
        (S.lead args.term).take (args.prevLogIndex.toNat + j + 1) := fun j hj =>
      h.take_entries hinv hS hargs hcons hle hlo hget hstale hlong hj
    have hover := h.overlay_short hinv hargs hlo hsame
    have hall : (S.log p).take (args.prevLogIndex.toNat + args.entries.length) =
        (S.lead args.term).take (args.prevLogIndex.toNat + args.entries.length) ∨
        args.entries.length = 0 ∧ args.prevLogIndex = s.lastSnapshotIndex := by
      rcases Nat.eq_zero_or_pos args.entries.length with hz | hpos
      · rw [hz]
        rcases hpre with heq | heq
        · exact Or.inr ⟨rfl, heq⟩
        · exact Or.inl heq
      · have := hsame (args.entries.length - 1) (by omega)
        rw [Nat.add_assoc, Nat.sub_add_cancel hpos] at this
        exact Or.inl this
    have hnode : ∀ S' : Ghost n, Grows S S' → S'.term p = args.term → ¬ S'.leading p →
        S'.log p = S.log p → NodeSim S' p (s.appended args) := by
      intro S' g hterm hlead hlog
      refine h.appended hinv hS hargs hle g hterm hlead ?_ ?_ ?_ ?_ fun hlt => ?_
      · rw [hlog, hover, h.logs]
      · rw [hlog]
        omega
      · rw [hlog]; exact h.snapTerm
      · rw [hlog, ← h.logs]; exact hcpre
      · have hcle' := hargs.commitLe
        have hsnapc := hinv.snapshotLeApplied.trans hinv.appliedLeCommit
        rw [hlog]
        rcases hall with heq | ⟨hz, heq⟩
        · have htake : (S.lead args.term).take args.leaderCommit.toNat
              = (S.log p).take args.leaderCommit.toNat := by
            have := congrArg (List.take args.leaderCommit.toNat) heq
            rw [List.take_take, List.take_take, min_eq_left (by omega)] at this
            exact this.symm
          rw [htake]
          exact List.take_prefix _ _
        · omega
    rcases hall with heq | ⟨hz, heq⟩
    · have hack : Step LogEntry.term (S.follow p args.term) p _ :=
        .acknowledge p (args.prevLogIndex.toNat + args.entries.length)
          (by rw [hself]; exact hargs.led) (by rw [hself]; exact hlenLe)
          (by
            rw [hself]
            show (S.lead args.term).take _ <+: S.log p
            rw [← heq]
            exact List.take_prefix _ _)
      have g₂ := g₁.trans (Inv.grows_acknowledge (s := S.follow p args.term) (v := p)
        (m := args.prevLogIndex.toNat + args.entries.length))
      refine ⟨_, .quiet ((Relation.ReflTransGen.single hfollow).tail hack)
        (hnode _ g₂ (by simp [State.acknowledge, hself])
          (by simp [State.acknowledge, State.follow]) (by simp [State.acknowledge, State.follow]))
        rfl rfl hkeep hid, hargs.led, hlenLe, Or.inl ?_⟩
      simp [State.acknowledge, State.follow]
    · -- an empty request at the snapshot: what it covers is committed
      refine ⟨_, .quiet (.single hfollow) (hnode _ g₁ hself (by simp [State.follow]) rfl) rfl rfl
        hkeep hid, hargs.led, hlenLe, Or.inr ?_⟩
      have hsnapc := hinv.snapshotLeApplied.trans hinv.appliedLeCommit
      refine (hcert.mono g₁ hle).restrict ?_
      show (S.lead args.term).take _ <+: (S.lead args.term).take _
      exact List.take_prefix_take_left (by omega)

end Append

theorem sim_appendEntries (h : NodeSim S p s) (hinv : s.IndexInv) (hS : Inv LogEntry.term S)
    {args : AppendEntriesArgs} (hargs : AppendSim S args)
    (hcons : Consecutive args.prevLogIndex args.entries) (hstale : ¬ s.StaleTail args)
    (hfault : (s.appendEntries args).fault = none) :
    ∃ S', SimStep S S' p s (s.appendEntries args).node ∧
      ((s.appendEntries args).ret.success = true → (s.appendEntries args).ret.term = args.term ∧
        Acked S' p args.term (args.prevLogIndex.toNat + args.entries.length)) := by
  rcases hinv.contiguous.appendEntries_cases hcons with
    ⟨-, heq⟩ | ⟨hle, index, heq, -⟩ | ⟨hle, hlo, hhi, hget, heq⟩ |
      ⟨-, -, _, _, _, _, -, -, -, -, -, -, -, hf, -⟩
  · rw [heq]
    exact ⟨S, .stay h rfl rfl rfl rfl rfl rfl rfl, by simp⟩
  · rw [heq]
    have hterm := Node.followTerm_term s args.term hle
    refine ⟨_, .follow h _ (by simpa [hterm] using hle) (by simp) ?_ (by simp) (by simp) (by simp)
      (by simp), by simp⟩
    simp only [Node.mPersist_vote4, Node.mPersist_term, hterm, Node.followTerm_vote4]
    rcases hle.lt_or_eq with hlt | heq
    · exact Or.inl (if_pos hlt)
    · exact Or.inr ⟨heq.symm, if_neg (by omega)⟩
  · rw [heq]
    obtain ⟨S', hsim, hack⟩ := sim_appended h hinv hS hargs hcons hle hlo hhi hget hstale
    exact ⟨S', hsim, fun _ => ⟨rfl, hack⟩⟩
  · rw [hf] at hfault
    simp at hfault

/-! ## Snapshots -/

/-- The node that installed a snapshot, over a ghost log that is the snapshot's own or goes on past
    it. -/
theorem NodeSim.installed (h : NodeSim S p s) (hinv : s.IndexInv) (hS : Inv LogEntry.term S)
    {args : InstallSnapshotArgs} {K : List LogEntry} (hK : Certified S args.term K)
    (hKlen : (K.length : Int) = args.lastIndex) (hKterm : lastTerm K = args.lastTerm)
    (hle : s.term ≤ args.term) (hnew : s.lastSnapshotIndex < args.lastIndex) (g : Grows S S')
    (hterm : S'.term p = args.term) (hlead : ¬ S'.leading p)
    (hlog : S'.log p = K ∧ (S.log p).length ≤ K.length ∨
      S'.log p = S.log p ∧ K.length < (S.log p).length) : NodeSim S' p (s.installed args) := by
  have hsnap0 := hinv.snapshotNonneg
  have hN : args.lastIndex.toNat = K.length := by omega
  have hnode_term : (s.installed args).term = args.term := Node.followTerm_term s args.term hle
  have hnode_logs : (s.installed args).logs =
      s.logs.drop (args.lastIndex - s.lastSnapshotIndex).toNat := rfl
  have hlogs : (s.installed args).logs = (S'.log p).drop args.lastIndex.toNat := by
    rw [hnode_logs, h.logs, List.drop_drop,
      show s.lastSnapshotIndex.toNat + (args.lastIndex - s.lastSnapshotIndex).toNat
        = args.lastIndex.toNat by omega]
    rcases hlog with ⟨heq, hlen⟩ | ⟨heq, -⟩
    · rw [heq, List.drop_eq_nil_of_le (by omega), List.drop_eq_nil_of_le (by omega)]
    · rw [heq]
  refine ⟨by rw [hterm, hnode_term], by rw [hnode_term]; exact h.termNonneg.trans hle,
    iff_of_false hlead (by simp [Node.installed]), hlogs, ?_, ?_, ?_⟩
  · show args.lastIndex.toNat ≤ _
    rcases hlog with ⟨heq, -⟩ | ⟨heq, hlt⟩ <;> rw [heq] <;> omega
  · show _ = args.lastIndex.toNat → args.lastTerm = _
    intro hlen
    rcases hlog with ⟨heq, -⟩ | ⟨heq, hlt⟩
    · rw [heq, hKterm]
    · rw [heq] at hlen
      omega
  · obtain ⟨K₀, hK₀, hlen₀, hpre₀, -⟩ := h.commit
    show ∃ K', Certified S' (s.installed args).term K' ∧
      K'.length = (max s.commitIndex args.lastIndex).toNat ∧
      K'.drop args.lastIndex.toNat <+: (s.installed args).logs ∧
      lastTerm (K'.take args.lastIndex.toNat) = args.lastTerm
    rw [hnode_term, hN]
    rcases le_or_gt s.commitIndex args.lastIndex with hc | hc
    · refine ⟨K, hK.mono g le_rfl, by omega, ?_, by rw [List.take_length, hKterm]⟩
      rw [List.drop_length]
      exact List.nil_prefix
    · -- more was committed already, so the snapshot is a prefix of it
      have hpre : K <+: K₀ := by
        rcases hK.comparable hK₀ hS with hpre | hpre
        · exact hpre
        · have := hpre.length_le
          omega
      refine ⟨K₀, hK₀.mono g hle, by omega, ?_, ?_⟩
      · have hd : K₀.drop K.length = (K₀.drop s.lastSnapshotIndex.toNat).drop
            (args.lastIndex - s.lastSnapshotIndex).toNat := by
          rw [List.drop_drop]
          congr 1
          omega
        rw [hd, hnode_logs]
        exact hpre₀.drop _
      · rw [← List.prefix_iff_eq_take.1 hpre, hKterm]

theorem sim_installSnapshot (h : NodeSim S p s) (hinv : s.IndexInv) (hS : Inv LogEntry.term S)
    {args : InstallSnapshotArgs} (hargs : SnapSim S args) :
    ∃ S', SimStep S S' p s (s.installSnapshot args).node := by
  obtain ⟨K, hK, hKlen, hKterm⟩ := hargs
  have hkeep : s.term ≤ args.term → (s.followTerm args.term).vote4 = -1 ∨
      (s.followTerm args.term).term = s.term ∧ (s.followTerm args.term).vote4 = s.vote4 := by
    intro hle
    rw [Node.followTerm_term s args.term hle, Node.followTerm_vote4]
    rcases hle.lt_or_eq with hlt | heq
    · exact Or.inl (if_pos hlt)
    · exact Or.inr ⟨heq.symm, if_neg (by omega)⟩
  rcases hinv.contiguous.installSnapshot_cases args with
    ⟨-, heq⟩ | ⟨hle, -, heq⟩ | ⟨hle, hnew, heq⟩
  · rw [heq]
    exact ⟨S, .stay h rfl rfl rfl rfl rfl rfl rfl⟩
  · rw [heq]
    exact ⟨_, .follow h _ (by simpa [Node.followTerm_term s args.term hle] using hle) (by simp)
      (hkeep hle) (by simp) (by simp) (by simp) (by simp)⟩
  · rw [heq]
    have hle' : S.term p ≤ args.term := by rw [h.term]; exact hle
    have hfollow : Step LogEntry.term S p (S.follow p args.term) := .follow p args.term hle'
    have g₁ : Grows S (S.follow p args.term) := Inv.grows_follow hle'
    have hself : (S.follow p args.term).term p = args.term := by simp [State.follow]
    have hid : (s.installed args).identity = .leader → s.identity = .leader := by
      simp [Node.installed]
    rcases Nat.lt_or_ge K.length (S.log p).length with hlt | hge
    · exact ⟨_, .quiet (.single hfollow) (h.installed hinv hS hK hKlen hKterm hle hnew g₁ hself
        (by simp [State.follow]) (Or.inr ⟨rfl, hlt⟩)) rfl rfl (hkeep hle) hid⟩
    · have hcommitted : (S.follow p args.term).CommittedLog args.term K := by
        refine ((hK.mono g₁ le_rfl).resolve_left ?_)
        rintro rfl
        have := hinv.snapshotNonneg
        simp only [List.length_nil, Nat.cast_zero] at hKlen
        omega
      have hadopt : Step LogEntry.term (S.follow p args.term) p _ :=
        .adopt p K (by rw [hself]; exact hcommitted) hge
      have g₂ := g₁.trans (Inv.grows_replace (s := S.follow p args.term) (v := p) (l := K))
      exact ⟨_, .quiet ((Relation.ReflTransGen.single hfollow).tail hadopt)
        (h.installed hinv hS hK hKlen hKterm hle hnew g₂ hself (by simp [State.replace])
          (Or.inl ⟨by simp [State.replace], hge⟩)) rfl rfl (hkeep hle) hid⟩

theorem sim_sendSnapshot (h : NodeSim S p s) (server : Fin n) (args : InstallSnapshotArgs)
    (reply : InstallSnapshotReply) : ∃ S', SimStep S S' p s (s.sendSnapshot server args reply) := by
  rcases s.sendSnapshot_cases server args reply with ⟨hlt, heq⟩ | heq | ⟨-, -, heq⟩
  · rw [heq]
    exact ⟨_, .stepDown h hlt⟩
  · rw [heq]
    exact ⟨S, .stay h rfl rfl rfl rfl rfl rfl rfl⟩
  · rw [heq]
    exact ⟨S, .stay h rfl rfl rfl rfl rfl rfl rfl⟩

/-- The snapshot a node hands over covers what it knows to be committed. -/
theorem NodeSim.snapshotArgs (h : NodeSim S p s) (hinv : s.IndexInv) :
    SnapSim S s.snapshotArgs := by
  obtain ⟨K, hK, hlen, -, hlast⟩ := h.commit
  have hsnapc := hinv.snapshotLeApplied.trans hinv.appliedLeCommit
  have hsnap0 := hinv.snapshotNonneg
  refine ⟨K.take s.lastSnapshotIndex.toNat, hK.restrict (List.take_prefix _ _), ?_, hlast⟩
  show _ = s.lastSnapshotIndex
  rw [List.length_take]
  omega

/-! ## Replication, the sender's side -/

/-- The leader acknowledges its own log when it starts a round. -/
theorem sim_heartBeat (h : NodeSim S p s) (hS : Inv LogEntry.term S) (hid : s.identity = .leader) :
    ∃ S', SimStep S S' p s s ∧ S'.lead = S.lead ∧
      Acked S' p s.term (S.lead s.term).length := by
  obtain ⟨hled, hlog⟩ := h.leader hS hid
  have hack : Step LogEntry.term S p _ :=
    .acknowledge p (S.lead s.term).length (by rw [h.term]; exact hled) (by rw [h.term])
      (by rw [h.term, hlog]; exact List.take_prefix _ _)
  have g : Grows S _ := Inv.grows_acknowledge (s := S) (v := p) (m := (S.lead s.term).length)
  refine ⟨_, .quiet (.single hack) (h.frame g rfl rfl rfl) rfl rfl (Or.inr ⟨rfl, rfl⟩) id, rfl,
    hled, le_rfl, Or.inl ?_⟩
  simp [State.acknowledge, h.term]

/-- A request built by a leader is a segment of the leader log, up to its end. -/
theorem NodeSim.heartBeatArgs (h : NodeSim S p s) (hinv : s.IndexInv) (hS : Inv LogEntry.term S)
    (hid : s.identity = .leader) {server : Fin n} {args : AppendEntriesArgs}
    (hargs : s.heartBeatArgs server = .ok args) :
    AppendSim S args ∧ args.term = s.term ∧
      args.prevLogIndex.toNat + args.entries.length = (S.lead s.term).length := by
  obtain ⟨hled, hlog⟩ := h.leader hS hid
  obtain ⟨hterm, -, hcommit, hlo, hhi, hget, hentries⟩ := hinv.contiguous.heartBeatArgs hargs
  obtain ⟨-, hend⟩ := hinv.contiguous.heartBeatArgs_entries hlo hhi
  obtain ⟨hcle, hcert, -, hsnapTerm⟩ := h.commit_lead hS hinv hled le_rfl
  have hlast := h.getLastLogIndex hinv
  have hsnap0 := hinv.snapshotNonneg
  have hcommitLe := hinv.commitLeLast
  rw [hlog] at hlast
  have hdrop : args.entries = (S.lead s.term).drop args.prevLogIndex.toNat := by
    rw [hentries, h.logs, hlog, List.drop_drop]
    congr 1
    omega
  rw [← hentries] at hend
  refine ⟨⟨by rw [hterm]; exact hled, by omega, by rw [hterm]; omega, ?_, ?_, by omega, ?_⟩, hterm,
    by omega⟩
  · rw [hterm, hdrop, List.take_length]
  · rw [hterm]
    rcases hinv.contiguous.getLogTerm hlo hhi with ⟨heq, hget'⟩ | ⟨e, hlt, hslot, -, hget'⟩
    · rw [hget'] at hget
      rw [heq, hsnapTerm]
      exact (Except.ok.inj hget).symm
    · rw [hget'] at hget
      rw [h.getElem?_log, hlog] at hslot
      have hslot' : (S.lead s.term)[args.prevLogIndex.toNat - 1]? = some e := by
        rw [← hslot]
        congr 1
        omega
      have := lastTerm_take hslot'
      rw [show args.prevLogIndex.toNat - 1 + 1 = args.prevLogIndex.toNat by omega] at this
      rw [this]
      exact (Except.ok.inj hget).symm
  · rw [hterm, hcommit]
    exact hcert

/-- The commit index a majority of acknowledgements gives is committed. -/
theorem NodeSim.updateCommitIndex (h : NodeSim S p s) (hinv : s.IndexInv) (hS : Inv LogEntry.term S)
    (hid : s.identity = .leader) {args : AppendEntriesArgs} (hargs : AppendSim S args)
    (hterm : args.term = s.term) {Q : Finset (Fin n)} (hQ : Majority Q)
    (hack : ∀ v ∈ Q, Acked S v s.term (args.prevLogIndex.toNat + args.entries.length)) :
    NodeSim S p (s.updateCommitIndex args) := by
  obtain ⟨hled, hlog⟩ := h.leader hS hid
  rcases s.updateCommitIndex_cases args with heq | ⟨⟨e, he, heterm⟩, heq⟩
  · rw [heq]
    exact h
  rw [heq]
  obtain ⟨hcle, hcert, hcpre, hsnapTerm⟩ := h.commit_lead hS hinv hled le_rfl
  have h0 := hargs.prevNonneg
  have hlenLe := hargs.lenLe
  rw [hterm] at hlenLe
  have hpos : 0 < args.entries.length :=
    List.length_pos_of_ne_nil (by rintro hnil; simp [hnil] at he)
  have helead : (S.lead s.term)[args.prevLogIndex.toNat + args.entries.length - 1]? = some e := by
    have := hargs.getElem? (j := args.entries.length - 1) (by omega)
    rw [← List.getLast?_eq_getElem?, he, hterm] at this
    rw [this]
    congr 1
    omega
  have hN : args.prevLogIndex.toNat + args.entries.length - 1 + 1
      = args.prevLogIndex.toNat + args.entries.length := by omega
  have hnew := certified_of_majority hS hQ (by rw [hN]; exact hack) helead heterm
  rw [hN] at hnew
  have hcommit0 : 0 ≤ s.commitIndex := by
    have := hinv.snapshotLeApplied
    have := hinv.appliedLeCommit
    have := hinv.snapshotNonneg
    omega
  have hsnapc := hinv.snapshotLeApplied.trans hinv.appliedLeCommit
  refine ⟨h.term, h.termNonneg, h.leading, h.logs, h.snapLe, h.snapTerm,
    (S.lead s.term).take (max s.commitIndex.toNat
      (args.prevLogIndex.toNat + args.entries.length)), ?_, ?_, ?_, ?_⟩
  · rcases le_total s.commitIndex.toNat (args.prevLogIndex.toNat + args.entries.length) with hle | hle
    · rw [max_eq_right hle]
      exact hnew
    · rw [max_eq_left hle]
      exact hcert
  · rw [List.length_take]
    show _ = (max s.commitIndex (args.prevLogIndex + args.entries.length)).toNat
    omega
  · show _ <+: s.logs
    rw [h.logs, hlog]
    exact (List.take_prefix _ _).drop _
  · show lastTerm (List.take s.lastSnapshotIndex.toNat _) = s.lastSnapshotTerm
    rw [List.take_take, min_eq_left (by omega), hsnapTerm]

end Steps

end RaftKVStorage
