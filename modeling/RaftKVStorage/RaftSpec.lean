import RaftKVStorage.Raft
import Mathlib.Tactic

set_option autoImplicit false

/-! # What the handlers do

For every member function that changes a node, one lemma saying what it can leave behind. The
handlers that look into the log are treated for contiguous logs (`Node.Contiguous`), where every
access is in range. -/

namespace RaftKVStorage

variable {n : ℕ}

/-! ## Fields that persisting and changing identity leave alone -/

section Fields

variable (s : Node n) (iden : Identity) (term vote : Int)

@[simp] theorem Node.mPersist_me : s.mPersist.me = s.me := rfl
@[simp] theorem Node.mPersist_logs : s.mPersist.logs = s.logs := rfl
@[simp] theorem Node.mPersist_nextIndex : s.mPersist.nextIndex = s.nextIndex := rfl
@[simp] theorem Node.mPersist_matchIndex : s.mPersist.matchIndex = s.matchIndex := rfl
@[simp] theorem Node.mPersist_commitIndex : s.mPersist.commitIndex = s.commitIndex := rfl
@[simp] theorem Node.mPersist_appliedIndex : s.mPersist.appliedIndex = s.appliedIndex := rfl
@[simp] theorem Node.mPersist_lastSnapshotIndex :
    s.mPersist.lastSnapshotIndex = s.lastSnapshotIndex := rfl
@[simp] theorem Node.mPersist_lastSnapshotTerm :
    s.mPersist.lastSnapshotTerm = s.lastSnapshotTerm := rfl
@[simp] theorem Node.mPersist_term : s.mPersist.term = s.term := rfl
@[simp] theorem Node.mPersist_vote4 : s.mPersist.vote4 = s.vote4 := rfl
@[simp] theorem Node.mPersist_identity : s.mPersist.identity = s.identity := rfl

@[simp] theorem Node.identityChange_me : (s.identityChange iden term vote).me = s.me := rfl
@[simp] theorem Node.identityChange_logs : (s.identityChange iden term vote).logs = s.logs := rfl
@[simp] theorem Node.identityChange_nextIndex :
    (s.identityChange iden term vote).nextIndex = s.nextIndex := rfl
@[simp] theorem Node.identityChange_matchIndex :
    (s.identityChange iden term vote).matchIndex = s.matchIndex := rfl
@[simp] theorem Node.identityChange_commitIndex :
    (s.identityChange iden term vote).commitIndex = s.commitIndex := rfl
@[simp] theorem Node.identityChange_appliedIndex :
    (s.identityChange iden term vote).appliedIndex = s.appliedIndex := rfl
@[simp] theorem Node.identityChange_lastSnapshotIndex :
    (s.identityChange iden term vote).lastSnapshotIndex = s.lastSnapshotIndex := rfl
@[simp] theorem Node.identityChange_lastSnapshotTerm :
    (s.identityChange iden term vote).lastSnapshotTerm = s.lastSnapshotTerm := rfl
@[simp] theorem Node.identityChange_term : (s.identityChange iden term vote).term = term := rfl
@[simp] theorem Node.identityChange_vote4 : (s.identityChange iden term vote).vote4 = vote := rfl
@[simp] theorem Node.identityChange_identity :
    (s.identityChange iden term vote).identity = iden := rfl

@[simp] theorem Node.followTerm_me : (s.followTerm term).me = s.me := by
  unfold Node.followTerm; split <;> rfl
@[simp] theorem Node.followTerm_logs : (s.followTerm term).logs = s.logs := by
  unfold Node.followTerm; split <;> rfl
@[simp] theorem Node.followTerm_nextIndex : (s.followTerm term).nextIndex = s.nextIndex := by
  unfold Node.followTerm; split <;> rfl
@[simp] theorem Node.followTerm_matchIndex : (s.followTerm term).matchIndex = s.matchIndex := by
  unfold Node.followTerm; split <;> rfl
@[simp] theorem Node.followTerm_commitIndex : (s.followTerm term).commitIndex = s.commitIndex := by
  unfold Node.followTerm; split <;> rfl
@[simp] theorem Node.followTerm_appliedIndex :
    (s.followTerm term).appliedIndex = s.appliedIndex := by
  unfold Node.followTerm; split <;> rfl
@[simp] theorem Node.followTerm_lastSnapshotIndex :
    (s.followTerm term).lastSnapshotIndex = s.lastSnapshotIndex := by
  unfold Node.followTerm; split <;> rfl
@[simp] theorem Node.followTerm_lastSnapshotTerm :
    (s.followTerm term).lastSnapshotTerm = s.lastSnapshotTerm := by
  unfold Node.followTerm; split <;> rfl
@[simp] theorem Node.followTerm_identity : (s.followTerm term).identity = .follower := rfl

/-- A node that follows a sender whose term is not behind is in the sender's term. -/
theorem Node.followTerm_term (h : s.term ≤ term) : (s.followTerm term).term = term := by
  unfold Node.followTerm
  split
  · rfl
  · exact le_antisymm h (by simpa using ‹¬ term > s.term›)

/-- The vote is forgotten exactly when the term is new. -/
theorem Node.followTerm_vote4 :
    (s.followTerm term).vote4 = if term > s.term then -1 else s.vote4 := by
  unfold Node.followTerm; split <;> rfl

end Fields

/-! ## Contiguous logs -/

/-- `_M_logs[i].index() = _M_lastSnapshotIndex + 1 + i`. -/
def Node.Contiguous (s : Node n) : Prop :=
  ∀ (i : ℕ) (e : LogEntry), s.logs[i]? = some e → e.index = s.lastSnapshotIndex + 1 + i

/-- The entries of a request follow `prevLogIndex` one by one. -/
def Consecutive (prevLogIndex : Int) (entries : List LogEntry) : Prop :=
  ∀ (i : ℕ) (e : LogEntry), entries[i]? = some e → e.index = prevLogIndex + 1 + i

instance (prevLogIndex : Int) (entries : List LogEntry) :
    Decidable (Consecutive prevLogIndex entries) :=
  decidable_of_iff (∀ i : Fin entries.length, entries[i].index = prevLogIndex + 1 + (i : ℕ))
    ⟨fun h i e he => by
      obtain ⟨hi, rfl⟩ := List.getElem?_eq_some_iff.1 he
      exact h ⟨i, hi⟩,
    fun h i => h i _ (List.getElem?_eq_getElem i.2)⟩

theorem Consecutive.tail {prev : Int} {e : LogEntry} {es : List LogEntry}
    (h : Consecutive prev (e :: es)) : Consecutive (prev + 1) es := by
  intro i x hx
  have := h (i + 1) x (by simpa using hx)
  push_cast at this
  omega

theorem Consecutive.head {prev : Int} {e : LogEntry} {es : List LogEntry}
    (h : Consecutive prev (e :: es)) : e.index = prev + 1 := by
  have := h 0 e rfl
  simpa using this

section Contiguous

variable {s : Node n}

theorem Node.Contiguous.getLastLogIndex (h : s.Contiguous) :
    s.getLastLogIndex = s.lastSnapshotIndex + s.logs.length := by
  unfold Node.getLastLogIndex
  rcases hlast : s.logs.getLast? with _ | e
  · rw [List.getLast?_eq_none_iff] at hlast
    simp [hlast]
  · have hpos : 0 < s.logs.length :=
      List.length_pos_of_ne_nil (by rintro hnil; simp [hnil] at hlast)
    rw [List.getLast?_eq_getElem?] at hlast
    have := h _ e hlast
    simp only
    omega

/-- Every index above the snapshot and up to the last one is in the log, at its own slot. -/
theorem Node.Contiguous.logAt (h : s.Contiguous) {i : Int} (hlo : s.lastSnapshotIndex < i)
    (hhi : i ≤ s.getLastLogIndex) :
    ∃ e, s.logAt (s.getSlicesIndexFromLogIndex i) = some e ∧ e.index = i ∧
      s.logs[(i - s.lastSnapshotIndex - 1).toNat]? = some e := by
  rw [h.getLastLogIndex] at hhi
  have hlt : (i - s.lastSnapshotIndex - 1).toNat < s.logs.length := by omega
  refine ⟨s.logs[(i - s.lastSnapshotIndex - 1).toNat], ?_, ?_, List.getElem?_eq_getElem hlt⟩
  · rw [Node.logAt, Node.getSlicesIndexFromLogIndex, if_pos (by omega), List.getElem?_eq_getElem hlt]
  · have := h _ _ (List.getElem?_eq_getElem hlt)
    omega

/-- An access that succeeds is at the slot of its index. -/
theorem Node.Contiguous.index_of_logAt (h : s.Contiguous) {i : Int} {e : LogEntry}
    (he : s.logAt (s.getSlicesIndexFromLogIndex i) = some e) :
    e.index = i ∧ s.lastSnapshotIndex < i ∧ i ≤ s.getLastLogIndex ∧
      s.logs[(i - s.lastSnapshotIndex - 1).toNat]? = some e := by
  unfold Node.logAt Node.getSlicesIndexFromLogIndex at he
  split at he
  · have hlt := (List.getElem?_eq_some_iff.1 he).1
    have hidx := h _ e he
    rw [h.getLastLogIndex]
    exact ⟨by omega, by omega, by omega, he⟩
  · simp at he

/-- The term at an index of the log is found without a fault. -/
theorem Node.Contiguous.getLogTerm (h : s.Contiguous) {i : Int} (hlo : s.lastSnapshotIndex ≤ i)
    (hhi : i ≤ s.getLastLogIndex) :
    (i = s.lastSnapshotIndex ∧ s.getLogTerm i = .ok s.lastSnapshotTerm) ∨
      ∃ e, s.lastSnapshotIndex < i ∧ s.logs[(i - s.lastSnapshotIndex - 1).toNat]? = some e ∧
        e.index = i ∧ s.getLogTerm i = .ok e.term := by
  rcases hlo.eq_or_lt with heq | hlt
  · exact Or.inl ⟨heq.symm, by simp [Node.getLogTerm, ← heq]⟩
  · obtain ⟨e, he, hidx, hslot⟩ := h.logAt hlt hhi
    refine Or.inr ⟨e, hlt, hslot, hidx, ?_⟩
    have hv : valideIndex s.lastSnapshotIndex i s.getLastLogIndex = true := by
      simp [valideIndex, hlo, hhi]
    simp [Node.getLogTerm, hlt.ne', hv, he]

theorem Node.Contiguous.getLogTerm_ok (h : s.Contiguous) {i : Int} (hlo : s.lastSnapshotIndex ≤ i)
    (hhi : i ≤ s.getLastLogIndex) : ∃ t, s.getLogTerm i = .ok t := by
  rcases h.getLogTerm hlo hhi with ⟨-, he⟩ | ⟨e, -, -, -, he⟩
  · exact ⟨_, he⟩
  · exact ⟨_, he⟩

/-- Looking for the start of the conflicting term never leaves the log. -/
theorem Node.Contiguous.rollback (h : s.Contiguous) (prev : Int) (hlo : s.lastSnapshotIndex ≤ prev)
    (hhi : prev ≤ s.getLastLogIndex) :
    ∀ k : ℕ, s.lastSnapshotIndex + k ≤ prev + 1 → ∃ index, s.rollback prev k = .ok index ∧
      (index = prev ∨ s.lastSnapshotIndex < index ∧ index ≤ prev) := by
  intro k
  induction k with
  | zero => exact fun _ => ⟨prev, rfl, Or.inl rfl⟩
  | succ k ih =>
      intro hk
      push_cast at hk
      obtain ⟨t, ht⟩ := h.getLogTerm_ok (i := s.lastSnapshotIndex + k) (by omega) (by omega)
      obtain ⟨t', ht'⟩ := h.getLogTerm_ok hlo hhi
      by_cases heq : t = t'
      · obtain ⟨index, hindex, hb⟩ := ih (by omega)
        refine ⟨index, ?_, hb⟩
        simp only [Node.rollback, ht, ht', bind, Except.bind, heq, ne_eq, not_true_eq_false,
          if_false]
        exact hindex
      · refine ⟨s.lastSnapshotIndex + k + 1, ?_, ?_⟩
        · simp only [Node.rollback, ht, ht', bind, Except.bind, ne_eq, heq, not_false_eq_true,
            if_true]
        · -- the terms differ, so the index compared is not `prev` itself
          have hne : s.lastSnapshotIndex + k ≠ prev := by
            intro he
            rw [he, ht'] at ht
            exact heq (Except.ok.inj ht).symm
          right
          omega

end Contiguous

/-! ## Elections -/

/-- Whether a node would vote depends on its log only. -/
theorem Node.receiveVote_identityChange (s : Node n) (iden : Identity) (term vote index t : Int) :
    (s.identityChange iden term vote).receiveVote index t = s.receiveVote index t := rfl

theorem Node.stand4Election_cases (s : Node n) :
    (s.identity = .leader ∧ s.stand4Election = (s, none)) ∨
      (s.identity ≠ .leader ∧ s.stand4Election =
        (s.identityChange .candidate (s.term + 1) s.me, some
          { term := s.term + 1
            candidateId := s.me
            lastLogIndex := s.getLastLogIndex
            lastLogTerm := s.getLastLogTerm })) := by
  by_cases h : s.identity = .leader
  · exact Or.inl ⟨h, by simp [Node.stand4Election, h]⟩
  · exact Or.inr ⟨h, by simp [Node.stand4Election, h]; exact ⟨rfl, rfl⟩⟩

/-- A refused vote changes at most the term; a granted one is for the candidate's term, in which
    the voter had not voted for another. -/
theorem Node.requestVote_cases (s : Node n) (args : RequestVoteArgs) :
    ((s.requestVote args).2.voteGranted = false ∧
      ((s.requestVote args).1 = s.mPersist ∨
        s.term < args.term ∧
          (s.requestVote args).1 = (s.identityChange .follower args.term (-1)).mPersist)) ∨
    ((s.requestVote args).2.voteGranted = true ∧ (s.requestVote args).2.term = args.term ∧
      s.receiveVote args.lastLogIndex args.lastLogTerm = true ∧
      ((s.term = args.term ∧ (s.vote4 = -1 ∨ s.vote4 = args.candidateId) ∧
          (s.requestVote args).1 = Node.mPersist { s with vote4 := args.candidateId }) ∨
        (s.term < args.term ∧ (s.requestVote args).1 = Node.mPersist
          { s.identityChange .follower args.term (-1) with vote4 := args.candidateId }))) := by
  unfold Node.requestVote
  split
  · exact Or.inl ⟨rfl, Or.inl rfl⟩
  rename_i hge
  rcases lt_trichotomy s.term args.term with hlt | heq | hgt
  · rw [if_pos hlt]
    simp only [Node.receiveVote_identityChange, Node.identityChange_vote4, ne_eq,
      not_true_eq_false, false_and, if_false]
    split
    · exact Or.inl ⟨rfl, Or.inr ⟨hlt, rfl⟩⟩
    · rename_i hrec
      exact Or.inr ⟨rfl, rfl, by simpa using hrec, Or.inr ⟨hlt, rfl⟩⟩
  · rw [if_neg (show ¬ args.term > s.term by omega)]
    dsimp only
    split
    · exact Or.inl ⟨rfl, Or.inl rfl⟩
    · rename_i hrec
      split
      · exact Or.inl ⟨rfl, Or.inl rfl⟩
      · rename_i hvote
        refine Or.inr ⟨rfl, heq, by simpa using hrec, Or.inl ⟨heq, ?_, rfl⟩⟩
        by_cases hv : s.vote4 = -1
        · exact Or.inl hv
        · exact Or.inr (not_not.1 fun hne => hvote ⟨fun h => hv h.symm, fun h => hne h.symm⟩)
  · exact absurd hgt hge

theorem Node.sendRequestVote_cases (s : Node n) (reply : RequestVoteReply) (voteNum : ℕ) :
    (s.term < reply.term ∧
      s.sendRequestVote reply voteNum = (s.identityChange .follower reply.term (-1), voteNum)) ∨
    s.sendRequestVote reply voteNum = (s, voteNum) ∨
    (reply.term = s.term ∧ reply.voteGranted = true ∧
      ((voteNum + 1 < n / 2 + 1 ∧ s.sendRequestVote reply voteNum = (s, voteNum + 1)) ∨
        (n / 2 + 1 ≤ voteNum + 1 ∧ s.identity = .leader ∧
          s.sendRequestVote reply voteNum = (s, 0)) ∨
        (n / 2 + 1 ≤ voteNum + 1 ∧ s.identity ≠ .leader ∧
          s.sendRequestVote reply voteNum = (s.becomeLeader, 0)))) := by
  unfold Node.sendRequestVote
  split
  · rename_i h
    exact Or.inl ⟨h, rfl⟩
  rename_i hle
  split
  · exact Or.inr (Or.inl rfl)
  rename_i hgr
  push Not at hgr
  refine Or.inr (Or.inr ⟨le_antisymm (not_lt.1 hle) hgr.1, by simpa using hgr.2, ?_⟩)
  split
  · rename_i hmaj
    by_cases hid : s.identity = .leader
    · exact Or.inr (Or.inl ⟨hmaj, hid, by simp [hid]⟩)
    · exact Or.inr (Or.inr ⟨hmaj, hid, by simp [hid]⟩)
  · rename_i hmin
    exact Or.inl ⟨not_le.1 hmin, rfl⟩

/-! ## The application's calls -/

/-- The entry `execute` creates. -/
def Node.newEntry (s : Node n) (command : Bytes) : LogEntry :=
  { command := command, term := s.term, index := s.getNewCommandIndex }

theorem Node.execute_cases (s : Node n) (command : Bytes) :
    (s.identity = .leader ∧ (s.execute command).1 =
      Node.mPersist { s with logs := s.logs ++ [s.newEntry command] }) ∨
    (s.identity ≠ .leader ∧ (s.execute command).1 = s) := by
  unfold Node.execute
  split
  · exact Or.inl ⟨‹_›, rfl⟩
  · exact Or.inr ⟨‹_›, rfl⟩

/-- The node after a snapshot of the application up to `index`, whose entry has term `term`. -/
def Node.compacted (s : Node n) (index term : Int) (shot : Bytes) : Node n :=
  let s' : Node n :=
    { s with
      lastSnapshotIndex := index
      lastSnapshotTerm := term
      logs := s.logs.drop (index - s.lastSnapshotIndex).toNat
      appliedIndex := max s.appliedIndex index }
  { s' with persister := s.persister.persistBoth s'.dump shot }

theorem Node.Contiguous.persist_cases {s : Node n} (h : s.Contiguous)
    (hcommit : s.commitIndex ≤ s.getLastLogIndex) (index : Int) (shot : Bytes) :
    s.persist index shot = ⟨s, false, none⟩ ∨
    ∃ e, s.lastSnapshotIndex < index ∧ index ≤ s.commitIndex ∧
      s.logs[(index - s.lastSnapshotIndex - 1).toNat]? = some e ∧ e.index = index ∧
      s.persist index shot = ⟨s.compacted index e.term shot, true, none⟩ := by
  unfold Node.persist
  split
  · exact Or.inl rfl
  rename_i hvalid
  simp only [valideIndex, Bool.not_eq_true', Bool.and_eq_false_iff, decide_eq_false_iff_not,
    not_or, not_not] at hvalid
  obtain ⟨hlo, hhi⟩ := hvalid
  obtain ⟨e, he, hidx, hslot⟩ := h.logAt (by omega) (hhi.trans hcommit)
  refine Or.inr ⟨e, by omega, hhi, hslot, hidx, ?_⟩
  have hlt := (List.getElem?_eq_some_iff.1 hslot).1
  have hlogs : (if (s.logs.length : Int) - 1 = s.getSlicesIndexFromLogIndex index then []
      else s.logs.drop (s.getSlicesIndexFromLogIndex index + 1).toNat)
      = s.logs.drop (index - s.lastSnapshotIndex).toNat := by
    have hslices : (s.getSlicesIndexFromLogIndex index + 1).toNat
        = (index - s.lastSnapshotIndex).toNat := by
      rw [Node.getSlicesIndexFromLogIndex]
      omega
    rw [hslices]
    split
    · rename_i hall
      rw [Node.getSlicesIndexFromLogIndex] at hall
      exact (List.drop_eq_nil_of_le (by omega)).symm
    · rfl
  have happlied : (if index > s.appliedIndex then index else s.appliedIndex)
      = max s.appliedIndex index := by
    split <;> omega
  simp only [he, hlogs, happlied, if_neg (show ¬ index > s.commitIndex by omega)]
  rfl

/-- The message for a committed entry. -/
def LogEntry.toMessage (e : LogEntry) : ApplyMessage := .ofCommand e.index e.command

theorem Node.Contiguous.takeApplyMessages {s : Node n} (h : s.Contiguous) :
    ∀ k : ℕ, s.lastSnapshotIndex ≤ s.appliedIndex → s.appliedIndex + k ≤ s.getLastLogIndex →
      s.takeApplyMessages k = ⟨{ s with appliedIndex := s.appliedIndex + k },
        ((s.logs.drop (s.appliedIndex - s.lastSnapshotIndex).toNat).take k).map LogEntry.toMessage,
        none⟩ := by
  intro k
  induction k generalizing s with
  | zero => simp [Node.takeApplyMessages]
  | succ k ih =>
      intro hlo hhi
      push_cast at hhi
      have h' : Node.Contiguous { s with appliedIndex := s.appliedIndex + 1 } := h
      obtain ⟨e, he, hidx, hslot⟩ := h'.logAt (i := s.appliedIndex + 1) (by simp; omega)
        (by simp only [Node.getLastLogIndex] at hhi ⊢; omega)
      have hrest := ih h' (by simp; omega) (by simp only [Node.getLastLogIndex] at hhi ⊢; omega)
      have hdrop : s.logs.drop (s.appliedIndex - s.lastSnapshotIndex).toNat
          = e :: s.logs.drop (s.appliedIndex + 1 - s.lastSnapshotIndex).toNat := by
        have hslot' : s.logs[(s.appliedIndex - s.lastSnapshotIndex).toNat]? = some e := by
          have : (s.appliedIndex + 1 - s.lastSnapshotIndex - 1).toNat
              = (s.appliedIndex - s.lastSnapshotIndex).toNat := by congr 1; omega
          rw [← this]
          exact hslot
        obtain ⟨hlt, hget⟩ := List.getElem?_eq_some_iff.1 hslot'
        rw [List.drop_eq_getElem_cons hlt, hget]
        congr 2
        omega
      simp only [Node.takeApplyMessages, he, hrest, hdrop, List.take_succ_cons, List.map_cons,
        LogEntry.toMessage, hidx, Nat.cast_add, Nat.cast_one, add_assoc, add_comm (1 : Int)]

/-! ## Replication, the sender's side -/

/-- A request built for a peer carries everything above `prevLogIndex`. -/
theorem Node.Contiguous.heartBeatArgs {s : Node n} (h : s.Contiguous) {server : Fin n}
    {args : AppendEntriesArgs} (hargs : s.heartBeatArgs server = .ok args) :
    args.term = s.term ∧ args.leaderId = s.me ∧ args.leaderCommit = s.commitIndex ∧
      s.lastSnapshotIndex ≤ args.prevLogIndex ∧ args.prevLogIndex ≤ s.getLastLogIndex ∧
      s.getLogTerm args.prevLogIndex = .ok args.prevLogTerm ∧
      args.entries = s.logs.drop (args.prevLogIndex - s.lastSnapshotIndex).toNat := by
  unfold Node.heartBeatArgs Node.getPreviousLogInfo at hargs
  split at hargs
  · simp at hargs
  rename_i prev prevTerm hinfo
  simp only [Except.ok.injEq] at hargs
  subst hargs
  have hlast := h.getLastLogIndex
  split at hinfo
  · simp only [Except.ok.injEq, Prod.mk.injEq] at hinfo
    obtain ⟨rfl, rfl⟩ := hinfo
    exact ⟨rfl, rfl, rfl, le_rfl, by simp only; omega, by simp [Node.getLogTerm], by simp⟩
  · rename_i hne
    dsimp only at hinfo
    split at hinfo
    · rename_i e he
      simp only [Except.ok.injEq, Prod.mk.injEq] at hinfo
      obtain ⟨rfl, rfl⟩ := hinfo
      obtain ⟨hidx, hlo, hhi, -⟩ := h.index_of_logAt he
      refine ⟨rfl, rfl, rfl, hlo.le, hhi, ?_, ?_⟩
      · have hv : valideIndex s.lastSnapshotIndex (s.nextIndex server - 1) s.getLastLogIndex = true := by
          simp only [valideIndex, Bool.and_eq_true, decide_eq_true_eq]
          omega
        simp [Node.getLogTerm, hlo.ne', hv, he]
      · dsimp only
        rw [if_neg hlo.ne', Node.getSlicesIndexFromLogIndex]
        congr 2
        omega
    · simp at hinfo

/-- The request reaches exactly to the sender's last entry, without gaps. -/
theorem Node.Contiguous.heartBeatArgs_entries {s : Node n} (h : s.Contiguous) {prev : Int}
    (hlo : s.lastSnapshotIndex ≤ prev) (hhi : prev ≤ s.getLastLogIndex) :
    Consecutive prev (s.logs.drop (prev - s.lastSnapshotIndex).toNat) ∧
      prev + (s.logs.drop (prev - s.lastSnapshotIndex).toNat).length = s.getLastLogIndex := by
  have hlast := h.getLastLogIndex
  refine ⟨fun i e he => ?_, by rw [List.length_drop]; omega⟩
  rw [List.getElem?_drop] at he
  have := h _ e he
  push_cast at this
  omega

/-- Without a fault in any peer's request, no request of a heartbeat is missing. -/
theorem Node.heartBeatPeers_fault {s : Node n} {peers : List (Fin n)}
    (h : ∀ i ∈ peers, s.lastSnapshotIndex < s.nextIndex i → ∃ args, s.heartBeatArgs i = .ok args) :
    (s.heartBeatPeers peers).2 = none := by
  induction peers with
  | nil => rfl
  | cons i rest ih =>
      have ih := ih fun j hj => h j (List.mem_cons_of_mem _ hj)
      rw [Node.heartBeatPeers]
      split
      · exact ih
      split
      · exact ih
      · rename_i hnext
        obtain ⟨args, hargs⟩ := h i List.mem_cons_self (not_le.1 hnext)
        rw [hargs]
        exact ih

/-- Every request of a heartbeat is the one built for its peer. -/
theorem Node.mem_heartBeatPeers {s : Node n} {peers : List (Fin n)} {server : Fin n}
    {args : AppendEntriesArgs} (h : .sendAppendEntries server args ∈ (s.heartBeatPeers peers).1) :
    server ∈ peers ∧ server ≠ s.me ∧ ¬ s.nextIndex server ≤ s.lastSnapshotIndex ∧
      s.heartBeatArgs server = .ok args := by
  induction peers with
  | nil => simp [Node.heartBeatPeers] at h
  | cons i rest ih =>
      rw [Node.heartBeatPeers] at h
      split at h
      · obtain ⟨hmem, hrest⟩ := ih h
        exact ⟨List.mem_cons_of_mem _ hmem, hrest⟩
      rename_i hme
      split at h
      · simp only [List.mem_cons, reduceCtorEq, false_or] at h
        obtain ⟨hmem, hrest⟩ := ih h
        exact ⟨List.mem_cons_of_mem _ hmem, hrest⟩
      rename_i hnext
      split at h
      · simp at h
      · rename_i args' hargs
        simp only [List.mem_cons, Launch.sendAppendEntries.injEq] at h
        rcases h with ⟨rfl, rfl⟩ | h
        · exact ⟨List.mem_cons_self, hme, hnext, hargs⟩
        · obtain ⟨hmem, hrest⟩ := ih h
          exact ⟨List.mem_cons_of_mem _ hmem, hrest⟩

/-- The commit index the majority branch leaves behind. -/
theorem Node.updateCommitIndex_cases (s : Node n) (args : AppendEntriesArgs) :
    s.updateCommitIndex args = s ∨
      ((∃ e, args.entries.getLast? = some e ∧ e.term = s.term) ∧ s.updateCommitIndex args =
        { s with commitIndex := max s.commitIndex (args.prevLogIndex + args.entries.length) }) := by
  unfold Node.updateCommitIndex
  split
  · exact Or.inl rfl
  · rename_i e he
    split
    · exact Or.inr ⟨⟨e, he, ‹_›⟩, rfl⟩
    · exact Or.inl rfl

/-- A reply changes a leader of the reply's term, makes the node a follower of a newer term, or is
    ignored. As long as the request did not reach past the sender's log, nothing is thrown. -/
theorem Node.sendAppendEntries_cases (s : Node n) (server : Fin n) (args : AppendEntriesArgs)
    (reply : AppendEntriesReply) (num : ℕ) (hcommit : s.commitIndex ≤ s.getLastLogIndex)
    (hmatch : s.matchIndex server ≤ s.getLastLogIndex)
    (hargs : args.prevLogIndex + args.entries.length ≤ s.getLastLogIndex) :
    s.sendAppendEntries server args reply num = ⟨s, num, none⟩ ∨
    (s.term < reply.term ∧ s.sendAppendEntries server args reply num =
      ⟨s.identityChange .follower reply.term (-1), num, none⟩) ∨
    (reply.term = s.term ∧ s.identity = .leader ∧ reply.success = false ∧
      reply.updateNextIndex ≠ invalidUpdateNextIndex ∧ s.sendAppendEntries server args reply num =
      ⟨{ s with nextIndex := Function.update s.nextIndex server reply.updateNextIndex },
        num, none⟩) ∨
    (reply.term = s.term ∧ s.identity = .leader ∧ reply.success = true ∧
      ((num + 1 < n / 2 + 1 ∧ s.sendAppendEntries server args reply num =
          ⟨s.recordMatch server args, num + 1, none⟩) ∨
        (n / 2 + 1 ≤ num + 1 ∧ s.sendAppendEntries server args reply num =
          ⟨(s.recordMatch server args).updateCommitIndex args, 0, none⟩))) := by
  unfold Node.sendAppendEntries
  split
  · exact Or.inl rfl
  split
  · rename_i h
    exact Or.inr (Or.inl ⟨h, rfl⟩)
  rename_i hle
  split
  · exact Or.inl rfl
  rename_i hstale
  push Not at hstale
  have hterm : reply.term = s.term := le_antisymm (not_lt.1 hle) hstale.1
  split
  · rename_i hfail
    split
    · rename_i hvalid
      exact Or.inr (Or.inr (Or.inl ⟨hterm, hstale.2, hfail, hvalid, rfl⟩))
    · exact Or.inl rfl
  rename_i hsucc
  refine Or.inr (Or.inr (Or.inr ⟨hterm, hstale.2, by simpa using hsucc, ?_⟩))
  have hlast : (s.recordMatch server args).getLastLogIndex = s.getLastLogIndex := rfl
  have hnext : (s.recordMatch server args).nextIndex server
      = max (s.matchIndex server) (args.prevLogIndex + args.entries.length) + 1 := by
    simp [Node.recordMatch]
  have hcommit' : (s.recordMatch server args).commitIndex = s.commitIndex := rfl
  dsimp only
  rw [hlast, hnext, if_neg (by omega)]
  by_cases hover : n / 2 + 1 ≤ num + 1
  · refine Or.inr ⟨hover, ?_⟩
    simp only [ge_iff_le, hover, if_true]
    rcases Node.updateCommitIndex_cases (s.recordMatch server args) args with heq | ⟨-, heq⟩
    · rw [heq, hcommit', if_neg (by omega)]
    · rw [heq]
      dsimp only
      rw [hcommit', if_neg (by omega)]
  · refine Or.inl ⟨by omega, ?_⟩
    simp only [ge_iff_le, hover, if_false]
    rw [hcommit', if_neg (by omega)]

/-! ## Replication, the receiver's side -/

/-- The loop over the entries lays them over the log from their first index on. It stops early
    only at an entry that differs in its command from one of the same index and term. -/
theorem Node.Contiguous.updateLogs {s : Node n} (h : s.Contiguous) (leaderId : Int) :
    ∀ {entries : List LogEntry} {k : ℕ}, Consecutive (s.lastSnapshotIndex + k) entries →
      k ≤ s.logs.length → ∃ logs fault,
        s.updateLogs leaderId entries = ({ s with logs := logs }, fault) ∧
        Node.Contiguous { s with logs := logs } ∧ s.logs.length ≤ logs.length ∧
        (fault = none → logs = s.logs.take k ++ entries ++ s.logs.drop (k + entries.length)) ∧
        (∀ f, fault = some f → ∃ (j : ℕ) (own e : LogEntry), s.logs[k + j]? = some own ∧
          entries[j]? = some e ∧ own.term = e.term ∧ own.command ≠ e.command ∧
          f = .differentCommands s.me own.command leaderId e.command e.term e.index) := by
  intro entries
  induction entries generalizing s with
  | nil =>
      intro k _ _
      refine ⟨s.logs, none, rfl, h, le_rfl, fun _ => ?_, fun f hf => by simp at hf⟩
      simp
  | cons e es ih =>
      intro k hcons hk
      have hidx : e.index = s.lastSnapshotIndex + k + 1 := hcons.head
      have hcons' : Consecutive (s.lastSnapshotIndex + (k + 1 : ℕ)) es := by
        have := hcons.tail
        rwa [show s.lastSnapshotIndex + (k + 1 : ℕ) = s.lastSnapshotIndex + k + 1 by push_cast; ring]
      have hlast := h.getLastLogIndex
      rw [Node.updateLogs]
      split
      · -- one past the end: pushed
        rename_i hnew
        have hklen : k = s.logs.length := by omega
        have h' : Node.Contiguous { s with logs := s.logs ++ [e] } := by
          intro i x hx
          rcases Nat.lt_or_ge i s.logs.length with hi | hi
          · rw [List.getElem?_append_left hi] at hx
            exact h i x hx
          · have hi' : i = s.logs.length := by
              have := (List.getElem?_eq_some_iff.1 hx).1
              simp only [List.length_append, List.length_singleton] at this
              omega
            subst hi'
            simp only [List.getElem?_concat_length, Option.some.injEq] at hx
            subst hx
            simp only
            omega
        obtain ⟨logs, fault, heq, hc, hlen, hok, hbad⟩ := ih h' (k := k + 1) hcons' (by simp; omega)
        simp only [List.length_append, List.length_singleton] at hlen
        refine ⟨logs, fault, heq, hc, by omega, fun hf => ?_, fun f hf => ?_⟩
        · rw [hok hf]
          simp only
          rw [List.take_of_length_le (by simp; omega), List.drop_eq_nil_of_le (by simp; omega),
            List.take_of_length_le hklen.ge, List.drop_eq_nil_of_le (by simp; omega)]
          simp
        · obtain ⟨j, own, x, hown, -, -⟩ := hbad f hf
          have := (List.getElem?_eq_some_iff.1 hown).1
          simp only [List.length_append, List.length_singleton] at this
          omega
      · rename_i hold
        have hklt : k < s.logs.length := by omega
        have hat : s.logAt (s.getSlicesIndexFromLogIndex e.index) = some s.logs[k] := by
          have hk' : s.getSlicesIndexFromLogIndex e.index = (k : Int) := by
            rw [Node.getSlicesIndexFromLogIndex]
            omega
          rw [hk', Node.logAt, if_pos (by omega), Int.toNat_natCast, List.getElem?_eq_getElem hklt]
        have hownIdx := h k _ (List.getElem?_eq_getElem hklt)
        simp only [hat]
        split
        · rename_i hterm
          split
          · -- same index and term, another command
            rename_i hcmd
            refine ⟨s.logs, _, rfl, h, le_rfl, fun hf => by simp at hf, fun f hf => ?_⟩
            simp only [Option.some.injEq] at hf
            exact ⟨0, s.logs[k], e, by simp [hklt], rfl, hterm, hcmd, hf.symm⟩
          · rename_i hcmd
            have hsame : s.logs[k] = e := by
              have hcmd' := not_not.1 hcmd
              rcases hown : s.logs[k] with ⟨c, t, i⟩
              rcases e with ⟨c', t', i'⟩
              rw [hown] at hterm hcmd' hownIdx
              simp only at hterm hcmd' hownIdx hidx
              simp only [LogEntry.mk.injEq]
              exact ⟨hcmd', hterm, by omega⟩
            obtain ⟨logs, fault, heq, hc, hlen, hok, hbad⟩ := ih h (k := k + 1) hcons' (by omega)
            refine ⟨logs, fault, heq, hc, hlen, fun hf => ?_, fun f hf => ?_⟩
            · rw [hok hf, List.take_succ_eq_append_getElem hklt, hsame]
              simp only [List.append_assoc, List.singleton_append, List.length_cons]
              congr 3
              omega
            · obtain ⟨j, own, x, hown, hx, hrest⟩ := hbad f hf
              exact ⟨j + 1, own, x, by rw [← hown]; congr 1; omega, by simpa using hx, hrest⟩
        · -- another term: overwritten in place
          have hslot : (s.getSlicesIndexFromLogIndex e.index).toNat = k := by
            rw [Node.getSlicesIndexFromLogIndex]
            omega
          rw [hslot]
          have h' : Node.Contiguous { s with logs := s.logs.set k e } := by
            intro i x hx
            simp only [List.getElem?_set] at hx
            split at hx
            · rename_i hki
              subst hki
              simp only [Option.some.injEq] at hx
              subst hx
              simp only
              omega
            · exact h i x hx
          obtain ⟨logs, fault, heq, hc, hlen, hok, hbad⟩ := ih h' (k := k + 1) hcons' (by simp; omega)
          simp only [List.length_set] at hlen
          refine ⟨logs, fault, heq, hc, hlen, fun hf => ?_, fun f hf => ?_⟩
          · rw [hok hf]
            simp only
            rw [List.take_succ_eq_append_getElem (by simpa using hklt), List.getElem_set_self,
              List.take_set_of_le (le_refl k), List.drop_set_of_lt (by omega)]
            simp only [List.append_assoc, List.singleton_append, List.length_cons]
            congr 3
            omega
          · obtain ⟨j, own, x, hown, hx, hrest⟩ := hbad f hf
            simp only at hown
            rw [List.getElem?_set_ne (by omega)] at hown
            exact ⟨j + 1, own, x, by rw [← hown]; congr 1; omega, by simpa using hx, hrest⟩

/-- Whatever the log was, the loop puts entries of the request into it and no others. -/
theorem Node.mem_updateLogs (leaderId : Int) (entries : List LogEntry) {e : LogEntry} :
    ∀ s : Node n, e ∈ (s.updateLogs leaderId entries).1.logs → e ∈ s.logs ∨ e ∈ entries := by
  induction entries with
  | nil => exact fun s he => Or.inl he
  | cons log rest ih =>
      intro s he
      rw [Node.updateLogs] at he
      split at he
      · rcases ih _ he with he | he
        · rcases List.mem_append.1 he with he | he
          · exact Or.inl he
          · exact Or.inr (List.mem_cons.2 (Or.inl (List.mem_singleton.1 he)))
        · exact Or.inr (List.mem_cons_of_mem log he)
      · dsimp only at he
        split at he
        · exact Or.inl he
        · split at he
          · split at he
            · exact Or.inl he
            · exact (ih s he).imp_right (List.mem_cons_of_mem log)
          · rcases ih _ he with he | he
            · rcases List.mem_or_eq_of_mem_set he with he | rfl
              · exact Or.inl he
              · exact Or.inr List.mem_cons_self
            · exact Or.inr (List.mem_cons_of_mem log he)

/-- An entry of the log was there before the request or came with it. -/
theorem Node.mem_appendEntries {s : Node n} {args : AppendEntriesArgs} {e : LogEntry}
    (he : e ∈ (s.appendEntries args).node.logs) : e ∈ s.logs ∨ e ∈ args.entries := by
  have hupdate : ∀ s' : Node n × Option Fault,
      (s.followTerm args.term).updateLogs args.leaderId args.entries = s' → e ∈ s'.1.logs →
      e ∈ s.logs ∨ e ∈ args.entries := by
    rintro s' rfl he'
    simpa using Node.mem_updateLogs args.leaderId args.entries (s.followTerm args.term) he'
  rw [Node.appendEntries] at he
  split at he
  · exact Or.inl he
  dsimp only at he
  split at he
  · exact Or.inl (by simpa using he)
  split at he
  · exact Or.inl (by simpa using he)
  split at he
  · exact Or.inl (by simpa using he)
  · split at he
    · rename_i heq
      exact hupdate _ heq he
    · rename_i heq
      refine hupdate _ heq ?_
      simp only [Node.mPersist_logs] at he
      split at he <;> exact he
  · split at he <;> exact Or.inl (by simpa using he)

/-- The log once the entries of a request lie over it from `prevLogIndex` on. -/
def Node.overlay (s : Node n) (args : AppendEntriesArgs) : List LogEntry :=
  let k := (args.prevLogIndex - s.lastSnapshotIndex).toNat
  s.logs.take k ++ args.entries ++ s.logs.drop (k + args.entries.length)

/-- The node after it accepted a request. -/
def Node.appended (s : Node n) (args : AppendEntriesArgs) : Node n :=
  Node.mPersist
    { s.followTerm args.term with
      logs := s.overlay args
      commitIndex :=
        if args.leaderCommit > s.commitIndex then
          min args.leaderCommit (max s.getLastLogIndex (args.prevLogIndex + args.entries.length))
        else s.commitIndex }

/-- The four ways `_L_appendEntries` ends: stale, rejected with a hint where to go on, accepted, or
    cut short because an entry has another command than one of the same index and term. -/
theorem Node.Contiguous.appendEntries_cases {s : Node n} (h : s.Contiguous)
    {args : AppendEntriesArgs} (hcons : Consecutive args.prevLogIndex args.entries) :
    (args.term < s.term ∧ s.appendEntries args =
      ⟨s, { term := s.term, updateNextIndex := invalidUpdateNextIndex, state := .connected }, none⟩) ∨
    (s.term ≤ args.term ∧ ∃ index, s.appendEntries args = ⟨(s.followTerm args.term).mPersist,
        { term := args.term, updateNextIndex := index, state := .connected }, none⟩ ∧
      ((s.getLastLogIndex < args.prevLogIndex ∧ index = s.getLastLogIndex + 1) ∨
        (args.prevLogIndex < s.lastSnapshotIndex ∧ index = s.lastSnapshotIndex + 1) ∨
        (s.lastSnapshotIndex ≤ args.prevLogIndex ∧ args.prevLogIndex ≤ s.getLastLogIndex ∧
          (s.getLogTerm args.prevLogIndex ≠ .ok args.prevLogTerm ∨ args.prevLogTerm = -2) ∧
          (index = args.prevLogIndex ∨ s.lastSnapshotIndex < index ∧ index ≤ args.prevLogIndex)))) ∨
    (s.term ≤ args.term ∧ s.lastSnapshotIndex ≤ args.prevLogIndex ∧
      args.prevLogIndex ≤ s.getLastLogIndex ∧
      s.getLogTerm args.prevLogIndex = .ok args.prevLogTerm ∧ s.appendEntries args =
        ⟨s.appended args, { term := args.term, success := true, state := .connected }, none⟩) ∨
    (s.term ≤ args.term ∧ s.lastSnapshotIndex ≤ args.prevLogIndex ∧
      ∃ logs own e, ∃ j : ℕ, s.logs[(args.prevLogIndex - s.lastSnapshotIndex).toNat + j]? = some own ∧
        args.entries[j]? = some e ∧ own.term = e.term ∧ own.command ≠ e.command ∧
        s.logs.length ≤ logs.length ∧ Node.Contiguous { s with logs := logs } ∧
        (s.appendEntries args).node = Node.mPersist { s.followTerm args.term with logs := logs } ∧
        (s.appendEntries args).fault = some
          (.differentCommands s.me own.command args.leaderId e.command e.term e.index) ∧
        s.getLogTerm args.prevLogIndex = .ok args.prevLogTerm ∧ args.prevLogTerm ≠ -2) := by
  have hfollow : (s.followTerm args.term).Contiguous := by
    intro i e he
    rw [Node.followTerm_logs] at he
    rw [Node.followTerm_lastSnapshotIndex]
    exact h i e he
  have hlast : (s.followTerm args.term).getLastLogIndex = s.getLastLogIndex := by
    simp [Node.getLastLogIndex]
  have hget : ∀ i, (s.followTerm args.term).getLogTerm i = s.getLogTerm i := by
    intro i
    simp [Node.getLogTerm, Node.getLastLogIndex, Node.logAt, Node.getSlicesIndexFromLogIndex]
  rw [Node.appendEntries]
  rcases lt_or_ge args.term s.term with hlt | hge
  · rw [if_pos hlt]
    exact Or.inl ⟨hlt, rfl⟩
  rw [if_neg (not_lt.2 hge)]
  dsimp only
  rw [hlast, Node.followTerm_lastSnapshotIndex, Node.followTerm_term s args.term hge]
  refine Or.inr ?_
  rcases lt_or_ge s.getLastLogIndex args.prevLogIndex with hnew | hhi
  · rw [if_pos hnew]
    exact Or.inl ⟨hge, _, rfl, Or.inl ⟨hnew, rfl⟩⟩
  rw [if_neg (not_lt.2 hhi)]
  rcases lt_or_ge args.prevLogIndex s.lastSnapshotIndex with hold | hlo
  · rw [if_pos hold]
    exact Or.inl ⟨hge, _, rfl, Or.inr (Or.inl ⟨hold, rfl⟩)⟩
  rw [if_neg (not_lt.2 hlo)]
  obtain ⟨t, ht⟩ := h.getLogTerm_ok hlo hhi
  have hmatch : (s.followTerm args.term).matchLogTerm args.prevLogIndex args.prevLogTerm
      = .ok (if t = -2 then .wrongIndex else if t = args.prevLogTerm then .matched else .mismatch) := by
    rw [Node.matchLogTerm, hget, ht]
  rw [hmatch]
  by_cases hmatched : t ≠ -2 ∧ t = args.prevLogTerm
  · rw [if_neg hmatched.1, if_pos hmatched.2]
    obtain ⟨k, hk⟩ : ∃ k : ℕ, args.prevLogIndex = s.lastSnapshotIndex + k :=
      ⟨(args.prevLogIndex - s.lastSnapshotIndex).toNat, by omega⟩
    have hkt : (args.prevLogIndex - s.lastSnapshotIndex).toNat = k := by omega
    have hklen : k ≤ s.logs.length := by
      have := h.getLastLogIndex
      omega
    obtain ⟨logs, fault, heq, hc, hlen, hok, hbad⟩ := hfollow.updateLogs args.leaderId (k := k)
      (by rw [Node.followTerm_lastSnapshotIndex, ← hk]; exact hcons)
      (by rw [Node.followTerm_logs]; exact hklen)
    simp only [Node.followTerm_logs, Node.followTerm_me] at hok hbad hlen
    dsimp only
    rw [heq]
    right
    cases fault with
    | none =>
        left
        refine ⟨hge, hlo, hhi, by rw [ht, hmatched.2], ?_⟩
        have hlogs : logs = s.overlay args := by rw [hok rfl, Node.overlay, hkt]
        have hlast' : Node.getLastLogIndex { s.followTerm args.term with logs := logs }
            = max s.getLastLogIndex (args.prevLogIndex + args.entries.length) := by
          rw [hc.getLastLogIndex, h.getLastLogIndex, hok rfl]
          simp only [Node.followTerm_lastSnapshotIndex, List.length_append, List.length_take,
            List.length_drop]
          omega
        dsimp only
        rw [hlast', hlogs, Node.appended, Node.followTerm_commitIndex]
        split
        · rfl
        · congr 2
    | some f =>
        right
        obtain ⟨j, own, e, hown, he, hterm, hcmd, rfl⟩ := hbad f rfl
        refine ⟨hge, hlo, logs, own, e, j, by rw [hkt]; exact hown, he, hterm, hcmd, hlen, ?_,
          by simp only [Node.followTerm_lastSnapshotIndex, Node.followTerm_term s args.term hge], rfl,
          by rw [ht, hmatched.2], hmatched.2 ▸ hmatched.1⟩
        intro i x hx
        have := hc i x hx
        simpa using this
  · have hrej : ∃ m, (if t = -2 then MatchLogResult.wrongIndex
        else if t = args.prevLogTerm then .matched else .mismatch) = m ∧ m ≠ .matched := by
      refine ⟨_, rfl, ?_⟩
      split
      · simp
      · split
        · rename_i h1 h2
          exact absurd ⟨h1, h2⟩ hmatched
        · simp
    obtain ⟨m, hm, hne⟩ := hrej
    rw [hm]
    obtain ⟨index, hindex, hb⟩ := hfollow.rollback args.prevLogIndex
      (by rw [Node.followTerm_lastSnapshotIndex]; exact hlo) (by rw [hlast]; exact hhi)
      (args.prevLogIndex - s.lastSnapshotIndex + 1).toNat
      (by rw [Node.followTerm_lastSnapshotIndex]; omega)
    rw [Node.followTerm_lastSnapshotIndex] at hb
    refine Or.inl ⟨hge, index, ?_, Or.inr (Or.inr ⟨hlo, hhi, ?_, hb⟩)⟩
    · cases m with
      | matched => exact absurd rfl hne
      | wrongIndex => simp only [hindex]
      | mismatch => simp only [hindex]
    · rw [ht]
      by_cases h2 : t = -2
      · by_cases hp : t = args.prevLogTerm
        · exact Or.inr (by omega)
        · exact Or.inl (fun hcon => hp (Except.ok.inj hcon))
      · exact Or.inl (fun hcon => hmatched ⟨h2, Except.ok.inj hcon⟩)

/-! ## Snapshots -/

theorem Node.sendSnapshot_cases (s : Node n) (server : Fin n) (args : InstallSnapshotArgs)
    (reply : InstallSnapshotReply) :
    (s.term < reply.term ∧
      s.sendSnapshot server args reply = s.identityChange .follower reply.term (-1)) ∨
    s.sendSnapshot server args reply = s ∨
    (s.identity = .leader ∧ args.term = s.term ∧ s.sendSnapshot server args reply =
      { s with
        matchIndex := Function.update s.matchIndex server args.lastIndex
        nextIndex := Function.update s.nextIndex server (args.lastIndex + 1) }) := by
  unfold Node.sendSnapshot
  split
  · exact Or.inl ⟨‹_›, rfl⟩
  split
  · exact Or.inr (Or.inl rfl)
  · rename_i h
    push Not at h
    exact Or.inr (Or.inr ⟨h.1, h.2, rfl⟩)

/-- The node after it installed a snapshot. -/
def Node.installed (s : Node n) (args : InstallSnapshotArgs) : Node n :=
  let s' : Node n :=
    { s.followTerm args.term with
      logs := s.logs.drop (args.lastIndex - s.lastSnapshotIndex).toNat
      commitIndex := max s.commitIndex args.lastIndex
      appliedIndex := max s.appliedIndex args.lastIndex
      lastSnapshotIndex := args.lastIndex
      lastSnapshotTerm := args.lastTerm }
  { s' with persister := (s.followTerm args.term).persister.persistBoth s'.dump args.data }

theorem Node.Contiguous.installSnapshot_cases {s : Node n} (h : s.Contiguous)
    (args : InstallSnapshotArgs) :
    (args.term < s.term ∧ s.installSnapshot args = ⟨s, ({ term := s.term }, none), none⟩) ∨
    (s.term ≤ args.term ∧ args.lastIndex ≤ s.lastSnapshotIndex ∧
      s.installSnapshot args = ⟨s.followTerm args.term, ({}, none), none⟩) ∨
    (s.term ≤ args.term ∧ s.lastSnapshotIndex < args.lastIndex ∧ s.installSnapshot args =
      ⟨s.installed args, ({ term := args.term },
        some (.ofSnapshot args.lastIndex args.lastTerm args.data)), none⟩) := by
  rw [Node.installSnapshot]
  rcases lt_or_ge args.term s.term with hlt | hge
  · rw [if_pos hlt]
    exact Or.inl ⟨hlt, rfl⟩
  rw [if_neg (not_lt.2 hge)]
  refine Or.inr ?_
  dsimp only
  rw [Node.followTerm_lastSnapshotIndex]
  rcases le_or_gt args.lastIndex s.lastSnapshotIndex with hold | hnew
  · rw [if_pos hold]
    exact Or.inl ⟨hge, hold, rfl⟩
  rw [if_neg (not_le.2 hnew)]
  refine Or.inr ⟨hge, hnew, ?_⟩
  have hlast : (s.followTerm args.term).getLastLogIndex = s.getLastLogIndex := by
    simp [Node.getLastLogIndex]
  have hlen := h.getLastLogIndex
  have hslices : (s.followTerm args.term).getSlicesIndexFromLogIndex args.lastIndex
      = args.lastIndex - s.lastSnapshotIndex - 1 := by
    simp [Node.getSlicesIndexFromLogIndex]
  rw [hlast, hslices, Node.followTerm_logs, if_neg (by omega)]
  have hlogs : (if s.getLastLogIndex > args.lastIndex then
      s.logs.drop (args.lastIndex - s.lastSnapshotIndex - 1 + 1).toNat else [])
      = s.logs.drop (args.lastIndex - s.lastSnapshotIndex).toNat := by
    rw [sub_add_cancel]
    split
    · rfl
    · exact (List.drop_eq_nil_of_le (by omega)).symm
  simp only [hlogs, Node.followTerm_commitIndex, Node.followTerm_appliedIndex, Node.installed,
    Node.followTerm_term s args.term hge]

end RaftKVStorage
