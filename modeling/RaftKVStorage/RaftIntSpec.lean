import RaftKVStorage.EntryIdentity
import RaftKVStorage.RaftInt
import RaftKVStorage.SentEntries

set_option autoImplicit false

/-! # Where `int` is enough

As long as no sum leaves the range of `int`, every handler over `int` does what it does over unbounded
integers, and what is proved of the latter holds of the former. The first index that does not fit is
the one behind a last log index of 2147483647, which a single installSnapshot request brings about. -/

namespace RaftKVStorage

open WrapInt (int32_eq InRange)

variable {n : ℕ}

/-! ## The numbers of a process -/

/-- What the numbers of a process keep to in a run without overflow. -/
structure Proc.InInt (P : Proc n) : Prop where
  held : ∀ e, P.Holds e → e.index ≤ 2147483647
  position : P.node.lastSnapshotIndex ≤ 2147483647
  term : 0 ≤ P.node.term
  next : ∀ i, P.node.nextIndex i ≤ 2147483647
  append : ∀ call ∈ P.appendCalls, 0 ≤ call.args.prevLogIndex
  snapshot : ∀ call ∈ P.snapshotCalls, ∀ args, call.args = some args → 0 ≤ args.lastIndex

theorem Proc.InInt.new (me : Fin n) : (Proc.new me).InInt := by
  refine ⟨fun e he => ?_, ?_, le_rfl, fun i => ?_, ?_, ?_⟩
  · rcases he with he | ⟨call, hcall, -⟩
    · simp [Proc.new, Node.new, Node.load, Persister.new] at he
    · simp [Proc.new] at hcall
  all_goals simp [Proc.new, Node.new, Node.load, Persister.new]

theorem Proc.InInt.last {P : Proc n} (h : P.InInt) : P.node.getLastLogIndex ≤ 2147483647 := by
  unfold Node.getLastLogIndex
  split
  · exact h.position
  · rename_i entry hlast
    exact h.held entry (Or.inl (List.mem_of_getLast? hlast))

/-- The entries of a request have an `int` for an index. -/
theorem Input.InInt.entries {args : AppendEntriesArgs}
    (h : Input.InInt (n := n) (.appendEntries args)) : ∀ e ∈ args.entries, e.index ≤ 2147483647 :=
  fun e he => (h.2 e he).2.2

/-- What `nextIndex` holds after a step was there before, or an `int` of the step. -/
theorem Proc.IndexInv.step_nextIndex {P : Proc n} (h : P.IndexInv) (hint : P.InInt) {input : Input n}
    (hinput : input.WellFormed) (harg : input.InInt) (hover : P.NoOverflow input) (i : Fin n) :
    (P.step input).1.node.nextIndex i ≤ 2147483647 := by
  have hupdate : ∀ {server : Fin n} {next : Int}, next ≤ 2147483647 →
      Function.update P.node.nextIndex server next i ≤ 2147483647 := by
    intro server next hnext
    rcases eq_or_ne i server with rfl | hi
    · simpa using hnext
    · simpa [hi] using hint.next i
  cases input with
  | execute command =>
      rcases P.node.execute_cases command with ⟨-, heq⟩ | ⟨-, heq⟩
      all_goals simpa [Proc.step, heq] using hint.next i
  | persist index shot =>
      rcases h.node.contiguous.persist_cases h.node.commitLeLast index shot with
        heq | ⟨e, -, -, -, -, heq⟩
      all_goals simpa [Proc.step, heq, Node.compacted] using hint.next i
  | getApplyMessages =>
      simpa [Proc.step, h.node.getApplyMessages_eq] using hint.next i
  | stand4Election =>
      rcases P.node.stand4Election_cases with ⟨-, heq⟩ | ⟨-, heq⟩
      all_goals simpa [Proc.step, Proc.stand4Election, heq] using hint.next i
  | heartBeat =>
      simp only [Proc.step, Proc.heartBeat]
      split <;> exact hint.next i
  | requestVote args =>
      rcases P.node.requestVote_cases args with
        ⟨-, heq | ⟨-, heq⟩⟩ | ⟨-, -, -, ⟨-, -, heq⟩ | ⟨-, heq⟩⟩
      all_goals simpa [Proc.step, heq] using hint.next i
  | appendEntries args =>
      rcases h.node.contiguous.appendEntries_cases hinput with
        ⟨-, heq⟩ | ⟨-, index, heq, -⟩ | ⟨-, -, -, -, heq⟩ | ⟨-, -, _, _, _, _, -, -, -, -, -, -, heq, -⟩
      all_goals simpa [Proc.step, heq, Node.appended] using hint.next i
  | installSnapshot args =>
      rcases h.node.contiguous.installSnapshot_cases args with ⟨-, heq⟩ | ⟨-, -, heq⟩ | ⟨-, -, heq⟩
      all_goals simpa [Proc.step, heq, Node.installed] using hint.next i
  | readSnapshot k =>
      simp only [Proc.step, Proc.readSnapshot]
      split <;> exact hint.next i
  | appendReply k reply =>
      simp only [Proc.step, Proc.appendReply]
      split
      · exact hint.next i
      rename_i call hcall
      have hargs := h.appendLeLast call (List.mem_of_getElem? hcall)
      have hmatch := h.node.matchLeLast call.server
      rcases P.node.sendAppendEntries_cases call.server call.args reply
        (P.appendNums.getD call.appendNum 0) h.node.commitLeLast hmatch hargs with
        heq | ⟨-, heq⟩ | ⟨-, -, -, -, heq⟩ | ⟨hterm, hid, hsucc, hor⟩
      · rw [heq]; exact hint.next i
      · rw [heq]; exact hint.next i
      · rw [heq]; exact hupdate harg.2.2
      · -- the reply is accepted, so the last log index is below the last `int`
        by_cases hstate : reply.state = .connected
        swap
        · have hdis : reply.state = .disconnected := by
            cases hs : reply.state
            · rfl
            · exact absurd hs hstate
          rw [Node.sendAppendEntries, if_pos hdis]
          exact hint.next i
        have hlt := hover hstate hterm hid hsucc
        rcases hor with ⟨-, heq⟩ | ⟨-, heq⟩
        · rw [heq]; exact hupdate (by omega)
        · rw [heq]
          rcases (P.node.recordMatch call.server call.args).updateCommitIndex_cases call.args with
            heq' | ⟨-, heq'⟩
          all_goals
            rw [heq']
            exact hupdate (by omega)
  | voteReply k reply =>
      simp only [Proc.step, Proc.voteReply]
      split
      · exact hint.next i
      rename_i call hcall
      rcases P.node.sendRequestVote_cases reply (P.voteNums.getD call.voteNum 0) with
        ⟨-, heq⟩ | heq | ⟨hterm, hgranted, ⟨-, heq⟩ | ⟨-, -, heq⟩ | ⟨hmajority, hid, heq⟩⟩
      · rw [heq]; exact hint.next i
      · rw [heq]; exact hint.next i
      · rw [heq]; exact hint.next i
      · rw [heq]; exact hint.next i
      · have hlt := hover hterm hgranted ⟨call, hcall, by omega⟩ hid
        rw [heq]
        show P.node.getLastLogIndex + 1 ≤ 2147483647
        omega
  | snapshotReply k reply =>
      simp only [Proc.step, Proc.snapshotReply]
      split
      swap
      · exact hint.next i
      rename_i server args reply' hcall
      rcases le_or_gt reply.term P.node.term with hle | hgt
      swap
      · rw [Node.sendSnapshot, if_pos hgt]
        exact hint.next i
      rcases P.node.sendSnapshot_cases server args reply with ⟨-, heq⟩ | heq | ⟨hid, hterm, heq⟩
      · rw [heq]; exact hint.next i
      · rw [heq]; exact hint.next i
      · have hlt := hover hle hid _ hcall args rfl hterm
        rw [heq]
        exact hupdate (by omega)

/-- One step without overflow keeps every number of the process an `int`. -/
theorem Proc.InInt.step {P : Proc n} (hint : P.InInt) (h : P.IndexInv) {input : Input n}
    (hinput : input.WellFormed) (harg : input.InInt) (hover : P.NoOverflow input) :
    (P.step input).1.InInt := by
  refine ⟨fun e he => ?_, ?_, ?_, h.step_nextIndex hint hinput harg hover, fun call hcall => ?_,
    fun call hcall args hargs => ?_⟩
  · rcases h.step_holds he with hold | ⟨args, rfl, hmem⟩ | ⟨command, rfl, hid, rfl⟩
    · exact hint.held e hold
    · exact harg.entries e hmem
    · have hlt : P.node.getLastLogIndex < 2147483647 := hover hid
      show P.node.getLastLogIndex + 1 ≤ 2147483647
      omega
  · rcases h.step_snapshotPosition hinput with ⟨heq, -⟩ | ⟨e, he, heq, -⟩ | ⟨args, rfl, heq, -⟩
    · exact heq ▸ hint.position
    · exact heq ▸ hint.held e (Or.inl he)
    · rw [heq]
      exact harg.2.2.1.2
  · exact hint.term.trans (h.voteStep hinput).term
  · rcases P.mem_step_appendCalls input hcall with hold | ⟨-, hargs⟩
    · exact hint.append call hold
    · exact h.node.snapshotNonneg.trans (h.node.contiguous.heartBeatArgs hargs).2.2.2.1
  · rcases P.mem_step_snapshotCalls input hcall hargs with ⟨call', hcall', hargs'⟩ | rfl
    · exact hint.snapshot call' hcall' args hargs'
    · exact h.node.snapshotNonneg

namespace Machine

/-! ## The handlers without overflow -/

section Node

variable {s : Node n}

theorem getSlicesIndexFromLogIndex_eq (hsnap : 0 ≤ s.lastSnapshotIndex) {index : Int}
    (hlo : s.lastSnapshotIndex ≤ index) (hhi : index ≤ 2147483647) :
    getSlicesIndexFromLogIndex s index = s.getSlicesIndexFromLogIndex index :=
  int32_eq (by omega) (by omega)

theorem getLogTerm_eq (hsnap : 0 ≤ s.lastSnapshotIndex) (hlast : s.getLastLogIndex ≤ 2147483647)
    (index : Int) : getLogTerm s index = s.getLogTerm index := by
  unfold getLogTerm Node.getLogTerm
  split
  · rfl
  split
  · rfl
  · rename_i hvalid
    simp only [valideIndex, Bool.not_eq_true', Bool.and_eq_false_iff, decide_eq_false_iff_not, not_or,
      not_not] at hvalid
    rewrite [getSlicesIndexFromLogIndex_eq hsnap hvalid.1 (hvalid.2.trans hlast)]
    rfl

theorem matchLogTerm_eq (hsnap : 0 ≤ s.lastSnapshotIndex) (hlast : s.getLastLogIndex ≤ 2147483647)
    (index term : Int) : matchLogTerm s index term = s.matchLogTerm index term := by
  rewrite [matchLogTerm, Node.matchLogTerm, getLogTerm_eq hsnap hlast]
  rfl

theorem execute_eq (hpos : 0 ≤ s.getLastLogIndex)
    (hover : s.identity = .leader → s.getLastLogIndex < 2147483647) (command : Bytes) :
    execute s command = s.execute command := by
  unfold execute Node.execute
  split
  · rename_i hleader
    have := hover hleader
    rw [getNewCommandIndex, int32_eq (by omega) (by omega)]
    rfl
  · rfl

theorem persist_eq (h : s.IndexInv) (hlast : s.getLastLogIndex ≤ 2147483647)
    (hover : s.lastSnapshotIndex < 2147483647)
    (index : Int) (shot : Bytes) : persist s index shot = s.persist index shot := by
  have hsnap := h.snapshotNonneg
  unfold persist Node.persist
  rw [int32_eq (by omega) (by omega)]
  split
  · rfl
  · rename_i hvalid
    simp only [valideIndex, Bool.not_eq_true', Bool.and_eq_false_iff, decide_eq_false_iff_not, not_or,
      not_not] at hvalid
    obtain ⟨hlo, hhi⟩ := hvalid
    have hle := hhi.trans h.commitLeLast
    obtain ⟨e, he, -, -⟩ := h.contiguous.logAt (by omega) hle
    rw [getSlicesIndexFromLogIndex_eq hsnap (by omega) (hle.trans hlast)]
    simp only [he]

theorem takeApplyMessages_eq (k : ℕ) : ∀ s : Node n, 0 ≤ s.lastSnapshotIndex →
    s.lastSnapshotIndex ≤ s.appliedIndex → s.appliedIndex + k ≤ 2147483647 →
    takeApplyMessages s k = s.takeApplyMessages k := by
  induction k with
  | zero =>
      intro s _ _ _
      rw [takeApplyMessages, Node.takeApplyMessages]
  | succ k ih =>
      intro s hsnap happlied hle
      push_cast at hle
      rw [takeApplyMessages, Node.takeApplyMessages, int32_eq (by omega) (by omega)]
      have hslices : getSlicesIndexFromLogIndex { s with appliedIndex := s.appliedIndex + 1 }
          (s.appliedIndex + 1) = s.getSlicesIndexFromLogIndex (s.appliedIndex + 1) :=
        int32_eq (by dsimp only; omega) (by dsimp only; omega)
      have hrest := ih { s with appliedIndex := s.appliedIndex + 1 } hsnap (by dsimp only; omega)
        (by dsimp only; omega)
      dsimp only
      rw [hslices, hrest]
      rfl

theorem getApplyMessages_eq (h : s.IndexInv) (hlast : s.getLastLogIndex ≤ 2147483647) :
    getApplyMessages s = s.getApplyMessages := by
  have hcommit := h.commitLeLast
  have happlied := h.appliedLeCommit
  rw [getApplyMessages, Node.getApplyMessages, takeApplyMessages_eq _ s h.snapshotNonneg
    h.snapshotLeApplied (by omega)]

theorem stand4Election_eq (hterm : 0 ≤ s.term)
    (hover : s.identity ≠ .leader → s.term < 2147483647) : stand4Election s = s.stand4Election := by
  unfold stand4Election Node.stand4Election
  split
  · rename_i hid
    have := hover hid
    rw [int32_eq (by omega) (by omega)]
  · rfl

theorem sendRequestVote_eq (hpos : 0 ≤ s.getLastLogIndex) {reply : RequestVoteReply} {num : ℕ}
    (hover : reply.term = s.term → reply.voteGranted = true → n / 2 ≤ num → s.identity ≠ .leader →
      s.getLastLogIndex < 2147483647) : sendRequestVote s reply num = s.sendRequestVote reply num := by
  unfold sendRequestVote Node.sendRequestVote
  split
  · rfl
  rename_i hle
  split
  · rfl
  rename_i hgranted
  split
  · rename_i hmajority
    split
    · rfl
    · rename_i hid
      push Not at hgranted
      have := hover (by omega) (by simpa using hgranted.2) (by omega) hid
      rw [becomeLeader, Node.becomeLeader, int32_eq (by omega) (by omega)]
  · rfl

theorem getPreviousLogInfo_eq (hsnap : 0 ≤ s.lastSnapshotIndex) {server : Fin n}
    (hlo : s.lastSnapshotIndex < s.nextIndex server) (hhi : s.nextIndex server ≤ 2147483647) :
    getPreviousLogInfo s server = s.getPreviousLogInfo server := by
  unfold getPreviousLogInfo Node.getPreviousLogInfo
  rw [int32_eq (x := s.lastSnapshotIndex + 1) (by omega) (by omega),
    int32_eq (x := s.nextIndex server - 1) (by omega) (by omega)]
  dsimp only
  rewrite [getSlicesIndexFromLogIndex_eq hsnap (by omega) (by omega)]
  rfl

theorem heartBeatArgs_eq (h : s.IndexInv) (hlast : s.getLastLogIndex ≤ 2147483647) {server : Fin n}
    (hlo : s.lastSnapshotIndex < s.nextIndex server) (hhi : s.nextIndex server ≤ 2147483647) :
    heartBeatArgs s server = s.heartBeatArgs server := by
  have hsnap := h.snapshotNonneg
  have hinfo := getPreviousLogInfo_eq hsnap hlo hhi
  rw [heartBeatArgs, Node.heartBeatArgs, hinfo]
  rcases heq : s.getPreviousLogInfo server with fault | ⟨prev, term⟩
  · rfl
  · -- the index before the request is one of the log
    have hargs := Node.heartBeatArgs.eq_1 s server
    rw [heq] at hargs
    obtain ⟨-, -, -, hprev, hle, -, -⟩ := h.contiguous.heartBeatArgs hargs
    dsimp only at hprev hle ⊢
    rw [getSlicesIndexFromLogIndex_eq hsnap hprev (by omega), int32_eq]
    all_goals
      rw [Node.getSlicesIndexFromLogIndex]
      omega

theorem heartBeatPeers_eq (h : s.IndexInv) (hlast : s.getLastLogIndex ≤ 2147483647)
    (hnext : ∀ i, s.nextIndex i ≤ 2147483647) (peers : List (Fin n)) :
    heartBeatPeers s peers = s.heartBeatPeers peers := by
  induction peers with
  | nil => rfl
  | cons i rest ih =>
      rw [heartBeatPeers, Node.heartBeatPeers, ih]
      split
      · rfl
      split
      · rfl
      · rename_i habove
        rewrite [heartBeatArgs_eq h hlast (not_le.1 habove) (hnext i)]
        rfl

theorem heartBeat_eq (h : s.IndexInv) (hlast : s.getLastLogIndex ≤ 2147483647)
    (hnext : ∀ i, s.nextIndex i ≤ 2147483647) : heartBeat s = s.heartBeat := by
  rw [heartBeat, Node.heartBeat, heartBeatPeers_eq h hlast hnext]

theorem sendAppendEntries_eq (h : s.IndexInv) {server : Fin n} {args : AppendEntriesArgs}
    {reply : AppendEntriesReply} {num : ℕ}
    (hprev : 0 ≤ args.prevLogIndex)
    (hargs : args.prevLogIndex + args.entries.length ≤ s.getLastLogIndex)
    (hover : reply.state = .connected → reply.term = s.term → s.identity = .leader →
      reply.success = true → s.getLastLogIndex < 2147483647) :
    sendAppendEntries s server args reply num = s.sendAppendEntries server args reply num := by
  have hmatch := h.matchLeLast server
  unfold sendAppendEntries Node.sendAppendEntries
  split
  · rfl
  rename_i hstate
  split
  · rfl
  rename_i hle
  split
  · rfl
  rename_i hstale
  split
  · rfl
  rename_i hsucc
  push Not at hstale
  have hconn : reply.state = .connected := by
    cases hs : reply.state
    · exact absurd hs hstate
    · rfl
  have hlt := hover hconn (by omega) hstale.2 (by simpa using hsucc)
  have hsum : WrapInt.int32 (args.prevLogIndex + args.entries.length)
      = args.prevLogIndex + args.entries.length := int32_eq (by omega) (by omega)
  have hrecord : recordMatch s server args = s.recordMatch server args := by
    rw [recordMatch, Node.recordMatch, hsum, int32_eq (by omega) (by omega)]
  have hcommit : ∀ s' : Node n, updateCommitIndex s' args = s'.updateCommitIndex args := by
    intro s'
    unfold updateCommitIndex Node.updateCommitIndex
    rewrite [hsum]
    rfl
  have hlast' : (s.recordMatch server args).getLastLogIndex = s.getLastLogIndex := rfl
  have hpos := h.lastNonneg
  simp only [hrecord, hcommit, hlast']
  rw [int32_eq (by omega) (by omega)]

theorem rollback_eq (hsnap : 0 ≤ s.lastSnapshotIndex) (hlast : s.getLastLogIndex ≤ 2147483647)
    {prev : Int} (hprev : prev ≤ s.getLastLogIndex) :
    ∀ k : ℕ, s.lastSnapshotIndex + k ≤ prev + 1 → rollback s prev k = s.rollback prev k := by
  intro k
  induction k with
  | zero => exact fun _ => rfl
  | succ k ih =>
      intro hk
      push_cast at hk
      rw [rollback, Node.rollback, getLogTerm_eq hsnap hlast, getLogTerm_eq hsnap hlast,
        ih (by omega)]
      rcases hk.eq_or_lt with heq | hlt
      · -- the index compared is `prev` itself
        have hsame : s.lastSnapshotIndex + k = prev := by omega
        rw [hsame]
        cases s.getLogTerm prev with
        | error fault => rfl
        | ok term => simp [bind, Except.bind]
      · rw [int32_eq (by omega) (by omega)]

theorem updateLogs_eq (leaderId : Int) (entries : List LogEntry) :
    ∀ s : Node n, 0 ≤ s.lastSnapshotIndex →
      (∀ e ∈ entries, s.lastSnapshotIndex ≤ e.index ∧ e.index ≤ 2147483647) →
      updateLogs s leaderId entries = s.updateLogs leaderId entries := by
  induction entries with
  | nil => exact fun _ _ _ => rfl
  | cons log rest ih =>
      intro s hsnap hentries
      have hlog := hentries log List.mem_cons_self
      have hrest := fun e he => hentries e (List.mem_cons_of_mem log he)
      have hset := ih { s with
        logs := s.logs.set (s.getSlicesIndexFromLogIndex log.index).toNat log } hsnap hrest
      rw [updateLogs, Node.updateLogs, getSlicesIndexFromLogIndex_eq hsnap hlog.1 hlog.2,
        ih { s with logs := s.logs ++ [log] } hsnap hrest]
      dsimp only
      rewrite [hset, ih s hsnap hrest]
      rfl

theorem appendEntries_eq (h : s.IndexInv) (hlast : s.getLastLogIndex ≤ 2147483647)
    {args : AppendEntriesArgs}
    (hcons : Consecutive args.prevLogIndex args.entries) (hprev : args.prevLogIndex ≤ 2147483647)
    (hentries : ∀ e ∈ args.entries, e.index ≤ 2147483647)
    (hover : s.term ≤ args.term → args.prevLogIndex < s.lastSnapshotIndex →
      s.lastSnapshotIndex < 2147483647) : appendEntries s args = s.appendEntries args := by
  have hsnap := h.snapshotNonneg
  have hpos := h.lastNonneg
  have hlast' : (s.followTerm args.term).getLastLogIndex = s.getLastLogIndex := by
    simp [Node.getLastLogIndex]
  have hsnap' : (s.followTerm args.term).lastSnapshotIndex = s.lastSnapshotIndex := by simp
  unfold appendEntries Node.appendEntries
  split
  · rfl
  rename_i hterm
  dsimp only
  rw [hlast', hsnap', matchLogTerm_eq (by omega) (by omega)]
  split
  · rw [int32_eq (by omega) (by omega)]
  rename_i hnew
  split
  · rename_i hold
    have := hover (by omega) hold
    rw [int32_eq (by omega) (by omega)]
  rename_i hold
  have hbound : ∀ e ∈ args.entries, (s.followTerm args.term).lastSnapshotIndex ≤ e.index ∧
      e.index ≤ 2147483647 := by
    intro e he
    obtain ⟨i, hi⟩ := List.mem_iff_getElem?.1 he
    have hidx := hcons i e hi
    exact ⟨by omega, hentries e he⟩
  rewrite [updateLogs_eq _ _ _ (by omega) hbound,
    rollback_eq (by omega) (by omega) (by omega) _ (by rw [hsnap']; omega)]
  rfl

theorem sendSnapshot_eq {server : Fin n} {args : InstallSnapshotArgs} {reply : InstallSnapshotReply}
    (hpos : 0 ≤ args.lastIndex)
    (hover : reply.term ≤ s.term → s.identity = .leader → args.term = s.term →
      args.lastIndex < 2147483647) :
    sendSnapshot s server args reply = s.sendSnapshot server args reply := by
  unfold sendSnapshot Node.sendSnapshot
  split
  · rfl
  rename_i hle
  split
  · rfl
  · rename_i hleader
    push Not at hleader
    have := hover (by omega) hleader.1 hleader.2
    rw [int32_eq (by omega) (by omega)]

theorem installSnapshot_eq (h : s.IndexInv) {args : InstallSnapshotArgs}
    (hindex : args.lastIndex ≤ 2147483647) : installSnapshot s args = s.installSnapshot args := by
  have hsnap := h.snapshotNonneg
  have hsnap' : (s.followTerm args.term).lastSnapshotIndex = s.lastSnapshotIndex := by simp
  unfold installSnapshot Node.installSnapshot
  split
  · rfl
  dsimp only
  split
  · rfl
  · rename_i hnew
    have hslices : getSlicesIndexFromLogIndex (s.followTerm args.term) args.lastIndex =
        (s.followTerm args.term).getSlicesIndexFromLogIndex args.lastIndex :=
      getSlicesIndexFromLogIndex_eq (by omega) (by omega) hindex
    have hnonneg : ¬ (s.followTerm args.term).getSlicesIndexFromLogIndex args.lastIndex + 1 < 0 := by
      rw [Node.getSlicesIndexFromLogIndex]
      omega
    simp only [hslices, hnonneg, false_or]

end Node

/-! ## The process without overflow -/

/-- Every step without overflow is the one over unbounded integers. -/
theorem step_eq {P : Proc n} (h : P.IndexInv) (hint : P.InInt) {input : Input n}
    (hinput : input.WellFormed) (harg : input.InInt) (hover : P.NoOverflow input) :
    step P input = P.step input := by
  have hnode := h.node
  have hlast := hint.last
  cases input with
  | execute command => rw [step, Proc.step, execute_eq hnode.lastNonneg hover]
  | persist index shot => rw [step, Proc.step, persist_eq hnode hlast hover]
  | getApplyMessages => rw [step, Proc.step, getApplyMessages_eq hnode hlast]
  | stand4Election =>
      rewrite [step, Proc.step, stand4ElectionProc, Proc.stand4Election,
        stand4Election_eq hint.term hover]
      rfl
  | heartBeat =>
      rw [step, Proc.step, heartBeatProc, Proc.heartBeat, heartBeat_eq hnode hlast hint.next]
  | requestVote args => rfl
  | appendEntries args =>
      rw [step, Proc.step, appendEntries_eq hnode hlast hinput harg.1.2.2.1.2 harg.entries hover]
  | installSnapshot args => rw [step, Proc.step, installSnapshot_eq hnode harg.2.2.1.2]
  | readSnapshot k => rfl
  | appendReply k reply =>
      simp only [step, Proc.step, appendReply, Proc.appendReply]
      rcases hcall : P.appendCalls[k]? with _ | call
      · rfl
      · have hmem := List.mem_of_getElem? hcall
        simp only [sendAppendEntries_eq hnode (hint.append call hmem) (h.appendLeLast call hmem) hover]
  | voteReply k reply =>
      simp only [step, Proc.step, voteReply, Proc.voteReply]
      rcases hcall : P.voteCalls[k]? with _ | call
      · rfl
      · have heq : sendRequestVote P.node reply (P.voteNums.getD call.voteNum 0) =
            P.node.sendRequestVote reply (P.voteNums.getD call.voteNum 0) :=
          sendRequestVote_eq hnode.lastNonneg fun hterm hgranted hnum =>
            hover hterm hgranted ⟨call, hcall, hnum⟩
        simp only [heq]
  | snapshotReply k reply =>
      simp only [step, Proc.step, snapshotReply, Proc.snapshotReply]
      rcases hcall : P.snapshotCalls[k]? with _ | ⟨server, args, reply'⟩
      · rfl
      rcases args with _ | args
      · rfl
      · have heq : sendSnapshot P.node server args reply = P.node.sendSnapshot server args reply :=
          sendSnapshot_eq (hint.snapshot _ (List.mem_of_getElem? hcall) args rfl)
            fun hle hid hterm => hover hle hid _ hcall args rfl hterm
        simp only [heq]

/-! ## Runs without overflow -/

/-- The numbers of the input are `int`s, and no sum of the step overflows. -/
def Fits (P : Proc n) (input : Input n) : Prop := input.InInt ∧ P.NoOverflow input

instance (P : Proc n) (input : Input n) : Decidable (Fits P input) :=
  inferInstanceAs (Decidable (input.InInt ∧ P.NoOverflow input))

/-- In a run without overflow every step is one over unbounded integers. -/
theorem reach_inv {P₀ P : Proc n} (h0 : P₀.IndexInv) (hint : P₀.InInt)
    (h : GuardedRun.Reach P₀ (fun P input => (step P input).1)
      (fun P input => input.WellFormed ∧ Fits P input) P) : P.IndexInv ∧ P.InInt := by
  refine h.invariant (P := fun P : Proc n => P.IndexInv ∧ P.InInt) ⟨h0, hint⟩ ?_
  rintro P input - ⟨hinv, hint⟩ ⟨hinput, harg, hover⟩
  rw [step_eq hinv hint hinput harg hover]
  exact ⟨(hinv.step hinput).1.1, hint.step hinv hinput harg hover⟩

/-- The step lowers no index, and the only way it is cut short is an appendEntries request with
    another command for an index and term of the log. -/
structure Orderly (P : Proc n) (input : Input n) : Prop where
  snapshot : P.node.lastSnapshotIndex ≤ (step P input).1.node.lastSnapshotIndex
  applied : P.node.appliedIndex ≤ (step P input).1.node.appliedIndex
  commit : P.node.commitIndex ≤ (step P input).1.node.commitIndex
  last : P.node.getLastLogIndex ≤ (step P input).1.node.getLastLogIndex
  fault : ∀ fault, (step P input).2 = some fault → ∃ args own e, input = .appendEntries args ∧
    e ∈ args.entries ∧ own ∈ P.node.logs ∧ own.index = e.index ∧ own.term = e.term ∧
    own.command ≠ e.command ∧ fault =
      .differentCommands P.node.me own.command args.leaderId e.command e.term e.index

/-- In a run of a single process on arbitrary requests and replies that never overflows, the indices
    stay ordered over a contiguous log, no step lowers one of them, and none is cut short by an access
    outside the log or an index out of order. -/
theorem index_invariant (me : Fin n) {P : Proc n}
    (h : GuardedRun.Reach (Proc.new me) (fun P input => (step P input).1)
      (fun P input => P.Legal input ∧ Fits P input) P) :
    (P.node.lastSnapshotIndex ≤ P.node.appliedIndex ∧ P.node.appliedIndex ≤ P.node.commitIndex ∧
      P.node.commitIndex ≤ P.node.getLastLogIndex) ∧
    (∀ (i : ℕ) (e : LogEntry), P.node.logs[i]? = some e →
      e.index = P.node.lastSnapshotIndex + 1 + i) ∧
    ∀ input, P.Legal input → Fits P input → Orderly P input := by
  have hrun := reach_inv (.new me) (.new me) (h.mono fun P input hok => ⟨hok.1.wellFormed, hok.2⟩)
  have hnext : P.node.NextInv := by
    refine h.invariant (P := fun P : Proc n => P.node.NextInv)
      (fun hl => by simp [Proc.new, Node.new, Node.load, Persister.new] at hl) ?_
    rintro P input hreach hnext ⟨hlegal, harg, hover⟩
    obtain ⟨hinv, hint⟩ := reach_inv (.new me) (.new me)
      (hreach.mono fun P input hok => ⟨hok.1.wellFormed, hok.2⟩)
    rw [step_eq hinv hint hlegal.wellFormed harg hover]
    refine hinv.step_nextInv hnext hlegal.wellFormed fun k reply heq => ?_
    subst heq
    exact hlegal.hintInRange
  obtain ⟨hinv, hint⟩ := hrun
  refine ⟨⟨hinv.node.snapshotLeApplied, hinv.node.appliedLeCommit, hinv.node.commitLeLast⟩,
    hinv.node.contiguous, fun input hlegal hfits => ?_⟩
  obtain ⟨hadv, hfault⟩ := hinv.step_legal hnext hlegal
  have heq := step_eq hinv hint hlegal.wellFormed hfits.1 hfits.2
  exact ⟨heq ▸ hadv.snapshot, heq ▸ hadv.applied, heq ▸ hadv.commit, heq ▸ hadv.last, heq ▸ hfault⟩

/-- A follower takes over an entry, applies it and compacts its log. -/
theorem index_invariant_compacted :
    let P := GuardedRun.exec (fun P input => (step P input).1) (Proc.new (0 : Fin 3))
      [.appendEntries ⟨1, 1, 0, 0, [⟨[7], 1, 1⟩, ⟨[8], 1, 2⟩], 1⟩, .getApplyMessages, .persist 1 []]
    (P.node.lastSnapshotIndex = 1 ∧ P.node.getLastLogIndex = 2) ∧
      P.node.appliedIndex ≤ P.node.commitIndex ∧
      (∀ i e, P.node.logs[i]? = some e → e.index = P.node.lastSnapshotIndex + 1 + (i : ℕ)) ∧
      Orderly P (.installSnapshot ⟨1, 1, 9, 1, []⟩) := by
  intro P
  have hreach : GuardedRun.Reach (Proc.new (0 : Fin 3)) (fun P input => (step P input).1)
      (fun P input => P.Legal input ∧ Fits P input) P := by
    refine GuardedRun.Reach.exec .init ⟨⟨?_, ?_⟩, ⟨trivial, ?_⟩, ⟨trivial, ?_⟩, trivial⟩
    · show Consecutive 0 [⟨[7], 1, 1⟩, ⟨[8], 1, 2⟩]
      decide
    all_goals decide +kernel
  have h := index_invariant 0 hreach
  exact ⟨by decide +kernel, h.1.2.1, h.2.1, h.2.2 _ trivial (by decide +kernel)⟩

/-- After a snapshot up to the last `int`, a compaction at index 5 is accepted: it lowers the snapshot
    index and reads the empty log out of range. -/
theorem index_falls_past_intMax :
    ¬ ∀ (n : ℕ) (me : Fin n) (P : Proc n),
      GuardedRun.Reach (Proc.new me) (fun P input => (step P input).1)
        (fun P input => P.Legal input ∧ input.InInt) P →
      ∀ input, P.Legal input → input.InInt → Orderly P input := by
  intro h
  have hreach : GuardedRun.Reach (Proc.new (0 : Fin 3)) (fun P input => (step P input).1)
      (fun P input => P.Legal input ∧ input.InInt)
      (GuardedRun.exec (fun P input => (step P input).1) (Proc.new 0)
        [.installSnapshot ⟨1, 1, 2147483647, 1, []⟩]) :=
    .exec .init ⟨⟨trivial, by decide⟩, trivial⟩
  have hstep := h 3 0 _ hreach (.persist 5 []) trivial (by decide)
  exact absurd hstep.snapshot (by decide +kernel)

end Machine

end RaftKVStorage
