import RaftKVStorage.Durability
import Mathlib.Data.List.TakeWhile

set_option autoImplicit false

/-! # The files of the persister

Both files are written as they are and read with `operator>>`, which takes one word and leaves the
stream good only if something follows it. So no string is ever loaded with success, and the snapshot
sent to a peer is the one stored only when it is a single word. The two files are written one after
the other, each emptied first. -/

namespace RaftKVStorage

variable {n : ℕ}

/-! ## Writing -/

/-- `_M_persistState`: the file is opened with `std::ios::trunc`, then written. -/
def Files.mPersistState (state : Bytes) : List (Files → Files) :=
  [fun files => { files with state := [] }, fun files => { files with state := state }]

/-- `_M_persistSnapshot`. -/
def Files.mPersistSnapshot (snapshot : Bytes) : List (Files → Files) :=
  [fun files => { files with snapshot := [] }, fun files => { files with snapshot := snapshot }]

/-- The steps of `persist(state, snapshot)`. -/
def Files.persistSteps (state snapshot : Bytes) : List (Files → Files) :=
  Files.mPersistState state ++ Files.mPersistSnapshot snapshot

/-- One step after the other. -/
def Files.run (files : Files) (steps : List (Files → Files)) : Files :=
  steps.foldl (fun files step => step files) files

/-- `persist(state)`. -/
def Files.persist (files : Files) (state : Bytes) : Files := files.run (Files.mPersistState state)

/-- `persist(state, snapshot)`. -/
def Files.persistBoth (files : Files) (state snapshot : Bytes) : Files :=
  files.run (Files.persistSteps state snapshot)

@[simp] theorem Files.persist_eq (files : Files) (state : Bytes) :
    files.persist state = { files with state := state } := rfl

@[simp] theorem Files.persistBoth_eq (files : Files) (state snapshot : Bytes) :
    files.persistBoth state snapshot = ⟨state, snapshot⟩ := rfl

/-! ## Reading back -/

/-- `ifs >> out` on a file that opened, and `ifs.good()` after it. Without a word in the file the
    stream fails before it touches `out`; a word that ends with the file leaves `eofbit` set. -/
def loadFile (file out : Bytes) : Bytes × Bool :=
  if file.dropWhile isSpace = [] then (out, false)
  else (readToken file, !((file.dropWhile isSpace).dropWhile fun c => !isSpace c).isEmpty)

/-- `loadState`: the string as it is left, and the result. -/
def Files.loadStateInto (files : Files) (state : Bytes) : Bytes × Bool := loadFile files.state state

/-- `loadSnapshot`. -/
def Files.loadSnapshotInto (files : Files) (snapshot : Bytes) : Bytes × Bool :=
  loadFile files.snapshot snapshot

/-- A stream that is still good has left something unread. -/
theorem loadFile_length {file out : Bytes} (h : (loadFile file out).2 = true) :
    (loadFile file out).1.length < file.length := by
  unfold loadFile at h ⊢
  by_cases hword : file.dropWhile isSpace = []
  · rw [if_pos hword] at h
    cases h
  · rw [if_neg hword] at h ⊢
    have hrest : (file.dropWhile isSpace).dropWhile (fun c => !isSpace c) ≠ [] := by simpa using h
    have hsplit := congrArg List.length
      (List.takeWhile_append_dropWhile (p := fun c => !isSpace c) (l := file.dropWhile isSpace))
    have hpos := List.length_pos_iff.2 hrest
    have hle := (List.dropWhile_suffix (l := file) isSpace).length_le
    rw [List.length_append] at hsplit
    simp only [readToken]
    omega

theorem loadFile_ne (file out : Bytes) : loadFile file out ≠ (file, true) := by
  intro h
  have hlt : (loadFile file out).1.length < file.length := loadFile_length (by rw [h])
  rw [h] at hlt
  exact lt_irrefl _ hlt

theorem readToken_eq_iff (file : Bytes) : readToken file = file ↔ ∀ c ∈ file, isSpace c = false := by
  constructor
  · intro h c hc
    rw [← h, readToken] at hc
    simpa using List.mem_takeWhile_imp hc
  · intro h
    have hdrop : file.dropWhile isSpace = file := by
      cases file with
      | nil => rfl
      | cons c rest => exact List.dropWhile_cons_of_neg (by simp [h c List.mem_cons_self])
    rw [readToken, hdrop]
    exact List.takeWhile_eq_self_iff.2 fun c hc => by simp [h c hc]

/-! ## The snapshot a node stores -/

/-- The handlers that hand over no snapshot. -/
def Input.KeepsSnapshot : Input n → Prop
  | .persist _ _ => False
  | .installSnapshot _ => False
  | _ => True

theorem Node.updateLogs_persister (leaderId : Int) (entries : List LogEntry) :
    ∀ s : Node n, (s.updateLogs leaderId entries).1.persister = s.persister := by
  induction entries with
  | nil => exact fun _ => rfl
  | cons log rest ih =>
      intro s
      unfold Node.updateLogs
      by_cases hnew : log.index > s.getLastLogIndex
      · rw [if_pos hnew]
        exact ih _
      rw [if_neg hnew]
      dsimp only
      split
      · rfl
      · split
        · split
          · rfl
          · exact ih s
        · exact ih _

theorem Node.followTerm_snapshot (s : Node n) (term : Int) :
    (s.followTerm term).persister.snapshot = s.persister.snapshot := by
  unfold Node.followTerm
  by_cases h : term > s.term
  · rw [if_pos h]
    rfl
  · rw [if_neg h]

theorem Node.appendEntries_snapshot (s : Node n) (args : AppendEntriesArgs) :
    (s.appendEntries args).node.persister.snapshot = s.persister.snapshot := by
  have hfollow := s.followTerm_snapshot args.term
  unfold Node.appendEntries
  split
  · rfl
  dsimp only
  split
  · exact hfollow
  split
  · exact hfollow
  split
  · exact hfollow
  · have hlogs := (s.followTerm args.term).updateLogs_persister args.leaderId args.entries
    split
    · rename_i heq
      rw [heq] at hlogs
      exact (congrArg Persister.snapshot hlogs).trans hfollow
    · rename_i heq
      rw [heq] at hlogs
      have hkeep := (congrArg Persister.snapshot hlogs).trans hfollow
      -- `_M_commitIndex` may be raised before the deferred `_M_persist`
      split <;> exact hkeep
  · split <;> exact hfollow

theorem Node.takeApplyMessages_snapshot (k : ℕ) : ∀ s : Node n,
    (s.takeApplyMessages k).node.persister.snapshot = s.persister.snapshot := by
  induction k with
  | zero => exact fun _ => rfl
  | succ k ih =>
      intro s
      simp only [Node.takeApplyMessages]
      split
      · rfl
      · exact ih _

theorem Node.getApplyMessages_snapshot (s : Node n) :
    s.getApplyMessages.node.persister.snapshot = s.persister.snapshot := by
  unfold Node.getApplyMessages
  split
  · rfl
  split
  · rfl
  · exact s.takeApplyMessages_snapshot _

theorem Node.sendAppendEntries_snapshot (s : Node n) (server : Fin n) (args : AppendEntriesArgs)
    (reply : AppendEntriesReply) (appendNum : ℕ) :
    (s.sendAppendEntries server args reply appendNum).node.persister.snapshot =
      s.persister.snapshot := by
  unfold Node.sendAppendEntries
  split
  · rfl
  split
  · rfl
  split
  · rfl
  split
  · split <;> rfl
  · dsimp only
    split
    · rfl
    · split
      · have hkeep := ((s.recordMatch server args).updateCommitIndex_dump args).2
        exact congrArg Persister.snapshot hkeep
      · rfl

theorem Proc.step_snapshot (P : Proc n) {input : Input n} (h : input.KeepsSnapshot) :
    (P.step input).1.node.persister.snapshot = P.node.persister.snapshot := by
  cases input with
  | persist index shot => exact h.elim
  | installSnapshot args => exact h.elim
  | execute command =>
      rcases P.node.execute_cases command with ⟨-, heq⟩ | ⟨-, heq⟩
      · simp only [Proc.step, heq]
        rfl
      · simp only [Proc.step, heq]
  | getApplyMessages => exact P.node.getApplyMessages_snapshot
  | stand4Election =>
      rcases P.node.stand4Election_cases with ⟨-, heq⟩ | ⟨-, heq⟩
      · simp only [Proc.step, Proc.stand4Election, heq]
      · simp only [Proc.step, Proc.stand4Election, heq]
        rfl
  | heartBeat =>
      simp only [Proc.step, Proc.heartBeat]
      split <;> rfl
  | requestVote args =>
      simp only [Proc.step]
      rcases P.node.requestVote_cases args with
        ⟨-, heq | ⟨-, heq⟩⟩ | ⟨-, -, -, ⟨-, -, heq⟩ | ⟨-, heq⟩⟩
      all_goals
        rw [heq]
        rfl
  | appendEntries args => exact P.node.appendEntries_snapshot args
  | readSnapshot k =>
      simp only [Proc.step, Proc.readSnapshot]
      split <;> rfl
  | appendReply k reply =>
      simp only [Proc.step, Proc.appendReply]
      split
      · rfl
      · exact P.node.sendAppendEntries_snapshot _ _ reply _
  | voteReply k reply =>
      simp only [Proc.step, Proc.voteReply]
      split
      · rfl
      · rename_i call _
        rcases P.node.sendRequestVote_cases reply (P.voteNums.getD call.voteNum 0) with
          ⟨-, heq⟩ | heq | ⟨-, -, ⟨-, heq⟩ | ⟨-, -, heq⟩ | ⟨-, -, heq⟩⟩
        all_goals rw [heq]
        all_goals rfl
  | snapshotReply k reply =>
      simp only [Proc.step, Proc.snapshotReply]
      split
      · rename_i server args _ _
        rcases P.node.sendSnapshot_cases server args reply with ⟨-, heq⟩ | heq | ⟨-, -, heq⟩
        · rw [heq]
          rfl
        · rw [heq]
        · rw [heq]
      · rfl

/-- The snapshot file keeps what it was given until another snapshot is handed over. -/
theorem Proc.run_snapshot {P P' : Proc n}
    (h : GuardedRun.Reach P (fun P input => (P.step input).1) (fun _ input => input.KeepsSnapshot) P') :
    P'.node.persister.snapshot = P.node.persister.snapshot := by
  refine h.invariant (P := fun P' => P'.node.persister.snapshot = P.node.persister.snapshot) rfl ?_
  intro Q input _ ih hkeeps
  exact (Q.step_snapshot hkeeps).trans ih

theorem Node.persist_snapshot {s : Node n} {index : Int} {shot : Bytes}
    (h : (s.persist index shot).ret = true) :
    (s.persist index shot).node.persister =
      s.persister.persistBoth (s.persist index shot).node.dump shot := by
  unfold Node.persist at h ⊢
  split at h
  · cases h
  · rename_i hvalid
    rw [if_neg hvalid]
    dsimp only at h ⊢
    cases hlog : s.logAt (s.getSlicesIndexFromLogIndex index) with
    | none =>
        rw [hlog] at h
        cases h
    | some entry => rfl

/-- No string is loaded with success, and a snapshot sent is the one stored exactly when that has no
    white space. -/
theorem persister_round_trip (files : Files) (state snapshot out : Bytes) :
    (files.persist state).loadStateInto out ≠ (state, true) ∧
    (files.persistBoth state snapshot).loadStateInto out ≠ (state, true) ∧
    (files.persistBoth state snapshot).loadSnapshotInto out ≠ (snapshot, true) ∧
    ∀ {n : ℕ} (P P' : Proc n) (index : Int), (P.node.persist index snapshot).ret = true →
      GuardedRun.Reach (P.step (.persist index snapshot)).1 (fun P input => (P.step input).1)
        (fun _ input => input.KeepsSnapshot) P' →
      (P'.node.snapshotArgs.data = snapshot ↔ ∀ c ∈ snapshot, isSpace c = false) := by
  refine ⟨loadFile_ne state out, loadFile_ne state out, loadFile_ne snapshot out, ?_⟩
  intro n P P' index hret hrun
  have hstored : P'.node.persister.snapshot = snapshot := by
    rw [Proc.run_snapshot hrun, Proc.step, Node.persist_snapshot hret]
    rfl
  rw [← hstored]
  exact readToken_eq_iff _

/-- Follower `p` of three, which has committed one entry. -/
def oneCommitted (p : Fin 3) : Proc 3 :=
  ((Proc.new p).step (.appendEntries ⟨1, 1, 0, 0, [⟨[7], 1, 1⟩], 1⟩)).1

/-- A snapshot of one word goes out as it was stored, whatever the node does in between. -/
theorem persister_round_trip_word :
    (((oneCommitted 0).step (.persist 1 [120])).1.step .getApplyMessages).1.node.snapshotArgs.data =
      [120] := by
  have hkeeps : (Input.getApplyMessages : Input 3).KeepsSnapshot := trivial
  have hspace : ∀ c ∈ [120], isSpace c = false := by
    intro c hc
    obtain rfl := List.mem_singleton.1 hc
    rfl
  obtain ⟨-, -, -, hsent⟩ := persister_round_trip ⟨[], []⟩ [] [120] []
  exact (hsent (oneCommitted 0) _ 1 (by decide) (.step _ .init hkeeps)).2 hspace

/-- The text "22 x", like every archive of Boost's, is cut at its first space. -/
theorem persister_round_trip_archive :
    (¬ ∀ (files : Files) (state : Bytes), (files.persist state).loadStateInto [] = (state, true)) ∧
    ¬ ∀ (s : Node 3) (index : Int) (shot : Bytes), (s.persist index shot).ret = true →
      (s.persist index shot).node.snapshotArgs.data = shot := by
  constructor
  · intro h
    exact absurd (h ⟨[], []⟩ [50, 50, 32, 120]) (by decide)
  · intro h
    exact absurd (h (oneCommitted 0).node 1 [50, 50, 32, 120] (by decide)) (by decide)

/-! ## Stopping in the middle -/

/-- The process stops after the first `k` of the steps. -/
def Files.stopped (files : Files) (steps : List (Files → Files)) (k : ℕ) : Files :=
  files.run (steps.take k)

/-- A call `persist(state, snapshot)` that a handler of `s` makes, with the files before it and what
    they are to hold after it. -/
inductive Node.PersistCall (boost : Boost) (s : Node n) : Files → Files → Prop
  | persist {index : Int} {shot : Bytes} (h : (s.persist index shot).ret = true) :
      PersistCall boost s (s.persister.files boost)
        ⟨boost.state.save (s.persist index shot).node.dump, shot⟩
  /-- By then a newer term has been followed, which writes the state file. -/
  | installSnapshot {args : InstallSnapshotArgs} (h : (s.installSnapshot args).ret.2 ≠ none) :
      PersistCall boost s ((s.followTerm args.term).persister.files boost)
        ⟨boost.state.save (s.installSnapshot args).node.dump, args.data⟩

/-- The stops that leave a matching pair: before the first step or after the last, or where what has
    been overwritten so far makes no difference. -/
def Files.SafeStop (old new : Files) (k : ℕ) : Prop :=
  k = 0 ∨ 4 ≤ k ∨ (k = 1 ∧ old.state = []) ∨
    (k = 2 ∧ (old.state = new.state ∨ old.snapshot = new.snapshot)) ∨
    (k = 3 ∧ (new.snapshot = [] ∨ (old.state = new.state ∧ old.snapshot = [])))

instance Files.SafeStop.decidable (old new : Files) (k : ℕ) : Decidable (old.SafeStop new k) :=
  inferInstanceAs (Decidable (_ ∨ _))

/-- The contents after a stop. -/
theorem Files.stopped_persistSteps (old new : Files) (k : ℕ) :
    (k = 0 ∧ old.stopped (Files.persistSteps new.state new.snapshot) k = old) ∨
    (k = 1 ∧ old.stopped (Files.persistSteps new.state new.snapshot) k = ⟨[], old.snapshot⟩) ∨
    (k = 2 ∧ old.stopped (Files.persistSteps new.state new.snapshot) k = ⟨new.state, old.snapshot⟩) ∨
    (k = 3 ∧ old.stopped (Files.persistSteps new.state new.snapshot) k = ⟨new.state, []⟩) ∨
    (4 ≤ k ∧ old.stopped (Files.persistSteps new.state new.snapshot) k = new) := by
  rcases k with _ | _ | _ | _ | k
  · exact .inl ⟨rfl, rfl⟩
  · exact .inr (.inl ⟨rfl, rfl⟩)
  · exact .inr (.inr (.inl ⟨rfl, rfl⟩))
  · exact .inr (.inr (.inr (.inl ⟨rfl, rfl⟩)))
  · refine .inr (.inr (.inr (.inr ⟨by omega, ?_⟩)))
    rw [Files.stopped, List.take_of_length_le (by simp [Files.persistSteps, Files.mPersistState,
      Files.mPersistSnapshot])]
    rfl

theorem Files.stopped_iff {old new : Files} (hnew : new.state ≠ []) (k : ℕ) :
    (old.stopped (Files.persistSteps new.state new.snapshot) k = old ∨
      old.stopped (Files.persistSteps new.state new.snapshot) k = new) ↔ old.SafeStop new k := by
  obtain ⟨oldState, oldSnapshot⟩ := old
  obtain ⟨newState, newSnapshot⟩ := new
  rcases Files.stopped_persistSteps ⟨oldState, oldSnapshot⟩ ⟨newState, newSnapshot⟩ k with
    ⟨rfl, heq⟩ | ⟨rfl, heq⟩ | ⟨rfl, heq⟩ | ⟨rfl, heq⟩ | ⟨hk, heq⟩
  all_goals
    rw [heq]
    simp only [Files.SafeStop, Files.mk.injEq]
  · simp
  · -- the new state file is not empty
    have hne : ¬ [] = newState := fun h => hnew h.symm
    simp [hne, eq_comm]
  · simp [eq_comm]
  · simp [eq_comm, or_comm]
  · have h0 : k ≠ 0 := by omega
    simp [hk]

theorem Node.PersistCall.state_ne {boost : Boost} {s : Node n} {old new : Files}
    (h : s.PersistCall boost old new) : new.state ≠ [] := by
  cases h with
  | persist => exact boost.state.save_ne_nil _
  | installSnapshot => exact boost.state.save_ne_nil _

/-- The index a node that takes over the state file has its log start after. -/
def Files.snapshotIndex (boost : Boost) (files : Files) : Option Int :=
  if files.state = [] then some 0 else (boost.state.load files.state).map (·.lastSnapshotIndex)

/-- The log of the state file starts right after what the snapshot file covers. -/
def Files.LogFollows (boost : Boost) (covered : Bytes → Int) (files : Files) : Prop :=
  files.snapshotIndex boost = some (covered files.snapshot)

/-- A compaction that stops in the middle leaves both old or both new files exactly at the safe stops,
    where the log starts after the snapshot as before. When the state file alone is written and its
    log starts later than it did, the commands between the two are in neither file. -/
theorem compaction_stops (boost : Boost) {s : Node n} {old new : Files}
    (h : s.PersistCall boost old new) (k : ℕ) :
    ((old.stopped (Files.persistSteps new.state new.snapshot) k = old ∨
      old.stopped (Files.persistSteps new.state new.snapshot) k = new) ↔ old.SafeStop new k) ∧
    ∀ covered : Bytes → Int, old.LogFollows boost covered → new.LogFollows boost covered →
      (old.SafeStop new k →
        (old.stopped (Files.persistSteps new.state new.snapshot) k).LogFollows boost covered) ∧
      (old.snapshotIndex boost ≠ new.snapshotIndex boost →
        ¬ (old.stopped (Files.persistSteps new.state new.snapshot) 2).LogFollows boost covered) := by
  have hiff : _ ↔ old.SafeStop new k := Files.stopped_iff h.state_ne k
  refine ⟨hiff, fun covered hold hnew => ⟨fun hsafe => ?_, fun hmoved hgap => ?_⟩⟩
  · rcases hiff.2 hsafe with heq | heq
    · rwa [heq]
    · rwa [heq]
  · have hindex : new.snapshotIndex boost = some (covered old.snapshot) := hgap
    exact hmoved (hold.trans hindex.symm)

/-- A follower of three compacts its log at index 1: a stop in between is not safe. -/
theorem compaction_stops_oneCommitted :
    let old := (oneCommitted 0).node.persister.files Boost.text
    let new : Files := ⟨Boost.text.state.save ((oneCommitted 0).node.persist 1 [120]).node.dump, [120]⟩
    ∀ k, (old.stopped (Files.persistSteps new.state new.snapshot) k = old ∨
      old.stopped (Files.persistSteps new.state new.snapshot) k = new) ↔ k = 0 ∨ 4 ≤ k := by
  intro old new k
  have hcall : (oneCommitted 0).node.PersistCall Boost.text old new := .persist (by decide)
  rw [(compaction_stops Boost.text hcall k).1]
  constructor
  · rintro (h | h | ⟨-, h⟩ | ⟨-, h⟩ | ⟨-, h⟩)
    · exact .inl h
    · exact .inr h
    · exact absurd h (by decide +kernel)
    · exact absurd h (by decide +kernel)
    · exact absurd h (by decide +kernel)
  · rintro (h | h)
    · exact .inl h
    · exact .inr (.inl h)

/-- Stopped between the two files, the state starts after index 1 and the snapshot is still the old,
    empty one. -/
theorem compaction_stops_between :
    ¬ ∀ (s : Node 3) (old new : Files), s.PersistCall Boost.text old new →
      ∀ k, old.stopped (Files.persistSteps new.state new.snapshot) k = old ∨
        old.stopped (Files.persistSteps new.state new.snapshot) k = new := by
  intro h
  have hret : ((oneCommitted 0).node.persist 1 [120]).ret = true := by decide
  exact absurd (h (oneCommitted 0).node _ _ (.persist hret) 2) (by decide +kernel)

end RaftKVStorage
