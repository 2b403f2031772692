import RaftKVStorage.Refinement

set_option autoImplicit false

/-! # Log matching, leader completeness, state machine safety

`_L_appendEntries` overwrites a conflicting entry in place and keeps what lies behind it. As long as
no request meets a conflict while the log goes on past its last entry, the cluster refines
`LeaderLogs` and has all three properties; otherwise all three fail (`staleTailRun`). -/

namespace RaftKVStorage

open LeaderLogs

variable {n : ℕ}

/-- An entry of a node's log, in its ghost log. -/
theorem NodeSim.exists_of_mem {S : Ghost n} {p : Fin n} {s : Node n} (h : NodeSim S p s)
    (hinv : s.IndexInv) {e : LogEntry} (he : e ∈ s.logs) :
    ∃ i : ℕ, (S.log p)[i]? = some e ∧ e.index = i + 1 := by
  obtain ⟨j, hj⟩ := List.mem_iff_getElem?.1 he
  have hidx := hinv.contiguous j e hj
  have hsnap0 := hinv.snapshotNonneg
  refine ⟨s.lastSnapshotIndex.toNat + j, by rw [← h.getElem?_log, hj], ?_⟩
  push_cast
  omega

/-- The abstract state of a run that delivers nothing over a stale tail. -/
theorem Cluster.exists_sim {σ : Cluster n}
    (h : GuardedRun.Reach (Cluster.new n) Cluster.step Cluster.NoStaleTail σ) :
    σ.Reachable ∧ ∃ S, σ.Sim S := by
  obtain ⟨S, hS, -⟩ := Cluster.Sim.new.run_sim .init h
  exact ⟨h.mono fun _ _ _ => trivial, S, hS⟩

/-! ## The properties -/

/-- The commands that `_M_getApplyMessages` has produced at `p`. -/
def Cluster.appliedBy (σ : Cluster n) (p : Fin n) : List ApplyMessage :=
  σ.history.flatMap fun
    | .applied q ms => if q = p then ms else []
    | _ => []

/-- The node `p` each time it became leader. -/
def Cluster.electedBy (σ : Cluster n) (p : Fin n) : List (Node n) :=
  σ.history.filterMap fun
    | .elected q s => if q = p then some s else none
    | _ => none

/-- The node `p` each time it raised its commit index as leader. -/
def Cluster.committedBy (σ : Cluster n) (p : Fin n) : List (Node n) :=
  σ.history.filterMap fun
    | .committed q s => if q = p then some s else none
    | _ => none

theorem Cluster.exists_of_mem_appliedBy {σ : Cluster n} {p : Fin n} {m : ApplyMessage}
    (h : m ∈ σ.appliedBy p) : ∃ ms, .applied p ms ∈ σ.history ∧ m ∈ ms := by
  obtain ⟨ev, hev, hm⟩ := List.mem_flatMap.1 h
  cases ev with
  | applied q ms =>
    by_cases hq : q = p
    · subst hq
      exact ⟨ms, hev, by simpa using hm⟩
    · simp [hq] at hm
  | _ => simp at hm

theorem Cluster.mem_of_mem_electedBy {σ : Cluster n} {p : Fin n} {s : Node n}
    (h : s ∈ σ.electedBy p) : .elected p s ∈ σ.history := by
  obtain ⟨ev, hev, hs⟩ := List.mem_filterMap.1 h
  cases ev with
  | elected q s' =>
    obtain ⟨rfl, rfl⟩ : q = p ∧ s' = s := by simpa using hs
    exact hev
  | _ => simp at hs

theorem Cluster.mem_of_mem_committedBy {σ : Cluster n} {p : Fin n} {s : Node n}
    (h : s ∈ σ.committedBy p) : .committed p s ∈ σ.history := by
  obtain ⟨ev, hev, hs⟩ := List.mem_filterMap.1 h
  cases ev with
  | committed q s' =>
    obtain ⟨rfl, rfl⟩ : q = p ∧ s' = s := by simpa using hs
    exact hev
  | _ => simp at hs

/-- Where two logs hold entries of equal index and term, they hold equal entries at every lower
    index that both still have. -/
def Cluster.LogMatching (σ : Cluster n) : Prop :=
  ∀ p q : Fin n, ∀ e ∈ (σ.procs p).node.logs, ∀ e' ∈ (σ.procs q).node.logs,
    e.index = e'.index → e.term = e'.term →
    ∀ x ∈ (σ.procs p).node.logs, ∀ x' ∈ (σ.procs q).node.logs,
      x.index = x'.index → x.index < e.index → x.term = x'.term ∧ x.command = x'.command

/-- What a leader of `σ` holds, up to a commit index it raises in its term, every later leader of
    the run up to `σ'` holds when it is elected, unless its snapshot covers the index. -/
def Cluster.LeaderComplete (σ σ' : Cluster n) : Prop :=
  ∀ p : Fin n, (σ.procs p).node.identity = .leader → ∀ e ∈ (σ.procs p).node.logs,
    ∀ s ∈ σ'.committedBy p, s.term = (σ.procs p).node.term → e.index ≤ s.commitIndex →
    ∀ q : Fin n, ∀ s' ∈ σ'.electedBy q, s.term < s'.term → s'.lastSnapshotIndex < e.index →
      e ∈ s'.logs

/-- Commands that two nodes hand to their applications at the same index are the same. -/
def Cluster.StateMachineSafe (σ : Cluster n) : Prop :=
  ∀ p q : Fin n, ∀ m ∈ σ.appliedBy p, ∀ m' ∈ σ.appliedBy q,
    m.commandIndex = m'.commandIndex → m.command = m'.command

instance (σ : Cluster n) : Decidable σ.LogMatching := by
  unfold Cluster.LogMatching
  infer_instance

instance (σ σ' : Cluster n) : Decidable (σ.LeaderComplete σ') := by
  unfold Cluster.LeaderComplete
  infer_instance

instance (σ : Cluster n) : Decidable σ.StateMachineSafe := by
  unfold Cluster.StateMachineSafe
  infer_instance

/-- Three nodes: 0 is elected, commits a command that 1 applies too, and 1 is elected after it. -/
def twoTermRun : List (Action 3) :=
  [ .stand4Election 0, .deliverVote 0 0, .returnVote 0 0,
    .execute 0 [1], .heartBeat 0, .deliverAppend 0 0, .returnAppend 0 0, .getApplyMessages 0,
    .heartBeat 0, .deliverAppend 0 1, .getApplyMessages 1,
    .stand4Election 1, .deliverVote 1 0, .returnVote 1 0 ]

/-- Five nodes. Node 0 leads term 1 and leaves two entries on 3. Node 1 leads term 2 and commits one
    with 0, where it overwrites the first entry and the second stays behind it, and with 2. Node 0 votes
    by that second entry, so node 3 leads term 3 without the committed one, and applies what it has at
    its index. -/
def staleTailRun : List (Action 5) :=
  [ .stand4Election 0, .deliverVote 0 0, .deliverVote 0 1, .returnVote 0 0, .returnVote 0 0,
    .execute 0 [1], .execute 0 [2], .heartBeat 0, .deliverAppend 0 2,
    .stand4Election 1, .deliverVote 1 1, .deliverVote 1 3, .returnVote 1 3, .returnVote 1 1,
    .execute 1 [3], .heartBeat 1, .deliverAppend 1 0, .deliverAppend 1 1, .returnAppend 1 1,
    .returnAppend 1 0, .getApplyMessages 1,
    .stand4Election 3, .stand4Election 3, .deliverVote 3 4, .deliverVote 3 7, .returnVote 3 7,
    .returnVote 3 4,
    .execute 3 [4], .heartBeat 3, .deliverAppend 3 3, .returnAppend 3 3, .heartBeat 3,
    .deliverAppend 3 3, .deliverAppend 3 6, .returnAppend 3 3, .returnAppend 3 5,
    .getApplyMessages 3 ]

/-- The state `staleTailRun` ends in. -/
def staleTail : Cluster 5 := GuardedRun.exec Cluster.step (Cluster.new 5) staleTailRun

theorem staleTail_reachable : staleTail.Reachable :=
  .exec .init (.of_forall (fun _ _ => trivial) _ _)

/-- Without a delivery over a stale tail, logs match. -/
theorem log_matching {σ : Cluster n}
    (h : GuardedRun.Reach (Cluster.new n) Cluster.step Cluster.NoStaleTail σ) : σ.LogMatching := by
  obtain ⟨hreach, S, hS⟩ := Cluster.exists_sim h
  have hinv := hreach.indexInv
  intro p q e he e' he' hindex hterm x hx x' hx' hxx hlt
  obtain ⟨i, hi, hei⟩ := (hS.node p).exists_of_mem (hinv p).node he
  obtain ⟨i', hi', hei'⟩ := (hS.node q).exists_of_mem (hinv q).node he'
  obtain ⟨j, hj, hxj⟩ := (hS.node p).exists_of_mem (hinv p).node hx
  obtain ⟨j', hj', hxj'⟩ := (hS.node q).exists_of_mem (hinv q).node hx'
  obtain rfl : i = i' := by omega
  obtain rfl : j = j' := by omega
  have htake := hS.inv.take_eq_take hi hi' hterm
  have hsame : x = x' := by
    have h₁ : ((S.log p).take (i + 1))[j]? = some x := by
      rw [List.getElem?_take_of_lt (by omega), hj]
    rw [htake, List.getElem?_take_of_lt (by omega), hj'] at h₁
    exact (Option.some.inj h₁).symm
  subst hsame
  exact ⟨rfl, rfl⟩

theorem log_matching_twoTermRun :
    (GuardedRun.exec Cluster.step (Cluster.new 3) twoTermRun).LogMatching :=
  log_matching (.exec .init (by decide +kernel))

theorem log_matching_staleTail :
    ¬ ∀ (n : ℕ) (σ : Cluster n), σ.Reachable → σ.LogMatching := fun h =>
  absurd (h 5 staleTail staleTail_reachable) (by decide +kernel)

/-- Without a delivery over a stale tail, leaders are complete. -/
theorem leader_completeness {σ σ' : Cluster n}
    (h : GuardedRun.Reach (Cluster.new n) Cluster.step Cluster.NoStaleTail σ)
    (h' : GuardedRun.Reach σ Cluster.step Cluster.NoStaleTail σ') : σ.LeaderComplete σ' := by
  obtain ⟨hreach, S, hS⟩ := Cluster.exists_sim h
  obtain ⟨S', hS', g⟩ := hS.run_sim hreach h'
  intro p hid e he s hs hterm hle q s' hs' hlater hsnap
  obtain ⟨i, hi, hei⟩ := (hS.node p).exists_of_mem (hreach.indexInv p).node he
  obtain ⟨hled, hlog⟩ := (hS.node p).leader hS.inv hid
  rw [hlog, ← hterm] at hi
  obtain ⟨hled', hcert, hlen⟩ := hS'.committed p s (Cluster.mem_of_mem_committedBy hs)
  obtain ⟨hledX, hinvX, hsnapX, hlogsX⟩ := hS'.elected q s' (Cluster.mem_of_mem_electedBy hs')
  -- the entry is below the commit index in the leader log
  have hi' : ((S'.lead s.term).take s.commitIndex.toNat)[i]? = some e := by
    obtain ⟨r, hr⟩ := g.lead s.term (by rw [hterm]; exact hled)
    rw [List.getElem?_take_of_lt (by omega), ← hr,
      List.getElem?_append_left (List.getElem?_eq_some_iff.1 hi).1, hi]
  have hcommittedLog : S'.CommittedLog s.term ((S'.lead s.term).take s.commitIndex.toNat) := by
    refine hcert.resolve_left fun hnil => ?_
    rw [hnil] at hi'
    simp at hi'
  obtain ⟨r, hr⟩ := hS'.inv.committedLog_prefix_base hcommittedLog hledX hlater
  have hiX : ((S'.lead s'.term).take (S'.base s'.term))[i]? = some e := by
    rw [← hr, List.getElem?_append_left (List.getElem?_eq_some_iff.1 hi').1, hi']
  have hsnap0 := hinvX.snapshotNonneg
  refine List.mem_of_getElem? (i := i - s'.lastSnapshotIndex.toNat) ?_
  rw [hlogsX, List.getElem?_drop, Nat.add_sub_cancel' (by omega), hiX]

theorem leader_completeness_twoTermRun :
    Cluster.LeaderComplete (GuardedRun.exec Cluster.step (Cluster.new 3) (twoTermRun.take 8))
      (GuardedRun.exec Cluster.step (Cluster.new 3) twoTermRun) := by
  have hsplit : GuardedRun.exec Cluster.step (Cluster.new 3) twoTermRun =
      GuardedRun.exec Cluster.step
        (GuardedRun.exec Cluster.step (Cluster.new 3) (twoTermRun.take 8)) (twoTermRun.drop 8) := by
    rw [← GuardedRun.exec_append, List.take_append_drop]
  rw [hsplit]
  exact leader_completeness (.exec .init (by decide +kernel)) (.exec .init (by decide +kernel))

theorem leader_completeness_staleTail :
    ¬ ∀ (n : ℕ) (σ σ' : Cluster n), σ.Reachable →
      GuardedRun.Reach σ Cluster.step (fun _ _ => True) σ' → σ.LeaderComplete σ' := fun h =>
  absurd (h 5 staleTail staleTail staleTail_reachable .init) (by decide +kernel)

/-- Without a delivery over a stale tail, no two nodes apply different commands at an index. -/
theorem state_machine_safety {σ : Cluster n}
    (h : GuardedRun.Reach (Cluster.new n) Cluster.step Cluster.NoStaleTail σ) :
    σ.StateMachineSafe := by
  obtain ⟨-, S, hS⟩ := Cluster.exists_sim h
  intro p q m hm m' hm' hindex
  obtain ⟨ms, hp, hm⟩ := Cluster.exists_of_mem_appliedBy hm
  obtain ⟨ms', hq, hm'⟩ := Cluster.exists_of_mem_appliedBy hm'
  obtain ⟨B, K, hK, hall⟩ := hS.applied p ms hp
  obtain ⟨B', K', hK', hall'⟩ := hS.applied q ms' hq
  obtain ⟨i, e, hi, rfl⟩ := hall m hm
  obtain ⟨i', e', hi', rfl⟩ := hall' m' hm'
  simp only [ApplyMessage.ofCommand] at hindex
  obtain rfl : i = i' := by omega
  have hsame : e = e' := by
    rcases hK.comparable hK' hS.inv with ⟨r, rfl⟩ | ⟨r, rfl⟩
    · rw [List.getElem?_append_left (List.getElem?_eq_some_iff.1 hi).1, hi] at hi'
      exact Option.some.inj hi'
    · rw [List.getElem?_append_left (List.getElem?_eq_some_iff.1 hi').1, hi'] at hi
      exact (Option.some.inj hi).symm
  rw [hsame]

theorem state_machine_safety_twoTermRun :
    (GuardedRun.exec Cluster.step (Cluster.new 3) twoTermRun).StateMachineSafe :=
  state_machine_safety (.exec .init (by decide +kernel))

theorem state_machine_safety_staleTail :
    ¬ ∀ (n : ℕ) (σ : Cluster n), σ.Reachable → σ.StateMachineSafe := fun h =>
  absurd (h 5 staleTail staleTail_reachable) (by decide +kernel)

end RaftKVStorage
