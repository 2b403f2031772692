import RaftKVStorage.ApplyOrder
import RaftKVStorage.FollowerLog

set_option autoImplicit false

/-! # The commands a node hands out

Everything the calls of `_M_getApplyMessages` have returned over a whole run of one node, whose
applied index is moved by these calls, by `raft::persist` and by installed snapshots. -/

namespace RaftKVStorage

variable {n : ℕ}

/-- A node with the commands it has returned so far, each with the node as it was then, and the
    indices up to which a `raft::persist` or an `_L_installSnapshot` has covered the log. No step
    reads the last two. -/
structure Applier (n : ℕ) where
  proc : Proc n
  returned : List (ApplyMessage × Node n) := []
  covered : List Int := []

/-- What a critical section returns to the applier. -/
def Proc.returns (P : Proc n) : Input n → List ApplyMessage
  | .getApplyMessages =>
      match P.node.getApplyMessages.fault with
      | none => P.node.getApplyMessages.ret
      | some _ => []
  | _ => []

/-- The index up to which a critical section covers the log, if it does. -/
def Proc.covers (P : Proc n) : Input n → List Int
  | .persist index shot => if (P.node.persist index shot).ret then [index] else []
  | .installSnapshot args =>
      if (P.node.installSnapshot args).ret.2.isSome then [args.lastIndex] else []
  | _ => []

namespace Applier

def new (me : Fin n) : Applier n := { proc := Proc.new me }

def step (A : Applier n) (input : Input n) : Applier n :=
  { proc := (A.proc.step input).1
    returned := A.returned ++ (A.proc.returns input).map fun msg => (msg, A.proc.node)
    covered := A.covered ++ A.proc.covers input }

/-- The indices of the commands returned. -/
def indices (A : Applier n) : List Int := A.returned.map fun r => r.1.commandIndex

/-- The commands returned rise up to the applied index, nothing up to there is missing but what was
    covered, and each was the one in the log. -/
structure Inv (A : Applier n) : Prop where
  proc : A.proc.IndexInv
  ascending : A.indices.Pairwise (· < ·)
  le : ∀ i ∈ A.indices, i ≤ A.proc.node.appliedIndex
  gapFree : ∀ i, 0 < i → i ≤ A.proc.node.appliedIndex → i ∈ A.indices ∨ ∃ c ∈ A.covered, i ≤ c
  logged : ∀ r ∈ A.returned, ∃ e, r.2.entryAt r.1.commandIndex = some e ∧ r.1.command = e.command

variable {A : Applier n}

theorem Inv.new (me : Fin n) : (Applier.new me).Inv where
  proc := .new me
  ascending := List.Pairwise.nil
  le := by simp [indices, Applier.new]
  gapFree := by
    intro i hpos hle
    have hzero : (Applier.new me).proc.node.appliedIndex = 0 := by
      simp [Applier.new, Proc.new, Node.new, Node.load, Persister.new]
    omega
  logged := by simp [Applier.new]

/-- A step that returns nothing and moves the applied index at most to where the log is covered. -/
theorem Inv.quiet (h : A.Inv) {input : Input n} (hinput : input.WellFormed)
    (hreturns : A.proc.returns input = [])
    (happlied : (A.proc.step input).1.node.appliedIndex = A.proc.node.appliedIndex ∨
      ∃ c ∈ A.proc.covers input, (A.proc.step input).1.node.appliedIndex =
        max A.proc.node.appliedIndex c) : (A.step input).Inv := by
  have hstep := (h.proc.step hinput).1
  have hindices : (A.step input).indices = A.indices := by simp [indices, Applier.step, hreturns]
  have hle := hstep.2.applied
  constructor
  · exact hstep.1
  · rw [hindices]
    exact h.ascending
  · intro i hi
    rw [hindices] at hi
    exact (h.le i hi).trans hle
  · intro i hpos hi
    rw [hindices]
    by_cases hold : i ≤ A.proc.node.appliedIndex
    · rcases h.gapFree i hpos hold with hmem | ⟨c, hc, hic⟩
      · exact Or.inl hmem
      · exact Or.inr ⟨c, List.mem_append_left _ hc, hic⟩
    · rcases happlied with heq | ⟨c, hc, heq⟩
      · exact absurd (heq ▸ hi) hold
      · refine Or.inr ⟨c, List.mem_append_right _ hc, ?_⟩
        change i ≤ (A.proc.step input).1.node.appliedIndex at hi
        rw [heq] at hi
        omega
  · simp only [Applier.step, hreturns, List.map_nil, List.append_nil]
    exact h.logged

/-- The applier takes a batch. -/
theorem Inv.take (h : A.Inv) : (A.step .getApplyMessages).Inv := by
  have hnode := h.proc.node
  have hstep := (h.proc.step (show Input.WellFormed .getApplyMessages from trivial)).1
  obtain ⟨hbatch, hlen⟩ := hnode.taken
  have hfault : A.proc.node.getApplyMessages.fault = none := hnode.getApplyMessages.2.2
  have hreturns : A.proc.returns .getApplyMessages = A.proc.node.getApplyMessages.ret := by
    simp [Proc.returns, hfault]
  have hindices : (A.step .getApplyMessages).indices = A.indices ++
      A.proc.node.getApplyMessages.ret.map ApplyMessage.commandIndex := by
    simp [indices, Applier.step, hreturns, Function.comp_def]
  have happlied : (A.step .getApplyMessages).proc.node.appliedIndex =
      A.proc.node.appliedIndex + A.proc.node.getApplyMessages.ret.length := hlen
  -- the batch follows the applied index one by one
  have hget : ∀ (k : ℕ) (i : Int),
      (A.proc.node.getApplyMessages.ret.map ApplyMessage.commandIndex)[k]? = some i →
      i = A.proc.node.appliedIndex + 1 + k ∧ k < A.proc.node.getApplyMessages.ret.length := by
    intro k i hi
    rw [List.getElem?_map, Option.map_eq_some_iff] at hi
    obtain ⟨msg, hmsg, rfl⟩ := hi
    exact ⟨(hbatch k msg hmsg).1, (List.getElem?_eq_some_iff.1 hmsg).1⟩
  constructor
  · exact hstep.1
  · rw [hindices, List.pairwise_append]
    refine ⟨h.ascending, ?_, ?_⟩
    · rw [List.pairwise_iff_getElem]
      intro a b ha hb hab
      have h1 := (hget a _ (List.getElem?_eq_getElem ha)).1
      have h2 := (hget b _ (List.getElem?_eq_getElem hb)).1
      omega
    · intro i hi j hj
      obtain ⟨k, hk⟩ := List.mem_iff_getElem?.1 hj
      have h1 := h.le i hi
      have h2 := (hget k j hk).1
      omega
  · intro i hi
    rw [hindices] at hi
    rw [happlied]
    rcases List.mem_append.1 hi with hi | hi
    · have := h.le i hi
      omega
    · obtain ⟨k, hk⟩ := List.mem_iff_getElem?.1 hi
      obtain ⟨h1, h2⟩ := hget k i hk
      omega
  · intro i hpos hi
    rw [hindices]
    rw [happlied] at hi
    by_cases hold : i ≤ A.proc.node.appliedIndex
    · rcases h.gapFree i hpos hold with hmem | ⟨c, hc, hic⟩
      · exact Or.inl (List.mem_append_left _ hmem)
      · exact Or.inr ⟨c, List.mem_append_left _ hc, hic⟩
    · left
      refine List.mem_append_right _ ?_
      have hk : (i - A.proc.node.appliedIndex - 1).toNat <
          A.proc.node.getApplyMessages.ret.length := by omega
      obtain ⟨msg, hmsg⟩ : ∃ msg, A.proc.node.getApplyMessages.ret[
          (i - A.proc.node.appliedIndex - 1).toNat]? = some msg := ⟨_, List.getElem?_eq_getElem hk⟩
      have hidx := (hbatch _ msg hmsg).1
      refine List.mem_map.2 ⟨msg, List.mem_of_getElem? hmsg, ?_⟩
      omega
  · intro r hr
    rcases List.mem_append.1 hr with hr | hr
    · exact h.logged r hr
    · rw [hreturns] at hr
      obtain ⟨msg, hmsg, rfl⟩ := List.mem_map.1 hr
      rw [hnode.getApplyMessages_eq] at hmsg
      obtain ⟨e, he, rfl⟩ := List.mem_map.1 hmsg
      have hmem : e ∈ A.proc.node.logs := List.mem_of_mem_drop (List.mem_of_mem_take he)
      obtain ⟨i, hi⟩ := List.mem_iff_getElem?.1 hmem
      have hidx := hnode.contiguous i e hi
      refine ⟨e, ?_, rfl⟩
      show A.proc.node.entryAt e.index = some e
      rw [hidx, Node.entryAt_eq, hi]

/-- Every critical section of the node, with the one fact about the applied index each needs. -/
theorem Inv.step (h : A.Inv) {input : Input n} (hinput : input.WellFormed) : (A.step input).Inv := by
  have hquiet : ¬input.ForApp → (A.step input).Inv := by
    intro hfor
    refine h.quiet hinput ?_ (Or.inl (Proc.step_appliedIndex h.proc hinput hfor))
    cases input with
    | getApplyMessages => exact absurd trivial hfor
    | _ => rfl
  cases input with
  | getApplyMessages => exact h.take
  | persist index shot =>
    refine h.quiet hinput rfl ?_
    rcases h.proc.node.contiguous.persist_cases h.proc.node.commitLeLast index shot with
      heq | ⟨e, -, -, -, -, heq⟩
    · left
      simp only [Proc.step, heq]
    · right
      refine ⟨index, ?_, ?_⟩
      · simp only [Proc.covers, heq]
        exact List.mem_singleton_self index
      · simp only [Proc.step, heq]
        rfl
  | installSnapshot args =>
    refine h.quiet hinput rfl ?_
    rcases h.proc.node.contiguous.installSnapshot_cases args with
      ⟨-, heq⟩ | ⟨-, -, heq⟩ | ⟨-, -, heq⟩
    · left
      simp only [Proc.step, heq]
    · left
      simp only [Proc.step, heq, Node.followTerm_appliedIndex]
    · right
      refine ⟨args.lastIndex, ?_, ?_⟩
      · simp only [Proc.covers, heq]
        exact List.mem_singleton_self args.lastIndex
      · simp only [Proc.step, heq]
        rfl
  | execute command => exact hquiet id
  | stand4Election => exact hquiet id
  | heartBeat => exact hquiet id
  | requestVote args => exact hquiet id
  | appendEntries args => exact hquiet id
  | readSnapshot k => exact hquiet id
  | appendReply k reply => exact hquiet id
  | voteReply k reply => exact hquiet id
  | snapshotReply k reply => exact hquiet id

/-- Over a run of one node on any requests and replies, the commands returned have strictly
    increasing indices, an index up to the commit index is missing only if it was covered or is
    still above the applied index, and each command was the one in the log when it was returned. -/
theorem gap_free_delivery (me : Fin n)
    (h : GuardedRun.Reach (Applier.new me) Applier.step (fun _ input => input.WellFormed) A) :
    A.indices.Pairwise (· < ·) ∧
    (∀ i, 0 < i → i ≤ A.proc.node.commitIndex → i ∉ A.indices →
      (∃ c ∈ A.covered, i ≤ c) ∨ A.proc.node.appliedIndex < i) ∧
    ∀ r ∈ A.returned, ∃ e, r.2.entryAt r.1.commandIndex = some e ∧ r.1.command = e.command := by
  have hinv : A.Inv := GuardedRun.Reach.invariant (P := Inv) (.new me)
    (fun A input _ hA hinput => hA.step hinput) h
  refine ⟨hinv.ascending, fun i hpos _ hmissing => ?_, hinv.logged⟩
  by_cases hle : i ≤ A.proc.node.appliedIndex
  · exact Or.inl ((hinv.gapFree i hpos hle).resolve_left hmissing)
  · exact Or.inr (not_le.1 hle)

/-- Two commands around a compaction, and a snapshot that skips the third. -/
theorem gap_free_delivery_compacted :
    let A := GuardedRun.exec Applier.step (Applier.new (0 : Fin 3))
      [.appendEntries ⟨1, 1, 0, 0, [⟨[7], 1, 1⟩, ⟨[8], 1, 2⟩], 1⟩, .getApplyMessages, .persist 1 [],
        .appendEntries ⟨1, 1, 2, 1, [], 2⟩, .getApplyMessages, .installSnapshot ⟨1, 1, 3, 1, []⟩]
    (A.indices = [1, 2] ∧ A.covered = [1, 3]) ∧ A.indices.Pairwise (· < ·) := by
  intro A
  refine ⟨by decide, (gap_free_delivery 0 (A := A) (GuardedRun.Reach.init.exec ?_)).1⟩
  decide

end Applier

end RaftKVStorage
