import Mathlib.Data.Finset.Card
import Mathlib.Data.Fintype.Card
import Mathlib.Data.List.Infix
import Mathlib.Order.Basic
import Mathlib.Tactic

set_option autoImplicit false
set_option linter.unusedSectionVars false

/-! # Leader logs

An abstract account of leader-based log replication, with no messages, indices or handlers. Every
term has at most one *leader log*, which only grows; a node's own log is changed by being cut over
to a prefix of such a log. What makes a log entry permanent is a majority of acknowledgements in
the term that produced it.

The state keeps the history that the argument needs (votes and acknowledgements per term, the log a
node stood for election with). `Inv` is the inductive invariant, `Inv.step` its preservation, and
the results at the end (`Inv.take_eq_take`, `Inv.committed_prefix_later`, `Inv.committed_comparable`)
are what a concrete protocol inherits by simulating these steps. -/

namespace LeaderLogs

variable {ι τ E : Type} [Fintype ι] [DecidableEq ι] [LinearOrder τ] (tm : E → τ)

/-! ## Majorities -/

/-- More than half of all nodes. -/
def Majority (Q : Finset ι) : Prop := Fintype.card ι < 2 * Q.card

/-- Two majorities share a node. -/
theorem Majority.inter {Q R : Finset ι} (hQ : Majority Q) (hR : Majority R) : ∃ v ∈ Q, v ∈ R := by
  by_contra hdis
  push Not at hdis
  have hd : Disjoint Q R := Finset.disjoint_left.2 hdis
  have hcard : (Q ∪ R).card ≤ Fintype.card ι := Finset.card_le_univ _
  rw [Finset.card_union_of_disjoint hd] at hcard
  unfold Majority at hQ hR
  omega

/-! ## States -/

/-- Protocol state with its history. `lead T` is the log of the leader of term `T`, meaningful once
    `led T` holds, and `base T` its length when that leader was elected. `offer c T` is the log with
    which `c` stood for term `T`; `ack v T` the longest prefix of `lead T` that `v` acknowledged. -/
structure State (ι τ E : Type) where
  term : ι → τ
  log : ι → List E
  leading : ι → Prop
  vote : ι → τ → Option ι
  offer : ι → τ → Option (List E)
  ack : ι → τ → ℕ
  led : τ → Prop
  base : τ → ℕ
  lead : τ → List E

variable (s : State ι τ E)

/-- Every entry of `l` sits where the leader log of its own term has it, under the same prefix. -/
def State.Rooted (l : List E) : Prop :=
  ∀ i e, l[i]? = some e → s.led (tm e) ∧ l.take (i + 1) = (s.lead (tm e)).take (i + 1)

/-- Index `N` of term `T` holds an entry created by the leader of `T` itself. -/
def State.Proposed (T : τ) (N : ℕ) : Prop :=
  s.led T ∧ s.base T < N ∧ N ≤ (s.lead T).length

/-- A majority has left term `T` without acknowledging index `N`: it can never be committed. -/
def State.Blocked (T : τ) (N : ℕ) : Prop :=
  ∃ Q : Finset ι, Majority Q ∧ ∀ v ∈ Q, T < s.term v ∧ s.ack v T < N

/-- A majority acknowledged index `N` in the term `T` that proposed it. -/
def State.Committed (T : τ) (N : ℕ) : Prop :=
  s.Proposed T N ∧ ∃ Q : Finset ι, Majority Q ∧ ∀ v ∈ Q, N ≤ s.ack v T

/-- `l` still carries the first `N` entries of term `T`, or they are out of the race. -/
def State.Retains (T : τ) (N : ℕ) (l : List E) : Prop :=
  (s.lead T).take N <+: l ∨ s.Blocked T N

/-- `l` is part of what some term up to `B` committed. -/
def State.CommittedLog (B : τ) (l : List E) : Prop :=
  ∃ T N, T ≤ B ∧ s.Committed T N ∧ l <+: (s.lead T).take N

/-- The comparison a voter makes: the last entry of `l` is of a later term than that of `l'`, or of
    the same term and `l` is at least as long. -/
def UpToDate (l l' : List E) : Prop :=
  ∀ e' ∈ l'.getLast?, ∃ e ∈ l.getLast?, tm e' < tm e ∨ (tm e' = tm e ∧ l'.length ≤ l.length)

/-! ## Steps -/

/-- `v` enters term `T` (or stays in it) as a follower. -/
def State.follow (v : ι) (T : τ) : State ι τ E :=
  { s with term := Function.update s.term v T, leading := Function.update s.leading v False }

/-- `c` stands for term `T`, offering its log and voting for itself. -/
def State.stand (c : ι) (T : τ) : State ι τ E :=
  { s with
    term := Function.update s.term c T
    leading := Function.update s.leading c False
    offer := Function.update s.offer c (Function.update (s.offer c) T (some (s.log c)))
    vote := Function.update s.vote c (Function.update (s.vote c) T (some c)) }

/-- `v` votes for `c` in its current term. -/
def State.grant (v c : ι) : State ι τ E :=
  { s with vote := Function.update s.vote v (Function.update (s.vote v) (s.term v) (some c)) }

/-- `c` becomes the leader of its current term, its log the leader log. -/
def State.elect (c : ι) : State ι τ E :=
  { s with
    leading := Function.update s.leading c True
    led := fun T => s.led T ∨ T = s.term c
    base := Function.update s.base (s.term c) (s.log c).length
    lead := Function.update s.lead (s.term c) (s.log c) }

/-- The leader `c` appends `e` and acknowledges it to itself. -/
def State.propose (c : ι) (e : E) : State ι τ E :=
  { s with
    log := Function.update s.log c (s.log c ++ [e])
    lead := Function.update s.lead (s.term c) (s.lead (s.term c) ++ [e])
    ack := Function.update s.ack c
      (Function.update (s.ack c) (s.term c) ((s.lead (s.term c)).length + 1)) }

/-- The log of `v` becomes `l`. -/
def State.replace (v : ι) (l : List E) : State ι τ E :=
  { s with log := Function.update s.log v l, leading := Function.update s.leading v False }

/-- `v` acknowledges the first `m` entries of its term. -/
def State.acknowledge (v : ι) (m : ℕ) : State ι τ E :=
  { s with
    ack := Function.update s.ack v
      (Function.update (s.ack v) (s.term v) (max (s.ack v (s.term v)) m)) }

/-- The moves of a node. A log is only ever replaced by one that is no shorter: a prefix of the log
    of the node's current leader, or committed entries handed over as a snapshot. -/
inductive Step (s : State ι τ E) : ι → State ι τ E → Prop
  | follow (v : ι) (T : τ) (hT : s.term v ≤ T) : Step s v (s.follow v T)
  | stand (c : ι) (T : τ) (hT : s.term c < T) : Step s c (s.stand c T)
  | grant (v c : ι) (l : List E) (hfree : ∀ c', s.vote v (s.term v) = some c' → c' = c)
      (hoffer : s.offer c (s.term v) = some l) (hup : UpToDate tm l (s.log v)) :
      Step s v (s.grant v c)
  | elect (c : ι) (Q : Finset ι) (hQ : Majority Q) (hvotes : ∀ v ∈ Q, s.vote v (s.term c) = some c)
      (hnew : ¬ s.led (s.term c)) : Step s c (s.elect c)
  | propose (c : ι) (e : E) (hlead : s.leading c) (he : tm e = s.term c) : Step s c (s.propose c e)
  | accept (v : ι) (m : ℕ) (hled : s.led (s.term v)) (hm : m ≤ (s.lead (s.term v)).length)
      (hlong : (s.log v).length ≤ m) : Step s v (s.replace v ((s.lead (s.term v)).take m))
  | adopt (v : ι) (l : List E) (hl : s.CommittedLog (s.term v) l)
      (hlong : (s.log v).length ≤ l.length) : Step s v (s.replace v l)
  | acknowledge (v : ι) (m : ℕ) (hled : s.led (s.term v)) (hm : m ≤ (s.lead (s.term v)).length)
      (hhas : (s.lead (s.term v)).take m <+: s.log v) : Step s v (s.acknowledge v m)

/-- Any number of steps of one node. -/
def Steps (v : ι) : State ι τ E → State ι τ E → Prop :=
  Relation.ReflTransGen fun s s' => Step tm s v s'

/-- The state before anything happened, every node in term `T`. -/
def State.start (T : τ) : State ι τ E where
  term _ := T
  log _ := []
  leading _ := False
  vote _ _ := none
  offer _ _ := none
  ack _ _ := 0
  led _ := False
  base _ := 0
  lead _ := []

/-! ## Growth -/

/-- What no step undoes: terms and acknowledgements only rise, a node never acknowledges a term it
    has left, leader logs are only extended, votes and offers are never taken back. -/
structure Grows (s s' : State ι τ E) : Prop where
  term : ∀ v, s.term v ≤ s'.term v
  led : ∀ T, s.led T → s'.led T
  base : ∀ T, s.led T → s'.base T = s.base T
  lead : ∀ T, s.led T → s.lead T <+: s'.lead T
  ack : ∀ v T, s.ack v T ≤ s'.ack v T
  frozen : ∀ v T, T < s.term v → s'.ack v T = s.ack v T
  vote : ∀ v T c, s.vote v T = some c → s'.vote v T = some c
  offer : ∀ c T l, s.offer c T = some l → s'.offer c T = some l

theorem Grows.refl (s : State ι τ E) : Grows s s :=
  ⟨fun _ => le_rfl, fun _ h => h, fun _ _ => rfl, fun _ _ => List.prefix_rfl, fun _ _ => le_rfl,
    fun _ _ _ => rfl, fun _ _ _ h => h, fun _ _ _ h => h⟩

theorem Grows.trans {s s' s'' : State ι τ E} (h : Grows s s') (h' : Grows s' s'') : Grows s s'' where
  term v := (h.term v).trans (h'.term v)
  led T hT := h'.led T (h.led T hT)
  base T hT := (h'.base T (h.led T hT)).trans (h.base T hT)
  lead T hT := (h.lead T hT).trans (h'.lead T (h.led T hT))
  ack v T := (h.ack v T).trans (h'.ack v T)
  frozen v T hT := (h'.frozen v T (hT.trans_le (h.term v))).trans (h.frozen v T hT)
  vote v T c hv := h'.vote v T c (h.vote v T c hv)
  offer c T l hl := h'.offer c T l (h.offer c T l hl)

section Growth

variable {tm} {s} {s' : State ι τ E}

/-- A prefix taken from a leader log that is long enough stays the same prefix. -/
theorem Grows.take_lead (g : Grows s s') {T : τ} {N : ℕ} (hT : s.led T)
    (hN : N ≤ (s.lead T).length) : (s'.lead T).take N = (s.lead T).take N := by
  obtain ⟨r, hr⟩ := g.lead T hT
  rw [← hr, List.take_append_of_le_length hN]

theorem Grows.length_lead (g : Grows s s') {T : τ} (hT : s.led T) :
    (s.lead T).length ≤ (s'.lead T).length :=
  (g.lead T hT).length_le

/-- A rooted log reaches no further than the leader log of any of its entries. -/
theorem State.Rooted.lt_length {l : List E} (h : s.Rooted tm l) {i : ℕ} {e : E}
    (he : l[i]? = some e) : i < (s.lead (tm e)).length := by
  have hlen := congrArg List.length (h i e he).2
  have hi : i < l.length := (List.getElem?_eq_some_iff.1 he).1
  simp only [List.length_take] at hlen
  omega

theorem State.Rooted.mono (g : Grows s s') {l : List E} (h : s.Rooted tm l) :
    s'.Rooted tm l := by
  intro i e he
  obtain ⟨hled, htake⟩ := h i e he
  have hlen := h.lt_length he
  exact ⟨g.led _ hled, by rw [g.take_lead hled hlen, htake]⟩

theorem State.Proposed.mono (g : Grows s s') {T : τ} {N : ℕ} (h : s.Proposed T N) :
    s'.Proposed T N :=
  ⟨g.led T h.1, by rw [g.base T h.1]; exact h.2.1, h.2.2.trans (g.length_lead h.1)⟩

theorem State.Blocked.mono (g : Grows s s') {T : τ} {N : ℕ} (h : s.Blocked T N) :
    s'.Blocked T N := by
  obtain ⟨Q, hQ, hall⟩ := h
  refine ⟨Q, hQ, fun v hv => ⟨(hall v hv).1.trans_le (g.term v), ?_⟩⟩
  rw [g.frozen v T (hall v hv).1]
  exact (hall v hv).2

theorem State.Committed.mono (g : Grows s s') {T : τ} {N : ℕ} (h : s.Committed T N) :
    s'.Committed T N := by
  obtain ⟨hp, Q, hQ, hall⟩ := h
  exact ⟨hp.mono g, Q, hQ, fun v hv => (hall v hv).trans (g.ack v T)⟩

theorem State.Retains.mono (g : Grows s s') {T : τ} {N : ℕ} {l : List E} (hp : s.Proposed T N)
    (h : s.Retains T N l) : s'.Retains T N l := by
  rcases h with h | h
  · exact Or.inl (by rw [g.take_lead hp.1 hp.2.2]; exact h)
  · exact Or.inr (h.mono g)

theorem State.CommittedLog.mono (g : Grows s s') {B B' : τ} (hB : B ≤ B') {l : List E}
    (h : s.CommittedLog B l) : s'.CommittedLog B' l := by
  obtain ⟨T, N, hT, hc, hl⟩ := h
  refine ⟨T, N, hT.trans hB, hc.mono g, ?_⟩
  rw [g.take_lead hc.1.1 hc.1.2.2]
  exact hl

theorem State.CommittedLog.restrict {B : τ} {l l' : List E} (h : s.CommittedLog B l)
    (hl : l' <+: l) : s.CommittedLog B l' := by
  obtain ⟨T, N, hT, hc, hp⟩ := h
  exact ⟨T, N, hT, hc, hl.trans hp⟩

/-- A committed index is not blocked: the two majorities would share a node. -/
theorem State.Committed.not_blocked {T : τ} {N : ℕ} (h : s.Committed T N) : ¬ s.Blocked T N := by
  rintro ⟨R, hR, hblock⟩
  obtain ⟨-, Q, hQ, hack⟩ := h
  obtain ⟨v, hvQ, hvR⟩ := hQ.inter hR
  exact absurd (hack v hvQ) (not_le.2 (hblock v hvR).2)

end Growth

/-! ## The invariant -/

/-- The inductive invariant. `ackKept`, `voteKept` and `leadKept` carry an acknowledged index from
    the node that acknowledged it, through its vote, to the log of the leader it elected. -/
structure Inv (s : State ι τ E) : Prop where
  baseLe : ∀ T, s.led T → s.base T ≤ (s.lead T).length
  leadTerm : ∀ T, s.led T → ∀ i e, (s.lead T)[i]? = some e →
    (i < s.base T → tm e < T) ∧ (s.base T ≤ i → tm e = T)
  leadRooted : ∀ T, s.led T → s.Rooted tm (s.lead T)
  logRooted : ∀ v, s.Rooted tm (s.log v)
  logTerm : ∀ v, ∀ e ∈ s.log v, tm e ≤ s.term v
  leadingLog : ∀ c, s.leading c → s.led (s.term c) ∧ s.log c = s.lead (s.term c)
  leadingUnique : ∀ c c', s.leading c → s.leading c' → s.term c = s.term c' → c = c'
  voteTerm : ∀ v T c, s.vote v T = some c → T ≤ s.term v
  voteStood : ∀ v T c, s.vote v T = some c → T ≤ s.term c
  offerTerm : ∀ c T l, s.offer c T = some l → T ≤ s.term c
  offerRooted : ∀ c T l, s.offer c T = some l → s.Rooted tm l
  offerKept : ∀ c T l, s.offer c T = some l → s.term c = T → ¬ s.led T →
    ∀ T₀ < T, ∀ N, s.Proposed T₀ N → (s.lead T₀).take N <+: l → s.Retains T₀ N (s.log c)
  ackTerm : ∀ v T, 0 < s.ack v T → s.led T ∧ T ≤ s.term v ∧ s.ack v T ≤ (s.lead T).length
  ackKept : ∀ v T N, s.Proposed T N → N ≤ s.ack v T → s.Retains T N (s.log v)
  voteKept : ∀ v c T, s.vote v T = some c → s.term c = T → ¬ s.led T →
    ∀ T₀ < T, ∀ N, s.Proposed T₀ N → N ≤ s.ack v T₀ → s.Retains T₀ N (s.log c)
  leadKept : ∀ T, s.led T → ∀ T₀ < T, ∀ N, s.Proposed T₀ N → s.Retains T₀ N (s.lead T)
  ledQuorum : ∀ T, s.led T → ∃ Q : Finset ι, Majority Q ∧ ∀ v ∈ Q, T ≤ s.term v

/-! ## Consequences used by the step lemmas -/

section Consequences

variable {tm} {s}

theorem Inv.tm_le_of_mem_lead (h : Inv tm s) {T : τ} (hT : s.led T) {e : E}
    (he : e ∈ s.lead T) : tm e ≤ T := by
  obtain ⟨i, hi⟩ := List.mem_iff_getElem?.1 he
  rcases lt_or_ge i (s.base T) with hlt | hge
  · exact ((h.leadTerm T hT i e hi).1 hlt).le
  · exact ((h.leadTerm T hT i e hi).2 hge).le

/-- Terms never decrease along a rooted log. -/
theorem Inv.rooted_sorted (h : Inv tm s) {l : List E} (hl : s.Rooted tm l) {i j : ℕ} {e e' : E}
    (hi : l[i]? = some e) (hj : l[j]? = some e') (hij : i ≤ j) : tm e ≤ tm e' := by
  obtain ⟨hled, htake⟩ := hl j e' hj
  have hi' : (l.take (j + 1))[i]? = some e := by
    rw [List.getElem?_take_of_lt (by omega), hi]
  rw [htake, List.getElem?_take_of_lt (by omega)] at hi'
  exact h.tm_le_of_mem_lead hled (List.mem_of_getElem? hi')

/-- The entry at a proposed index is of the term that proposed it. -/
theorem Inv.proposed_entry (h : Inv tm s) {T : τ} {N : ℕ} (hp : s.Proposed T N) :
    ∃ e, (s.lead T)[N - 1]? = some e ∧ tm e = T := by
  obtain ⟨hled, hbase, hlen⟩ := hp
  have hlt : N - 1 < (s.lead T).length := by omega
  refine ⟨(s.lead T)[N - 1], List.getElem?_eq_getElem hlt, ?_⟩
  exact (h.leadTerm T hled (N - 1) _ (List.getElem?_eq_getElem hlt)).2 (by omega)

/-- A rooted log ending in an entry of term `T` is a prefix of the leader log of `T`. -/
theorem State.Rooted.prefix_of_last {l : List E} (h : s.Rooted tm l) {e : E}
    (he : l.getLast? = some e) : s.led (tm e) ∧ l <+: s.lead (tm e) := by
  have hne : l ≠ [] := by rintro rfl; simp at he
  have hpos : 0 < l.length := List.length_pos_of_ne_nil hne
  rw [List.getLast?_eq_getElem?] at he
  obtain ⟨hled, htake⟩ := h _ e he
  rw [Nat.sub_add_cancel hpos, List.take_length] at htake
  exact ⟨hled, htake ▸ List.take_prefix _ _⟩

theorem State.Rooted.restrict {l l' : List E} (h : s.Rooted tm l) (hl : l' <+: l) :
    s.Rooted tm l' := by
  intro i e he
  have hi : i < l'.length := (List.getElem?_eq_some_iff.1 he).1
  obtain ⟨r, rfl⟩ := hl
  have he' : (l' ++ r)[i]? = some e := by rw [List.getElem?_append_left hi, he]
  obtain ⟨hled, htake⟩ := h i e he'
  exact ⟨hled, by rw [← htake, List.take_append_of_le_length (by omega)]⟩

/-- Rooted logs with an entry of the same term at the same index agree up to it. -/
theorem State.Rooted.take_eq {l l' : List E} (h : s.Rooted tm l) (h' : s.Rooted tm l') {i : ℕ}
    {e e' : E} (he : l[i]? = some e) (he' : l'[i]? = some e') (ht : tm e = tm e') :
    l.take (i + 1) = l'.take (i + 1) := by
  rw [(h i e he).2, (h' i e' he').2, ht]

/-- A prefix of a later leader log that reaches index `N` retains it. -/
theorem Inv.retains_of_lead (h : Inv tm s) {T X : τ} {N : ℕ} {l : List E} (hp : s.Proposed T N)
    (hX : s.led X) (hTX : T ≤ X) (hl : l <+: s.lead X) (hN : N ≤ l.length) : s.Retains T N l := by
  rcases hTX.lt_or_eq with hlt | rfl
  · rcases h.leadKept X hX T hlt N hp with hk | hk
    · exact Or.inl (List.prefix_of_prefix_length_le hk hl ((List.length_take_le _ _).trans hN))
    · exact Or.inr hk
  · exact Or.inl (List.prefix_of_prefix_length_le (List.take_prefix _ _) hl
      ((List.length_take_le _ _).trans hN))

/-- What was committed in a term is part of every later leader log. -/
theorem Inv.committed_prefix_lead (h : Inv tm s) {T X : τ} {N : ℕ} (hc : s.Committed T N)
    (hX : s.led X) (hTX : T ≤ X) : (s.lead T).take N <+: s.lead X := by
  rcases hTX.lt_or_eq with hlt | rfl
  · exact (h.leadKept X hX T hlt N hc.1).resolve_right hc.not_blocked
  · exact List.take_prefix _ _

/-- A committed log that reaches index `N` retains it. -/
theorem Inv.retains_of_committed (h : Inv tm s) {T B : τ} {N : ℕ} {l : List E}
    (hp : s.Proposed T N) (hl : s.CommittedLog B l) (hN : N ≤ l.length) : s.Retains T N l := by
  obtain ⟨X, M, -, hc, hpre⟩ := hl
  rcases le_total T X with hle | hle
  · exact h.retains_of_lead hp hc.1.1 hle (hpre.trans (List.take_prefix _ _)) hN
  · exact h.retains_of_lead hp hp.1 le_rfl (hpre.trans (h.committed_prefix_lead hc hp.1 hle)) hN

/-- An index retained by a log is retained by any longer log that keeps what it reaches. -/
theorem State.Retains.extend {T : τ} {N : ℕ} {l l' : List E} (h : s.Retains T N l)
    (hp : s.Proposed T N) (hlen : l.length ≤ l'.length)
    (hkeep : N ≤ l'.length → s.Retains T N l') : s.Retains T N l' := by
  rcases h with h | h
  · have hle := h.length_le
    rw [List.length_take, min_eq_left hp.2.2] at hle
    exact hkeep (hle.trans hlen)
  · exact Or.inr h

/-- The voter's check: an up-to-date log retains every index the voter's log retains. -/
theorem Inv.retains_of_upToDate (h : Inv tm s) {T : τ} {N : ℕ} {l l' : List E}
    (hl : s.Rooted tm l) (hl' : s.Rooted tm l') (hup : UpToDate tm l l') (hp : s.Proposed T N)
    (hpre : (s.lead T).take N <+: l') : s.Retains T N l := by
  obtain ⟨x, hx, hxT⟩ := h.proposed_entry hp
  have hN : 0 < N := hp.2.1.pos
  have hlen : N ≤ l'.length := by
    have := hpre.length_le
    rwa [List.length_take, min_eq_left hp.2.2] at this
  have hx' : l'[N - 1]? = some x := by
    obtain ⟨r, rfl⟩ := hpre
    rw [List.getElem?_append_left (by simp only [List.length_take]; have := hp.2.2; omega),
      List.getElem?_take_of_lt (by omega), hx]
  obtain ⟨e', hlast⟩ : ∃ e', l'.getLast? = some e' :=
    ⟨_, List.getLast?_eq_some_getLast (by rintro rfl; simp at hx')⟩
  obtain ⟨e, he, hcmp⟩ := hup _ hlast
  have hTe' : T ≤ tm e' := by
    rw [← hxT]
    exact h.rooted_sorted hl' hx' (List.getLast?_eq_getElem? ▸ hlast) (by omega)
  obtain ⟨hled, hle⟩ := hl.prefix_of_last he
  obtain ⟨hled', hle'⟩ := hl'.prefix_of_last hlast
  rcases hcmp with hlt | ⟨heq, hlen'⟩
  · -- the offered log ends in a later term, whose leader log retains the index
    rcases h.leadKept _ hled T (hTe'.trans_lt hlt) N hp with hk | hk
    · refine Or.inl (List.prefix_of_prefix_length_le hk hle ?_)
      have hne : l ≠ [] := by rintro rfl; simp at he
      have hpos : 0 < l.length := List.length_pos_of_ne_nil hne
      have hxe : (s.lead (tm e))[N - 1]? = some x := by
        obtain ⟨r, hr⟩ := hk
        rw [← hr, List.getElem?_append_left (by simp only [List.length_take]; have := hp.2.2; omega),
          List.getElem?_take_of_lt (by omega), hx]
      have hbase : N - 1 < s.base (tm e) := by
        by_contra hge
        have := (h.leadTerm _ hled _ _ hxe).2 (not_lt.1 hge)
        rw [hxT] at this
        exact absurd (this ▸ hTe'.trans_lt hlt) (lt_irrefl _)
      have hlaste : (s.lead (tm e))[l.length - 1]? = some e := by
        rw [List.getLast?_eq_getElem?] at he
        obtain ⟨r, hr⟩ := hle
        rw [← hr, List.getElem?_append_left (by omega), he]
      have hge : s.base (tm e) ≤ l.length - 1 := by
        by_contra hlt'
        exact absurd ((h.leadTerm _ hled _ _ hlaste).1 (not_le.1 hlt')) (lt_irrefl _)
      have := List.length_take_le N (s.lead T)
      omega
    · exact Or.inr hk
  · -- both logs end in the same term, so the longer one contains the other
    rw [heq] at hle'
    exact Or.inl (hpre.trans (List.prefix_of_prefix_length_le hle' hle hlen'))

end Consequences

/-! ## Preservation -/

section Preservation

variable {tm} {s}

theorem Inv.grows_follow {v : ι} {T : τ} (hT : s.term v ≤ T) : Grows s (s.follow v T) := by
  refine { Grows.refl s with term := fun u => ?_ }
  rcases eq_or_ne u v with rfl | hu
  · simpa [State.follow] using hT
  · simp [State.follow, hu]

theorem Inv.follow (h : Inv tm s) {v : ι} {T : τ} (hT : s.term v ≤ T) : Inv tm (s.follow v T) := by
  have g : Grows s (s.follow v T) := Inv.grows_follow hT
  -- a vote or an offer for the new term of `v` can only be one for the term it was in
  have hback : ∀ c T', T' ≤ s.term c → (s.follow v T).term c = T' → s.term c = T' := by
    intro c T' hle hc
    exact le_antisymm (hc ▸ g.term c) hle
  exact
    { baseLe := h.baseLe
      leadTerm := h.leadTerm
      leadRooted := h.leadRooted
      logRooted := h.logRooted
      logTerm := fun u e he => (h.logTerm u e he).trans (g.term u)
      leadingLog := by
        intro c hc
        rcases eq_or_ne c v with rfl | hu
        · simp [State.follow] at hc
        · simp only [State.follow, Function.update_of_ne hu] at hc ⊢
          exact h.leadingLog c hc
      leadingUnique := by
        intro c c' hc hc' hterm
        have hcv : c ≠ v := by rintro rfl; simp [State.follow] at hc
        have hcv' : c' ≠ v := by rintro rfl; simp [State.follow] at hc'
        simp only [State.follow, Function.update_of_ne hcv, Function.update_of_ne hcv'] at hc hc' hterm
        exact h.leadingUnique c c' hc hc' hterm
      voteTerm := fun u T' c hv => (h.voteTerm u T' c hv).trans (g.term u)
      voteStood := fun u T' c hv => (h.voteStood u T' c hv).trans (g.term c)
      offerTerm := fun c T' l hl => (h.offerTerm c T' l hl).trans (g.term c)
      offerRooted := h.offerRooted
      offerKept := fun c T' l hl hc hled T₀ hT₀ N hp hpre =>
        (h.offerKept c T' l hl (hback c T' (h.offerTerm c T' l hl) hc) hled T₀ hT₀ N hp hpre).mono g hp
      ackTerm := fun u T' hpos =>
        have ⟨hled, hle, hlen⟩ := h.ackTerm u T' hpos
        ⟨hled, hle.trans (g.term u), hlen⟩
      ackKept := fun u T' N hp hN => (h.ackKept u T' N hp hN).mono g hp
      voteKept := fun u c T' hv hc hled T₀ hT₀ N hp hN =>
        (h.voteKept u c T' hv (hback c T' (h.voteStood u T' c hv) hc) hled T₀ hT₀ N hp hN).mono g hp
      leadKept := fun T' hT' T₀ hT₀ N hp => (h.leadKept T' hT' T₀ hT₀ N hp).mono g hp
      ledQuorum := fun T' hT' =>
        have ⟨Q, hQ, hall⟩ := h.ledQuorum T' hT'
        ⟨Q, hQ, fun u hu => (hall u hu).trans (g.term u)⟩ }

theorem Inv.grows_stand (h : Inv tm s) {c : ι} {T : τ} (hT : s.term c < T) :
    Grows s (s.stand c T) := by
  refine
    { Grows.refl s with
      term := fun u => ?_
      vote := fun u T' c' hv => ?_
      offer := fun u T' l hl => ?_ }
  · rcases eq_or_ne u c with rfl | hu
    · simpa [State.stand] using hT.le
    · simp [State.stand, hu]
  · have hne : ¬ (u = c ∧ T' = T) := by
      rintro ⟨rfl, rfl⟩
      exact absurd (h.voteTerm u T' c' hv) (not_le.2 hT)
    rcases eq_or_ne u c with rfl | hu
    · simpa [State.stand, Function.update_of_ne (fun he => hne ⟨rfl, he⟩)] using hv
    · simpa [State.stand, hu] using hv
  · have hne : ¬ (u = c ∧ T' = T) := by
      rintro ⟨rfl, rfl⟩
      exact absurd (h.offerTerm u T' l hl) (not_le.2 hT)
    rcases eq_or_ne u c with rfl | hu
    · simpa [State.stand, Function.update_of_ne (fun he => hne ⟨rfl, he⟩)] using hl
    · simpa [State.stand, hu] using hl

/-- The votes after `c` stood: the old ones and its own. -/
theorem State.stand_vote {c u c' : ι} {T T' : τ} (hv : (s.stand c T).vote u T' = some c') :
    (u = c ∧ T' = T ∧ c' = c) ∨ s.vote u T' = some c' := by
  rcases eq_or_ne u c with rfl | hu
  · rcases eq_or_ne T' T with rfl | hT'
    · simp only [State.stand, Function.update_self, Option.some.injEq] at hv
      exact Or.inl ⟨rfl, rfl, hv.symm⟩
    · simp only [State.stand, Function.update_self, Function.update_of_ne hT'] at hv
      exact Or.inr hv
  · simp only [State.stand, Function.update_of_ne hu] at hv
    exact Or.inr hv

/-- The offers after `c` stood: the old ones and the log of `c`. -/
theorem State.stand_offer {c u : ι} {T T' : τ} {l : List E}
    (hl : (s.stand c T).offer u T' = some l) :
    (u = c ∧ T' = T ∧ l = s.log c) ∨ s.offer u T' = some l := by
  rcases eq_or_ne u c with rfl | hu
  · rcases eq_or_ne T' T with rfl | hT'
    · simp only [State.stand, Function.update_self, Option.some.injEq] at hl
      exact Or.inl ⟨rfl, rfl, hl.symm⟩
    · simp only [State.stand, Function.update_self, Function.update_of_ne hT'] at hl
      exact Or.inr hl
  · simp only [State.stand, Function.update_of_ne hu] at hl
    exact Or.inr hl

theorem Inv.stand (h : Inv tm s) {c : ι} {T : τ} (hT : s.term c < T) : Inv tm (s.stand c T) := by
  have g : Grows s (s.stand c T) := h.grows_stand hT
  have hback : ∀ u T', T' ≤ s.term u → (s.stand c T).term u = T' → s.term u = T' := by
    intro u T' hle hu
    exact le_antisymm (hu ▸ g.term u) hle
  have hself : (s.stand c T).term c = T := by simp [State.stand]
  exact
    { baseLe := h.baseLe
      leadTerm := h.leadTerm
      leadRooted := h.leadRooted
      logRooted := h.logRooted
      logTerm := fun u e he => (h.logTerm u e he).trans (g.term u)
      leadingLog := by
        intro u hu
        rcases eq_or_ne u c with rfl | hne
        · simp [State.stand] at hu
        · simp only [State.stand, Function.update_of_ne hne] at hu ⊢
          exact h.leadingLog u hu
      leadingUnique := by
        intro u u' hu hu' hterm
        have huc : u ≠ c := by rintro rfl; simp [State.stand] at hu
        have huc' : u' ≠ c := by rintro rfl; simp [State.stand] at hu'
        simp only [State.stand, Function.update_of_ne huc, Function.update_of_ne huc'] at hu hu' hterm
        exact h.leadingUnique u u' hu hu' hterm
      voteTerm := by
        intro u T' c' hv
        rcases State.stand_vote hv with ⟨rfl, rfl, rfl⟩ | hv
        · exact hself.ge
        · exact (h.voteTerm u T' c' hv).trans (g.term u)
      voteStood := by
        intro u T' c' hv
        rcases State.stand_vote hv with ⟨rfl, rfl, rfl⟩ | hv
        · exact hself.ge
        · exact (h.voteStood u T' c' hv).trans (g.term c')
      offerTerm := by
        intro u T' l hl
        rcases State.stand_offer hl with ⟨rfl, rfl, rfl⟩ | hl
        · exact hself.ge
        · exact (h.offerTerm u T' l hl).trans (g.term u)
      offerRooted := by
        intro u T' l hl
        rcases State.stand_offer hl with ⟨rfl, rfl, rfl⟩ | hl
        · exact h.logRooted u
        · exact h.offerRooted u T' l hl
      offerKept := by
        intro u T' l hl hu hled T₀ hT₀ N hp hpre
        rcases State.stand_offer hl with ⟨rfl, rfl, rfl⟩ | hl
        · exact Or.inl hpre
        · exact (h.offerKept u T' l hl (hback u T' (h.offerTerm u T' l hl) hu) hled T₀ hT₀ N hp
            hpre).mono g hp
      ackTerm := fun u T' hpos =>
        have ⟨hled, hle, hlen⟩ := h.ackTerm u T' hpos
        ⟨hled, hle.trans (g.term u), hlen⟩
      ackKept := fun u T' N hp hN => (h.ackKept u T' N hp hN).mono g hp
      voteKept := by
        intro u c' T' hv hc hled T₀ hT₀ N hp hN
        rcases State.stand_vote hv with ⟨rfl, rfl, rfl⟩ | hv
        · exact (h.ackKept c' T₀ N hp hN).mono g hp
        · exact (h.voteKept u c' T' hv (hback c' T' (h.voteStood u T' c' hv) hc) hled T₀ hT₀ N hp
            hN).mono g hp
      leadKept := fun T' hT' T₀ hT₀ N hp => (h.leadKept T' hT' T₀ hT₀ N hp).mono g hp
      ledQuorum := fun T' hT' =>
        have ⟨Q, hQ, hall⟩ := h.ledQuorum T' hT'
        ⟨Q, hQ, fun u hu => (hall u hu).trans (g.term u)⟩ }

theorem Inv.grows_grant {v c : ι} (hfree : ∀ c', s.vote v (s.term v) = some c' → c' = c) :
    Grows s (s.grant v c) := by
  refine { Grows.refl s with vote := fun u T' c' hv => ?_ }
  rcases eq_or_ne u v with rfl | hu
  · rcases eq_or_ne T' (s.term u) with rfl | hT'
    · simp [State.grant, hfree c' hv]
    · simpa [State.grant, hT'] using hv
  · simpa [State.grant, hu] using hv

/-- The votes after `v` granted its vote: the old ones and the one for `c`. -/
theorem State.grant_vote {v c u c' : ι} {T' : τ} (hv : (s.grant v c).vote u T' = some c') :
    (u = v ∧ T' = s.term v ∧ c' = c) ∨ s.vote u T' = some c' := by
  rcases eq_or_ne u v with rfl | hu
  · rcases eq_or_ne T' (s.term u) with rfl | hT'
    · simp only [State.grant, Function.update_self, Option.some.injEq] at hv
      exact Or.inl ⟨rfl, rfl, hv.symm⟩
    · simp only [State.grant, Function.update_self, Function.update_of_ne hT'] at hv
      exact Or.inr hv
  · simp only [State.grant, Function.update_of_ne hu] at hv
    exact Or.inr hv

theorem Inv.grant (h : Inv tm s) {v c : ι} {l : List E}
    (hfree : ∀ c', s.vote v (s.term v) = some c' → c' = c)
    (hoffer : s.offer c (s.term v) = some l) (hup : UpToDate tm l (s.log v)) :
    Inv tm (s.grant v c) := by
  have g : Grows s (s.grant v c) := Inv.grows_grant hfree
  exact
    { h with
      voteTerm := by
        intro u T' c' hv
        rcases State.grant_vote hv with ⟨rfl, rfl, rfl⟩ | hv
        · exact le_rfl
        · exact h.voteTerm u T' c' hv
      voteStood := by
        intro u T' c' hv
        rcases State.grant_vote hv with ⟨rfl, rfl, rfl⟩ | hv
        · exact h.offerTerm c' _ l hoffer
        · exact h.voteStood u T' c' hv
      voteKept := by
        intro u c' T' hv hc hled T₀ hT₀ N hp hN
        rcases State.grant_vote hv with ⟨rfl, rfl, rfl⟩ | hv
        · rcases h.ackKept u T₀ N hp hN with hk | hk
          · rcases h.retains_of_upToDate (h.offerRooted c' _ l hoffer) (h.logRooted u) hup hp hk with
              hl | hb
            · exact (h.offerKept c' _ l hoffer hc hled T₀ hT₀ N hp hl).mono g hp
            · exact Or.inr (hb.mono g)
          · exact Or.inr (hk.mono g)
        · exact (h.voteKept u c' T' hv hc hled T₀ hT₀ N hp hN).mono g hp
      offerKept := fun u T' l hl hu hled T₀ hT₀ N hp hpre =>
        (h.offerKept u T' l hl hu hled T₀ hT₀ N hp hpre).mono g hp
      ackKept := fun u T' N hp hN => (h.ackKept u T' N hp hN).mono g hp
      leadKept := fun T' hT' T₀ hT₀ N hp => (h.leadKept T' hT' T₀ hT₀ N hp).mono g hp }

theorem Inv.grows_elect {c : ι} (hnew : ¬ s.led (s.term c)) : Grows s (s.elect c) := by
  have hne : ∀ T, s.led T → T ≠ s.term c := by
    rintro T hT rfl
    exact hnew hT
  refine
    { Grows.refl s with
      led := fun T hT => Or.inl hT
      base := fun T hT => ?_
      lead := fun T hT => ?_ }
  · simp [State.elect, hne T hT]
  · simp [State.elect, hne T hT]

/-- An election proposes nothing: the new leader log is all base. -/
theorem State.elect_proposed {c : ι} {T : τ} {N : ℕ} (hp : (s.elect c).Proposed T N) :
    T ≠ s.term c ∧ s.Proposed T N := by
  obtain ⟨hled, hbase, hlen⟩ := hp
  rcases eq_or_ne T (s.term c) with rfl | hT
  · simp only [State.elect, Function.update_self] at hbase hlen
    omega
  · simp only [State.elect, Function.update_of_ne hT] at hbase hlen
    exact ⟨hT, hled.resolve_right hT, hbase, hlen⟩

theorem Inv.elect (h : Inv tm s) {c : ι} {Q : Finset ι} (hQ : Majority Q)
    (hvotes : ∀ v ∈ Q, s.vote v (s.term c) = some c) (hnew : ¬ s.led (s.term c)) :
    Inv tm (s.elect c) := by
  have g : Grows s (s.elect c) := Inv.grows_elect hnew
  have hlead : (s.elect c).lead (s.term c) = s.log c := by simp [State.elect]
  have hbase : (s.elect c).base (s.term c) = (s.log c).length := by simp [State.elect]
  have hold : ∀ T, (s.elect c).led T → T ≠ s.term c → s.led T := fun T hT hne => hT.resolve_right hne
  have hlead' : ∀ T, T ≠ s.term c → (s.elect c).lead T = s.lead T := by
    intro T hT
    simp [State.elect, hT]
  have hbase' : ∀ T, T ≠ s.term c → (s.elect c).base T = s.base T := by
    intro T hT
    simp [State.elect, hT]
  exact
    { baseLe := by
        intro T hT
        rcases eq_or_ne T (s.term c) with rfl | hne
        · rw [hlead, hbase]
        · rw [hlead' T hne, hbase' T hne]
          exact h.baseLe T (hold T hT hne)
      leadTerm := by
        intro T hT i e he
        rcases eq_or_ne T (s.term c) with rfl | hne
        · rw [hlead] at he
          rw [hbase]
          have hi : i < (s.log c).length := (List.getElem?_eq_some_iff.1 he).1
          refine ⟨fun _ => (h.logTerm c e (List.mem_of_getElem? he)).lt_of_ne ?_, fun hge => ?_⟩
          · -- no entry of the new term exists before its leader does
            intro heq
            exact hnew (heq ▸ (h.logRooted c i e he).1)
          · omega
        · rw [hlead' T hne] at he
          rw [hbase' T hne]
          exact h.leadTerm T (hold T hT hne) i e he
      leadRooted := by
        intro T hT
        rcases eq_or_ne T (s.term c) with rfl | hne
        · rw [hlead]
          exact (h.logRooted c).mono g
        · rw [hlead' T hne]
          exact (h.leadRooted T (hold T hT hne)).mono g
      logRooted := fun v => (h.logRooted v).mono g
      logTerm := h.logTerm
      leadingLog := by
        intro u hu
        rcases eq_or_ne (s.term u) (s.term c) with heq | hne
        · refine ⟨Or.inr heq, ?_⟩
          rcases eq_or_ne u c with rfl | hu'
          · exact hlead.symm
          · simp only [State.elect, Function.update_of_ne hu'] at hu
            exact absurd (heq ▸ (h.leadingLog u hu).1) hnew
        · have hu' : u ≠ c := fun he => hne (he ▸ rfl)
          simp only [State.elect, Function.update_of_ne hu'] at hu
          exact ⟨Or.inl (h.leadingLog u hu).1, (h.leadingLog u hu).2.trans (hlead' _ hne).symm⟩
      leadingUnique := by
        have hnot : ∀ u, s.leading u → s.term u ≠ s.term c := by
          intro u hu heq
          exact hnew (heq ▸ (h.leadingLog u hu).1)
        intro u u' hu hu' hterm
        by_cases hne : u = c <;> by_cases hne' : u' = c
        · rw [hne, hne']
        · simp only [State.elect, Function.update_of_ne hne'] at hu'
          exact absurd (hne ▸ hterm.symm) (hnot u' hu')
        · simp only [State.elect, Function.update_of_ne hne] at hu
          exact absurd (hne' ▸ hterm) (hnot u hu)
        · simp only [State.elect, Function.update_of_ne hne, Function.update_of_ne hne'] at hu hu'
          exact h.leadingUnique u u' hu hu' hterm
      voteTerm := h.voteTerm
      voteStood := h.voteStood
      offerTerm := h.offerTerm
      offerRooted := fun u T l hl => (h.offerRooted u T l hl).mono g
      offerKept := by
        intro u T l hl hu hled T₀ hT₀ N hp hpre
        obtain ⟨hne, hp⟩ := State.elect_proposed hp
        rw [hlead' T₀ hne] at hpre
        exact (h.offerKept u T l hl hu (fun hT => hled (Or.inl hT)) T₀ hT₀ N hp hpre).mono g hp
      ackTerm := by
        intro v T hpos
        obtain ⟨hled, hle, hlen⟩ := h.ackTerm v T hpos
        exact ⟨Or.inl hled, hle, hlen.trans (g.length_lead hled)⟩
      ackKept := by
        intro v T N hp hN
        exact (h.ackKept v T N (State.elect_proposed hp).2 hN).mono g (State.elect_proposed hp).2
      voteKept := by
        intro v u T hv hu hled T₀ hT₀ N hp hN
        exact (h.voteKept v u T hv hu (fun hT => hled (Or.inl hT)) T₀ hT₀ N
          (State.elect_proposed hp).2 hN).mono g (State.elect_proposed hp).2
      leadKept := by
        intro T hT T₀ hT₀ N hp
        obtain ⟨hne₀, hp⟩ := State.elect_proposed hp
        rcases eq_or_ne T (s.term c) with rfl | hne
        · rw [hlead]
          -- either some voter acknowledged the index and brought it along, or the voters block it
          by_cases hack : ∃ v ∈ Q, N ≤ s.ack v T₀
          · obtain ⟨v, hv, hN⟩ := hack
            exact (h.voteKept v c _ (hvotes v hv) rfl hnew T₀ hT₀ N hp hN).mono g hp
          · refine Or.inr ⟨Q, hQ, fun v hv => ⟨hT₀.trans_le (h.voteTerm v _ c (hvotes v hv)), ?_⟩⟩
            exact not_le.1 fun hN => hack ⟨v, hv, hN⟩
        · rw [hlead' T hne]
          exact (h.leadKept T (hold T hT hne) T₀ hT₀ N hp).mono g hp
      ledQuorum := by
        intro T hT
        rcases eq_or_ne T (s.term c) with rfl | hne
        · exact ⟨Q, hQ, fun v hv => h.voteTerm v _ c (hvotes v hv)⟩
        · exact h.ledQuorum T (hold T hT hne) }

theorem Inv.grows_propose (h : Inv tm s) {c : ι} {e : E} (hc : s.leading c) :
    Grows s (s.propose c e) := by
  refine
    { Grows.refl s with
      lead := fun T _ => ?_
      ack := fun v T => ?_
      frozen := fun v T hT => ?_ }
  · rcases eq_or_ne T (s.term c) with rfl | hne
    · simp [State.propose]
    · simp [State.propose, hne]
  · rcases eq_or_ne v c with rfl | hv
    · rcases eq_or_ne T (s.term v) with rfl | hne
      · simp only [State.propose, Function.update_self]
        rcases Nat.eq_zero_or_pos (s.ack v (s.term v)) with h0 | hpos
        · omega
        · exact (h.ackTerm v _ hpos).2.2.trans (Nat.le_succ _)
      · simp [State.propose, hne]
    · simp [State.propose, hv]
  · rcases eq_or_ne v c with rfl | hv
    · simp [State.propose, hT.ne]
    · simp [State.propose, hv]

/-- A proposal adds the one index past the end of the leader log of its term. -/
theorem State.propose_proposed {c : ι} {e : E} {T : τ} {N : ℕ} (hp : (s.propose c e).Proposed T N) :
    s.Proposed T N ∨ (T = s.term c ∧ N = (s.lead (s.term c)).length + 1) := by
  obtain ⟨hled, hbase, hlen⟩ := hp
  rcases eq_or_ne T (s.term c) with rfl | hne
  · simp only [State.propose, Function.update_self, List.length_append, List.length_singleton] at hlen
    rcases Nat.lt_or_ge (s.lead (s.term c)).length N with hlt | hge
    · exact Or.inr ⟨rfl, by omega⟩
    · exact Or.inl ⟨hled, hbase, hge⟩
  · simp only [State.propose, Function.update_of_ne hne] at hlen
    exact Or.inl ⟨hled, hbase, hlen⟩

theorem Inv.propose (h : Inv tm s) {c : ι} {e : E} (hc : s.leading c) (he : tm e = s.term c) :
    Inv tm (s.propose c e) := by
  have g : Grows s (s.propose c e) := h.grows_propose hc
  obtain ⟨hledc, hlogc⟩ := h.leadingLog c hc
  have hlead : (s.propose c e).lead (s.term c) = s.lead (s.term c) ++ [e] := by simp [State.propose]
  have hlead' : ∀ T, T ≠ s.term c → (s.propose c e).lead T = s.lead T := by
    intro T hT
    simp [State.propose, hT]
  have hlog : (s.propose c e).log c = s.lead (s.term c) ++ [e] := by
    simp [State.propose, hlogc]
  have hlog' : ∀ v, v ≠ c → (s.propose c e).log v = s.log v := by
    intro v hv
    simp [State.propose, hv]
  have hack' : ∀ v T, v ≠ c → (s.propose c e).ack v T = s.ack v T := by
    intro v T hv
    simp [State.propose, hv]
  have hackLe : ∀ v, s.ack v (s.term c) ≤ (s.lead (s.term c)).length := by
    intro v
    rcases Nat.eq_zero_or_pos (s.ack v (s.term c)) with h0 | hpos
    · omega
    · exact (h.ackTerm v _ hpos).2.2
  -- a node in a later term has not acknowledged the new index
  have hlate : ∀ v T, s.term c < T → T ≤ s.term v →
      (s.propose c e).ack v (s.term c) < (s.lead (s.term c)).length + 1 := by
    intro v T hT hv
    rw [hack' v _ (fun hvc => absurd (hvc ▸ hv) (not_le.2 hT))]
    exact Nat.lt_succ_of_le (hackLe v)
  have hrooted : (s.propose c e).Rooted tm (s.lead (s.term c) ++ [e]) := by
    intro i x hx
    rcases Nat.lt_or_ge i (s.lead (s.term c)).length with hi | hi
    · rw [List.getElem?_append_left hi] at hx
      obtain ⟨hled, htake⟩ := (h.leadRooted _ hledc).mono g i x hx
      exact ⟨hled, by rw [← htake, List.take_append_of_le_length (by omega)]⟩
    · have hi' : i = (s.lead (s.term c)).length := by
        have := (List.getElem?_eq_some_iff.1 hx).1
        simp only [List.length_append, List.length_singleton] at this
        omega
      subst hi'
      simp only [List.getElem?_concat_length, Option.some.injEq] at hx
      subst hx
      exact ⟨he ▸ hledc, by rw [he, hlead]⟩
  exact
    { baseLe := by
        intro T hT
        exact (h.baseLe T hT).trans (g.length_lead hT)
      leadTerm := by
        intro T hT i x hx
        rcases eq_or_ne T (s.term c) with rfl | hne
        · rw [hlead] at hx
          rcases Nat.lt_or_ge i (s.lead (s.term c)).length with hi | hi
          · rw [List.getElem?_append_left hi] at hx
            exact h.leadTerm _ hT i x hx
          · have hi' : i = (s.lead (s.term c)).length := by
              have := (List.getElem?_eq_some_iff.1 hx).1
              simp only [List.length_append, List.length_singleton] at this
              omega
            subst hi'
            simp only [List.getElem?_concat_length, Option.some.injEq] at hx
            subst hx
            exact ⟨fun hlt => absurd (h.baseLe _ hledc) (not_le.2 hlt), fun _ => he⟩
        · rw [hlead' T hne] at hx
          exact h.leadTerm T hT i x hx
      leadRooted := by
        intro T hT
        rcases eq_or_ne T (s.term c) with rfl | hne
        · rw [hlead]
          exact hrooted
        · rw [hlead' T hne]
          exact (h.leadRooted T hT).mono g
      logRooted := by
        intro v
        rcases eq_or_ne v c with rfl | hv
        · rw [hlog]
          exact hrooted
        · rw [hlog' v hv]
          exact (h.logRooted v).mono g
      logTerm := by
        intro v x hx
        rcases eq_or_ne v c with rfl | hv
        · rw [hlog, ← hlogc, List.mem_append, List.mem_singleton] at hx
          rcases hx with hx | rfl
          · exact h.logTerm v x hx
          · exact he.le
        · rw [hlog' v hv] at hx
          exact h.logTerm v x hx
      leadingLog := by
        intro u hu
        refine ⟨(h.leadingLog u hu).1, ?_⟩
        rcases eq_or_ne u c with rfl | hne
        · rw [hlog]
          exact hlead.symm
        · rw [hlog' u hne]
          have hne' : s.term u ≠ s.term c := fun heq => hne (h.leadingUnique u c hu hc heq)
          exact (h.leadingLog u hu).2.trans (hlead' _ hne').symm
      leadingUnique := h.leadingUnique
      voteTerm := h.voteTerm
      voteStood := h.voteStood
      offerTerm := h.offerTerm
      offerRooted := fun u T l hl => (h.offerRooted u T l hl).mono g
      offerKept := by
        intro u T l hl hu hled T₀ hT₀ N hp hpre
        rcases State.propose_proposed hp with hp | ⟨rfl, rfl⟩
        · rw [g.take_lead hp.1 hp.2.2] at hpre
          have hk := (h.offerKept u T l hl hu hled T₀ hT₀ N hp hpre).mono g hp
          rwa [hlog' u (fun huc => hled (hu ▸ huc ▸ hledc))]
        · -- the offered log cannot hold the entry that is only now created
          exfalso
          have hx : l[(s.lead (s.term c)).length]? = some e := by
            obtain ⟨r, rfl⟩ := hpre
            rw [hlead, List.take_of_length_le (by simp)]
            simp
          have := (h.offerRooted u T l hl).lt_length hx
          rw [he] at this
          exact lt_irrefl _ this
      ackTerm := by
        intro v T hpos
        rcases eq_or_ne v c with rfl | hv
        · rcases eq_or_ne T (s.term v) with rfl | hne
          · refine ⟨hledc, le_rfl, ?_⟩
            rw [hlead]
            simp [State.propose]
          · simp only [State.propose, Function.update_self, Function.update_of_ne hne] at hpos ⊢
            exact h.ackTerm v T hpos
        · rw [hack' v T hv] at hpos ⊢
          obtain ⟨hled, hle, hlen⟩ := h.ackTerm v T hpos
          exact ⟨hled, hle, hlen.trans (g.length_lead hled)⟩
      ackKept := by
        intro v T N hp hN
        rcases eq_or_ne v c with rfl | hv
        · rcases eq_or_ne T (s.term v) with rfl | hne
          · rw [hlog]
            exact Or.inl (hlead ▸ List.take_prefix _ _)
          · rcases State.propose_proposed hp with hp | ⟨rfl, rfl⟩
            · simp only [State.propose, Function.update_self, Function.update_of_ne hne] at hN
              rcases (h.ackKept v T N hp hN).mono g hp with hk | hk
              · rw [hlog, ← hlogc]
                exact Or.inl (hk.trans (List.prefix_append _ _))
              · exact Or.inr hk
            · exact absurd rfl hne
        · rw [hack' v T hv] at hN
          rw [hlog' v hv]
          rcases State.propose_proposed hp with hp | ⟨rfl, rfl⟩
          · exact (h.ackKept v T N hp hN).mono g hp
          · exact absurd (hackLe v) (by omega)
      voteKept := by
        intro v u T hv hu hled T₀ hT₀ N hp hN
        rw [hlog' u (fun huc => hled (hu ▸ huc ▸ hledc))]
        rcases State.propose_proposed hp with hp | ⟨rfl, rfl⟩
        · rw [g.frozen v T₀ (hT₀.trans_le (h.voteTerm v T u hv))] at hN
          exact (h.voteKept v u T hv hu hled T₀ hT₀ N hp hN).mono g hp
        · exact absurd hN (not_le.2 (hlate v T hT₀ (h.voteTerm v T u hv)))
      leadKept := by
        intro T hT T₀ hT₀ N hp
        rcases State.propose_proposed hp with hp | ⟨rfl, rfl⟩
        · rcases (h.leadKept T hT T₀ hT₀ N hp).mono g hp with hk | hk
          · exact Or.inl (hk.trans (g.lead T hT))
          · exact Or.inr hk
        · obtain ⟨Q, hQ, hall⟩ := h.ledQuorum T hT
          exact Or.inr ⟨Q, hQ, fun v hv =>
            ⟨hT₀.trans_le (hall v hv), hlate v T hT₀ (hall v hv)⟩⟩
      ledQuorum := h.ledQuorum }

theorem Inv.grows_replace {v : ι} {l : List E} : Grows s (s.replace v l) :=
  { Grows.refl s with }

/-- Replacing a log keeps the invariant when the new log is rooted, of terms up to the node's, and
    retains what the old one did. `hkeep` need only treat terms up to the node's own; a leader that
    has not yet been elected in the node's term may assume so. -/
theorem Inv.replace (h : Inv tm s) {v : ι} {l : List E} (hrooted : s.Rooted tm l)
    (hterm : ∀ e ∈ l, tm e ≤ s.term v)
    (hkeep : ∀ T N, T ≤ s.term v → (s.led (s.term v) ∨ T < s.term v) → s.Proposed T N →
      s.Retains T N (s.log v) → s.Retains T N l) : Inv tm (s.replace v l) := by
  have hlog : (s.replace v l).log v = l := by simp [State.replace]
  have hlog' : ∀ u, u ≠ v → (s.replace v l).log u = s.log u := by
    intro u hu
    simp [State.replace, hu]
  have hleading : ∀ u, (s.replace v l).leading u → u ≠ v ∧ s.leading u := by
    intro u hu
    have hne : u ≠ v := by rintro rfl; simp [State.replace] at hu
    exact ⟨hne, by simpa [State.replace, hne] using hu⟩
  exact
    { h with
      logRooted := by
        intro u
        rcases eq_or_ne u v with rfl | hu
        · rw [hlog]
          exact hrooted
        · rw [hlog' u hu]
          exact h.logRooted u
      logTerm := by
        intro u
        rcases eq_or_ne u v with rfl | hu
        · rw [hlog]
          exact hterm
        · rw [hlog' u hu]
          exact h.logTerm u
      leadingLog := by
        intro u hu
        obtain ⟨hne, hu⟩ := hleading u hu
        rw [hlog' u hne]
        exact h.leadingLog u hu
      leadingUnique := fun u u' hu hu' => h.leadingUnique u u' (hleading u hu).2 (hleading u' hu').2
      offerKept := by
        intro u T l' hl' hu hled T₀ hT₀ N hp hpre
        have hk := h.offerKept u T l' hl' hu hled T₀ hT₀ N hp hpre
        rcases eq_or_ne u v with rfl | hne
        · rw [hlog]
          subst hu
          exact hkeep T₀ N hT₀.le (Or.inr hT₀) hp hk
        · rw [hlog' u hne]
          exact hk
      ackKept := by
        intro u T N hp hN
        have hk := h.ackKept u T N hp hN
        rcases eq_or_ne u v with rfl | hne
        · rw [hlog]
          have hpos : 0 < s.ack u T := hp.2.1.pos.trans_le hN
          have hT := (h.ackTerm u T hpos).2.1
          refine hkeep T N hT ?_ hp hk
          rcases hT.lt_or_eq with hlt | heq
          · exact Or.inr hlt
          · exact Or.inl (heq ▸ hp.1)
        · rw [hlog' u hne]
          exact hk
      voteKept := by
        intro u c T hv hc hled T₀ hT₀ N hp hN
        have hk := h.voteKept u c T hv hc hled T₀ hT₀ N hp hN
        rcases eq_or_ne c v with rfl | hne
        · rw [hlog]
          subst hc
          exact hkeep T₀ N hT₀.le (Or.inr hT₀) hp hk
        · rw [hlog' c hne]
          exact hk }

theorem Inv.accept (h : Inv tm s) {v : ι} {m : ℕ} (hled : s.led (s.term v))
    (hm : m ≤ (s.lead (s.term v)).length) (hlong : (s.log v).length ≤ m) :
    Inv tm (s.replace v ((s.lead (s.term v)).take m)) := by
  have hlen : ((s.lead (s.term v)).take m).length = m := by rw [List.length_take, min_eq_left hm]
  refine h.replace ((h.leadRooted _ hled).restrict (List.take_prefix _ _)) ?_ ?_
  · exact fun e he => h.tm_le_of_mem_lead hled (List.mem_of_mem_take he)
  · intro T N hT _ hp hk
    exact hk.extend hp (by rw [hlen]; exact hlong)
      (h.retains_of_lead hp hled hT (List.take_prefix _ _))

theorem Inv.adopt (h : Inv tm s) {v : ι} {l : List E} (hl : s.CommittedLog (s.term v) l)
    (hlong : (s.log v).length ≤ l.length) : Inv tm (s.replace v l) := by
  obtain ⟨X, M, hX, hc, hpre⟩ := hl
  have hlead : l <+: s.lead X := hpre.trans (List.take_prefix _ _)
  refine h.replace ((h.leadRooted X hc.1.1).restrict hlead) ?_ ?_
  · exact fun e he => (h.tm_le_of_mem_lead hc.1.1 (hlead.subset he)).trans hX
  · intro T N _ _ hp hk
    exact hk.extend hp hlong (h.retains_of_committed hp ⟨X, M, hX, hc, hpre⟩)

theorem Inv.grows_acknowledge {v : ι} {m : ℕ} : Grows s (s.acknowledge v m) := by
  refine
    { Grows.refl s with
      ack := fun u T => ?_
      frozen := fun u T hT => ?_ }
  · rcases eq_or_ne u v with rfl | hu
    · rcases eq_or_ne T (s.term u) with rfl | hne
      · simp [State.acknowledge]
      · simp [State.acknowledge, hne]
    · simp [State.acknowledge, hu]
  · rcases eq_or_ne u v with rfl | hu
    · simp [State.acknowledge, hT.ne]
    · simp [State.acknowledge, hu]

/-- After `v` acknowledged `m`, what is acknowledged was so before, or is up to `m` in its term. -/
theorem State.acknowledge_le {v u : ι} {m N : ℕ} {T : τ} (hN : N ≤ (s.acknowledge v m).ack u T) :
    N ≤ s.ack u T ∨ (u = v ∧ T = s.term v ∧ N ≤ m) := by
  rcases eq_or_ne u v with rfl | hu
  · rcases eq_or_ne T (s.term u) with rfl | hne
    · simp only [State.acknowledge, Function.update_self, le_max_iff] at hN
      rcases hN with hN | hN
      · exact Or.inl hN
      · exact Or.inr ⟨rfl, rfl, hN⟩
    · simp only [State.acknowledge, Function.update_self, Function.update_of_ne hne] at hN
      exact Or.inl hN
  · simp only [State.acknowledge, Function.update_of_ne hu] at hN
    exact Or.inl hN

theorem Inv.acknowledge (h : Inv tm s) {v : ι} {m : ℕ} (hled : s.led (s.term v))
    (hm : m ≤ (s.lead (s.term v)).length) (hhas : (s.lead (s.term v)).take m <+: s.log v) :
    Inv tm (s.acknowledge v m) := by
  have g : Grows s (s.acknowledge v m) := Inv.grows_acknowledge
  exact
    { h with
      offerKept := fun u T l hl hu hT T₀ hT₀ N hp hpre =>
        (h.offerKept u T l hl hu hT T₀ hT₀ N hp hpre).mono g hp
      ackTerm := by
        intro u T hpos
        rcases State.acknowledge_le (Nat.succ_le_of_lt hpos) with hpos' | ⟨rfl, rfl, -⟩
        · obtain ⟨hled', hle, hlen⟩ := h.ackTerm u T hpos'
          refine ⟨hled', hle, ?_⟩
          rcases State.acknowledge_le (le_refl ((s.acknowledge v m).ack u T)) with hN | ⟨rfl, rfl, hN⟩
          · exact hN.trans hlen
          · exact hN.trans hm
        · refine ⟨hled, le_rfl, ?_⟩
          rcases State.acknowledge_le (le_refl ((s.acknowledge u m).ack u (s.term u))) with
            hN | ⟨-, -, hN⟩
          · rcases Nat.eq_zero_or_pos (s.ack u (s.term u)) with h0 | hpos'
            · omega
            · exact hN.trans (h.ackTerm u _ hpos').2.2
          · exact hN.trans hm
      ackKept := by
        intro u T N hp hN
        rcases State.acknowledge_le hN with hN | ⟨rfl, rfl, hNm⟩
        · exact (h.ackKept u T N hp hN).mono g hp
        · refine Or.inl (List.IsPrefix.trans ?_ hhas)
          exact List.take_prefix_take_left (l := s.lead (s.term u)) hNm
      voteKept := by
        intro u c T hv hc hT T₀ hT₀ N hp hN
        rw [g.frozen u T₀ (hT₀.trans_le (h.voteTerm u T c hv))] at hN
        exact (h.voteKept u c T hv hc hT T₀ hT₀ N hp hN).mono g hp
      leadKept := fun T hT T₀ hT₀ N hp => (h.leadKept T hT T₀ hT₀ N hp).mono g hp }

/-- Every step keeps the invariant and takes nothing back. -/
theorem Inv.step (h : Inv tm s) {v : ι} {s' : State ι τ E} (hs : Step tm s v s') :
    Inv tm s' ∧ Grows s s' := by
  cases hs with
  | follow T hT => exact ⟨h.follow hT, Inv.grows_follow hT⟩
  | stand T hT => exact ⟨h.stand hT, h.grows_stand hT⟩
  | grant c l hfree hoffer hup => exact ⟨h.grant hfree hoffer hup, Inv.grows_grant hfree⟩
  | elect Q hQ hvotes hnew => exact ⟨h.elect hQ hvotes hnew, Inv.grows_elect hnew⟩
  | propose e hlead he => exact ⟨h.propose hlead he, h.grows_propose hlead⟩
  | accept m hled hm hlong => exact ⟨h.accept hled hm hlong, Inv.grows_replace⟩
  | adopt l hl hlong => exact ⟨h.adopt hl hlong, Inv.grows_replace⟩
  | acknowledge m hled hm hhas => exact ⟨h.acknowledge hled hm hhas, Inv.grows_acknowledge⟩

theorem Inv.steps (h : Inv tm s) {v : ι} {s' : State ι τ E} (hs : Steps tm v s s') :
    Inv tm s' ∧ Grows s s' := by
  induction hs with
  | refl => exact ⟨h, Grows.refl s⟩
  | tail _ hlast ih =>
      obtain ⟨hinv, hgrows⟩ := ih.1.step hlast
      exact ⟨hinv, ih.2.trans hgrows⟩

theorem Inv.start (T : τ) : Inv tm (State.start T : State ι τ E) := by
  constructor <;> simp [State.start, State.Rooted, State.Proposed]

end Preservation

/-! ## Frames -/

/-- The part of the state that belongs to node `u` is the same. -/
def SameAt (u : ι) (s s' : State ι τ E) : Prop :=
  s'.term u = s.term u ∧ s'.log u = s.log u ∧ s'.leading u = s.leading u ∧
    s'.vote u = s.vote u ∧ s'.offer u = s.offer u ∧ s'.ack u = s.ack u

/-- A step of one node leaves the others alone. -/
theorem Step.frame {v u : ι} {s' : State ι τ E} (hs : Step tm s v s') (hu : u ≠ v) :
    SameAt u s s' := by
  cases hs <;> simp [SameAt, State.follow, State.stand, State.grant, State.elect, State.propose,
    State.replace, State.acknowledge, hu]

theorem Steps.frame {v u : ι} {s' : State ι τ E} (hs : Steps tm v s s') (hu : u ≠ v) :
    SameAt u s s' := by
  induction hs with
  | refl => exact ⟨rfl, rfl, rfl, rfl, rfl, rfl⟩
  | tail _ hlast ih =>
      obtain ⟨h1, h2, h3, h4, h5, h6⟩ := ih
      obtain ⟨g1, g2, g3, g4, g5, g6⟩ := hlast.frame tm _ hu
      exact ⟨g1.trans h1, g2.trans h2, g3.trans h3, g4.trans h4, g5.trans h5, g6.trans h6⟩

/-! ## Results -/

section Results

variable {tm} {s}

/-- Log matching: two node logs with an entry of the same term at the same index are the same up to
    it. -/
theorem Inv.take_eq_take (h : Inv tm s) {v u : ι} {i : ℕ} {e e' : E} (he : (s.log v)[i]? = some e)
    (he' : (s.log u)[i]? = some e') (ht : tm e = tm e') :
    (s.log v).take (i + 1) = (s.log u).take (i + 1) :=
  (h.logRooted v).take_eq (h.logRooted u) he he' ht

/-- Leader completeness: what was committed in a term is part of the log with which any later
    leader was elected. -/
theorem Inv.committed_prefix_later (h : Inv tm s) {T X : τ} {N : ℕ} (hc : s.Committed T N)
    (hX : s.led X) (hTX : T < X) : (s.lead T).take N <+: (s.lead X).take (s.base X) := by
  have hpre := h.committed_prefix_lead hc hX hTX.le
  obtain ⟨x, hx, hxT⟩ := h.proposed_entry hc.1
  have hN := hc.1.2.2
  have hpos : 0 < N := hc.1.2.1.pos
  have hx' : (s.lead X)[N - 1]? = some x := by
    obtain ⟨r, hr⟩ := hpre
    rw [← hr, List.getElem?_append_left (by simp only [List.length_take]; omega),
      List.getElem?_take_of_lt (by omega), hx]
  have hbase : N ≤ s.base X := by
    by_contra hlt
    have := (h.leadTerm X hX _ _ hx').2 (by omega)
    exact absurd (hxT.symm.trans this) hTX.ne
  refine List.prefix_of_prefix_length_le hpre (List.take_prefix _ _) ?_
  rw [List.length_take, List.length_take, min_eq_left hN, min_eq_left (h.baseLe X hX)]
  exact hbase

/-- Committed entries are part of the log with which any later leader was elected. -/
theorem Inv.committedLog_prefix_base (h : Inv tm s) {B X : τ} {l : List E}
    (hl : s.CommittedLog B l) (hX : s.led X) (hBX : B < X) : l <+: (s.lead X).take (s.base X) := by
  obtain ⟨T, N, hT, hc, hpre⟩ := hl
  exact hpre.trans (h.committed_prefix_later hc hX (hT.trans_lt hBX))

/-- Committed entries are part of every leader log from their term on. -/
theorem Inv.committedLog_prefix_lead (h : Inv tm s) {B X : τ} {l : List E}
    (hl : s.CommittedLog B l) (hX : s.led X) (hBX : B ≤ X) : l <+: s.lead X := by
  obtain ⟨T, N, hT, hc, hpre⟩ := hl
  exact hpre.trans (h.committed_prefix_lead hc hX (hT.trans hBX))

/-- All committed entries are on one line: of two committed logs one extends the other. -/
theorem Inv.committed_comparable (h : Inv tm s) {B B' : τ} {l l' : List E}
    (hl : s.CommittedLog B l) (hl' : s.CommittedLog B' l') : l <+: l' ∨ l' <+: l := by
  obtain ⟨T, N, -, hc, hpre⟩ := hl
  obtain ⟨T', N', -, hc', hpre'⟩ := hl'
  have hboth : ∃ X, l <+: s.lead X ∧ l' <+: s.lead X := by
    rcases le_total T T' with hle | hle
    · exact ⟨T', hpre.trans (h.committed_prefix_lead hc hc'.1.1 hle),
        hpre'.trans (List.take_prefix _ _)⟩
    · exact ⟨T, hpre.trans (List.take_prefix _ _),
        hpre'.trans (h.committed_prefix_lead hc' hc.1.1 hle)⟩
  obtain ⟨X, h1, h2⟩ := hboth
  exact List.prefix_or_prefix_of_prefix h1 h2

end Results

end LeaderLogs
