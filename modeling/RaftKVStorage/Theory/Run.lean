import Mathlib.Logic.Function.Iterate

set_option autoImplicit false

/-! # Guarded runs

The states a step function reaches from an initial state when every step taken satisfies a guard.
With the guard `fun _ _ => True` these are all the reachable states; a stronger guard singles out
the runs that never take a forbidden step. -/

namespace GuardedRun

variable {σ α : Type}

/-- `Reach init step ok s`: some run from `init` whose steps all satisfy `ok` ends in `s`. -/
inductive Reach (init : σ) (step : σ → α → σ) (ok : σ → α → Prop) : σ → Prop
  | init : Reach init step ok init
  | step {s : σ} (a : α) : Reach init step ok s → ok s a → Reach init step ok (step s a)

variable {init : σ} {step : σ → α → σ} {ok : σ → α → Prop}

/-- An invariant of the allowed steps holds in every state reached. The step obligation may use
    that the state it starts from is itself reached. -/
theorem Reach.invariant {P : σ → Prop} (h0 : P init)
    (hstep : ∀ s a, Reach init step ok s → P s → ok s a → P (step s a)) {s : σ}
    (h : Reach init step ok s) : P s := by
  induction h with
  | init => exact h0
  | step a hs hok ih => exact hstep _ a hs ih hok

/-- Weakening the guard only adds runs. -/
theorem Reach.mono {ok' : σ → α → Prop} (hok : ∀ s a, ok s a → ok' s a) {s : σ}
    (h : Reach init step ok s) : Reach init step ok' s := by
  induction h with
  | init => exact .init
  | step a _ ha ih => exact .step a ih (hok _ a ha)

/-- A run may be continued. -/
theorem Reach.trans {s s' : σ} (h : Reach init step ok s) (h' : Reach s step ok s') :
    Reach init step ok s' := by
  induction h' with
  | init => exact h
  | step a _ ha ih => exact .step a ih ha

/-- The state after a list of actions. -/
def exec (step : σ → α → σ) : σ → List α → σ
  | s, [] => s
  | s, a :: as => exec step (step s a) as

theorem exec_append (step : σ → α → σ) (s : σ) (as bs : List α) :
    exec step s (as ++ bs) = exec step (exec step s as) bs := by
  induction as generalizing s with
  | nil => rfl
  | cons a as ih => exact ih (step s a)

/-- Every action of the list satisfies the guard where it is taken. -/
def Allowed (step : σ → α → σ) (ok : σ → α → Prop) : σ → List α → Prop
  | _, [] => True
  | s, a :: as => ok s a ∧ Allowed step ok (step s a) as

instance Allowed.decidable (step : σ → α → σ) (ok : σ → α → Prop)
    [∀ s a, Decidable (ok s a)] : ∀ s as, Decidable (Allowed step ok s as)
  | _, [] => isTrue trivial
  | s, a :: as => @instDecidableAnd _ _ _ (Allowed.decidable step ok (step s a) as)

theorem Allowed.of_forall {ok : σ → α → Prop} (h : ∀ s a, ok s a) :
    ∀ (as : List α) (s : σ), Allowed step ok s as
  | [], _ => trivial
  | a :: as, s => ⟨h s a, Allowed.of_forall h as (step s a)⟩

/-- Actions that are allowed wherever they are taken. -/
theorem Allowed.of_forall_mem {ok : σ → α → Prop} :
    ∀ (as : List α) (s : σ), (∀ a ∈ as, ∀ s, ok s a) → Allowed step ok s as
  | [], _, _ => trivial
  | a :: as, s, h => ⟨h a List.mem_cons_self s,
      Allowed.of_forall_mem as (step s a) fun b hb => h b (List.mem_cons_of_mem a hb)⟩

/-- Running an allowed list of actions from a reached state reaches its end. -/
theorem Reach.exec {s : σ} (h : Reach init step ok s) :
    ∀ {as : List α}, Allowed step ok s as → Reach init step ok (exec step s as) := by
  intro as
  induction as generalizing s with
  | nil => exact fun _ => h
  | cons a as ih => exact fun ha => ih (.step a h ha.1) ha.2

/-! ## Termination -/

/-- Where every round from an unfinished state finishes or lowers a measure, the rounds finish, after
    no more of them than the measure said at first. -/
theorem exists_iterate_done {round : σ → σ} {I Q : σ → Prop} (μ : σ → ℕ)
    (hround : ∀ s, I s → Q (round s) ∨ I (round s) ∧ μ (round s) < μ s) {s : σ} (h : I s) :
    ∃ k ≤ μ s + 1, Q (round^[k] s) := by
  obtain ⟨m, hm⟩ : ∃ m, μ s = m := ⟨_, rfl⟩
  induction m using Nat.strongRecOn generalizing s with
  | ind m ih =>
    rcases hround s h with hdone | ⟨hnext, hlt⟩
    · exact ⟨1, Nat.le_add_left 1 _, hdone⟩
    · obtain ⟨k, hk, hdone⟩ := ih _ (hm ▸ hlt) hnext rfl
      exact ⟨k + 1, by omega, by rwa [Function.iterate_succ_apply]⟩

/-- Where every allowed action lowers a measure, no allowed list of actions is longer than it. -/
theorem Allowed.length_le {step : σ → α → σ} {ok : σ → α → Prop} (μ : σ → ℕ)
    (hlower : ∀ s a, ok s a → μ (step s a) < μ s) {s : σ} {as : List α} (h : Allowed step ok s as) :
    as.length ≤ μ s := by
  induction as generalizing s with
  | nil => exact Nat.zero_le _
  | cons a as ih =>
      have hle := ih h.2
      have hlt := hlower s a h.1
      rw [List.length_cons]
      omega

/-- What every allowed action preserves, an allowed list of actions preserves. -/
theorem Allowed.invariant {step : σ → α → σ} {ok : σ → α → Prop} {P : σ → Prop}
    (hstep : ∀ s a, P s → ok s a → P (step s a)) {s : σ} {as : List α} (h : Allowed step ok s as)
    (hs : P s) : P (exec step s as) := by
  induction as generalizing s with
  | nil => exact hs
  | cons a as ih => exact ih h.2 (hstep s a hs h.1)

/-- An invariant of the allowed actions may be added to their guard. -/
theorem Allowed.and_invariant {step : σ → α → σ} {ok : σ → α → Prop} {P : σ → Prop}
    (hstep : ∀ s a, P s → ok s a → P (step s a)) {s : σ} {as : List α} (h : Allowed step ok s as)
    (hs : P s) : Allowed step (fun s a => P s ∧ ok s a) s as := by
  induction as generalizing s with
  | nil => trivial
  | cons a as ih => exact ⟨⟨hs, h.1⟩, ih h.2 (hstep s a hs h.1)⟩

end GuardedRun
