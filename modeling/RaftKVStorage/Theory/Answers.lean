import RaftKVStorage.Theory.Run

set_option autoImplicit false

/-! # Machines that answer

A machine takes a call and gives an answer. Two machines whose states stay related while the calls
satisfy a guard, and which answer alike in related states, answer every guarded sequence of calls
alike: nobody who only sees the answers can tell them apart. -/

namespace Answering

open GuardedRun

variable {σ τ α β : Type}

/-- The state after one call. -/
def next (step : σ → α → σ × β) (s : σ) (a : α) : σ := (step s a).1

/-- The answers to a list of calls. -/
def answers (step : σ → α → σ × β) : σ → List α → List β
  | _, [] => []
  | s, a :: as => (step s a).2 :: answers step (step s a).1 as

variable {step : σ → α → σ × β} {step' : τ → α → τ × β} {R : σ → τ → Prop} {ok : σ → α → Prop}

/-- The states stay related. -/
theorem related_exec
    (hsim : ∀ s t a, R s t → ok s a → R (step s a).1 (step' t a).1 ∧ (step s a).2 = (step' t a).2)
    {s : σ} {t : τ} (hR : R s t) {as : List α} (hok : Allowed (next step) ok s as) :
    R (exec (next step) s as) (exec (next step') t as) := by
  induction as generalizing s t with
  | nil => exact hR
  | cons a as ih => exact ih (hsim s t a hR hok.1).1 hok.2

/-- The answers are the same. -/
theorem answers_eq
    (hsim : ∀ s t a, R s t → ok s a → R (step s a).1 (step' t a).1 ∧ (step s a).2 = (step' t a).2)
    {s : σ} {t : τ} (hR : R s t) {as : List α} (hok : Allowed (next step) ok s as) :
    answers step s as = answers step' t as := by
  induction as generalizing s t with
  | nil => rfl
  | cons a as ih =>
      obtain ⟨hR', heq⟩ := hsim s t a hR hok.1
      rw [answers, answers, heq, ih hR' hok.2]

end Answering
