import RaftKVStorage.Theory.Monitor

set_option autoImplicit false

/-! # The command channels

Class `safequeue`, which carries commands and snapshots from `raft` to `kvServer` and results to the
waiting handlers. `push` notifies while it holds the lock, so it is one step; a `pop` is one step for
each time it holds the lock. A timed `pop` whose `wait_for` comes back with `timeout` returns without
another look at the container, even if a notification has just woken it. -/

namespace RaftKVStorage

open GuardedRun Monitor

/-- A thread: outside, at the head of the loop of `pop` for the first time, in `wait`, or back from
    it. The flag tells a `pop` with a timeout. -/
inductive Popper
  | idle
  | entering (timed : Bool)
  | asleep (timed : Bool)
  | woken (timed : Bool)
deriving DecidableEq, Repr

/-- The queue and the threads that pop from it; `pushed` and `popped` are the values so far, those
    popped with the thread they went to. -/
structure SafeQueue (α : Type) where
  poppers : List Popper
  container : List α := []
  pushed : List α := []
  popped : List (ℕ × α) := []
deriving DecidableEq, Repr

variable {α : Type}

/-- An empty queue for `m` threads. -/
def SafeQueue.new (m : ℕ) : SafeQueue α := { poppers := List.replicate m .idle }

inductive SafeQueueStep (α : Type)
  /-- `push`, with the sleeper `notify_one` wakes if there is one. -/
  | push (val : α) (k : ℕ)
  | call (k : ℕ) (timed : Bool)
  /-- Thread `k` has the lock and looks at the container. -/
  | look (k : ℕ)
  /-- Thread `k` wakes up without a notification. -/
  | wake (k : ℕ)
  /-- `wait_for` returns `timeout` in thread `k`. -/
  | expire (k : ℕ)
deriving DecidableEq, Repr

def Popper.isAsleep : Popper → Bool
  | .asleep _ => true
  | _ => false

/-- On its way to look at the container. -/
def Popper.isReady : Popper → Bool
  | .entering _ => true
  | .woken _ => true
  | _ => false

/-- What a thread does that finds the container empty, or takes its front. -/
def SafeQueue.lookAs (Q : SafeQueue α) (k : ℕ) (timed : Bool) : SafeQueue α :=
  match Q.container with
  | [] => { Q with poppers := Q.poppers.set k (.asleep timed) }
  | val :: rest =>
      { Q with
        poppers := Q.poppers.set k .idle
        container := rest
        popped := Q.popped ++ [(k, val)] }

def SafeQueue.step (Q : SafeQueue α) : SafeQueueStep α → SafeQueue α
  | .push val k =>
      let Q' := { Q with container := Q.container ++ [val], pushed := Q.pushed ++ [val] }
      if Q.poppers.any Popper.isAsleep then
        match Q.poppers[k]? with
        | some (.asleep timed) => { Q' with poppers := Q.poppers.set k (.woken timed) }
        | _ => Q
      else Q'
  | .call k timed =>
      match Q.poppers[k]? with
      | some .idle => { Q with poppers := Q.poppers.set k (.entering timed) }
      | _ => Q
  | .look k =>
      match Q.poppers[k]? with
      | some (.entering timed) => Q.lookAs k timed
      | some (.woken timed) => Q.lookAs k timed
      | _ => Q
  | .wake k =>
      match Q.poppers[k]? with
      | some (.asleep timed) => { Q with poppers := Q.poppers.set k (.woken timed) }
      | _ => Q
  | .expire k =>
      match Q.poppers[k]? with
      | some (.asleep true) => { Q with poppers := Q.poppers.set k .idle }
      | some (.woken true) => { Q with poppers := Q.poppers.set k .idle }
      | _ => Q

/-- No timeout overtakes a notification. -/
def SafeQueue.Heeds (Q : SafeQueue α) : SafeQueueStep α → Prop
  | .expire k => Q.poppers[k]? ≠ some (.woken true)
  | _ => True

instance (Q : SafeQueue α) (a : SafeQueueStep α) : Decidable (Q.Heeds a) := by
  cases a <;> unfold SafeQueue.Heeds <;> infer_instance

/-! ## First in, first out -/

theorem SafeQueue.lookAs_fifo {Q : SafeQueue α} (h : Q.popped.map Prod.snd ++ Q.container = Q.pushed)
    (k : ℕ) (timed : Bool) :
    (Q.lookAs k timed).popped.map Prod.snd ++ (Q.lookAs k timed).container =
      (Q.lookAs k timed).pushed := by
  unfold SafeQueue.lookAs
  cases hc : Q.container with
  | nil => simpa [hc] using h
  | cons val rest =>
      rw [hc] at h
      simpa using h

theorem SafeQueue.step_fifo {Q : SafeQueue α} (h : Q.popped.map Prod.snd ++ Q.container = Q.pushed)
    (a : SafeQueueStep α) :
    (Q.step a).popped.map Prod.snd ++ (Q.step a).container = (Q.step a).pushed := by
  cases a with
  | push val k =>
      have hpush : Q.popped.map Prod.snd ++ (Q.container ++ [val]) = Q.pushed ++ [val] := by
        rw [← List.append_assoc, h]
      simp only [SafeQueue.step]
      split
      · split
        · exact hpush
        · exact h
      · exact hpush
  | call k timed =>
      simp only [SafeQueue.step]
      split <;> exact h
  | look k =>
      simp only [SafeQueue.step]
      split
      · exact SafeQueue.lookAs_fifo h _ _
      · exact SafeQueue.lookAs_fifo h _ _
      · exact h
  | wake k =>
      simp only [SafeQueue.step]
      split <;> exact h
  | expire k =>
      simp only [SafeQueue.step]
      split <;> exact h

/-- In every interleaving, the values are popped in the order they were pushed, each once and by one
    thread, and those not popped yet are in the queue. -/
theorem safequeue_fifo {m : ℕ} {Q : SafeQueue α}
    (h : Reach (.new m) SafeQueue.step (fun _ _ => True) Q) :
    Q.popped.map Prod.snd ++ Q.container = Q.pushed :=
  Reach.invariant (P := fun Q : SafeQueue α => Q.popped.map Prod.snd ++ Q.container = Q.pushed) rfl
    (fun _ a _ hQ _ => SafeQueue.step_fifo hQ a) h

/-! ## Nobody sleeps beside a value -/

def SafeQueue.Balanced (Q : SafeQueue α) : Prop :=
  Tended Q.container.length (Q.poppers.countP Popper.isReady) (Q.poppers.countP Popper.isAsleep) 0

section Balance

variable {Q : SafeQueue α}

/-- One thread changes; the numbers of the others stand aside. -/
theorem SafeQueue.Balanced.set (h : Q.Balanced) {k : ℕ} {w w' : Popper} (hw : Q.poppers[k]? = some w)
    {container : List α}
    (hset : ∀ ready asleep, Tended Q.container.length
      ((if w.isReady then 1 else 0) + ready) ((if w.isAsleep then 1 else 0) + asleep) 0 →
      Tended container.length
        ((if w'.isReady then 1 else 0) + ready) ((if w'.isAsleep then 1 else 0) + asleep) 0)
    (popped : List (ℕ × α)) (pushed : List α) :
    SafeQueue.Balanced { Q with
      poppers := Q.poppers.set k w', container := container, popped := popped, pushed := pushed } := by
  obtain ⟨rest, hperm, hperm'⟩ := exists_perm_set hw w'
  unfold SafeQueue.Balanced at h ⊢
  simp only [hperm.countP_eq, hperm'.countP_eq, List.countP_cons] at h ⊢
  rw [Nat.add_comm (List.countP _ _), Nat.add_comm (List.countP _ _)] at h ⊢
  exact hset _ _ h

theorem SafeQueue.Balanced.lookAs (h : Q.Balanced) {k : ℕ} {w : Popper}
    (hw : Q.poppers[k]? = some w) (hready : w.isReady = true) (hasleep : w.isAsleep = false)
    (timed : Bool) : (Q.lookAs k timed).Balanced := by
  unfold SafeQueue.lookAs
  cases hc : Q.container with
  | nil =>
      refine h.set hw (fun ready asleep _ => ?_) Q.popped Q.pushed
      exact .sleep
  | cons val rest =>
      refine h.set hw (fun ready asleep ht => ?_) _ Q.pushed
      rw [hc, hready, hasleep] at ht
      simp only [List.length_cons, if_true, Bool.false_eq_true, if_false, Nat.zero_add,
        Popper.isReady, Popper.isAsleep] at ht ⊢
      rw [Nat.add_comm 1 ready] at ht
      exact ht.take

theorem SafeQueue.Balanced.push (h : Q.Balanced) (val : α) (k : ℕ) :
    (Q.step (.push val k)).Balanced := by
  simp only [SafeQueue.step]
  split
  · split
    · rename_i timed hw
      refine h.set hw (fun ready asleep ht => ?_) Q.popped _
      simp only [Popper.isReady, Popper.isAsleep, if_true, Bool.false_eq_true, if_false,
        Nat.zero_add, List.length_append, List.length_singleton] at ht ⊢
      rw [Nat.add_comm 1] at ht ⊢
      exact ht.push.notify
    · exact h
  · rename_i hawake
    have hzero : Q.poppers.countP Popper.isAsleep = 0 := by
      rw [List.countP_eq_zero]
      intro w hw hs
      exact hawake (List.any_eq_true.2 ⟨w, hw, hs⟩)
    simp only [SafeQueue.Balanced, hzero]
    exact .of_awake

/-- A thread comes to the queue. -/
theorem SafeQueue.Balanced.call (h : Q.Balanced) (k : ℕ) (timed : Bool) :
    (Q.step (.call k timed)).Balanced := by
  simp only [SafeQueue.step]
  split
  · rename_i hw
    refine h.set hw (fun ready asleep ht => ?_) Q.popped Q.pushed
    simp only [Popper.isReady, Popper.isAsleep, if_true, Bool.false_eq_true, if_false,
      Nat.zero_add] at ht ⊢
    rw [Nat.add_comm 1]
    exact ht.back
  · exact h

theorem SafeQueue.Balanced.wake (h : Q.Balanced) (k : ℕ) : (Q.step (.wake k)).Balanced := by
  simp only [SafeQueue.step]
  split
  · rename_i timed hw
    refine h.set hw (fun ready asleep ht => ?_) Q.popped Q.pushed
    simp only [Popper.isReady, Popper.isAsleep, if_true, Bool.false_eq_true, if_false,
      Nat.zero_add] at ht ⊢
    rw [Nat.add_comm 1] at ht ⊢
    exact ht.wake
  · exact h

/-- A sleeper gives up: nobody was on its way for its sake. -/
theorem SafeQueue.Balanced.expire (h : Q.Balanced) {k : ℕ} (hheeds : Q.Heeds (.expire k)) :
    (Q.step (.expire k)).Balanced := by
  simp only [SafeQueue.step]
  split
  · rename_i hw
    refine h.set hw (fun ready asleep ht hs => ?_) Q.popped Q.pushed
    have hle := ht (by simp only [Popper.isAsleep, if_true]; omega)
    simpa [Popper.isReady] using hle
  · rename_i hw
    exact absurd hw hheeds
  · exact h

theorem SafeQueue.Balanced.step (h : Q.Balanced) (a : SafeQueueStep α) (hheeds : Q.Heeds a) :
    (Q.step a).Balanced := by
  cases a with
  | push val k => exact h.push val k
  | call k timed => exact h.call k timed
  | look k =>
      simp only [SafeQueue.step]
      split
      · exact h.lookAs ‹_› rfl rfl _
      · exact h.lookAs ‹_› rfl rfl _
      · exact h
  | wake k => exact h.wake k
  | expire k => exact h.expire hheeds

end Balance

/-- As long as no timeout overtakes a notification, no thread sleeps beside a value in the queue
    unless another one is on its way to look. -/
theorem safequeue_tended {m : ℕ} {Q : SafeQueue α}
    (h : Reach (.new m) SafeQueue.step SafeQueue.Heeds Q) (hvalue : Q.container ≠ [])
    {k : ℕ} {timed : Bool} (hasleep : Q.poppers[k]? = some (.asleep timed)) :
    ∃ w ∈ Q.poppers, w.isReady = true := by
  have hbalanced : Q.Balanced :=
    Reach.invariant (P := fun Q : SafeQueue α => Q.Balanced)
      (by simp [SafeQueue.Balanced, SafeQueue.new, Popper.isAsleep, List.countP_replicate, Tended])
      (fun _ a _ hQ hok => hQ.step a hok) h
  by_contra hnone
  push Not at hnone
  have hready : Q.poppers.countP Popper.isReady = 0 := List.countP_eq_zero.2 hnone
  rw [SafeQueue.Balanced, hready] at hbalanced
  refine absurd (hbalanced.owed (List.length_pos_iff.2 hvalue) ?_) (Nat.lt_irrefl 0)
  exact List.countP_pos_iff.2 ⟨_, List.mem_of_getElem? hasleep, rfl⟩

/-- Two threads sleep; the first value wakes one of them, and it has not looked yet. -/
theorem safequeue_tended_two :
    let Q : SafeQueue ℕ := exec SafeQueue.step (.new 2)
      [.call 0 true, .call 1 false, .look 0, .look 1, .push 7 0]
    ∃ w ∈ Q.poppers, w.isReady = true := by
  intro Q
  have hasleep : Q.poppers[1]? = some (.asleep false) := by decide
  exact safequeue_tended (.exec .init (by decide)) (by decide) hasleep

/-- With a timeout in its place, the value stays in the queue and the other thread sleeps on. -/
example :
    let Q : SafeQueue ℕ := exec SafeQueue.step (.new 2)
      [.call 0 true, .call 1 false, .look 0, .look 1, .push 7 0, .expire 0]
    Q.container = [7] ∧ Q.poppers = [.idle, .asleep false] := by decide

/-- Woken in the one order, the threads may look in the other. -/
theorem safequeue_fifo_two :
    let Q : SafeQueue ℕ := exec SafeQueue.step (.new 2)
      [.call 0 true, .call 1 false, .look 0, .look 1, .push 7 0, .push 8 1, .look 1, .look 0]
    Q.popped = [(1, 7), (0, 8)] ∧ Q.popped.map Prod.snd ++ Q.container = Q.pushed := by
  intro Q
  exact ⟨by decide, safequeue_fifo (.exec .init (.of_forall (fun _ _ => trivial) _ _))⟩

end RaftKVStorage
