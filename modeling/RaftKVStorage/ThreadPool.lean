import RaftKVStorage.Theory.Monitor

set_option autoImplicit false

/-! # The thread pool

Class `threadPool`, whose threads run the read requests. A step is what a thread does between two
moments at which another may come in: a critical section under `_M_tasks_mutex`, a notification, the
end of a task. A worker in `_M_condition.wait` may wake up by itself. -/

namespace RaftKVStorage

open GuardedRun Monitor

/-- A worker: about to lock and look at the predicate, in `wait`, in `task()`, or returned. -/
inductive Worker (τ : Type)
  | ready
  | asleep
  | running (task : τ)
  | exited
deriving DecidableEq, Repr

/-- How far the destructor is: not begun, `_M_stop` set, everybody notified, all threads joined. -/
inductive PoolPhase
  | working
  | stopped
  | joining
  | destroyed
deriving DecidableEq, Repr

/-- The pool. `notices` counts the calls of `push` between unlocking and `notify_one`; `pushed`,
    `taken` and `done` are the tasks pushed, taken off the queue and run to their end so far. -/
structure ThreadPool (τ : Type) where
  threadsNum : ℕ
  threads : List (Worker τ) := []
  tasks : List τ := []
  stop : Bool := false
  phase : PoolPhase := .working
  notices : ℕ := 0
  pushed : List τ := []
  taken : List τ := []
  done : List τ := []
deriving DecidableEq, Repr

variable {τ : Type}

def ThreadPool.new (threadsNum : ℕ) : ThreadPool τ := { threadsNum := threadsNum }

inductive PoolStep (τ : Type)
  /-- `run` creates its next thread. -/
  | spawn
  | push (task : τ)
  /-- `notify_one`, with the sleeper it wakes if there is one. -/
  | notify (k : ℕ)
  /-- Worker `k` has the lock: it returns, goes to sleep or takes a task. -/
  | check (k : ℕ)
  /-- Worker `k` wakes up without a notification. -/
  | wake (k : ℕ)
  /-- The task of worker `k` ends. -/
  | finish (k : ℕ)
  /-- The destructor sets `_M_stop`. -/
  | stop
  | notifyAll
  /-- The destructor has joined the last thread. -/
  | join
deriving DecidableEq, Repr

def Worker.isAsleep : Worker τ → Bool
  | .asleep => true
  | _ => false

/-- What `notify_all` does to a worker. -/
def Worker.woken : Worker τ → Worker τ
  | .asleep => .ready
  | w => w

def Worker.isExited : Worker τ → Bool
  | .exited => true
  | _ => false

def ThreadPool.step (P : ThreadPool τ) : PoolStep τ → ThreadPool τ
  | .spawn =>
      if P.threads.length < P.threadsNum then { P with threads := P.threads ++ [.ready] } else P
  | .push task =>
      { P with
        tasks := P.tasks ++ [task]
        notices := P.notices + 1
        pushed := P.pushed ++ [task] }
  | .notify k =>
      match P.notices with
      | 0 => P
      | m + 1 =>
          if P.threads.any Worker.isAsleep then
            match P.threads[k]? with
            | some .asleep => { P with notices := m, threads := P.threads.set k .ready }
            | _ => P
          else { P with notices := m }
  | .check k =>
      match P.threads[k]?, P.tasks with
      | some .ready, [] =>
          if P.stop then { P with threads := P.threads.set k .exited }
          else { P with threads := P.threads.set k .asleep }
      | some .ready, task :: rest =>
          { P with
            threads := P.threads.set k (.running task)
            tasks := rest
            taken := P.taken ++ [task] }
      | _, _ => P
  | .wake k =>
      match P.threads[k]? with
      | some .asleep => { P with threads := P.threads.set k .ready }
      | _ => P
  | .finish k =>
      match P.threads[k]? with
      | some (.running task) =>
          { P with threads := P.threads.set k .ready, done := P.done ++ [task] }
      | _ => P
  | .stop => if P.phase = .working then { P with stop := true, phase := .stopped } else P
  | .notifyAll =>
      if P.phase = .stopped then
        { P with threads := P.threads.map Worker.woken, phase := .joining }
      else P
  | .join =>
      if P.phase = .joining ∧ P.threads.all Worker.isExited then { P with phase := .destroyed } else P

/-- The owner calls `run` and `push` only while the pool is alive. -/
def ThreadPool.Owned (P : ThreadPool τ) : PoolStep τ → Prop
  | .spawn => P.phase = .working
  | .push _ => P.phase = .working
  | _ => True

instance (P : ThreadPool τ) (a : PoolStep τ) : Decidable (P.Owned a) := by
  cases a <;> unfold ThreadPool.Owned <;> infer_instance

/-- The runs of a pool of `m` threads. -/
def ThreadPool.Reachable (m : ℕ) (P : ThreadPool τ) : Prop :=
  Reach (.new m) ThreadPool.step ThreadPool.Owned P

/-- The steps the pool takes by itself: its threads, its notifications, and the destructor once it
    has begun. -/
def PoolStep.Internal : PoolStep τ → Prop
  | .notify _ => True
  | .check _ => True
  | .finish _ => True
  | .notifyAll => True
  | .join => True
  | _ => False

/-! ## The invariant -/

/-- The task of a worker. -/
def Worker.task : Worker τ → Option τ
  | .running task => some task
  | _ => none

def Worker.isReady : Worker τ → Bool
  | .ready => true
  | _ => false

def ThreadPool.asleep (P : ThreadPool τ) : ℕ := P.threads.countP Worker.isAsleep

def ThreadPool.ready (P : ThreadPool τ) : ℕ := P.threads.countP Worker.isReady

/-- The tasks being run. -/
def ThreadPool.running (P : ThreadPool τ) : List τ := P.threads.filterMap Worker.task

structure ThreadPool.Inv (P : ThreadPool τ) : Prop where
  order : P.taken ++ P.tasks = P.pushed
  work : (P.done ++ P.running).Perm P.taken
  tended : Tended P.tasks.length P.ready P.asleep P.notices
  stop : P.stop = true ↔ P.phase ≠ .working
  awake : P.phase = .joining ∨ P.phase = .destroyed → P.asleep = 0
  exited : ∀ w ∈ P.threads, w.isExited = true → P.stop = true ∧ P.tasks = []
  joined : P.phase = .destroyed → ∀ w ∈ P.threads, w.isExited = true

theorem ThreadPool.Inv.new (m : ℕ) : (ThreadPool.new m : ThreadPool τ).Inv :=
  ⟨rfl, .nil, .of_awake, by simp [ThreadPool.new], fun _ => rfl, by simp [ThreadPool.new],
    by simp [ThreadPool.new]⟩

section Steps

variable {P : ThreadPool τ} {k : ℕ}

/-- A worker without a task changes into another one without a task: what is left to show are the
    numbers of sleepers. -/
theorem ThreadPool.Inv.setWorker (h : P.Inv) {w w' : Worker τ} (hw : P.threads[k]? = some w)
    (htask : w.task = none) (htask' : w'.task = none) (hexited : w.isExited = false)
    (hexited' : w'.isExited = true → P.stop = true ∧ P.tasks = [])
    (hawake : w'.isAsleep = true → P.phase = .working) {notices : ℕ}
    (htended : ∀ rest : List (Worker τ), P.threads.Perm (w :: rest) →
      Tended P.tasks.length ((w' :: rest).countP Worker.isReady) ((w' :: rest).countP Worker.isAsleep)
        notices) :
    ThreadPool.Inv { P with threads := P.threads.set k w', notices := notices } := by
  obtain ⟨rest, hperm, hperm'⟩ := exists_perm_set hw w'
  have hmem : ∀ v ∈ P.threads.set k w', v = w' ∨ v ∈ P.threads := fun v hv => by
    rcases List.mem_cons.1 (hperm'.mem_iff.1 hv) with heq | hv
    · exact Or.inl heq
    · exact Or.inr (hperm.mem_iff.2 (List.mem_cons_of_mem _ hv))
  refine ⟨h.order, ?_, ?_, h.stop, fun hphase => ?_, fun v hv hve => ?_, fun hphase v hv => ?_⟩
  · refine (List.Perm.append_left _ ?_).trans h.work
    refine (hperm'.filterMap _).trans (List.Perm.trans ?_ (hperm.filterMap Worker.task).symm)
    rw [List.filterMap_cons_none htask, List.filterMap_cons_none htask']
  · have hrest := htended rest hperm
    rwa [← hperm'.countP_eq, ← hperm'.countP_eq] at hrest
  · have hnone := h.awake hphase
    simp only [ThreadPool.asleep, hperm.countP_eq, List.countP_cons, Nat.add_eq_zero_iff] at hnone
    simp only [ThreadPool.asleep, hperm'.countP_eq, List.countP_cons, hnone.1, Nat.zero_add]
    by_cases hw' : w'.isAsleep = true
    · rw [hawake hw'] at hphase
      simp at hphase
    · rw [if_neg hw']
  · rcases hmem v hv with rfl | hv
    · exact hexited' hve
    · exact h.exited v hv hve
  · have hall := h.joined hphase w (List.mem_of_getElem? hw)
    rw [hexited] at hall
    cases hall

theorem ThreadPool.Inv.spawn (h : P.Inv) (hphase : P.phase = .working) :
    (P.step .spawn).Inv := by
  simp only [ThreadPool.step]
  split
  swap
  · exact h
  refine ⟨h.order, ?_, ?_, h.stop, fun hphase' => ?_, fun w hw hwe => ?_, fun hphase' => ?_⟩
  · have hrun : (P.threads ++ [Worker.ready]).filterMap Worker.task = P.running := by
      rw [List.filterMap_append, List.filterMap_cons_none rfl, List.filterMap_nil, List.append_nil,
        ThreadPool.running]
    rw [ThreadPool.running, hrun]
    exact h.work
  · have htended := h.tended.back
    simpa [ThreadPool.ready, ThreadPool.asleep, Worker.isReady, Worker.isAsleep] using htended
  · rw [hphase] at hphase'
    simp at hphase'
  · rcases List.mem_append.1 hw with hw | hw
    · exact h.exited w hw hwe
    · rw [List.mem_singleton] at hw
      subst hw
      cases hwe
  · rw [hphase] at hphase'
    cases hphase'

theorem ThreadPool.Inv.push (h : P.Inv) (hphase : P.phase = .working) (task : τ) :
    (P.step (.push task)).Inv := by
  have hstop : P.stop = false := by
    rw [← Bool.not_eq_true, h.stop, hphase]
    simp
  refine ⟨?_, h.work, ?_, h.stop, h.awake, fun w hw hwe => ?_, h.joined⟩
  · rw [ThreadPool.step, ← List.append_assoc, h.order]
  · have htended := h.tended.push
    simpa [ThreadPool.step, ThreadPool.ready, ThreadPool.asleep] using htended
  · have hex := (h.exited w hw hwe).1
    rw [hstop] at hex
    cases hex

theorem ThreadPool.Inv.notify (h : P.Inv) (k : ℕ) : (P.step (.notify k)).Inv := by
  simp only [ThreadPool.step]
  split
  · exact h
  rename_i m hm
  have htended := h.tended
  rw [hm] at htended
  split
  · split
    · rename_i hw
      refine h.setWorker hw rfl rfl rfl (by simp [Worker.isExited]) (by simp [Worker.isAsleep])
        fun rest hperm => ?_
      simp only [ThreadPool.ready, ThreadPool.asleep, hperm.countP_eq] at htended
      simp only [List.countP_cons, Worker.isReady, Worker.isAsleep, if_true, Bool.false_eq_true,
        if_false, Nat.add_zero] at htended ⊢
      exact htended.notify
    · exact h
  · rename_i hawake
    refine ⟨h.order, h.work, ?_, h.stop, h.awake, h.exited, h.joined⟩
    have hzero : P.asleep = 0 := by
      rw [ThreadPool.asleep, List.countP_eq_zero]
      intro w hw hs
      exact hawake (List.any_eq_true.2 ⟨w, hw, hs⟩)
    simp only [ThreadPool.asleep] at hzero
    simp only [ThreadPool.asleep, hzero]
    exact .of_awake

theorem ThreadPool.Inv.wake (h : P.Inv) (k : ℕ) : (P.step (.wake k)).Inv := by
  simp only [ThreadPool.step]
  split
  · rename_i hw
    refine h.setWorker hw rfl rfl rfl (by simp [Worker.isExited]) (by simp [Worker.isAsleep])
      fun rest hperm => ?_
    have htended := h.tended
    simp only [ThreadPool.ready, ThreadPool.asleep, hperm.countP_eq] at htended
    simp only [List.countP_cons, Worker.isReady, Worker.isAsleep, if_true, Bool.false_eq_true,
      if_false, Nat.add_zero] at htended ⊢
    exact htended.wake
  · exact h

theorem ThreadPool.Inv.check (h : P.Inv) (k : ℕ) : (P.step (.check k)).Inv := by
  simp only [ThreadPool.step]
  split
  · -- the queue is empty
    rename_i hw htasks
    split
    · rename_i hstop
      refine h.setWorker hw rfl rfl rfl (fun _ => ⟨hstop, htasks⟩) (by simp [Worker.isAsleep])
        fun rest hperm => ?_
      rw [htasks]
      exact .sleep
    · rename_i hstop
      refine h.setWorker hw rfl rfl rfl (by simp [Worker.isExited]) (fun _ => ?_) fun rest hperm => ?_
      · by_contra hphase
        exact hstop (h.stop.2 hphase)
      · rw [htasks]
        exact .sleep
  · rename_i task rest hw htasks
    obtain ⟨others, hperm, hperm'⟩ := exists_perm_set hw (.running task)
    have hexited : ∀ w ∈ P.threads, w.isExited = false := fun w hw => by
      by_contra hex
      have hnil := (h.exited w hw (by simpa using hex)).2
      rw [htasks] at hnil
      cases hnil
    refine ⟨?_, ?_, ?_, h.stop, fun hphase => ?_, fun w hw hwe => ?_, fun hphase w _ => ?_⟩
    · rw [← h.order, htasks, List.append_assoc, List.singleton_append]
    · have hwork := h.work
      have hrun : P.running.Perm (others.filterMap Worker.task) := hperm.filterMap Worker.task
      have hrun' : ((P.threads.set k (.running task)).filterMap Worker.task).Perm
          (task :: others.filterMap Worker.task) := hperm'.filterMap Worker.task
      calc P.done ++ (P.threads.set k (.running task)).filterMap Worker.task
        _ |>.Perm (P.done ++ task :: others.filterMap Worker.task) := hrun'.append_left _
        _ |>.Perm (task :: (P.done ++ others.filterMap Worker.task)) := List.perm_middle
        _ |>.Perm (task :: P.taken) := ((hrun.symm.append_left _).trans hwork).cons task
        _ |>.Perm (P.taken ++ [task]) := (List.perm_append_singleton task P.taken).symm
    · have htended := h.tended
      rw [htasks] at htended
      simp only [ThreadPool.ready, ThreadPool.asleep, hperm.countP_eq, hperm'.countP_eq] at htended ⊢
      simp only [List.length_cons, List.countP_cons, Worker.isReady, Worker.isAsleep, if_true,
        Bool.false_eq_true, if_false, Nat.add_zero] at htended ⊢
      exact htended.take
    · have hzero := h.awake hphase
      simp only [ThreadPool.asleep, hperm.countP_eq, hperm'.countP_eq] at hzero ⊢
      simpa [List.countP_cons, Worker.isAsleep] using hzero
    · rcases List.mem_cons.1 (hperm'.mem_iff.1 hw) with rfl | hw
      · cases hwe
      · rw [hexited w (hperm.mem_iff.2 (List.mem_cons_of_mem _ hw))] at hwe
        cases hwe
    · have hall := h.joined hphase _ (List.mem_of_getElem? ‹P.threads[k]? = some Worker.ready›)
      cases hall
  · exact h

theorem ThreadPool.Inv.finish (h : P.Inv) (k : ℕ) : (P.step (.finish k)).Inv := by
  simp only [ThreadPool.step]
  split
  swap
  · exact h
  rename_i task hw
  obtain ⟨others, hperm, hperm'⟩ := exists_perm_set hw .ready
  refine ⟨h.order, ?_, ?_, h.stop, fun hphase => ?_, fun w hw' hwe => ?_, fun hphase w _ => ?_⟩
  · have hrun : P.running.Perm (task :: others.filterMap Worker.task) :=
      hperm.filterMap Worker.task
    have hrun' : ((P.threads.set k .ready).filterMap Worker.task).Perm
        (others.filterMap Worker.task) := hperm'.filterMap Worker.task
    calc P.done ++ [task] ++ (P.threads.set k .ready).filterMap Worker.task
      _ |>.Perm (P.done ++ [task] ++ others.filterMap Worker.task) := hrun'.append_left _
      _ |>.Perm (P.done ++ (task :: others.filterMap Worker.task)) := by
          rw [List.append_assoc, List.singleton_append]
      _ |>.Perm P.taken := (hrun.symm.append_left _).trans h.work
  · have htended := h.tended
    simp only [ThreadPool.ready, ThreadPool.asleep, hperm.countP_eq, hperm'.countP_eq] at htended ⊢
    simp only [List.countP_cons, Worker.isReady, Worker.isAsleep, if_true,
      Bool.false_eq_true, if_false, Nat.add_zero] at htended ⊢
    exact htended.back
  · have hzero := h.awake hphase
    simp only [ThreadPool.asleep, hperm.countP_eq, hperm'.countP_eq] at hzero ⊢
    simpa [List.countP_cons, Worker.isAsleep] using hzero
  · rcases List.mem_cons.1 (hperm'.mem_iff.1 hw') with rfl | hw'
    · cases hwe
    · exact h.exited w (hperm.mem_iff.2 (List.mem_cons_of_mem _ hw')) hwe
  · have hall := h.joined hphase _ (List.mem_of_getElem? hw)
    cases hall

/-- The destructor's steps. -/
theorem ThreadPool.Inv.stopStep (h : P.Inv) : (P.step .stop).Inv := by
  simp only [ThreadPool.step]
  split
  · exact ⟨h.order, h.work, h.tended, by simp, by simp, fun w hw hwe => ⟨rfl, (h.exited w hw hwe).2⟩,
      by simp⟩
  · exact h

theorem Worker.isAsleep_woken (w : Worker τ) : w.woken.isAsleep = false := by cases w <;> rfl

theorem Worker.task_woken (w : Worker τ) : w.woken.task = w.task := by cases w <;> rfl

theorem Worker.isExited_woken (w : Worker τ) : w.woken.isExited = w.isExited := by cases w <;> rfl

theorem ThreadPool.Inv.notifyAll (h : P.Inv) : (P.step .notifyAll).Inv := by
  simp only [ThreadPool.step]
  split
  swap
  · exact h
  rename_i hphase
  have hzero : (P.threads.map Worker.woken).countP Worker.isAsleep = 0 := by
    rw [List.countP_eq_zero]
    intro w hw
    obtain ⟨v, -, rfl⟩ := List.mem_map.1 hw
    simp [Worker.isAsleep_woken]
  refine ⟨h.order, ?_, ?_, ?_, fun _ => hzero, fun w hw hwe => ?_, by simp⟩
  · have hrun : (P.threads.map Worker.woken).filterMap Worker.task = P.running := by
      rw [List.filterMap_map]
      exact List.filterMap_congr fun w _ => w.task_woken
    simpa only [ThreadPool.running, hrun] using h.work
  · simp only [ThreadPool.asleep, hzero]
    exact .of_awake
  · rw [h.stop, hphase]
    simp
  · obtain ⟨v, hv, rfl⟩ := List.mem_map.1 hw
    rw [v.isExited_woken] at hwe
    exact h.exited v hv hwe

theorem ThreadPool.Inv.join (h : P.Inv) : (P.step .join).Inv := by
  simp only [ThreadPool.step]
  split
  · rename_i hjoin
    refine ⟨h.order, h.work, h.tended, ?_, fun _ => h.awake (Or.inl hjoin.1), h.exited, fun _ => ?_⟩
    · rw [h.stop, hjoin.1]
      simp
    · exact List.all_eq_true.1 hjoin.2
  · exact h

theorem ThreadPool.Inv.step (h : P.Inv) (a : PoolStep τ) (howned : P.Owned a) : (P.step a).Inv := by
  cases a with
  | spawn => exact h.spawn howned
  | push task => exact h.push howned task
  | notify k => exact h.notify k
  | check k => exact h.check k
  | wake k => exact h.wake k
  | finish k => exact h.finish k
  | stop => exact h.stopStep
  | notifyAll => exact h.notifyAll
  | join => exact h.join

end Steps

theorem ThreadPool.Reachable.inv {m : ℕ} {P : ThreadPool τ} (h : P.Reachable m) : P.Inv :=
  Reach.invariant (.new m) (fun _ a _ hinv howned => hinv.step a howned) h

/-- In every interleaving the workers take the tasks in the order they were pushed, each once, and a
    task that has been taken is being run or has been run to its end, once. -/
theorem threadPool_once {m : ℕ} {P : ThreadPool τ} (h : P.Reachable m) :
    P.taken ++ P.tasks = P.pushed ∧ (P.done ++ P.running).Perm P.taken :=
  ⟨h.inv.order, h.inv.work⟩

/-! ## Everything is done in the end -/

/-- What a worker still has to do by itself. -/
def Worker.weight : Worker τ → ℕ
  | .ready => 1
  | .asleep => 0
  | .running _ => 2
  | .exited => 0

def Worker.total : List (Worker τ) → ℕ
  | [] => 0
  | w :: l => w.weight + Worker.total l

/-- What the destructor has before it. -/
def ThreadPool.phaseWeight (P : ThreadPool τ) : ℕ :=
  match P.phase with
  | .working => 0
  | .stopped => P.threads.length + 2
  | .joining => 1
  | .destroyed => 0

/-- The steps the pool has before it, at most. -/
def ThreadPool.measure (P : ThreadPool τ) : ℕ :=
  2 * P.tasks.length + 2 * P.notices + Worker.total P.threads + P.phaseWeight

theorem Worker.total_perm {l l' : List (Worker τ)} (h : l.Perm l') :
    Worker.total l = Worker.total l' := by
  induction h with
  | nil => rfl
  | cons w _ ih => rw [Worker.total, Worker.total, ih]
  | swap w w' l =>
      simp only [Worker.total]
      omega
  | trans _ _ ih ih' => exact ih.trans ih'

theorem Worker.total_set {l : List (Worker τ)} {k : ℕ} {w : Worker τ} (h : l[k]? = some w)
    (w' : Worker τ) : Worker.total (l.set k w') + w.weight = Worker.total l + w'.weight := by
  obtain ⟨rest, hperm, hperm'⟩ := exists_perm_set h w'
  rw [Worker.total_perm hperm, Worker.total_perm hperm', Worker.total, Worker.total]
  omega

theorem Worker.total_woken (l : List (Worker τ)) :
    Worker.total (l.map Worker.woken) ≤ Worker.total l + l.length := by
  induction l with
  | nil => exact Nat.le_refl 0
  | cons w l ih =>
      have hw : w.woken.weight ≤ w.weight + 1 := by cases w <;> simp [Worker.woken, Worker.weight]
      simp only [List.map_cons, Worker.total, List.length_cons]
      omega

/-- A step of the pool itself that changes it. -/
def ThreadPool.Works (P : ThreadPool τ) (a : PoolStep τ) : Prop := a.Internal ∧ P.step a ≠ P

theorem ThreadPool.Works.lowers {P : ThreadPool τ} {a : PoolStep τ} (h : P.Works a) :
    (P.step a).measure < P.measure := by
  obtain ⟨hinternal, hne⟩ := h
  have hset : ∀ (k : ℕ) (w : Worker τ), (P.threads.set k w).length = P.threads.length :=
    fun _ _ => List.length_set
  cases a with
  | spawn => exact absurd hinternal id
  | push task => exact absurd hinternal id
  | wake k => exact absurd hinternal id
  | stop => exact absurd hinternal id
  | notify k =>
      simp only [ThreadPool.step] at hne ⊢
      split at hne
      · exact absurd rfl hne
      rename_i m hm
      split at hne
      · rename_i hany
        split at hne
        · rename_i hw
          have hweight := Worker.total_set hw .ready
          simp only [hm, if_pos hany, ThreadPool.measure, ThreadPool.phaseWeight, hset, Worker.weight] at hweight ⊢
          omega
        · exact absurd rfl hne
      · rename_i hany
        simp only [hm, if_neg hany, ThreadPool.measure, ThreadPool.phaseWeight]
        omega
  | check k =>
      simp only [ThreadPool.step] at hne ⊢
      split at hne
      · rename_i hw htasks
        have hweight := Worker.total_set hw .exited
        have hweight' := Worker.total_set hw .asleep
        simp only [htasks]
        split
        · simp only [ThreadPool.measure, ThreadPool.phaseWeight, hset, htasks,
            Worker.weight] at hweight ⊢
          omega
        · simp only [ThreadPool.measure, ThreadPool.phaseWeight, hset, htasks,
            Worker.weight] at hweight' ⊢
          omega
      · rename_i task rest hw htasks
        have hweight := Worker.total_set hw (.running task)
        simp only [htasks, ThreadPool.measure, ThreadPool.phaseWeight, hset,
          Worker.weight, List.length_cons] at hweight ⊢
        omega
      · exact absurd rfl hne
  | finish k =>
      simp only [ThreadPool.step] at hne ⊢
      split at hne
      · rename_i task hw
        have hweight := Worker.total_set hw .ready
        simp only [ThreadPool.measure, ThreadPool.phaseWeight, hset,
          Worker.weight] at hweight ⊢
        omega
      · exact absurd rfl hne
  | notifyAll =>
      simp only [ThreadPool.step] at hne ⊢
      split at hne
      · rename_i hphase
        have hweight := Worker.total_woken P.threads
        rw [if_pos hphase]
        simp only [ThreadPool.measure, ThreadPool.phaseWeight, hphase]
        omega
      · exact absurd rfl hne
  | join =>
      simp only [ThreadPool.step] at hne ⊢
      split at hne
      · rename_i hjoin
        rw [if_pos hjoin]
        simp only [ThreadPool.measure, ThreadPool.phaseWeight, hjoin.1]
        omega
      · exact absurd rfl hne

/-- A thread of the pool that is at rest sleeps or has returned, and no notification is owed. -/
structure ThreadPool.AtRest (P : ThreadPool τ) : Prop where
  still : ∀ a : PoolStep τ, a.Internal → P.step a = P

section AtRest

variable {P : ThreadPool τ}

theorem ThreadPool.AtRest.no_ready (h : P.AtRest) {k : ℕ} : P.threads[k]? ≠ some .ready := by
  intro hw
  have hk := (List.getElem?_eq_some_iff.1 hw).1
  have hstill := h.still (.check k) trivial
  have hset : ∀ w : Worker τ, P.threads.set k w = P.threads → w = .ready := by
    intro w hw'
    have hget := List.getElem?_set_self (a := w) hk
    rw [hw', hw] at hget
    exact (Option.some.inj hget).symm
  simp only [ThreadPool.step, hw] at hstill
  split at hstill
  · split at hstill
    all_goals
      have hthreads := hset _ (congrArg ThreadPool.threads hstill)
      cases hthreads
  · have hthreads := hset _ (congrArg ThreadPool.threads hstill)
    cases hthreads
  · rename_i hnil hcons
    cases htasks : P.tasks with
    | nil => exact hnil rfl htasks
    | cons task rest => exact hcons task rest rfl htasks

theorem ThreadPool.AtRest.no_running (h : P.AtRest) {k : ℕ} {task : τ} :
    P.threads[k]? ≠ some (.running task) := by
  intro hw
  have hstill := congrArg ThreadPool.done (h.still (.finish k) trivial)
  simp [ThreadPool.step, hw] at hstill

theorem ThreadPool.AtRest.notices (h : P.AtRest) : P.notices = 0 := by
  by_contra hne
  obtain ⟨m, hm⟩ := Nat.exists_eq_succ_of_ne_zero hne
  by_cases hany : P.threads.any Worker.isAsleep = true
  · obtain ⟨w, hw, hasleep⟩ := List.any_eq_true.1 hany
    obtain ⟨k, hk⟩ := List.mem_iff_getElem?.1 hw
    cases w with
    | asleep =>
        have hstill := congrArg ThreadPool.notices (h.still (.notify k) trivial)
        simp [ThreadPool.step, hm, hany, hk] at hstill
    | _ => cases hasleep
  · have hstill := congrArg ThreadPool.notices (h.still (.notify 0) trivial)
    simp [ThreadPool.step, hm, hany] at hstill

theorem ThreadPool.AtRest.phase (h : P.AtRest) : P.phase ≠ .stopped := by
  intro hphase
  have hstill := congrArg ThreadPool.phase (h.still .notifyAll trivial)
  simp [ThreadPool.step, hphase] at hstill

/-- A worker of a pool at rest sleeps or has returned. -/
theorem ThreadPool.AtRest.worker (h : P.AtRest) {w : Worker τ} (hw : w ∈ P.threads) :
    w = .asleep ∨ w = .exited := by
  obtain ⟨k, hk⟩ := List.mem_iff_getElem?.1 hw
  cases w with
  | ready => exact absurd hk h.no_ready
  | running task => exact absurd hk h.no_running
  | asleep => exact Or.inl rfl
  | exited => exact Or.inr rfl

/-- A pool at rest has nothing left to do, and its destructor is not waiting. -/
theorem ThreadPool.AtRest.finished (h : P.AtRest) (hinv : P.Inv) (hthreads : P.threads ≠ []) :
    P.tasks = [] ∧ P.done.Perm P.pushed ∧ (P.stop = true → P.phase = .destroyed) := by
  have htasks : P.tasks = [] := by
    by_contra hne
    have hasleep : ∀ w ∈ P.threads, w = .asleep := fun w hw =>
      (h.worker hw).resolve_right fun heq => hne (hinv.exited w hw (heq ▸ rfl)).2
    have hready : P.ready = 0 := by
      rw [ThreadPool.ready, List.countP_eq_zero]
      intro w hw
      rw [hasleep w hw]
      simp [Worker.isReady]
    have htended := hinv.tended
    rw [hready, h.notices] at htended
    refine absurd (htended.owed (List.length_pos_iff.2 hne) ?_) (Nat.lt_irrefl 0)
    rw [ThreadPool.asleep, List.countP_pos_iff]
    obtain ⟨w, hw⟩ := List.exists_mem_of_ne_nil _ hthreads
    exact ⟨w, hw, hasleep w hw ▸ rfl⟩
  have hrunning : P.running = [] := by
    rw [ThreadPool.running, List.filterMap_eq_nil_iff]
    intro w hw
    rcases h.worker hw with rfl | rfl <;> rfl
  refine ⟨htasks, ?_, fun hstop => ?_⟩
  · have hwork := hinv.work
    rw [hrunning, List.append_nil] at hwork
    rwa [← hinv.order, htasks, List.append_nil]
  · have hphase := hinv.stop.1 hstop
    have hstopped := h.phase
    cases hp : P.phase with
    | working => exact absurd hp hphase
    | stopped => exact absurd hp hstopped
    | destroyed => rfl
    | joining =>
        -- everybody has been woken, so everybody has returned
        have hzero := hinv.awake (Or.inl hp)
        have hall : P.threads.all Worker.isExited = true := by
          rw [List.all_eq_true]
          intro w hw
          rcases h.worker hw with rfl | rfl
          · rw [ThreadPool.asleep, List.countP_eq_zero] at hzero
            exact absurd rfl (hzero _ hw)
          · rfl
        have hstill := congrArg ThreadPool.phase (h.still .join trivial)
        simp [ThreadPool.step, hp, hall] at hstill

end AtRest

/-- What no step of the pool itself changes. -/
theorem ThreadPool.step_internal (P : ThreadPool τ) {a : PoolStep τ} (h : a.Internal) :
    P.Owned a ∧ (P.step a).pushed = P.pushed ∧ (P.step a).stop = P.stop ∧
      (P.step a).threads.length = P.threads.length := by
  cases a with
  | spawn => exact absurd h id
  | push task => exact absurd h id
  | wake k => exact absurd h id
  | stop => exact absurd h id
  | notify k =>
      refine ⟨trivial, ?_⟩
      simp only [ThreadPool.step]
      split
      · exact ⟨rfl, rfl, rfl⟩
      · split
        · split
          · exact ⟨rfl, rfl, List.length_set⟩
          · exact ⟨rfl, rfl, rfl⟩
        · exact ⟨rfl, rfl, rfl⟩
  | check k =>
      refine ⟨trivial, ?_⟩
      simp only [ThreadPool.step]
      split
      · split <;> exact ⟨rfl, rfl, List.length_set⟩
      · exact ⟨rfl, rfl, List.length_set⟩
      · exact ⟨rfl, rfl, rfl⟩
  | finish k =>
      refine ⟨trivial, ?_⟩
      simp only [ThreadPool.step]
      split
      · exact ⟨rfl, rfl, List.length_set⟩
      · exact ⟨rfl, rfl, rfl⟩
  | notifyAll =>
      refine ⟨trivial, ?_⟩
      simp only [ThreadPool.step]
      split
      · exact ⟨rfl, rfl, List.length_map ..⟩
      · exact ⟨rfl, rfl, rfl⟩
  | join =>
      refine ⟨trivial, ?_⟩
      simp only [ThreadPool.step]
      split <;> exact ⟨rfl, rfl, rfl⟩

/-- Left to itself, a pool with a thread comes to rest after a bounded number of steps, and has then
    run every task that was pushed, each once; a destructor that has begun has returned. So no
    notification is ever lost, and the destructor drops no task. -/
theorem threadPool_drains {m : ℕ} {P : ThreadPool τ} (h : P.Reachable m) (hthreads : P.threads ≠ [])
    {as : List (PoolStep τ)} (has : Allowed ThreadPool.step ThreadPool.Works P as) :
    as.length ≤ P.measure ∧ ((exec ThreadPool.step P as).AtRest →
      (exec ThreadPool.step P as).tasks = [] ∧
      (exec ThreadPool.step P as).done.Perm P.pushed ∧
      (P.stop = true → (exec ThreadPool.step P as).phase = .destroyed)) := by
  refine ⟨has.length_le ThreadPool.measure fun _ _ => ThreadPool.Works.lowers, fun hrest => ?_⟩
  have hrun := has.invariant (P := fun P' => P'.Reachable m ∧ P'.pushed = P.pushed ∧
    P'.stop = P.stop ∧ P'.threads.length = P.threads.length)
    (fun P' a ⟨hreach, hpushed, hstop, hlength⟩ hwork => by
      obtain ⟨howned, hpushed', hstop', hlength'⟩ := P'.step_internal hwork.1
      exact ⟨.step a hreach howned, hpushed'.trans hpushed, hstop'.trans hstop,
        hlength'.trans hlength⟩)
    ⟨h, rfl, rfl, rfl⟩
  obtain ⟨hreach, hpushed, hstop, hlength⟩ := hrun
  have hne : (exec ThreadPool.step P as).threads ≠ [] := by
    rw [← List.length_pos_iff, hlength, List.length_pos_iff]
    exact hthreads
  rw [← hpushed, ← hstop]
  exact hrest.finished hreach.inv hne

/-- Two workers, one asleep and one running, when the destructor begins with a task in the queue. -/
def busyPool : ThreadPool ℕ :=
  exec ThreadPool.step (.new 2)
    [.spawn, .spawn, .check 0, .push 5, .push 6, .check 1, .stop]

theorem busyPool_reachable : busyPool.Reachable 2 := .exec .init (by decide)

theorem threadPool_once_busy : busyPool.taken ++ busyPool.tasks = [5, 6] ∧
    (busyPool.done ++ busyPool.running).Perm [5] :=
  threadPool_once busyPool_reachable

theorem threadPool_drains_busy :
    let as : List (PoolStep ℕ) := [.notifyAll, .finish 1, .check 1, .finish 1, .notify 0, .notify 0,
      .check 0, .check 1, .join]
    as.length ≤ busyPool.measure ∧ ((exec ThreadPool.step busyPool as).AtRest →
      (exec ThreadPool.step busyPool as).tasks = [] ∧
      (exec ThreadPool.step busyPool as).done.Perm busyPool.pushed ∧
      (busyPool.stop = true → (exec ThreadPool.step busyPool as).phase = .destroyed)) := by
  intro as
  have hworks : Allowed ThreadPool.step (fun P a => a.Internal ∧ P.step a ≠ P) busyPool as := by
    refine ⟨?_, ?_, ?_, ?_, ?_, ?_, ?_, ?_, ?_, trivial⟩
    all_goals exact ⟨trivial, by decide⟩
  exact threadPool_drains busyPool_reachable (by decide) hworks

end RaftKVStorage
