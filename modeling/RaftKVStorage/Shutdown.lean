import RaftKVStorage.Theory.Monitor
import RaftKVStorage.TaskLedger
import RaftKVStorage.Timer
import RaftKVStorage.Ioman

set_option autoImplicit false

/-! # Stopping the I/O manager

`stop` sets a flag and joins the threads. A thread leaves when its idle coroutine has ended and it finds
no task any more; the idle coroutine ends when it has found no timer, then no pending event, then no task
and no active thread. Each of these is read under a lock of its own or under none, and the other threads
go on in between. The threads are cut at these places. How long `epoll_wait` waits and what it reports
is left open, and so is the pipe that wakes it up. -/

namespace RaftKVStorage

open Monitor GuardedRun

variable {F : Type}

/-- One event, `READ` or `WRITE`, registered for a descriptor, with what `triggerEvent` hands to the
    scheduler. -/
structure Registration (F : Type) where
  fd : ℕ
  event : FdEvent
  coroutine : Option ℕ := none
  func : Option F := none

def Registration.Is (r : Registration F) (fd : ℕ) (event : FdEvent) : Prop :=
  r.fd = fd ∧ r.event = event

instance (r : Registration F) (fd : ℕ) (event : FdEvent) : Decidable (r.Is fd event) :=
  inferInstanceAs (Decidable (_ ∧ _))

/-- Where a thread stands in `_M_schedule`, or in `_M_idle`. -/
inductive IdlePc (F : Type)
  /-- At the top of the loop of `_M_schedule`. -/
  | schedule
  /-- In the coroutine of a task. -/
  | work
  /-- There, in `cancelEvent` or `cancelAll`: an event is triggered, `_M_pendingCountor` comes next. -/
  | canceled
  /-- In `_M_stopping` of the idle coroutine, before `getNextDuration`. -/
  | nextDuration
  /-- There was no timer; `_M_pendingCountor` is read next. -/
  | pendingCountor
  /-- It was 0; `scheduler::_M_stopping` comes next. -/
  | stopping
  /-- In `epoll_wait`. -/
  | epollWait
  /-- With the callbacks of `timeoutCallbacks` that are still to be added. -/
  | callbacks (cbs : List (ℕ × Option F))
  /-- At the results of `epoll_wait`. -/
  | results
  /-- There: an event is triggered, `_M_pendingCountor` comes next. -/
  | triggered
  /-- Behind `_M_schedule`. -/
  | left
deriving DecidableEq

/-- A thread of the pool; `ended` when its idle coroutine is `TERM`. -/
structure IdleThread (F : Type) where
  ended : Bool := false
  pc : IdlePc F := .schedule

/-- An `ioman` with its threads. The counters are unsigned: below zero they have wrapped around. -/
structure IomanPool (F : Type) where
  stopped : Bool := false
  tasks : List (SchedulerTask F) := []
  added : ℕ := 0
  activeCountor : ℤ := 0
  pendingCountor : ℤ := 0
  timers : TimerManager F
  registered : List (Registration F) := []
  threads : List (IdleThread F)

/-- The constructor: no thread at all is replaced by one. -/
def IomanPool.start (threadNum : ℕ) (now : UInt64) : IomanPool F where
  timers := .new now
  threads := List.replicate (if threadNum = 0 then 1 else threadNum) {}

/-- `_M_addTask`. -/
def IomanPool.addTask (S : IomanPool F) (co : Option ℕ) (func : Option F) (thread : ℤ) : IomanPool F :=
  if co.isSome ∨ func.isSome then
    { S with
      tasks := S.tasks ++ [{ number := S.added, coroutine := co, func := func, thread := thread }]
      added := S.added + 1 }
  else S

/-- `triggerEvent`, which does nothing for an event that is not registered. -/
def IomanPool.triggerEvent (S : IomanPool F) (fd : ℕ) (event : FdEvent) : IomanPool F :=
  match S.registered.find? (·.Is fd event) with
  | none => S
  | some r =>
      { S.addTask r.coroutine r.func (-1) with registered := S.registered.eraseP (·.Is fd event) }

def IomanPool.goto (S : IomanPool F) (k : ℕ) (w : IdleThread F) : IomanPool F :=
  { S with threads := S.threads.set k w }

/-- What a thread does next. Where `epoll_ctl` is called, `ok` tells whether it succeeds. -/
inductive IdleStep (F : Type)
  | schedule
  /-- The running task calls one of these. -/
  | addTask (co : Option ℕ) (func : Option F) (thread : ℤ)
  | timer (c : TimerCall F)
  | addEvent (r : Registration F) (ok : Bool)
  | delEvent (fd : ℕ) (event : FdEvent) (ok : Bool)
  | cancelEvent (fd : ℕ) (event : FdEvent) (ok : Bool)
  /-- It yields or ends. -/
  | finish
  /-- `--_M_pendingCountor` behind `triggerEvent`. -/
  | decrease
  | getNextDuration (now : UInt64)
  | readCountor
  | stopping
  | timeoutCallbacks (now : UInt64) (addr : ℕ)
  /-- The next callback is added, or there is none left. -/
  | addCallback
  /-- A result of `epoll_wait` has the event. -/
  | trigger (fd : ℕ) (event : FdEvent)
  /-- There are no more results, and the idle coroutine yields. -/
  | yield

/-- The running task's calls. -/
def IomanPool.workStep (S : IomanPool F) (k : ℕ) (w : IdleThread F) : IdleStep F → IomanPool F
  | .addTask co func thread => S.addTask co func thread
  | .timer c => { S with timers := (S.timers.call c).manager }
  | .addEvent r ok =>
      if S.registered.any (·.Is r.fd r.event) ∨ ok = false then S
      else { S with pendingCountor := S.pendingCountor + 1, registered := r :: S.registered }
  | .delEvent fd event ok =>
      if S.registered.any (·.Is fd event) ∧ ok then
        { S with
          pendingCountor := S.pendingCountor - 1
          registered := S.registered.eraseP (·.Is fd event) }
      else S
  | .cancelEvent fd event ok =>
      if S.registered.any (·.Is fd event) ∧ ok then
        (S.triggerEvent fd event).goto k { w with pc := .canceled }
      else S
  | .finish => { S.goto k { w with pc := .schedule } with activeCountor := S.activeCountor - 1 }
  | _ => S

/-- The next step of thread `k`, which is in state `w`. -/
def IomanPool.threadStep (S : IomanPool F) (k : ℕ) (w : IdleThread F) (a : IdleStep F) : IomanPool F :=
  match w.pc, a with
  | .schedule, .schedule =>
      match takeTask k S.tasks with
      | (some _, tasks) =>
          { S.goto k { w with pc := .work } with
            tasks := tasks
            activeCountor := S.activeCountor + 1 }
      | (none, _) =>
          if w.ended then S.goto k { w with pc := .left } else S.goto k { w with pc := .nextDuration }
  | .work, a => S.workStep k w a
  | .canceled, .decrease =>
      { S.goto k { w with pc := .work } with pendingCountor := S.pendingCountor - 1 }
  | .nextDuration, .getNextDuration now =>
      let duration := (S.timers.getNextDuration now).2
      { S.goto k { w with
          pc := if duration = TimerManager.noNext then .pendingCountor else .epollWait } with
        timers := (S.timers.getNextDuration now).1 }
  | .pendingCountor, .readCountor =>
      S.goto k { w with pc := if S.pendingCountor = 0 then .stopping else .epollWait }
  | .stopping, .stopping =>
      if S.stopped ∧ S.tasks.isEmpty ∧ S.activeCountor = 0 then
        S.goto k { ended := true, pc := .schedule }
      else S.goto k { w with pc := .epollWait }
  | .epollWait, .timeoutCallbacks now addr =>
      { S.goto k { w with pc := .callbacks (S.timers.timeoutCallbacks now addr).cbs } with
        timers := (S.timers.timeoutCallbacks now addr).manager }
  | .callbacks [], .addCallback => S.goto k { w with pc := .results }
  | .callbacks (cb :: cbs), .addCallback =>
      (S.addTask none cb.2 (-1)).goto k { w with pc := .callbacks cbs }
  | .results, .trigger fd event => (S.triggerEvent fd event).goto k { w with pc := .triggered }
  | .triggered, .decrease =>
      { S.goto k { w with pc := .results } with pendingCountor := S.pendingCountor - 1 }
  | .results, .yield => S.goto k { w with pc := .schedule }
  | _, _ => S

inductive IomanPoolStep (F : Type)
  /-- `stop` sets the flag. -/
  | stop
  /-- A thread outside the pool adds a task. -/
  | addTask (co : Option ℕ) (func : Option F) (thread : ℤ)
  | thread (k : ℕ) (a : IdleStep F)

def IomanPool.step (S : IomanPool F) : IomanPoolStep F → IomanPool F
  | .stop => { S with stopped := true }
  | .addTask co func thread => S.addTask co func thread
  | .thread k a =>
      match S.threads[k]? with
      | some w => S.threadStep k w a
      | none => S

/-- Outside the pool tasks are added before `stop` only, no thread deals with a result whose event is no
    longer registered, and the clock is never at 0. -/
def IomanPool.Driven (S : IomanPool F) : IomanPoolStep F → Prop
  | .addTask _ _ _ => S.stopped = false
  | .thread _ (.trigger fd event) => S.registered.any (·.Is fd event) = true
  | .thread _ (.getNextDuration now) => now ≠ 0
  | _ => True

/-- Where there are several threads, none takes a task once its idle coroutine has ended. -/
def IomanPool.EndsIdle (S : IomanPool F) : IomanPoolStep F → Prop
  | .thread k .schedule => S.threads.length ≠ 1 →
      ∀ w ∈ S.threads[k]?, w.ended = true → (takeTask k S.tasks).1.isNone = true
  | _ => True

def IomanPool.Orderly (S : IomanPool F) (a : IomanPoolStep F) : Prop := S.Driven a ∧ S.EndsIdle a

/-- `stop` returns: it has joined every thread. -/
def IomanPool.Joined (S : IomanPool F) : Prop := ∀ w ∈ S.threads, w.pc = .left

/-- Nothing is left: no task, no timer, no event, and nobody at work. -/
structure IomanPool.Done (S : IomanPool F) : Prop where
  tasks : S.tasks = []
  timers : S.timers.timers = []
  registered : S.registered = []
  activeCountor : S.activeCountor = 0
  pendingCountor : S.pendingCountor = 0

/-! ## What the calls leave alone -/

section Fields

variable (S : IomanPool F) (co : Option ℕ) (func : Option F) (thread : ℤ)

@[simp] theorem IomanPool.addTask_threads : (S.addTask co func thread).threads = S.threads := by
  unfold IomanPool.addTask
  split <;> rfl

@[simp] theorem IomanPool.addTask_stopped : (S.addTask co func thread).stopped = S.stopped := by
  unfold IomanPool.addTask
  split <;> rfl

@[simp] theorem IomanPool.addTask_timers : (S.addTask co func thread).timers = S.timers := by
  unfold IomanPool.addTask
  split <;> rfl

@[simp] theorem IomanPool.addTask_registered :
    (S.addTask co func thread).registered = S.registered := by
  unfold IomanPool.addTask
  split <;> rfl

@[simp] theorem IomanPool.addTask_activeCountor :
    (S.addTask co func thread).activeCountor = S.activeCountor := by
  unfold IomanPool.addTask
  split <;> rfl

@[simp] theorem IomanPool.addTask_pendingCountor :
    (S.addTask co func thread).pendingCountor = S.pendingCountor := by
  unfold IomanPool.addTask
  split <;> rfl

/-- A registered event goes, and nothing else does but the task that comes. -/
theorem IomanPool.triggerEvent_registered {S : IomanPool F} {fd : ℕ} {event : FdEvent}
    (h : S.registered.any (·.Is fd event) = true) :
    ∃ co func, S.triggerEvent fd event =
        { S.addTask co func (-1) with registered := S.registered.eraseP (·.Is fd event) } ∧
      (S.registered.eraseP (·.Is fd event)).length + 1 = S.registered.length := by
  cases hfind : S.registered.find? (·.Is fd event) with
  | none =>
      obtain ⟨r, hr, his⟩ := List.any_eq_true.1 h
      exact absurd his (List.find?_eq_none.1 hfind r hr)
  | some r =>
      have hpos : 0 < S.registered.length := List.length_pos_of_mem (List.mem_of_find?_eq_some hfind)
      refine ⟨r.coroutine, r.func, by rw [IomanPool.triggerEvent, hfind], ?_⟩
      rw [List.length_eraseP, if_pos h]
      omega

end Fields

/-- `getNextDuration` returns `noNext` only if there is no timer. -/
theorem TimerManager.timers_of_noNext {m : TimerManager F} {now : UInt64} (hnow : now ≠ 0)
    (h : (m.getNextDuration now).2 = TimerManager.noNext) : m.timers = [] := by
  rw [TimerManager.getNextDuration] at h
  cases htimers : m.timers with
  | nil => rfl
  | cons i timers =>
      rw [htimers] at h
      simp only [List.head?_cons] at h
      split at h
      · exact absurd h (by decide)
      · rename_i hlt
        have hpos : now.toNat ≠ 0 := fun hz => hnow (UInt64.toNat_inj.1 hz)
        have hbound := (m.timer i).next.toNat_lt
        rw [ge_iff_le, UInt64.not_le, UInt64.lt_iff_toNat_lt] at hlt
        have hval := congrArg UInt64.toNat h
        rw [UInt64.toNat_sub_of_le _ _ (UInt64.le_iff_toNat_le.2 hlt.le)] at hval
        have hmax : (TimerManager.noNext).toNat = 18446744073709551615 := by decide
        omega

/-! ## The invariant -/

def IdleThread.awake (w : IdleThread F) : Bool := !w.ended

/-- The thread asks for the next timer before its idle coroutine can end. -/
def IdleThread.seesTimers (w : IdleThread F) : Bool :=
  !w.ended && match w.pc with
    | .pendingCountor => false
    | .stopping => false
    | _ => true

/-- The thread reads the counter of pending events before its idle coroutine can end. -/
def IdleThread.seesEvents (w : IdleThread F) : Bool :=
  !w.ended && match w.pc with
    | .stopping => false
    | _ => true

/-- The thread has triggered an event that is still counted. -/
def IdleThread.owes (w : IdleThread F) : Bool :=
  match w.pc with
  | .canceled => true
  | .triggered => true
  | _ => false

def IdleThread.works (w : IdleThread F) : Bool :=
  match w.pc with
  | .work => true
  | .canceled => true
  | _ => false

/-- The idle coroutine of a thread ends in three looks, and what was not there at a look may have come
    since; but who has brought it is still to look himself. -/
structure IomanPool.Inv (S : IomanPool F) : Prop where
  nonempty : S.threads ≠ []
  ended : ∀ w ∈ S.threads, w.ended = true → S.stopped = true ∧ (w.pc = .schedule ∨ w.pc = .left)
  left : ∀ w ∈ S.threads, w.pc = .left → w.ended = true
  alone : S.threads.length = 1 → ∀ w ∈ S.threads, w.ended = true → S.tasks = []
  timers : Watched (S.timers.timers ≠ []) IdleThread.seesTimers S.threads
  events : Watched (S.pendingCountor ≠ 0) IdleThread.seesEvents S.threads
  tasks : Watched (S.tasks ≠ [] ∨ S.activeCountor ≠ 0) IdleThread.awake S.threads
  counted : S.pendingCountor = S.registered.length + S.threads.countP IdleThread.owes
  active : S.activeCountor = S.threads.countP IdleThread.works

theorem IomanPool.Inv.start (threadNum : ℕ) (now : UInt64) :
    (IomanPool.start threadNum now : IomanPool F).Inv := by
  have hnew : ∀ w ∈ (IomanPool.start threadNum now : IomanPool F).threads, w = {} := fun w hw =>
    List.eq_of_mem_replicate hw
  have hzero : ∀ p : IdleThread F → Bool, p {} = false →
      (IomanPool.start threadNum now : IomanPool F).threads.countP p = 0 := by
    intro p hp
    rw [List.countP_eq_zero]
    intro w hw
    rw [hnew w hw, hp]
    exact Bool.false_ne_true
  refine ⟨?_, fun w hw hend => ?_, fun w hw hleft => ?_, fun _ w hw hend => ?_, fun h => ?_,
    fun h => ?_, fun h => ?_, ?_, ?_⟩
  · rw [IomanPool.start, ne_eq, List.replicate_eq_nil_iff]
    split <;> omega
  · rw [hnew w hw] at hend
    cases hend
  · rw [hnew w hw] at hleft
    cases hleft
  · rw [hnew w hw] at hend
    cases hend
  · exact absurd rfl h
  · exact absurd rfl h
  · rcases h with h | h <;> exact absurd rfl h
  · rw [hzero _ rfl]
    rfl
  · rw [hzero _ rfl]
    rfl

section Steps

variable {S S' : IomanPool F} {k : ℕ} {w : IdleThread F}

/-- One thread goes on. What it leaves behind it is to look for itself, or another one is already. -/
theorem IomanPool.Inv.change (h : S.Inv) (hw : S.threads[k]? = some w) (w' : IdleThread F)
    (hthreads : S'.threads = S.threads.set k w') (hstopped : S'.stopped = S.stopped)
    (hended : w'.ended = true → S.stopped = true ∧ (w'.pc = .schedule ∨ w'.pc = .left))
    (hleft : w'.pc = .left → w'.ended = true)
    (halone : S.threads.length = 1 → w'.ended = true → S'.tasks = [])
    (htimers : S'.timers.timers ≠ [] →
      w'.seesTimers = true ∨ S.timers.timers ≠ [] ∧ w.seesTimers = false)
    (hevents : S'.pendingCountor ≠ 0 →
      w'.seesEvents = true ∨ S.pendingCountor ≠ 0 ∧ w.seesEvents = false)
    (htasks : S'.tasks ≠ [] ∨ S'.activeCountor ≠ 0 →
      w'.awake = true ∨ (S.tasks ≠ [] ∨ S.activeCountor ≠ 0) ∧ w.awake = false)
    (hcounted : S'.pendingCountor + S.registered.length + w.owes.toNat =
      S.pendingCountor + S'.registered.length + w'.owes.toNat)
    (hactive : S'.activeCountor + w.works.toNat = S.activeCountor + w'.works.toNat) : S'.Inv := by
  obtain ⟨rest, hperm, hperm'⟩ := exists_perm_set hw w'
  have hmem : ∀ v ∈ S'.threads, v = w' ∨ v ∈ S.threads := by
    intro v hv
    rw [hthreads] at hv
    rcases List.mem_cons.1 (hperm'.mem_iff.1 hv) with heq | hv
    · exact .inl heq
    · exact .inr (hperm.mem_iff.2 (List.mem_cons_of_mem _ hv))
  have howes := countP_set IdleThread.owes hw w'
  have hworks := countP_set IdleThread.works hw w'
  have hcount := h.counted
  have hact := h.active
  refine ⟨?_, fun v hv hend => ?_, fun v hv hpc => ?_, fun hlen v hv hend => ?_, ?_, ?_, ?_, ?_, ?_⟩
  · rw [hthreads, ← List.length_pos_iff, List.length_set, List.length_pos_iff]
    exact h.nonempty
  · rw [hstopped]
    rcases hmem v hv with rfl | hv
    · exact hended hend
    · exact h.ended v hv hend
  · rcases hmem v hv with rfl | hv
    · exact hleft hpc
    · exact h.left v hv hpc
  · rw [hthreads, List.length_set] at hlen
    obtain ⟨x, hx⟩ := List.length_eq_one_iff.1 hlen
    have hk : k < 1 := hlen ▸ (List.getElem?_eq_some_iff.1 hw).1
    obtain rfl : k = 0 := by omega
    rw [hthreads, hx, List.set_cons_zero, List.mem_singleton] at hv
    exact halone hlen (hv ▸ hend)
  · rw [hthreads]
    exact h.timers.set hw htimers
  · rw [hthreads]
    exact h.events.set hw hevents
  · rw [hthreads]
    exact h.tasks.set hw htasks
  · rw [hthreads]
    omega
  · rw [hthreads]
    omega

theorem seesTimers_of_live (hlive : w.ended = false) (hcountor : w.pc ≠ .pendingCountor)
    (hstopping : w.pc ≠ .stopping) : w.seesTimers = true := by
  rw [IdleThread.seesTimers, hlive]
  split
  · exact absurd ‹_› hcountor
  · exact absurd ‹_› hstopping
  · rfl

/-- A thread whose idle coroutine goes on to look at everything goes on. -/
theorem IomanPool.Inv.live (h : S.Inv) (hw : S.threads[k]? = some w) (w' : IdleThread F)
    (hlive : w'.seesTimers = true) (hthreads : S'.threads = S.threads.set k w')
    (hstopped : S'.stopped = S.stopped) (hleft : w'.pc ≠ .left)
    (hcounted : S'.pendingCountor + S.registered.length + w.owes.toNat =
      S.pendingCountor + S'.registered.length + w'.owes.toNat)
    (hactive : S'.activeCountor + w.works.toNat = S.activeCountor + w'.works.toNat) : S'.Inv := by
  obtain ⟨hawake, hpc⟩ := Bool.and_eq_true_iff.1 hlive
  have hnot : w'.ended = true → False := fun hend => by
    rw [hend] at hawake
    cases hawake
  refine h.change hw w' hthreads hstopped (fun hend => (hnot hend).elim) (fun hpc' => absurd hpc' hleft)
    (fun _ hend => (hnot hend).elim) (fun _ => .inl hlive) (fun _ => .inl ?_) (fun _ => .inl hawake)
    hcounted hactive
  rw [IdleThread.seesEvents, hawake, Bool.true_and]
  split
  · rename_i hstopping
    rw [hstopping] at hpc
    cases hpc
  · rfl

theorem IomanPool.Inv.not_ended (h : S.Inv) (hw : S.threads[k]? = some w) (hschedule : w.pc ≠ .schedule)
    (hleft : w.pc ≠ .left) : w.ended = false := by
  rw [← Bool.not_eq_true]
  intro hend
  rcases (h.ended w (List.mem_of_getElem? hw) hend).2 with hpc | hpc
  · exact hschedule hpc
  · exact hleft hpc

/-- A thread whose idle coroutine has ended finds no task. -/
theorem IomanPool.Inv.takes_nothing (h : S.Inv) (hw : S.threads[k]? = some w) (hend : w.ended = true)
    (hok : S.EndsIdle (.thread k .schedule)) : (takeTask k S.tasks).1.isNone = true := by
  by_cases hlen : S.threads.length = 1
  · rw [h.alone hlen w (List.mem_of_getElem? hw) hend]
    rfl
  · exact hok hlen w hw hend

/-- The running task. -/
theorem IomanPool.Inv.work (h : S.Inv) (hw : S.threads[k]? = some w) (hpc : w.pc = .work)
    (a : IdleStep F) : (S.workStep k w a).Inv := by
  have hlive : w.ended = false := h.not_ended hw (by rw [hpc]; nofun) (by rw [hpc]; nofun)
  have hsees : w.seesTimers = true :=
    seesTimers_of_live hlive (by rw [hpc]; nofun) (by rw [hpc]; nofun)
  have hsame : S.threads = S.threads.set k w := by
    obtain ⟨hk, rfl⟩ := List.getElem?_eq_some_iff.1 hw
    exact (List.set_getElem_self hk).symm
  have hne : w.pc ≠ .left := by rw [hpc]; nofun
  unfold IomanPool.workStep
  split
  · refine h.live hw w hsees ?_ ?_ hne ?_ ?_
    · rwa [IomanPool.addTask_threads]
    · exact S.addTask_stopped ..
    · simp
    · simp
  · exact h.live hw w hsees hsame rfl hne rfl rfl
  · split
    · exact h
    · refine h.live hw w hsees hsame rfl hne ?_ rfl
      simp only [List.length_cons]
      omega
  · split
    · rename_i hreg
      refine h.live hw w hsees hsame rfl hne ?_ rfl
      have hpos : 0 < S.registered.length := by
        obtain ⟨r, hr, -⟩ := List.any_eq_true.1 hreg.1
        exact List.length_pos_of_mem hr
      simp only [List.length_eraseP, if_pos hreg.1]
      omega
    · exact h
  · split
    · rename_i hreg
      obtain ⟨co, func, htrigger, hlength⟩ := S.triggerEvent_registered hreg.1
      rw [htrigger]
      refine h.live hw { w with pc := .canceled } (seesTimers_of_live hlive nofun nofun) ?_ ?_
        nofun ?_ ?_
      · simp [IomanPool.goto]
      · simp [IomanPool.goto]
      · simp only [IomanPool.goto, IomanPool.addTask_pendingCountor, IdleThread.owes, hpc,
          Bool.toNat_false, Bool.toNat_true]
        omega
      · simp [IomanPool.goto, IdleThread.works, hpc]
    · exact h
  · refine h.live hw { w with pc := .schedule } (seesTimers_of_live hlive nofun nofun) rfl rfl
      nofun ?_ ?_
    · simp [IomanPool.goto, IdleThread.owes, hpc]
    · simp [IdleThread.works, hpc]
  · exact h

/-- The look at the top of the loop of `_M_schedule`. -/
theorem IomanPool.Inv.schedule (h : S.Inv) (hw : S.threads[k]? = some w) (hpc : w.pc = .schedule)
    (hok : S.EndsIdle (.thread k .schedule)) : (S.threadStep k w .schedule).Inv := by
  unfold IomanPool.threadStep
  rw [hpc]
  dsimp only
  by_cases hend : w.ended = true
  · have hnone := h.takes_nothing hw hend hok
    obtain ⟨hstopped, -⟩ := h.ended w (List.mem_of_getElem? hw) hend
    split
    · rename_i htake
      rw [htake] at hnone
      cases hnone
    · rw [if_pos hend]
      refine h.change hw { w with pc := .left } rfl rfl ?_ ?_ ?_ ?_ ?_ ?_ ?_ ?_
      · exact fun _ => ⟨hstopped, .inr rfl⟩
      · exact fun _ => hend
      · exact fun hlen _ => h.alone hlen w (List.mem_of_getElem? hw) hend
      · exact fun hdue => .inr ⟨hdue, by rw [IdleThread.seesTimers, hend]; rfl⟩
      · exact fun hdue => .inr ⟨hdue, by rw [IdleThread.seesEvents, hend]; rfl⟩
      · exact fun hdue => .inr ⟨hdue, by rw [IdleThread.awake, hend]; rfl⟩
      · simp [IomanPool.goto, IdleThread.owes, hpc]
      · simp [IomanPool.goto, IdleThread.works, hpc]
  · rw [Bool.not_eq_true] at hend
    split
    · refine h.live hw { w with pc := .work } (seesTimers_of_live hend nofun nofun) rfl rfl nofun
        ?_ ?_
      · simp [IomanPool.goto, IdleThread.owes, hpc]
      · simp [IdleThread.works, hpc]
    · rw [hend, if_neg Bool.false_ne_true]
      refine h.live hw { ended := false, pc := .nextDuration }
        (seesTimers_of_live rfl nofun nofun) rfl rfl nofun ?_ ?_
      · simp [IomanPool.goto, IdleThread.owes, hpc]
      · simp [IomanPool.goto, IdleThread.works, hpc]

/-- `getNextDuration`: the thread stops looking out for timers if there is none. -/
theorem IomanPool.Inv.getNextDuration (h : S.Inv) (hw : S.threads[k]? = some w)
    (hpc : w.pc = .nextDuration) {now : UInt64} (hnow : now ≠ 0) :
    (S.threadStep k w (.getNextDuration now)).Inv := by
  have hlive : w.ended = false := h.not_ended hw (by rw [hpc]; nofun) (by rw [hpc]; nofun)
  unfold IomanPool.threadStep
  rw [hpc]
  dsimp only
  split
  · rename_i hnext
    have hnone := TimerManager.timers_of_noNext hnow hnext
    refine h.change hw { w with pc := .pendingCountor } rfl rfl ?_ nofun ?_ ?_ ?_ ?_ ?_ ?_
    · exact fun hend => absurd (hlive.symm.trans hend) Bool.false_ne_true
    · exact fun _ hend => absurd (hlive.symm.trans hend) Bool.false_ne_true
    · exact fun hdue => absurd hnone hdue
    · exact fun _ => .inl (by rw [IdleThread.seesEvents, hlive]; rfl)
    · exact fun _ => .inl (by rw [IdleThread.awake, hlive]; rfl)
    · simp [IomanPool.goto, IdleThread.owes, hpc]
    · simp [IomanPool.goto, IdleThread.works, hpc]
  · refine h.live hw { w with pc := .epollWait } (seesTimers_of_live hlive nofun nofun) rfl rfl
      nofun ?_ ?_
    · simp [IomanPool.goto, IdleThread.owes, hpc]
    · simp [IomanPool.goto, IdleThread.works, hpc]

/-- The thread stops looking out for events if none is pending. -/
theorem IomanPool.Inv.readCountor (h : S.Inv) (hw : S.threads[k]? = some w)
    (hpc : w.pc = .pendingCountor) : (S.threadStep k w .readCountor).Inv := by
  have hlive : w.ended = false := h.not_ended hw (by rw [hpc]; nofun) (by rw [hpc]; nofun)
  unfold IomanPool.threadStep
  rw [hpc]
  dsimp only
  split
  · rename_i hzero
    refine h.change hw { w with pc := .stopping } rfl rfl ?_ nofun ?_ ?_ ?_ ?_ ?_ ?_
    · exact fun hend => absurd (hlive.symm.trans hend) Bool.false_ne_true
    · exact fun _ hend => absurd (hlive.symm.trans hend) Bool.false_ne_true
    · exact fun hdue => .inr ⟨hdue, by rw [IdleThread.seesTimers, hpc, Bool.and_false]⟩
    · exact fun hdue => absurd hzero hdue
    · exact fun _ => .inl (by rw [IdleThread.awake, hlive]; rfl)
    · simp [IomanPool.goto, IdleThread.owes, hpc]
    · simp [IomanPool.goto, IdleThread.works, hpc]
  · refine h.live hw { w with pc := .epollWait } (seesTimers_of_live hlive nofun nofun) rfl rfl
      nofun ?_ ?_
    · simp [IomanPool.goto, IdleThread.owes, hpc]
    · simp [IomanPool.goto, IdleThread.works, hpc]

/-- The idle coroutine ends if there is no task and nobody is at work. -/
theorem IomanPool.Inv.stopping (h : S.Inv) (hw : S.threads[k]? = some w) (hpc : w.pc = .stopping) :
    (S.threadStep k w .stopping).Inv := by
  have hlive : w.ended = false := h.not_ended hw (by rw [hpc]; nofun) (by rw [hpc]; nofun)
  unfold IomanPool.threadStep
  rw [hpc]
  dsimp only
  split
  · rename_i hidle
    obtain ⟨hstopped, hempty, hzero⟩ := hidle
    have htasks : S.tasks = [] := List.isEmpty_iff.1 hempty
    refine h.change hw { ended := true, pc := .schedule } rfl rfl ?_ nofun ?_ ?_ ?_ ?_ ?_ ?_
    · exact fun _ => ⟨hstopped, .inl rfl⟩
    · exact fun _ _ => htasks
    · exact fun hdue => .inr ⟨hdue, by rw [IdleThread.seesTimers, hpc, Bool.and_false]⟩
    · exact fun hdue => .inr ⟨hdue, by rw [IdleThread.seesEvents, hpc, Bool.and_false]⟩
    · rintro (hdue | hdue)
      · exact absurd htasks hdue
      · exact absurd hzero hdue
    · simp [IomanPool.goto, IdleThread.owes, hpc]
    · simp [IomanPool.goto, IdleThread.works, hpc]
  · refine h.live hw { w with pc := .epollWait } (seesTimers_of_live hlive nofun nofun) rfl rfl
      nofun ?_ ?_
    · simp [IomanPool.goto, IdleThread.owes, hpc]
    · simp [IomanPool.goto, IdleThread.works, hpc]

/-- The thread adds the task of a callback, or the one of an event. -/
theorem IomanPool.Inv.addCallback (h : S.Inv) (hw : S.threads[k]? = some w) {cb : ℕ × Option F}
    {cbs : List (ℕ × Option F)} (hpc : w.pc = .callbacks (cb :: cbs)) :
    ((S.addTask none cb.2 (-1)).goto k { w with pc := .callbacks cbs }).Inv := by
  have hlive : w.ended = false := h.not_ended hw (by rw [hpc]; nofun) (by rw [hpc]; nofun)
  refine h.live hw { w with pc := .callbacks cbs } (seesTimers_of_live hlive nofun nofun) ?_ ?_
    nofun ?_ ?_
  · simp [IomanPool.goto]
  · simp [IomanPool.goto]
  · simp [IomanPool.goto, IdleThread.owes, hpc]
  · simp [IomanPool.goto, IdleThread.works, hpc]

theorem IomanPool.Inv.trigger (h : S.Inv) (hw : S.threads[k]? = some w) (hpc : w.pc = .results)
    {fd : ℕ} {event : FdEvent} (hreg : S.registered.any (·.Is fd event) = true) :
    ((S.triggerEvent fd event).goto k { w with pc := .triggered }).Inv := by
  have hlive : w.ended = false := h.not_ended hw (by rw [hpc]; nofun) (by rw [hpc]; nofun)
  obtain ⟨co, func, htrigger, hlength⟩ := S.triggerEvent_registered hreg
  rw [htrigger]
  refine h.live hw { w with pc := .triggered } (seesTimers_of_live hlive nofun nofun) ?_ ?_
    nofun ?_ ?_
  · simp [IomanPool.goto]
  · simp [IomanPool.goto]
  · simp only [IomanPool.goto, IomanPool.addTask_pendingCountor, IdleThread.owes, hpc,
      Bool.toNat_false, Bool.toNat_true]
    omega
  · simp [IomanPool.goto, IdleThread.works, hpc]

/-- Every step of a thread. -/
theorem IomanPool.Inv.threadStep (h : S.Inv) (hw : S.threads[k]? = some w) (a : IdleStep F)
    (hok : S.Orderly (.thread k a)) : (S.threadStep k w a).Inv := by
  have hlive : w.pc ≠ .schedule → w.pc ≠ .left → w.ended = false := h.not_ended hw
  unfold IomanPool.threadStep
  split
  · rename_i hpc
    simpa only [IomanPool.threadStep, hpc] using h.schedule hw hpc hok.2
  · rename_i hpc
    exact h.work hw hpc _
  · rename_i hpc
    rw [hpc] at hlive
    refine h.live hw { w with pc := .work }
      (seesTimers_of_live (hlive nofun nofun) nofun nofun) rfl rfl nofun ?_ ?_
    · simp only [IomanPool.goto, IdleThread.owes, hpc, Bool.toNat_false, Bool.toNat_true]
      omega
    · simp [IomanPool.goto, IdleThread.works, hpc]
  · rename_i hpc
    simpa only [IomanPool.threadStep, hpc] using h.getNextDuration hw hpc hok.1
  · rename_i hpc
    simpa only [IomanPool.threadStep, hpc] using h.readCountor hw hpc
  · rename_i hpc
    simpa only [IomanPool.threadStep, hpc] using h.stopping hw hpc
  · rename_i hpc
    rw [hpc] at hlive
    refine h.live hw { w with pc := .callbacks _ }
      (seesTimers_of_live (hlive nofun nofun) nofun nofun) rfl rfl nofun ?_ ?_
    · simp [IomanPool.goto, IdleThread.owes, hpc]
    · simp [IomanPool.goto, IdleThread.works, hpc]
  · rename_i hpc
    rw [hpc] at hlive
    refine h.live hw { w with pc := .results }
      (seesTimers_of_live (hlive nofun nofun) nofun nofun) rfl rfl nofun ?_ ?_
    · simp [IomanPool.goto, IdleThread.owes, hpc]
    · simp [IomanPool.goto, IdleThread.works, hpc]
  · rename_i hpc
    exact h.addCallback hw hpc
  · rename_i hpc
    exact h.trigger hw hpc hok.1
  · rename_i hpc
    rw [hpc] at hlive
    refine h.live hw { w with pc := .results }
      (seesTimers_of_live (hlive nofun nofun) nofun nofun) rfl rfl nofun ?_ ?_
    · simp only [IomanPool.goto, IdleThread.owes, hpc, Bool.toNat_false, Bool.toNat_true]
      omega
    · simp [IomanPool.goto, IdleThread.works, hpc]
  · rename_i hpc
    rw [hpc] at hlive
    refine h.live hw { w with pc := .schedule }
      (seesTimers_of_live (hlive nofun nofun) nofun nofun) rfl rfl nofun ?_ ?_
    · simp [IomanPool.goto, IdleThread.owes, hpc]
    · simp [IomanPool.goto, IdleThread.works, hpc]
  · exact h

theorem IomanPool.Inv.step (h : S.Inv) (a : IomanPoolStep F) (hok : S.Orderly a) : (S.step a).Inv := by
  cases a with
  | stop =>
      exact ⟨h.nonempty, fun w hw hend => ⟨rfl, (h.ended w hw hend).2⟩, h.left, h.alone, h.timers,
        h.events, h.tasks, h.counted, h.active⟩
  | addTask co func thread =>
      -- before `stop` no idle coroutine has ended
      have hawake : ∀ w ∈ S.threads, w.ended = false := by
        have hstopped : S.stopped = false := hok.1
        intro w hw
        rw [← Bool.not_eq_true]
        intro hend
        rw [(h.ended w hw hend).1] at hstopped
        cases hstopped
      obtain ⟨v, hv⟩ := List.exists_mem_of_ne_nil _ h.nonempty
      have hinv : (S.addTask co func thread).Inv := by
        refine ⟨?_, ?_, ?_, ?_, ?_, ?_, ?_, ?_, ?_⟩
        · simpa using h.nonempty
        · simpa using h.ended
        · simpa using h.left
        · intro _ w hw hend
          rw [IomanPool.addTask_threads] at hw
          exact absurd ((hawake w hw).symm.trans hend) Bool.false_ne_true
        · simpa using h.timers
        · simpa using h.events
        · intro _
          rw [IomanPool.addTask_threads]
          exact ⟨v, hv, by rw [IdleThread.awake, hawake v hv]; rfl⟩
        · simpa using h.counted
        · simpa using h.active
      exact hinv
  | thread k a =>
      simp only [IomanPool.step]
      split
      · exact h.threadStep ‹_› a hok
      · exact h

end Steps

theorem IomanPool.inv_of_reach {threadNum : ℕ} {now : UInt64} {S : IomanPool F}
    (h : Reach (.start threadNum now) IomanPool.step IomanPool.Orderly S) : S.Inv :=
  h.invariant (.start threadNum now) fun _ a _ hinv hok => hinv.step a hok

/-- When `stop` has joined the threads nothing is left over, whatever they have been doing: every task
    has been taken and run, every timer has expired or was cancelled, and no event is pending. So `stop`
    does not return while a timer that recurs is there. -/
theorem shutdown_complete {threadNum : ℕ} {now : UInt64} {S : IomanPool F}
    (h : Reach (.start threadNum now) IomanPool.step IomanPool.Orderly S) (hjoined : S.Joined) :
    S.Done := by
  have hinv := IomanPool.inv_of_reach h
  have hended : ∀ w ∈ S.threads, w.ended = true := fun w hw => hinv.left w hw (hjoined w hw)
  have htimers := hinv.timers.not_due fun w hw => by rw [IdleThread.seesTimers, hended w hw]; rfl
  have hevents := hinv.events.not_due fun w hw => by rw [IdleThread.seesEvents, hended w hw]; rfl
  have htasks := hinv.tasks.not_due fun w hw => by rw [IdleThread.awake, hended w hw]; rfl
  rw [not_or, not_not, not_not] at htasks
  rw [not_not] at htimers hevents
  refine ⟨htasks.1, htimers, ?_, htasks.2, hevents⟩
  have hcounted := hinv.counted
  rw [← List.length_eq_zero_iff]
  omega

instance IomanPool.Driven.decidable (S : IomanPool F) (a : IomanPoolStep F) : Decidable (S.Driven a) := by
  cases a with
  | thread k a => cases a <;> unfold IomanPool.Driven <;> infer_instance
  | _ => unfold IomanPool.Driven; infer_instance

instance IomanPool.EndsIdle.decidable (S : IomanPool F) (a : IomanPoolStep F) :
    Decidable (S.EndsIdle a) := by
  cases a with
  | thread k a => cases a <;> unfold IomanPool.EndsIdle <;> infer_instance
  | _ => unfold IomanPool.EndsIdle; infer_instance

instance IomanPool.Orderly.decidable (S : IomanPool F) (a : IomanPoolStep F) :
    Decidable (S.Orderly a) := inferInstanceAs (Decidable (_ ∧ _))

instance IomanPool.Joined.decidable [DecidableEq F] (S : IomanPool F) : Decidable S.Joined :=
  inferInstanceAs (Decidable (∀ w ∈ S.threads, w.pc = .left))

/-- A task sets a timer and waits for descriptor 7; the pool is stopped, and then the timer expires and
    the descriptor can be read. -/
def stopWithWork : List (IomanPoolStep Unit) :=
  [.addTask none (some ()) (-1), .thread 0 .schedule, .thread 0 (.timer (.addTimer 1 5 0 0 () false)),
    .thread 0 (.addEvent { fd := 7, event := .read, func := some () } true), .stop, .thread 0 .finish,
    .thread 0 .schedule, .thread 0 (.getNextDuration 5), .thread 0 (.timeoutCallbacks 6 0),
    .thread 0 .addCallback, .thread 0 .addCallback, .thread 0 (.trigger 7 .read), .thread 0 .decrease,
    .thread 0 .yield, .thread 0 .schedule, .thread 0 .finish, .thread 0 .schedule, .thread 0 .finish,
    .thread 0 .schedule, .thread 0 (.getNextDuration 7), .thread 0 .readCountor, .thread 0 .stopping,
    .thread 0 .schedule]

theorem shutdown_complete_work :
    (exec IomanPool.step (.start 1 5) stopWithWork).Joined ∧
      (exec IomanPool.step (.start 1 5) stopWithWork).Done :=
  have hjoined : (exec IomanPool.step (.start 1 5) stopWithWork).Joined := by decide +kernel
  ⟨hjoined, shutdown_complete (.exec .init (by decide +kernel)) hjoined⟩

/-- Thread 0 has found no timer when thread 1 sets one and is done. So the idle coroutine of thread 0
    ends; then it takes the callback of the timer, which sets another one, and thread 1 has already
    looked for it. -/
def timerLeft : List (IomanPoolStep Unit) :=
  [.thread 0 .schedule, .thread 0 (.getNextDuration 5), .thread 0 .readCountor,
    .addTask none (some ()) (-1), .thread 1 .schedule, .thread 1 (.timer (.addTimer 1 5 0 0 () false)),
    .stop, .thread 1 .finish, .thread 0 .stopping,
    .thread 1 .schedule, .thread 1 (.getNextDuration 6), .thread 1 (.timeoutCallbacks 6 0),
    .thread 1 .addCallback, .thread 1 .addCallback, .thread 0 .schedule, .thread 1 .yield,
    .thread 1 .schedule, .thread 1 (.getNextDuration 7), .thread 1 .readCountor,
    .thread 0 (.timer (.addTimer 1 7 0 0 () true)), .thread 0 .finish, .thread 1 .stopping,
    .thread 1 .schedule, .thread 0 .schedule]

/-- With several threads a timer can be left over if one of them takes a task once its idle coroutine
    has ended. -/
theorem shutdown_incomplete :
    ¬ ∀ as : List (IomanPoolStep Unit), Allowed IomanPool.step IomanPool.Driven (.start 2 5) as →
      (exec IomanPool.step (IomanPool.start 2 5) as).Joined →
      (exec IomanPool.step (IomanPool.start 2 5) as).timers.timers = [] := by
  intro h
  have htimers := h timerLeft (by decide +kernel) (by decide +kernel)
  revert htimers
  decide +kernel

/-! ## The threads leave -/

/-- `stop` was called and nothing is left, nor is a callback about to be added. -/
structure IomanPool.Over (S : IomanPool F) : Prop extends S.Done where
  stopped : S.stopped = true
  callbacks : ∀ w ∈ S.threads, ∀ cb cbs, w.pc ≠ .callbacks (cb :: cbs)

/-- The steps a thread has before it, at most, when nothing is left. -/
def IdleThread.weight (w : IdleThread F) : ℕ :=
  match w.ended, w.pc with
  | _, .left => 0
  | true, _ => 1
  | false, .stopping => 2
  | false, .pendingCountor => 3
  | false, .nextDuration => 4
  | false, .schedule => 5
  | false, .results => 6
  | false, .callbacks _ => 7
  | false, _ => 8

theorem IdleThread.weight_le (w : IdleThread F) : w.weight ≤ 8 := by
  unfold IdleThread.weight
  split <;> omega

section Over

variable {S : IomanPool F} {k : ℕ} {w : IdleThread F}

/-- A thread moves on. -/
theorem IomanPool.Over.goto (h : S.Over) (hw : S.threads[k]? = some w) {S' : IomanPool F}
    {w' : IdleThread F} (hthreads : S'.threads = S.threads.set k w') (hstopped : S'.stopped = S.stopped)
    (htasks : S'.tasks = S.tasks) (htimers : S'.timers.timers = S.timers.timers)
    (hregistered : S'.registered = S.registered) (hactive : S'.activeCountor = S.activeCountor)
    (hpending : S'.pendingCountor = S.pendingCountor)
    (hcallbacks : ∀ cb cbs, w'.pc ≠ .callbacks (cb :: cbs)) (hlt : w'.weight < w.weight) :
    S'.Over ∧ total IdleThread.weight S'.threads < total IdleThread.weight S.threads := by
  refine ⟨⟨⟨htasks.trans h.tasks, htimers.trans h.timers, hregistered.trans h.registered,
    hactive.trans h.activeCountor, hpending.trans h.pendingCountor⟩, hstopped.trans h.stopped,
    fun v hv => ?_⟩, ?_⟩
  · rw [hthreads] at hv
    rcases List.mem_or_eq_of_mem_set hv with hv | rfl
    · exact h.callbacks v hv
    · exact hcallbacks
  · have htotal := total_set IdleThread.weight hw w'
    rw [hthreads]
    omega

/-- What a thread does when nothing is left: it goes on towards its end, or stays where it is. -/
theorem IomanPool.Over.threadStep (h : S.Over) (hinv : S.Inv) (hw : S.threads[k]? = some w)
    (a : IdleStep F) (hok : S.Orderly (.thread k a)) :
    S.threadStep k w a = S ∨ ((S.threadStep k w a).Over ∧
      total IdleThread.weight (S.threadStep k w a).threads < total IdleThread.weight S.threads) := by
  have hmem := List.mem_of_getElem? hw
  have hlive : w.pc ≠ .schedule → w.pc ≠ .left → w.ended = false := hinv.not_ended hw
  have hworks : w.works = false := by
    have hactive := hinv.active
    rw [h.activeCountor, eq_comm, Int.natCast_eq_zero, List.countP_eq_zero] at hactive
    simpa using hactive w hmem
  have howes : w.owes = false := by
    have hcounted := hinv.counted
    have hnone : S.threads.countP IdleThread.owes = 0 := by
      rw [h.pendingCountor, h.registered, List.length_nil] at hcounted
      omega
    simpa using List.countP_eq_zero.1 hnone w hmem
  have htake : takeTask k S.tasks = (none, []) := by rw [h.tasks, takeTask]
  unfold IomanPool.threadStep
  split
  · rename_i hpc
    refine .inr ?_
    rw [htake]
    dsimp only
    split
    · rename_i hend
      refine h.goto hw rfl rfl rfl rfl rfl rfl rfl (by simp) ?_
      simp [IdleThread.weight, hend, hpc]
    · rename_i hend
      refine h.goto hw rfl rfl rfl rfl rfl rfl rfl (by simp) ?_
      simp [IdleThread.weight, hend, hpc]
  · rename_i hpc
    rw [IdleThread.works, hpc] at hworks
    cases hworks
  · rename_i hpc
    rw [IdleThread.works, hpc] at hworks
    cases hworks
  · rename_i now hpc
    refine .inr ?_
    rw [hpc] at hlive
    have hnext : (S.timers.getNextDuration now).2 = TimerManager.noNext := by
      rw [TimerManager.getNextDuration, h.timers]
      rfl
    dsimp only
    rw [if_pos hnext]
    refine h.goto hw rfl rfl rfl rfl rfl rfl rfl (by simp) ?_
    simp [IdleThread.weight, hlive, hpc]
  · rename_i hpc
    refine .inr ?_
    rw [hpc] at hlive
    rw [if_pos h.pendingCountor]
    refine h.goto hw rfl rfl rfl rfl rfl rfl rfl (by simp) ?_
    simp [IdleThread.weight, hlive, hpc]
  · rename_i hpc
    refine .inr ?_
    rw [hpc] at hlive
    rw [if_pos ⟨h.stopped, List.isEmpty_iff.2 h.tasks, h.activeCountor⟩]
    refine h.goto hw rfl rfl rfl rfl rfl rfl rfl (by simp) ?_
    simp [IdleThread.weight, hlive, hpc]
  · rename_i now addr hpc
    refine .inr ?_
    rw [hpc] at hlive
    have hnone : S.timers.timeoutCallbacks now addr = { manager := S.timers } := by
      rw [TimerManager.timeoutCallbacks, h.timers]
      rfl
    rw [hnone]
    refine h.goto hw rfl rfl rfl rfl rfl rfl rfl (by simp) ?_
    simp [IdleThread.weight, hlive, hpc]
  · rename_i hpc
    refine .inr ?_
    rw [hpc] at hlive
    refine h.goto hw rfl rfl rfl rfl rfl rfl rfl (by simp) ?_
    simp [IdleThread.weight, hlive, hpc]
  · rename_i hpc
    exact absurd hpc (h.callbacks w hmem _ _)
  · -- no event is registered
    have hreg := hok.1
    rw [IomanPool.Driven, h.registered] at hreg
    cases hreg
  · rename_i hpc
    rw [IdleThread.owes, hpc] at howes
    cases howes
  · rename_i hpc
    refine .inr ?_
    rw [hpc] at hlive
    refine h.goto hw rfl rfl rfl rfl rfl rfl rfl (by simp) ?_
    simp [IdleThread.weight, hlive, hpc]
  · exact .inl rfl

/-- A step that somebody can take. -/
def IomanPool.Moves (S : IomanPool F) (a : IomanPoolStep F) : Prop := S.Orderly a ∧ S.step a ≠ S

theorem IomanPool.Over.step (h : S.Over) (hinv : S.Inv) {a : IomanPoolStep F} (ha : S.Moves a) :
    (S.step a).Over ∧
      total IdleThread.weight (S.step a).threads < total IdleThread.weight S.threads := by
  obtain ⟨hok, hne⟩ := ha
  cases a with
  | stop =>
      refine absurd ?_ hne
      rw [IomanPool.step, ← h.stopped]
  | addTask co func thread =>
      have hstopped : S.stopped = false := hok.1
      rw [h.stopped] at hstopped
      cases hstopped
  | thread k a =>
      cases hw : S.threads[k]? with
      | none =>
          refine absurd ?_ hne
          rw [IomanPool.step, hw]
      | some w =>
          have hstep : S.step (.thread k a) = S.threadStep k w a := by rw [IomanPool.step, hw]
          rw [hstep] at hne ⊢
          exact (h.threadStep hinv hw a hok).resolve_left hne

theorem IomanPool.step_ne {a : IdleStep F} (hw : S.threads[k]? = some w) {w' : IdleThread F}
    (hthreads : (S.threadStep k w a).threads = S.threads.set k w') (hne : w'.pc ≠ w.pc) :
    S.step (.thread k a) ≠ S := by
  intro heq
  have hself := List.getElem?_set_self (a := w') (List.getElem?_eq_some_iff.1 hw).1
  rw [IomanPool.step, hw] at heq
  dsimp only at heq
  rw [← hthreads, heq, hw] at hself
  exact hne (congrArg IdleThread.pc (Option.some.inj hself).symm)

/-- A thread that has not left can go on. -/
theorem IomanPool.Over.exists_moves (h : S.Over) (hw : S.threads[k]? = some w)
    (hpc : w.pc ≠ .left) : ∃ a, S.Moves a := by
  have htake : takeTask k S.tasks = (none, []) := by rw [h.tasks, takeTask]
  have hmem := List.mem_of_getElem? hw
  have hgo : ∀ (a : IdleStep F) (w' : IdleThread F), S.Orderly (.thread k a) →
      (S.threadStep k w a).threads = S.threads.set k w' → w'.pc ≠ w.pc → ∃ a, S.Moves a :=
    fun _ _ hok hthreads hne => ⟨_, hok, S.step_ne hw hthreads hne⟩
  cases hp : w.pc with
  | schedule =>
      have hok : S.Orderly (.thread k .schedule) := ⟨trivial, fun _ _ _ _ => by rw [htake]; rfl⟩
      by_cases hend : w.ended = true
      · refine hgo .schedule { w with pc := .left } hok ?_ (by simp [hp])
        simp only [IomanPool.threadStep, hp, htake, if_pos hend, IomanPool.goto]
      · refine hgo .schedule { w with pc := .nextDuration } hok ?_ (by simp [hp])
        simp only [IomanPool.threadStep, hp, htake, if_neg hend, IomanPool.goto]
  | nextDuration =>
      have hok : S.Orderly (.thread k (.getNextDuration 1)) :=
        ⟨(by decide : (1 : UInt64) ≠ 0), trivial⟩
      refine hgo _ _ hok (by simp only [IomanPool.threadStep, hp]; rfl) ?_
      rw [hp]
      dsimp only
      split <;> simp
  | pendingCountor =>
      refine hgo .readCountor _ ⟨trivial, trivial⟩
        (by simp only [IomanPool.threadStep, hp]; rfl) ?_
      rw [hp]
      dsimp only
      split <;> simp
  | stopping =>
      refine hgo .stopping { ended := true, pc := .schedule } ⟨trivial, trivial⟩ ?_
        (by simp [hp])
      simp only [IomanPool.threadStep, hp]
      rw [if_pos ⟨h.stopped, List.isEmpty_iff.2 h.tasks, h.activeCountor⟩, IomanPool.goto]
  | epollWait =>
      exact hgo (.timeoutCallbacks 0 0) _ ⟨trivial, trivial⟩
        (by simp only [IomanPool.threadStep, hp]; rfl) (by simp [hp])
  | callbacks cbs =>
      cases cbs with
      | nil =>
          exact hgo .addCallback _ ⟨trivial, trivial⟩
            (by simp only [IomanPool.threadStep, hp]; rfl) (by simp [hp])
      | cons cb cbs => exact absurd hp (h.callbacks w hmem cb cbs)
  | results =>
      exact hgo .yield _ ⟨trivial, trivial⟩
        (by simp only [IomanPool.threadStep, hp]; rfl) (by simp [hp])
  | triggered =>
      exact hgo .decrease _ ⟨trivial, trivial⟩
        (by simp only [IomanPool.threadStep, hp]; rfl) (by simp [hp])
  | canceled =>
      exact hgo .decrease _ ⟨trivial, trivial⟩
        (by simp only [IomanPool.threadStep, hp]; rfl) (by simp [hp])
  | work =>
      exact hgo .finish _ ⟨trivial, trivial⟩
        (by simp only [IomanPool.threadStep, IomanPool.workStep, hp]; rfl) (by simp [hp])
  | left => exact absurd hp hpc

end Over

/-- Once `stop` was called and nothing is left, the threads leave after a bounded number of steps, in any
    order, and `stop` returns. -/
theorem threads_leave {threadNum : ℕ} {now : UInt64} {S : IomanPool F}
    (h : Reach (.start threadNum now) IomanPool.step IomanPool.Orderly S) (hover : S.Over)
    {as : List (IomanPoolStep F)} (has : Allowed IomanPool.step IomanPool.Moves S as) :
    as.length ≤ 8 * S.threads.length ∧
      ((∀ a, ¬(exec IomanPool.step S as).Moves a) → (exec IomanPool.step S as).Joined) := by
  have hstep : ∀ (S : IomanPool F) (a : IomanPoolStep F), S.Over ∧ S.Inv → S.Moves a →
      (S.step a).Over ∧ (S.step a).Inv := fun S a h ha =>
    ⟨(h.1.step h.2 ha).1, h.2.step a ha.1⟩
  have hinv := IomanPool.inv_of_reach h
  refine ⟨?_, fun hrest w hw => ?_⟩
  · refine ((has.and_invariant hstep ⟨hover, hinv⟩).length_le
      (fun S => total IdleThread.weight S.threads) fun S a h => ?_).trans
      (total_le _ IdleThread.weight_le _)
    exact (h.1.1.step h.1.2 h.2).2
  · obtain ⟨hover', -⟩ := has.invariant hstep ⟨hover, hinv⟩
    obtain ⟨k, hk⟩ := List.mem_iff_getElem?.1 hw
    by_contra hpc
    obtain ⟨a, ha⟩ := hover'.exists_moves hk hpc
    exact hrest a ha

/-- Two threads with nothing to do, one about to end its idle coroutine when `stop` is called. -/
def idlePool : IomanPool Unit :=
  exec IomanPool.step (.start 2 5)
    [.thread 0 .schedule, .thread 0 (.getNextDuration 5), .thread 0 .readCountor, .stop]

theorem threads_leave_idle :
    [(.thread 0 .stopping : IomanPoolStep Unit), .thread 0 .schedule].length ≤ 8 * idlePool.threads.length ∧
      ((∀ a, ¬(exec IomanPool.step idlePool [.thread 0 .stopping, .thread 0 .schedule]).Moves a) →
        (exec IomanPool.step idlePool [.thread 0 .stopping, .thread 0 .schedule]).Joined) := by
  have hmoves : ∀ {S S' : IomanPool Unit}, S.threads.map (·.pc) ≠ S'.threads.map (·.pc) → S ≠ S' :=
    fun hne heq => hne (congrArg (fun S => S.threads.map (·.pc)) heq)
  have hover : idlePool.Over :=
    ⟨⟨by decide +kernel, by decide +kernel, rfl, by decide +kernel, by decide +kernel⟩,
      by decide +kernel, fun w hw cb cbs => by
        have hpcs : ∀ w ∈ idlePool.threads, w.pc = .stopping ∨ w.pc = .schedule := by decide +kernel
        rcases hpcs w hw with hpc | hpc <;> simp [hpc]⟩
  exact threads_leave (.exec .init (by decide +kernel)) hover
    ⟨⟨by decide +kernel, hmoves (by decide +kernel)⟩, ⟨by decide +kernel, hmoves (by decide +kernel)⟩,
      trivial⟩

end RaftKVStorage
