import RaftKVStorage.Theory.Run
import Mathlib.Logic.Function.Basic
import Mathlib.Tactic

set_option autoImplicit false

/-! # Scheduler threads

Classes `coroutine` and `scheduler`: any number of threads that take tasks off one queue and run
them, with `resume` and `yield` cut where another thread can come in between. Tasks are added at any
time: by a coroutine that is running, for itself too, by an idle thread, or from outside. What the
functions do besides is not modelled; stopping is left out, so a thread goes on for ever. -/

namespace RaftKVStorage

variable {F : Type}

/-- `coroutine::state`. -/
inductive CoroutineState
  | READY
  | RUNNING
  | TERM
deriving DecidableEq, Repr

/-- The members of class `coroutine` that matter here. `saved` tells whether `_M_context` is where
    the coroutine left off: it is not from the switch into the coroutine to the switch out of it. -/
structure Coroutine (F : Type) where
  state : CoroutineState := .READY
  saved : Bool := true
  func : Option F := none

/-- `scheduler::task`, known by its number in the order of `_M_addTask`. -/
structure SchedulerTask (F : Type) where
  number : ℕ := 0
  coroutine : Option ℕ := none
  func : Option F := none
  thread : ℤ := -1
deriving DecidableEq, Repr

/-- Where a thread stands in the loop of `_M_schedule`. -/
inductive SchedulerPc (F : Type)
  /-- At the top, where it looks for a task. -/
  | schedule
  /-- With a task taken. -/
  | took (tsk : SchedulerTask F)
  /-- In `resume` of coroutine `c`, which it has found `READY`. -/
  | resume (tsk : SchedulerTask F) (c : ℕ)
  /-- In coroutine `c`. -/
  | running (c : ℕ)
  /-- In `yield` of coroutine `c`, about to switch back. -/
  | yield (c : ℕ)

/-- Coroutines are numbered as they are made. `added` counts the tasks put into the queue; `taken`
    and `served` record which thread took a task off it, and which coroutine was entered for it. -/
structure Scheduler (F : Type) where
  coroutines : ℕ → Coroutine F := fun _ => {}
  made : ℕ := 0
  tasks : List (SchedulerTask F) := []
  threads : ℤ → SchedulerPc F := fun _ => .schedule
  added : ℕ := 0
  taken : List (ℤ × SchedulerTask F) := []
  served : List (SchedulerTask F × ℕ) := []

/-- The task is pinned to another thread. -/
def SchedulerTask.Barred (tsk : SchedulerTask F) (t : ℤ) : Prop := tsk.thread ≠ -1 ∧ t ≠ tsk.thread

instance SchedulerTask.Barred.decidable (tsk : SchedulerTask F) (t : ℤ) : Decidable (tsk.Barred t) :=
  inferInstanceAs (Decidable (_ ∧ _))

/-- The loop of `_M_schedule` over `_M_tasks`: the first task that is not pinned to another thread,
    and what is left. That a coroutine is not `READY` is only logged. -/
def takeTask (t : ℤ) : List (SchedulerTask F) →
    Option (SchedulerTask F) × List (SchedulerTask F)
  | [] => (none, [])
  | tsk :: tasks =>
      if tsk.Barred t then ((takeTask t tasks).1, tsk :: (takeTask t tasks).2)
      else (some tsk, tasks)

/-- `_M_addTask`: a task without a coroutine and a function is not added. -/
def Scheduler.addTask (S : Scheduler F) (co : Option ℕ) (func : Option F) (thread : ℤ) :
    Scheduler F :=
  if co.isSome ∨ func.isSome then
    { S with
      tasks := S.tasks ++ [{ number := S.added, coroutine := co, func := func, thread := thread }]
      added := S.added + 1 }
  else S

/-- A new coroutine, `READY` and with a context made for its function. -/
def Scheduler.newCoroutine (S : Scheduler F) (func : Option F) : Scheduler F :=
  { S with
    coroutines := Function.update S.coroutines S.made { func := func }
    made := S.made + 1 }

def Scheduler.setState (S : Scheduler F) (c : ℕ) (state : CoroutineState) (saved : Bool) :
    Scheduler F :=
  { S with
    coroutines := Function.update S.coroutines c
      { S.coroutines c with state := state, saved := saved } }

def Scheduler.goto (S : Scheduler F) (t : ℤ) (pc : SchedulerPc F) : Scheduler F :=
  { S with threads := Function.update S.threads t pc }

/-- The switch of thread `t` into coroutine `c`, for a task. -/
def Scheduler.enter (S : Scheduler F) (t : ℤ) (tsk : SchedulerTask F) (c : ℕ) : Scheduler F :=
  { (S.setState c .RUNNING false).goto t (.running c) with served := (tsk, c) :: S.served }

/-- The next step of thread `t`. A coroutine it runs comes to its end if `finish`, and yields
    otherwise. -/
def Scheduler.next (S : Scheduler F) (t : ℤ) (finish : Bool) : Scheduler F :=
  match S.threads t with
  | .schedule =>
      match takeTask t S.tasks with
      -- the idle coroutine has its turn
      | (none, _) => S
      | (some tsk, tasks) =>
          { S.goto t (.took tsk) with tasks := tasks, taken := (t, tsk) :: S.taken }
  | .took tsk =>
      match tsk.coroutine with
      | some c =>
          -- `resume` returns when the coroutine is not `READY`, and the task has gone
          if (S.coroutines c).state ≠ .READY then S.goto t .schedule
          else S.goto t (.resume tsk c)
      | none =>
          match tsk.func with
          -- `work_co` is always new: the last one is let go at the end of its turn
          | some f => (S.newCoroutine (some f)).enter t tsk S.made
          | none => S.goto t .schedule
  | .resume tsk c => S.enter t tsk c
  | .running c =>
      if finish then (S.setState c .TERM false).goto t (.yield c)
      else
        match (S.coroutines c).state with
        | .READY => S
        | .RUNNING => (S.setState c .READY (S.coroutines c).saved).goto t (.yield c)
        | .TERM => S.goto t (.yield c)
  | .yield c => (S.setState c (S.coroutines c).state true).goto t .schedule

inductive SchedulerStep (F : Type)
  | addTask (co : Option ℕ) (func : Option F) (thread : ℤ)
  | newCoroutine (func : Option F)
  | next (t : ℤ) (finish : Bool)

def Scheduler.step (S : Scheduler F) : SchedulerStep F → Scheduler F
  | .addTask co func thread => S.addTask co func thread
  | .newCoroutine func => S.newCoroutine func
  | .next t finish => S.next t finish

/-- A task is added for a coroutine that has been made. -/
def Scheduler.Callable (S : Scheduler F) : SchedulerStep F → Prop
  | .addTask co _ _ => ∀ c ∈ co, c < S.made
  | _ => True

end RaftKVStorage
