import RaftKVStorage.Theory.OrderedSet
import RaftKVStorage.Theory.Run
import Mathlib.Logic.Function.Basic
import Mathlib.Data.Prod.Lex
import Mathlib.Tactic

set_option autoImplicit false

/-! # Timers

Classes `timer` and `timerManager` of the coroutine library. Every call runs under `_M_rwMutex`, so
it is a function from the manager to the manager; what the clock reads and where the allocator puts
a new object are inputs. A timer is known by its number, in the order of their making. -/

namespace RaftKVStorage

variable {Cb : Type}

/-- The members of class `timer`; `addr` is where the object lies, `none` the empty callback. -/
structure Timer (Cb : Type) where
  addr : ℕ
  next : UInt64 := 0
  recurring : Bool := false
  period : UInt64 := 0
  cb : Option Cb := none

/-- The constructor `timer(period, cb, recurring, manager)`. Members are initialised in the order of
    their declaration, so `_M_next(now_ms() + _M_period)` comes before `_M_period` has its value and
    reads what the storage held: `stale`. -/
def Timer.new (addr : ℕ) (now stale period : UInt64) (cb : Cb) (recurring : Bool) : Timer Cb :=
  { addr := addr
    next := now + stale
    recurring := recurring
    period := period
    cb := some cb }

/-- `timer::comparator`, on pointers that are not null. -/
def Timer.comparator (lhs rhs : Timer Cb) : Bool :=
  if lhs.next < rhs.next then true
  else if rhs.next < lhs.next then false
  else lhs.addr < rhs.addr

/-- The members of class `timerManager`, and all timers ever made. -/
structure TimerManager (Cb : Type) where
  timer : ℕ → Timer Cb
  made : ℕ := 0
  timers : List ℕ := []
  tickled : Bool := false
  previousTime : UInt64

/-- What has no defined behaviour: `erase(end())`, `*end()`. The loop of `timeoutCallbacks` can also
    outrun the steps it is given here. -/
inductive TimerFault
  | eraseEnd
  | dereferenceEnd
  | unfinished
deriving DecidableEq, Repr

/-- What a call leaves behind: the manager, its result if it returns one, the callbacks it hands out
    with the timers they were read off, and whether it called `_M_afterAddTimerAtFront`. -/
structure TimerOutcome (Cb : Type) where
  manager : TimerManager Cb
  ret : Option Bool := none
  cbs : List (ℕ × Option Cb) := []
  atFront : Bool := false
  fault : Option TimerFault := none

/-! ## The set of timers -/

/-- The constructor `timerManager::timerManager`. -/
def TimerManager.new (now : UInt64) : TimerManager Cb :=
  { timer := fun _ => { addr := 0 }, previousTime := now }

/-- `_M_timers` is ordered by `timer::comparator`. -/
def TimerManager.less (m : TimerManager Cb) (i j : ℕ) : Bool := (m.timer i).comparator (m.timer j)

/-- `_M_timers.find(i)`. -/
def TimerManager.find (m : TimerManager Cb) (i : ℕ) : Option ℕ := OrderedSet.find m.less i m.timers

/-- `_M_timers.insert(i)`. -/
def TimerManager.insert (m : TimerManager Cb) (i : ℕ) : TimerManager Cb :=
  { m with timers := OrderedSet.insert m.less i m.timers }

/-- `_M_timers.erase(it)` for an iterator at `i`. -/
def TimerManager.erase (m : TimerManager Cb) (i : ℕ) : TimerManager Cb :=
  { m with timers := m.timers.erase i }

/-- Timer `i` becomes `t`. -/
def TimerManager.set (m : TimerManager Cb) (i : ℕ) (t : Timer Cb) : TimerManager Cb :=
  { m with timer := Function.update m.timer i t }

/-! ## Calls -/

/-- `_M_addTimer`, and whether it calls `_M_afterAddTimerAtFront`. -/
def TimerManager.mAddTimer (m : TimerManager Cb) (i : ℕ) : TimerManager Cb × Bool :=
  let m := m.insert i
  if m.timers.head? ≠ m.find i ∨ m.tickled then (m, false)
  else ({ m with tickled := true }, true)

/-- `addTimer`, with a callback that is not empty. -/
def TimerManager.addTimer (m : TimerManager Cb) (addr : ℕ) (now stale period : UInt64) (cb : Cb)
    (recurring : Bool) : TimerOutcome Cb :=
  let i := m.made
  let m := { m.set i (.new addr now stale period cb recurring) with made := i + 1 }
  { manager := (m.mAddTimer i).1, atFront := (m.mAddTimer i).2 }

/-- `timer::cancel`. -/
def TimerManager.cancel (m : TimerManager Cb) (i : ℕ) : TimerOutcome Cb :=
  if (m.timer i).cb.isSome then
    let m := m.set i { m.timer i with cb := none }
    match m.find i with
    | none => { manager := m, fault := some .eraseEnd }
    | some j => { manager := m.erase j, ret := some true }
  else
    { manager := m, ret := some false }

/-- `timer::refresh`. -/
def TimerManager.refresh (m : TimerManager Cb) (i : ℕ) (now : UInt64) : TimerOutcome Cb :=
  if (m.timer i).cb.isSome then
    { manager := m, ret := some false }
  else
    match m.find i with
    | none => { manager := m, ret := some false }
    | some j =>
        let m := m.erase j
        let m := m.set i { m.timer i with next := now + (m.timer i).period }
        { manager := m.insert i, ret := some true }

/-- `timer::reset`. No return statement ends it: the last branch has no result. -/
def TimerManager.reset (m : TimerManager Cb) (i : ℕ) (period : UInt64) (fromNow : Bool)
    (now : UInt64) : TimerOutcome Cb :=
  if period = (m.timer i).period ∧ fromNow = false then
    { manager := m, ret := some true }
  else if (m.timer i).cb.isNone then
    { manager := m, ret := some true }
  else
    match m.find i with
    | none => { manager := m, ret := some false }
    | some j =>
        let m := m.erase j
        let next := if fromNow then now else (m.timer i).next + (period - (m.timer i).period)
        let m := m.set i { m.timer i with next := next, period := period }
        { manager := (m.mAddTimer i).1, atFront := (m.mAddTimer i).2 }

def TimerManager.noNext : UInt64 := ~~~0

/-- `getNextDuration`. -/
def TimerManager.getNextDuration (m : TimerManager Cb) (now : UInt64) : TimerManager Cb × UInt64 :=
  ({ m with tickled := false },
    match m.timers.head? with
    | none => noNext
    | some i => if now ≥ (m.timer i).next then 0 else (m.timer i).next - now)

/-- `_M_clockRollover`. The difference wraps around while less than an hour has been counted. -/
def TimerManager.clockRollover (m : TimerManager Cb) (now : UInt64) : TimerManager Cb × Bool :=
  ({ m with previousTime := now },
    now < m.previousTime && now < m.previousTime - 60 * 60 * 1000)

/-- Where the loop of `timeoutCallbacks` stops without a rollover: the first timer from
    `lower_bound(nowTimer)` on whose deadline is not `now`. `addr` is the place of `nowTimer`. -/
def TimerManager.timeoutEndIt (m : TimerManager Cb) (now : UInt64) (addr : ℕ) : Option ℕ :=
  let lowerBound := m.timers.dropWhile fun i => (m.timer i).comparator { addr := addr, next := now }
  (lowerBound.dropWhile fun i => now == (m.timer i).next).head?

/-- The loop's body behind `extract(it++)`, for a timer `i` that has expired. -/
def TimerManager.expire (m : TimerManager Cb) (now : UInt64) (i : ℕ) : TimerManager Cb :=
  let m := m.erase i
  if (m.timer i).recurring then
    (m.set i { m.timer i with next := now + (m.timer i).period }).insert i
  else
    m.set i { m.timer i with cb := none }

/-- The loop of `timeoutCallbacks`, with at most `k` rounds to go. An iterator is the timer it points
    at, `none` is `end()`. -/
def TimerManager.timeoutLoop (now : UInt64) (stop : Option ℕ) :
    ℕ → Option ℕ → TimerManager Cb → List (ℕ × Option Cb) →
      Except TimerFault (TimerManager Cb × List (ℕ × Option Cb))
  | 0, it, m, cbs => if it = stop then .ok (m, cbs) else .error .unfinished
  | k + 1, it, m, cbs =>
      if it = stop then .ok (m, cbs)
      else
        match it with
        | none => .error .dereferenceEnd
        | some i =>
            timeoutLoop now stop k (OrderedSet.successor i m.timers) (m.expire now i)
              (cbs ++ [(i, (m.timer i).cb)])

/-- `timeoutCallbacks`. -/
def TimerManager.timeoutCallbacks (m : TimerManager Cb) (now : UInt64) (addr : ℕ) :
    TimerOutcome Cb :=
  match m.timers.head? with
  | none => { manager := m }
  | some first =>
      let (m, rollover) := m.clockRollover now
      if !rollover && (m.timer first).next > now then
        { manager := m }
      else
        let stop := if rollover then none else m.timeoutEndIt now addr
        match timeoutLoop now stop (2 * m.timers.length) (some first) m [] with
        | .ok (m, cbs) => { manager := m, cbs := cbs }
        | .error fault => { manager := m, fault := some fault }

/-- A call, with what it reads off the clock and the allocator. -/
inductive TimerCall (Cb : Type)
  | addTimer (addr : ℕ) (now stale period : UInt64) (cb : Cb) (recurring : Bool)
  | cancel (i : ℕ)
  | refresh (i : ℕ) (now : UInt64)
  | reset (i : ℕ) (period : UInt64) (fromNow : Bool) (now : UInt64)
  | getNextDuration (now : UInt64)
  | timeoutCallbacks (now : UInt64) (addr : ℕ)

def TimerManager.call (m : TimerManager Cb) : TimerCall Cb → TimerOutcome Cb
  | .addTimer addr now stale period cb recurring => m.addTimer addr now stale period cb recurring
  | .cancel i => m.cancel i
  | .refresh i now => m.refresh i now
  | .reset i period fromNow now => m.reset i period fromNow now
  | .getNextDuration now => { manager := (m.getNextDuration now).1 }
  | .timeoutCallbacks now addr => m.timeoutCallbacks now addr

end RaftKVStorage
