import RaftKVStorage.Ioman
import RaftKVStorage.Timer

set_option autoImplicit false

/-! # A hooked call with a timeout

`do_io` of the hooks, statement by statement, for one call of one coroutine. Around it go on the
timers and the I/O manager it works with: threads that wait for events, hand out expired callbacks
and run them, and the calls of everybody else. -/

namespace RaftKVStorage

variable {F : Type}

/-- A callback in the timers: that of a timer of the call, known by the timer, or another one. -/
inductive IoCallback
  | doIo (timer : ℕ)
  | other (k : ℕ)
deriving DecidableEq, Repr

/-- The arguments of the call, the coroutine and the scheduler it runs under, and the timeout of
    its descriptor. -/
structure DoIoCall where
  fd : ℕ
  ev : FdEvent
  co : ℕ
  sch : Option ℕ
  timeout : UInt64

/-- The statement the call comes to next. -/
inductive DoIoPc
  | fn
  | addTimer
  | addEvent
  /-- `addEvent` has failed: the timer goes, and the call returns. -/
  | giveUp
  | yield
  | suspended
  | cancelTimer
  | checkCancelled
  | returned
deriving DecidableEq, Repr

/-- How `fn` comes back. -/
inductive FnResult
  | done
  | eintr
  | eagain
deriving DecidableEq, Repr

/-- The call, the manager and the timers. `tsptr` is its timer, if it has one; `cancelled` tells
    whether `tinfo->cancelled` is `ETIMEDOUT`. The callbacks of its timers are `queued` when handed
    out, `midway` between setting `cancelled` and `cancelEvent`, and in `ran` when they are through.
-/
structure DoIo (F : Type) where
  ioman : IomanThreads F
  timers : TimerManager IoCallback
  pc : DoIoPc := .fn
  tsptr : Option ℕ := none
  cancelled : Bool := false
  queued : List ℕ := []
  midway : List ℕ := []
  ran : List ℕ := []

def DoIo.start (tickleFd : ℕ) (now : UInt64) : DoIo F :=
  { ioman := .start tickleFd, timers := .new now }

inductive DoIoStep (F : Type)
  /-- `n = fn(fd, args...)`. -/
  | fn (result : FnResult)
  /-- `addConditionTimer`, with what it reads off the allocator, the clock and the storage. -/
  | addTimer (addr : ℕ) (now stale : UInt64)
  | addEvent
  | giveUp
  | yield
  /-- The scheduler goes on with the coroutine. -/
  | resume
  | cancelTimer
  | checkCancelled
  /-- A callback looks at `cancelled` and sets it. -/
  | callback (timer : ℕ)
  /-- A callback that has set it goes on to `cancelEvent`. -/
  | cancelEvent (timer : ℕ)
  /-- A call of the I/O manager by somebody else, or a step of one of its threads. -/
  | ioman (a : IomanStep F)
  /-- A call of the timers by somebody else or by a thread that hands out callbacks. -/
  | timers (c : TimerCall IoCallback)

/-- `if(tsptr) tsptr->cancel();`. -/
def DoIo.cancelTimer (S : DoIo F) : TimerManager IoCallback :=
  match S.tsptr with
  | none => S.timers
  | some i => (S.timers.cancel i).manager

/-- The call's own callbacks among those handed out. -/
def IoCallback.ours (cbs : List (ℕ × Option IoCallback)) : List ℕ :=
  cbs.filterMap fun
    | (_, some (.doIo i)) => some i
    | _ => none

def DoIo.step (d : DoIoCall) (S : DoIo F) : DoIoStep F → DoIo F
  | .fn result =>
      if S.pc = .fn then
        match result with
        | .done => { S with pc := .returned }
        | .eintr => S
        | .eagain => { S with pc := .addTimer }
      else S
  | .addTimer addr now stale =>
      if S.pc = .addTimer then
        if d.timeout = TimerManager.noNext then { S with pc := .addEvent }
        else
          let i := S.timers.made
          { S with
            timers := (S.timers.addTimer addr now stale d.timeout (.doIo i) false).manager
            tsptr := some i
            pc := .addEvent }
      else S
  | .addEvent =>
      if S.pc = .addEvent then
        let (m, ret) := S.ioman.manager.addEvent d.fd d.ev.mask none d.sch d.co true
        { S with
          ioman := { S.ioman with manager := m }
          pc := if ret = some 0 then .yield else .giveUp }
      else S
  | .giveUp =>
      if S.pc = .giveUp then { S with timers := S.cancelTimer, pc := .returned } else S
  | .yield => if S.pc = .yield then { S with pc := .suspended } else S
  | .resume => if S.pc = .suspended then { S with pc := .cancelTimer } else S
  | .cancelTimer =>
      if S.pc = .cancelTimer then { S with timers := S.cancelTimer, pc := .checkCancelled } else S
  | .checkCancelled =>
      if S.pc = .checkCancelled then
        -- `goto retry` leaves the block of `tsptr`
        if S.cancelled then { S with pc := .returned } else { S with pc := .fn, tsptr := none }
      else S
  | .callback i =>
      if i ∈ S.queued then
        -- with the call `tinfo` has gone, unless a callback holds it that has set `cancelled`
        if S.pc = .returned ∨ S.cancelled then
          { S with queued := S.queued.erase i, ran := i :: S.ran }
        else
          { S with queued := S.queued.erase i, midway := i :: S.midway, cancelled := true }
      else S
  | .cancelEvent i =>
      if i ∈ S.midway then
        { S with
          ioman := { S.ioman with manager := (S.ioman.manager.cancelEvent d.fd d.ev.mask).1 }
          midway := S.midway.erase i
          ran := i :: S.ran }
      else S
  | .ioman a => { S with ioman := S.ioman.step a }
  | .timers c =>
      { S with
        timers := (S.timers.call c).manager
        queued := S.queued ++ IoCallback.ours (S.timers.call c).cbs }

/-- The others name `READ` or `WRITE`, they do not wait in this coroutine for its event, and their
    timers have callbacks of their own. -/
def DoIo.Others (d : DoIoCall) : DoIoStep F → Prop
  | .ioman (.addEvent fd e _ _ co _) =>
      (e = READ ∨ e = WRITE) ∧ ¬ (fd = d.fd ∧ e = d.ev.mask ∧ co = d.co)
  | .ioman (.delEvent _ e) => e = READ ∨ e = WRITE
  | .ioman (.cancelEvent _ e) => e = READ ∨ e = WRITE
  | .timers (.addTimer _ _ _ _ (.doIo _) _) => False
  | _ => True

end RaftKVStorage
