import RaftKVStorage.Theory.Run
import Mathlib.Logic.Function.Basic
import Mathlib.Tactic

set_option autoImplicit false

/-! # The I/O manager

Class `ioman` of the coroutine library, with what the kernel knows of its epoll instance. Every call
runs under the mutex of the descriptor's context from the lookup on, so it is a function from the
manager to the manager. The idle threads are outside: what `epoll_wait` hands a thread is an input,
and the thread works through it one result at a time, while other calls come in between. -/

namespace RaftKVStorage

variable {F : Type}

/-! ## Events -/

/-- `uint32_t` masks of events. -/
abbrev EventMask := BitVec 32

def EPOLLIN : EventMask := 0x001#32
def EPOLLOUT : EventMask := 0x004#32
def EPOLLERR : EventMask := 0x008#32
def EPOLLHUP : EventMask := 0x010#32
def EPOLLET : EventMask := 0x80000000#32

def NONE : EventMask := 0x0#32
def READ : EventMask := EPOLLIN
def WRITE : EventMask := EPOLLOUT

/-- `eventContext`: what is put back into the queue of scheduler `sch`, the function if there is one
    and else the coroutine. -/
structure EventContext (F : Type) where
  co : Option ℕ := none
  func : Option F := none
  sch : Option ℕ := none

/-- The members of `fdEventContext` but its descriptor, which is its index. -/
structure FdEventContext (F : Type) where
  events : EventMask := NONE
  readContext : EventContext F := {}
  writeContext : EventContext F := {}

/-- The two contexts of a descriptor. -/
inductive FdEvent
  | read
  | write
deriving DecidableEq, Repr

def FdEvent.mask : FdEvent → EventMask
  | .read => READ
  | .write => WRITE

/-- The cases of `fdEventContext::getEventContext`, which throws on every other mask. -/
def fdEvent (e : EventMask) : Option FdEvent :=
  if e = READ then some .read else if e = WRITE then some .write else none

def FdEventContext.getEventContext (c : FdEventContext F) : FdEvent → EventContext F
  | .read => c.readContext
  | .write => c.writeContext

def FdEventContext.setEventContext (c : FdEventContext F) (ctx : EventContext F) :
    FdEvent → FdEventContext F
  | .read => { c with readContext := ctx }
  | .write => { c with writeContext := ctx }

/-- `triggerEvent`: the context, and the tasks handed to a scheduler; `none` when it throws. -/
def FdEventContext.triggerEvent (c : FdEventContext F) (e : EventMask) :
    Option (FdEventContext F × List (EventContext F)) :=
  if c.events &&& e = 0 then some (c, [])
  else
    match fdEvent e with
    | none => none
    | some side =>
        let c' := { c with events := c.events &&& ~~~e }
        -- `resetEventContext`
        some (c'.setEventContext {} side, [c.getEventContext side])

/-! ## epoll -/

inductive EpollOp
  | add
  | mod
  | del
deriving DecidableEq, Repr

/-- The masks registered in the epoll instance. -/
abbrev Kernel := ℕ → Option EventMask

/-- `epoll_ctl`, `none` when it fails: only an unregistered descriptor can be added, only a
    registered one changed or deleted. -/
def Kernel.ctl (k : Kernel) (op : EpollOp) (fd : ℕ) (mask : EventMask) : Option Kernel :=
  match op with
  | .add => if (k fd).isNone then some (Function.update k fd (some mask)) else none
  | .mod => if (k fd).isSome then some (Function.update k fd (some mask)) else none
  | .del => if (k fd).isSome then some (Function.update k fd none) else none

/-! ## The manager -/

/-- The members of class `ioman` and its epoll instance. `contexts` are `_M_fdEventContexts`, of
    which there are `size`; `pendingCountor` is an unsigned counter, so below zero it has wrapped
    around; `tasks` is what was handed to the schedulers. -/
structure Ioman (F : Type) where
  size : ℕ := 32
  contexts : ℕ → FdEventContext F := fun _ => {}
  kernel : Kernel := fun _ => none
  pendingCountor : ℤ := 0
  tasks : List (EventContext F) := []

def Ioman.setContext (m : Ioman F) (fd : ℕ) (c : FdEventContext F) : Ioman F :=
  { m with contexts := Function.update m.contexts fd c }

/-- `_M_expandContext`. -/
def Ioman.expandContext (m : Ioman F) (size : ℕ) : Ioman F :=
  if size > m.size then { m with size := size } else m

/-- The lookup that `addEvent` begins with. -/
def Ioman.reach (m : Ioman F) (fd : ℕ) : Ioman F :=
  if m.size > fd then m else m.expandContext (fd * 3 / 2)

/-- `addEvent`, called under the scheduler `sch` by the coroutine `co`, which is `RUNNING` or not.
    There is no result when it throws. -/
def Ioman.addEvent (m : Ioman F) (fd : ℕ) (e : EventMask) (f : Option F) (sch : Option ℕ) (co : ℕ)
    (running : Bool) : Ioman F × Option ℤ :=
  let m := m.reach fd
  let c := m.contexts fd
  if c.events &&& e ≠ 0 then (m, some (-2))
  else
    let op := if c.events ≠ 0 then EpollOp.mod else EpollOp.add
    match m.kernel.ctl op fd (c.events ||| e ||| EPOLLET) with
    | none => (m, some (-1))
    | some kernel =>
        let m := { m with kernel := kernel, pendingCountor := m.pendingCountor + 1 }
        let c := { c with events := c.events ||| e }
        match fdEvent e with
        | none => (m.setContext fd c, none)
        | some side =>
            let ctx := { c.getEventContext side with sch := sch }
            match f with
            | some f =>
                (m.setContext fd (c.setEventContext { ctx with func := some f } side), some 0)
            | none =>
                (m.setContext fd (c.setEventContext { ctx with co := some co } side),
                  some (if running then 0 else -3))

/-- How `delEvent`, `cancelEvent` and `_M_idle` tell the kernel what is left of the events. -/
def Ioman.leave (m : Ioman F) (fd : ℕ) (left : EventMask) : Option Kernel :=
  m.kernel.ctl (if left ≠ 0 then .mod else .del) fd (left ||| EPOLLET)

/-- `delEvent`. -/
def Ioman.delEvent (m : Ioman F) (fd : ℕ) (e : EventMask) : Ioman F × Option Bool :=
  if m.size ≤ fd then (m, some false)
  else
    let c := m.contexts fd
    if c.events &&& e = 0 then (m, some false)
    else
      match m.leave fd (c.events &&& ~~~e) with
      | none => (m, some false)
      | some kernel =>
          let m := { m with kernel := kernel, pendingCountor := m.pendingCountor - 1 }
          let c := { c with events := c.events &&& ~~~e }
          match fdEvent e with
          | none => (m.setContext fd c, none)
          | some side => (m.setContext fd (c.setEventContext {} side), some true)

/-- `triggerEvent` on the context of `fd`, and the counter behind it. -/
def Ioman.trigger (m : Ioman F) (fd : ℕ) (e : EventMask) : Option (Ioman F) :=
  match (m.contexts fd).triggerEvent e with
  | none => none
  | some (c, tasks) =>
      some { m.setContext fd c with
        pendingCountor := m.pendingCountor - 1
        tasks := m.tasks ++ tasks }

/-- `cancelEvent`. -/
def Ioman.cancelEvent (m : Ioman F) (fd : ℕ) (e : EventMask) : Ioman F × Option Bool :=
  if m.size ≤ fd then (m, some false)
  else
    let c := m.contexts fd
    if c.events &&& e = 0 then (m, some false)
    else
      match m.leave fd (c.events &&& ~~~e) with
      | none => (m, some false)
      | some kernel =>
          let m := { m with kernel := kernel }
          match m.trigger fd e with
          | none => (m, none)
          | some m => (m, some true)

/-- `READ` or `WRITE` is triggered if `cond` holds: neither of them throws. -/
def Ioman.triggerIf (m : Ioman F) (cond : Bool) (fd : ℕ) (e : EventMask) : Ioman F :=
  if cond then (m.trigger fd e).getD m else m

/-- `cancelAll`. -/
def Ioman.cancelAll (m : Ioman F) (fd : ℕ) : Ioman F × Bool :=
  if m.size ≤ fd then (m, false)
  else if (m.contexts fd).events = 0 then (m, false)
  else
    match m.kernel.ctl .del fd 0 with
    | none => (m, false)
    | some kernel =>
        let m := { m with kernel := kernel }
        let m := m.triggerIf ((m.contexts fd).events &&& READ ≠ 0) fd READ
        (m.triggerIf ((m.contexts fd).events &&& WRITE ≠ 0) fd WRITE, true)

/-- The events a result stands for: all registered ones when it reports an error or a hang-up. -/
def triggered (events result : EventMask) : EventMask :=
  let result := if result &&& (EPOLLERR ||| EPOLLHUP) ≠ 0
    then result ||| ((EPOLLIN ||| EPOLLOUT) &&& events) else result
  (if result &&& EPOLLIN ≠ 0 then READ else NONE) |||
    (if result &&& EPOLLOUT ≠ 0 then WRITE else NONE)

/-- The part of `_M_idle` that deals with one result of `epoll_wait`. The test for events that are
    no longer registered, `NONE == fdCtx->_M_events & triggered`, compares before it masks. -/
def Ioman.idle (m : Ioman F) (fd : ℕ) (result : EventMask) : Ioman F :=
  let c := m.contexts fd
  let triggered := triggered c.events result
  if (if NONE = c.events then 1#32 else 0#32) &&& triggered ≠ 0 then m
  else
    match m.leave fd (c.events &&& ~~~triggered) with
    | none => m
    | some kernel =>
        let m := { m with kernel := kernel }
        let m := m.triggerIf (READ &&& triggered ≠ 0) fd READ
        m.triggerIf (WRITE &&& triggered ≠ 0) fd WRITE

/-! ## Threads -/

/-- The manager with the reading end of its pipe, and what each idle thread still has of the results
    of its last `epoll_wait`. -/
structure IomanThreads (F : Type) where
  manager : Ioman F := {}
  tickleFd : ℕ
  results : ℕ → List (ℕ × EventMask) := fun _ => []

/-- The constructor of `ioman`: the pipe is registered behind the back of the contexts. -/
def IomanThreads.start (tickleFd : ℕ) : IomanThreads F :=
  { manager := { kernel := Function.update (fun _ => none) tickleFd (some (EPOLLIN ||| EPOLLET)) }
    tickleFd := tickleFd }

inductive IomanStep (F : Type)
  | addEvent (fd : ℕ) (e : EventMask) (f : Option F) (sch : Option ℕ) (co : ℕ) (running : Bool)
  | delEvent (fd : ℕ) (e : EventMask)
  | cancelEvent (fd : ℕ) (e : EventMask)
  | cancelAll (fd : ℕ)
  /-- Thread `t` returns from `epoll_wait`. -/
  | epollWait (t : ℕ) (results : List (ℕ × EventMask))
  /-- Thread `t` deals with its next result. -/
  | idle (t : ℕ)

def IomanThreads.step (S : IomanThreads F) : IomanStep F → IomanThreads F
  | .addEvent fd e f sch co running =>
      { S with manager := (S.manager.addEvent fd e f sch co running).1 }
  | .delEvent fd e => { S with manager := (S.manager.delEvent fd e).1 }
  | .cancelEvent fd e => { S with manager := (S.manager.cancelEvent fd e).1 }
  | .cancelAll fd => { S with manager := (S.manager.cancelAll fd).1 }
  | .epollWait t results => { S with results := Function.update S.results t results }
  | .idle t =>
      match S.results t with
      | [] => S
      | (fd, result) :: rest =>
          -- the pipe is read until it is empty
          { S with
            manager := if fd = S.tickleFd then S.manager else S.manager.idle fd result
            results := Function.update S.results t rest }

/-- What `epoll_wait` hands out: registered descriptors, each with events it is registered for, an
    error or a hang-up. A thread waits again when it has dealt with all results. -/
def IomanThreads.Waits (S : IomanThreads F) : IomanStep F → Prop
  | .epollWait t results => S.results t = [] ∧
      ∀ x ∈ results, (S.manager.kernel x.1).isSome ∧ x.2 ≠ 0 ∧
        x.2 &&& ~~~((S.manager.kernel x.1).getD 0 ||| EPOLLERR ||| EPOLLHUP) = 0
  | _ => True

end RaftKVStorage
