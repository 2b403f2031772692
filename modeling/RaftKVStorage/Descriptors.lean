import RaftKVStorage.Theory.Answers
import Mathlib.Logic.Function.Basic

set_option autoImplicit false

/-! # Hooked descriptors

The hooks keep a context for every socket a program opens through them. The socket itself is made
non-blocking, so that no call on it ever blocks a thread, and the context remembers the mode the
program asked for: `fcntl` and `ioctl` show and set that one. The calls of this file are those that
make, close and configure descriptors, each of them in one step; the kernel is the table of open
files behind them. -/

namespace RaftKVStorage

/-! ## The kernel -/

/-- `O_NONBLOCK`. -/
def oNonBlock : BitVec 32 := BitVec.twoPow 32 11

/-- A `timeval` as `setsockopt` takes it. -/
structure Timeval where
  sec : UInt64
  usec : UInt64
deriving DecidableEq, Repr

/-- An open file: its type, its status flags, and the time limits of a socket if they have been set. -/
structure FdFile where
  sock : Bool
  flags : BitVec 32
  recvTimeout : Option Timeval := none
  sendTimeout : Option Timeval := none
deriving DecidableEq, Repr

/-- Two sets of flags that agree but for `O_NONBLOCK`. -/
def SameFlags (x y : BitVec 32) : Prop := ∀ i < 32, i ≠ 11 → x.getLsbD i = y.getLsbD i

/-- What the kernel lets a program set: the status flags that `F_SETFL` can change, `O_NONBLOCK` among
    them, the flags it refuses for a socket or another file that has `flags`, and the time limits that
    `setsockopt` refuses. Whether flags are refused is not up to `O_NONBLOCK`, and those that the file
    has are not. -/
structure KernelRules where
  settable : BitVec 32
  nonBlock : settable &&& oNonBlock = oNonBlock
  refusesFlags : (sock : Bool) → (flags arg : BitVec 32) → Bool
  refusesFlags_congr : ∀ sock {flags flags' arg arg' : BitVec 32}, SameFlags flags flags' →
    SameFlags arg arg' → refusesFlags sock flags arg = refusesFlags sock flags' arg'
  refusesFlags_self : ∀ sock flags, refusesFlags sock flags flags = false
  refusesLimit : Timeval → Bool

/-- What `F_SETFL` makes of the status flags `old`. -/
def KernelRules.set (k : KernelRules) (old arg : BitVec 32) : BitVec 32 :=
  (arg &&& k.settable) ||| (old &&& ~~~k.settable)

/-- `F_SETFL` is refused for the file. -/
def KernelRules.refuses (k : KernelRules) (file : FdFile) (arg : BitVec 32) : Bool :=
  k.refusesFlags file.sock file.flags arg

/-- What `FIONBIO` makes of them. -/
def FdFile.fionbio (file : FdFile) (on : Bool) : FdFile :=
  { file with flags := if on then file.flags ||| oNonBlock else file.flags &&& ~~~oNonBlock }

inductive TimeoutType
  | recv
  | send
deriving DecidableEq, Repr

/-- A time of zero is no limit. -/
def Timeval.limit (v : Timeval) : Option Timeval := if v = ⟨0, 0⟩ then none else some v

def FdFile.setTimeout (file : FdFile) (v : Timeval) : TimeoutType → FdFile
  | .recv => { file with recvTimeout := v.limit }
  | .send => { file with sendTimeout := v.limit }

def FdFile.timeout (file : FdFile) : TimeoutType → Option Timeval
  | .recv => file.recvTimeout
  | .send => file.sendTimeout

/-- The open files of the process. -/
abbrev FdTable := ℕ → Option FdFile

/-- The calls, with the number and flags the kernel gives a new descriptor. -/
inductive FdCall
  /-- A call without a hook, such as `open` or `pipe`. -/
  | openFile (fd : ℕ) (file : FdFile)
  | socket (fd : ℕ) (flags : BitVec 32)
  /-- `accept`, when a connection is there; the new socket does not inherit the status flags. -/
  | accept (sockfd fd : ℕ)
  | close (fd : ℕ)
  | setfl (fd : ℕ) (arg : BitVec 32)
  | getfl (fd : ℕ)
  | fionbio (fd : ℕ) (on : Bool)
  /-- `setsockopt` with `SO_RCVTIMEO` or `SO_SNDTIMEO`. -/
  | setTimeout (fd : ℕ) (type : TimeoutType) (v : Timeval)
deriving DecidableEq, Repr

/-- What the calls return when they fail. -/
def failed : BitVec 32 := BitVec.allOnes 32

/-- A new descriptor: its number is free, and an `int` that is not negative. -/
def FdTable.add (T : FdTable) (fd : ℕ) (file : FdFile) : FdTable × BitVec 32 :=
  if T fd = none ∧ fd < 0x80000000 then (Function.update T fd (some file), BitVec.ofNat 32 fd)
  else (T, failed)

/-- A call that changes an open file. -/
def FdTable.change (T : FdTable) (fd : ℕ) (f : FdFile → FdFile) : FdTable × BitVec 32 :=
  match T fd with
  | none => (T, failed)
  | some file => (Function.update T fd (some (f file)), 0)

/-- The calls as the kernel answers them. -/
def FdTable.call (k : KernelRules) (T : FdTable) : FdCall → FdTable × BitVec 32
  | .openFile fd file => T.add fd file
  | .socket fd flags => T.add fd { sock := true, flags := flags }
  | .accept sockfd fd =>
      if (T sockfd).any (·.sock) then T.add fd { sock := true, flags := 2 } else (T, failed)
  | .close fd =>
      match T fd with
      | none => (T, failed)
      | some _ => (Function.update T fd none, 0)
  | .setfl fd arg =>
      if (T fd).any (k.refuses · arg) then (T, failed)
      else T.change fd fun file => { file with flags := k.set file.flags arg }
  | .getfl fd =>
      match T fd with
      | none => (T, failed)
      | some file => (T, file.flags)
  | .fionbio fd on => T.change fd (·.fionbio on)
  | .setTimeout fd type v =>
      if (T fd).any (·.sock) && !k.refusesLimit v then T.change fd (·.setTimeout v type)
      else (T, failed)

/-! ## The contexts -/

/-- Class `fdContext`, its flags one by one. -/
structure FdContext where
  recvTimeout : UInt64 := -1
  sendTimeout : UInt64 := -1
  isInit : Bool := false
  isSocket : Bool := false
  sysNonBlock : Bool := false
  userNonBlock : Bool := false
  isClose : Bool := false
deriving DecidableEq, Repr

def FdContext.timeout (ctx : FdContext) : TimeoutType → UInt64
  | .recv => ctx.recvTimeout
  | .send => ctx.sendTimeout

def FdContext.setTimeout (ctx : FdContext) (t : UInt64) : TimeoutType → FdContext
  | .recv => { ctx with recvTimeout := t }
  | .send => { ctx with sendTimeout := t }

/-- `v->tv_sec * 1000 + v->tv_usec / 1000`. -/
def Timeval.ms (v : Timeval) : UInt64 := v.sec * 1000 + v.usec / 1000

/-- The open files and `fdman`. -/
structure Hooked where
  kernel : FdTable
  datas : ℕ → Option FdContext

def Hooked.start : Hooked := { kernel := fun _ => none, datas := fun _ => none }

/-- The constructor of `fdContext` with its `_M_init`, and what it does to the open files. -/
def FdContext.init (k : KernelRules) (T : FdTable) (fd : ℕ) : FdContext × FdTable :=
  match T fd with
  | none => ({}, T)
  | some file =>
      if file.sock then
        ({ isInit := true, isSocket := true, sysNonBlock := true },
          if file.flags &&& oNonBlock = 0 then (T.call k (.setfl fd (file.flags ||| oNonBlock))).1
          else T)
      else ({ isInit := true }, T)

/-- `fdman::get(fd, true)`, for what it leaves behind. -/
def Hooked.create (k : KernelRules) (H : Hooked) (fd : ℕ) : Hooked :=
  match H.datas fd with
  | some _ => H
  | none =>
      let (ctx, T) := FdContext.init k H.kernel fd
      if ctx.isInit then { kernel := T, datas := Function.update H.datas fd (some ctx) }
      else { H with kernel := T }

/-- `fdman::del`. -/
def Hooked.del (H : Hooked) (fd : ℕ) : Hooked :=
  { H with datas := Function.update H.datas fd none }

/-- A call of the kernel under the hooks. -/
def Hooked.fn (k : KernelRules) (H : Hooked) (call : FdCall) : Hooked × BitVec 32 :=
  ({ H with kernel := (H.kernel.call k call).1 }, (H.kernel.call k call).2)

/-- The context that `fcntl` and `ioctl` go by. -/
def Hooked.managed (H : Hooked) (fd : ℕ) : Option FdContext :=
  (H.datas fd).filter fun ctx => !ctx.isClose && ctx.isSocket

/-- A call of a program, by a thread with `hook_enable` set or not. -/
structure FdStep where
  hook : Bool
  call : FdCall
deriving DecidableEq, Repr

/-- The hooks `socket`, `accept`, `close`, `fcntl`, `ioctl` and `setsockopt`. -/
def Hooked.call (k : KernelRules) (H : Hooked) (step : FdStep) : Hooked × BitVec 32 :=
  match step.call with
  | .socket fd flags =>
      let (H, ret) := H.fn k (.socket fd flags)
      if step.hook ∧ ret ≠ failed then (H.create k fd, ret) else (H, ret)
  | .accept sockfd fd =>
      -- the context is made whether the hooks are on or not
      let (H, ret) := H.fn k (.accept sockfd fd)
      if ret ≠ failed then (H.create k fd, ret) else (H, ret)
  | .close fd =>
      if step.hook ∧ (H.datas fd).isSome then (H.del fd).fn k (.close fd) else H.fn k (.close fd)
  | .setfl fd arg =>
      match H.managed fd with
      | none => H.fn k (.setfl fd arg)
      | some ctx =>
          let ctx' := { ctx with userNonBlock := arg &&& oNonBlock ≠ 0 }
          let H := { H with datas := Function.update H.datas fd (some ctx') }
          H.fn k (.setfl fd (if ctx.sysNonBlock then arg ||| oNonBlock else arg &&& ~~~oNonBlock))
  | .getfl fd =>
      let (H, arg) := H.fn k (.getfl fd)
      match H.managed fd with
      | none => (H, arg)
      | some ctx => (H, if ctx.userNonBlock then arg ||| oNonBlock else arg &&& ~~~oNonBlock)
  | .fionbio fd on =>
      match H.managed fd with
      | none => H.fn k (.fionbio fd on)
      | some ctx =>
          let H := { H with
            datas := Function.update H.datas fd (some { ctx with userNonBlock := on }) }
          H.fn k (.fionbio fd on)
  | .setTimeout fd type v =>
      match H.datas fd, step.hook with
      | some ctx, true =>
          let H := { H with datas := Function.update H.datas fd (some (ctx.setTimeout v.ms type)) }
          H.fn k (.setTimeout fd type v)
      | _, _ => H.fn k (.setTimeout fd type v)
  | .openFile fd file => H.fn k (.openFile fd file)

/-! ## Calls that transfer data -/

/-- What becomes of a call like `read` or `send`: it comes back with `EBADF`, with what it is there for
    or with `EAGAIN`, it blocks the thread in the kernel, or the coroutine waits for the event; the
    last two for at most so many milliseconds, if there is a limit. -/
inductive IoOutcome
  | badf
  | done
  | again
  | blocks (limit : Option ℕ)
  | waits (limit : Option ℕ)
deriving DecidableEq, Repr

/-- The time in milliseconds. -/
def Timeval.millis (v : Timeval) : ℕ := v.sec.toNat * 1000 + v.usec.toNat / 1000

/-- The call without the hooks, when it can go on at once or not. -/
def FdTable.io (T : FdTable) (fd : ℕ) (type : TimeoutType) (ready : Bool) : IoOutcome :=
  match T fd with
  | none => .badf
  | some file =>
      if ready then .done
      else if file.flags &&& oNonBlock = 0 then .blocks ((file.timeout type).map Timeval.millis)
      else .again

/-- The timeout that `do_io` gives the timer, unless it is `uint64_t(-1)`. -/
def FdContext.limit (ctx : FdContext) (type : TimeoutType) : Option ℕ :=
  if ctx.timeout type = -1 then none else some (ctx.timeout type).toNat

/-- `do_io` up to where it comes back or waits for the first time. -/
def Hooked.doIo (H : Hooked) (hook : Bool) (fd : ℕ) (type : TimeoutType) (ready : Bool) : IoOutcome :=
  let n := H.kernel.io fd type ready
  if !hook then n
  else
    match H.datas fd with
    | none => n
    | some ctx =>
        if ctx.isClose then .badf
        else if !ctx.isSocket || ctx.userNonBlock then n
        -- `fn` comes first, and only `EAGAIN` makes the coroutine wait
        else if n = .again then .waits (ctx.limit type)
        else n

/-- The calls of a program that leaves contexts and sockets in step: descriptors with a context are
    closed and given time limits with the hooks on, and sockets are opened in blocking mode. -/
def Hooked.InStep (H : Hooked) (step : FdStep) : Prop :=
  match step.call with
  | .socket _ flags => step.hook = true → flags &&& oNonBlock = 0
  | .close fd => step.hook = true ∨ H.datas fd = none
  | .setTimeout fd _ _ => step.hook = true ∨ H.datas fd = none
  | _ => True

instance (H : Hooked) (step : FdStep) : Decidable (H.InStep step) := by
  unfold Hooked.InStep
  split <;> infer_instance

/-- The descriptor and the argument of an `F_SETFL`. -/
def FdCall.setflArgs : FdCall → Option (ℕ × BitVec 32)
  | .setfl fd arg => some (fd, arg)
  | _ => none

/-- The kernel refuses no `F_SETFL` on a socket with a context, unless it asks for the mode that the
    context shows. -/
def Hooked.Granted (k : KernelRules) (H : Hooked) (step : FdStep) : Prop :=
  (step.call.setflArgs.all fun args => (H.datas args.1).all fun ctx =>
    !(H.kernel args.1).any (k.refuses · args.2) || ctx.userNonBlock == args.2.getLsbD 11) = true

instance (k : KernelRules) (H : Hooked) (step : FdStep) : Decidable (H.Granted k step) :=
  instDecidableEqBool _ _

/-- The descriptor and the time limit of a `setsockopt`. -/
def FdCall.limitArgs : FdCall → Option (ℕ × Timeval)
  | .setTimeout fd _ v => some (fd, v)
  | _ => none

/-- The time limits of descriptors with a context are taken by the kernel, are not zero, and have so
    few seconds that neither side takes them for something else. -/
def Hooked.Limits (k : KernelRules) (H : Hooked) (step : FdStep) : Prop :=
  (step.call.limitArgs.all fun args => (H.datas args.1).isNone ||
    (!k.refusesLimit args.2 && args.2 != ⟨0, 0⟩ && decide (args.2.sec < 9007199254740992))) = true

instance (k : KernelRules) (H : Hooked) (step : FdStep) : Decidable (H.Limits k step) :=
  instDecidableEqBool _ _

end RaftKVStorage
