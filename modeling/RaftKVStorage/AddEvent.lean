import RaftKVStorage.Ioman

set_option autoImplicit false

/-! # When `addEvent` fails

`addEvent` turns a registered event down and gives up when `epoll_ctl` fails, both before it has
changed anything. Behind `epoll_ctl` it counts the event and puts it into the mask of the descriptor,
and only then looks for the context of the event and at the coroutine: a mask that is not one event,
and a coroutine that is not `RUNNING`, come to light too late. -/

namespace RaftKVStorage

variable {F : Type}

/-- `addEvent` under an `epoll_ctl` that may fail for reasons of the kernel's own: `ctl` is what it
    makes of the registrations, `none` when it fails. -/
def Ioman.addEventOn (ctl : Kernel → EpollOp → ℕ → EventMask → Option Kernel) (m : Ioman F) (fd : ℕ)
    (e : EventMask) (f : Option F) (sch : Option ℕ) (co : ℕ) (running : Bool) :
    Ioman F × Option ℤ :=
  let m := m.reach fd
  let c := m.contexts fd
  if c.events &&& e ≠ 0 then (m, some (-2))
  else
    let op := if c.events ≠ 0 then EpollOp.mod else EpollOp.add
    match ctl m.kernel op fd (c.events ||| e ||| EPOLLET) with
    | none => (m, some (-1))
    | some kernel =>
        let m := { m with kernel := kernel, pendingCountor := m.pendingCountor + 1 }
        let c := { c with events := c.events ||| e }
        match fdEvent e with
        | none => (m.setContext fd c, none)
        | some side =>
            let ctx := { c.getEventContext side with sch := sch }
            match f with
            | some f =>
                (m.setContext fd (c.setEventContext { ctx with func := some f } side), some 0)
            | none =>
                (m.setContext fd (c.setEventContext { ctx with co := some co } side),
                  some (if running then 0 else -3))

/-- `addEvent` is the one over registrations alone. -/
theorem Ioman.addEvent_eq (m : Ioman F) (fd : ℕ) (e : EventMask) (f : Option F) (sch : Option ℕ)
    (co : ℕ) (running : Bool) :
    m.addEvent fd e f sch co running = m.addEventOn Kernel.ctl fd e f sch co running := rfl

/-- Nothing has changed for `fd`, nor in the epoll instance, and no event was counted. -/
structure Ioman.Unchanged (m m' : Ioman F) (fd : ℕ) : Prop where
  context : m'.contexts fd = m.contexts fd
  kernel : m'.kernel = m.kernel
  pendingCountor : m'.pendingCountor = m.pendingCountor

/-- A call that does not return 0 has changed nothing. -/
def Ioman.AllOrNothing (m : Ioman F) (fd : ℕ) (out : Ioman F × Option ℤ) : Prop :=
  out.2 ≠ some 0 → m.Unchanged out.1 fd

/-- What `addEvent` has `epoll_ctl` do. -/
def Ioman.addCtl (ctl : Kernel → EpollOp → ℕ → EventMask → Option Kernel) (m : Ioman F) (fd : ℕ)
    (e : EventMask) : Option Kernel :=
  ctl m.kernel (if (m.contexts fd).events ≠ 0 then .mod else .add) fd
    ((m.contexts fd).events ||| e ||| EPOLLET)

section Exits

variable {m : Ioman F} {fd : ℕ} {e : EventMask} {f : Option F} {sch : Option ℕ} {co : ℕ}
  {running : Bool} {ctl : Kernel → EpollOp → ℕ → EventMask → Option Kernel}

/-- The lookup changes no context that is there, and a new one is empty. -/
theorem Ioman.reach_unchanged (m : Ioman F) (fd : ℕ) : m.Unchanged (m.reach fd) fd := by
  unfold Ioman.reach Ioman.expandContext
  split
  · exact ⟨rfl, rfl, rfl⟩
  · split
    · exact ⟨rfl, rfl, rfl⟩
    · exact ⟨rfl, rfl, rfl⟩

theorem fdEvent_isSome_iff : (fdEvent e).isSome ↔ e = READ ∨ e = WRITE := by
  unfold fdEvent
  by_cases hread : e = READ
  · simp [hread]
  · by_cases hwrite : e = WRITE
    · rw [if_neg hread, if_pos hwrite]
      simp [hwrite]
    · simp [hread, hwrite]

/-- The exits of `addEvent`: two before any change, and those behind `epoll_ctl`, where the event is
    counted. Of these, one returns 0: that for a single event whose function is given or whose
    coroutine is running. -/
theorem Ioman.addEventOn_cases (ctl : Kernel → EpollOp → ℕ → EventMask → Option Kernel)
    (m : Ioman F) (fd : ℕ) (e : EventMask) (f : Option F) (sch : Option ℕ) (co : ℕ)
    (running : Bool) :
    ((m.contexts fd).events &&& e ≠ 0 ∧
      m.addEventOn ctl fd e f sch co running = (m.reach fd, some (-2))) ∨
    ((m.contexts fd).events &&& e = 0 ∧ m.addCtl ctl fd e = none ∧
      m.addEventOn ctl fd e f sch co running = (m.reach fd, some (-1))) ∨
    ((m.contexts fd).events &&& e = 0 ∧ (m.addCtl ctl fd e).isSome ∧
      (m.addEventOn ctl fd e f sch co running).1.pendingCountor = m.pendingCountor + 1 ∧
      ((m.addEventOn ctl fd e f sch co running).2 = some 0 ↔
        (e = READ ∨ e = WRITE) ∧ (f.isSome ∨ running = true))) := by
  obtain ⟨hcontext, hkernel, hcount⟩ := m.reach_unchanged fd
  have hctl : ctl (m.reach fd).kernel (if ((m.reach fd).contexts fd).events ≠ 0 then .mod else .add)
      fd (((m.reach fd).contexts fd).events ||| e ||| EPOLLET) = m.addCtl ctl fd e := by
    rw [hcontext, hkernel]
    rfl
  unfold Ioman.addEventOn
  dsimp only
  rw [hctl, hcontext]
  by_cases hreg : (m.contexts fd).events &&& e ≠ 0
  · left
    exact ⟨hreg, if_pos hreg⟩
  rw [if_neg hreg]
  have hfree : (m.contexts fd).events &&& e = 0 := not_not.1 hreg
  right
  cases hk : m.addCtl ctl fd e with
  | none => exact Or.inl ⟨hfree, rfl, rfl⟩
  | some kernel =>
      right
      refine ⟨hfree, rfl, ?_⟩
      dsimp only
      rw [hcount, ← fdEvent_isSome_iff]
      cases fdEvent e with
      | none => exact ⟨rfl, by simp⟩
      | some side =>
          cases f with
          | some f => exact ⟨rfl, by simp⟩
          | none =>
              refine ⟨rfl, ?_⟩
              cases running with
              | true => simp
              | false => simp

theorem Ioman.not_unchanged {m' : Ioman F} (h : m'.pendingCountor = m.pendingCountor + 1) :
    ¬ m.Unchanged m' fd := by
  intro hsame
  have hcount := hsame.pendingCountor
  omega

/-- `addEvent` is all or nothing if and only if the event is registered, `epoll_ctl` fails, or the
    mask is one event, with a function given or under a running coroutine. -/
theorem Ioman.addEvent_allOrNothing_iff
    (ctl : Kernel → EpollOp → ℕ → EventMask → Option Kernel) (m : Ioman F) (fd : ℕ) (e : EventMask)
    (f : Option F) (sch : Option ℕ) (co : ℕ) (running : Bool) :
    m.AllOrNothing fd (m.addEventOn ctl fd e f sch co running) ↔
      (m.contexts fd).events &&& e ≠ 0 ∨ m.addCtl ctl fd e = none ∨
        (e = READ ∨ e = WRITE) ∧ (f.isSome ∨ running = true) := by
  unfold Ioman.AllOrNothing
  rcases m.addEventOn_cases ctl fd e f sch co running with
    ⟨hreg, heq⟩ | ⟨-, hfail, heq⟩ | ⟨hfree, hctl, hcount, hret⟩
  · rw [heq]
    simp only [hreg, ne_eq, not_false_eq_true, true_or, iff_true]
    exact fun _ => m.reach_unchanged fd
  · rw [heq]
    simp only [hfail, true_or, or_true, iff_true]
    exact fun _ => m.reach_unchanged fd
  · have hnotFail : m.addCtl ctl fd e ≠ none := Option.isSome_iff_ne_none.1 hctl
    rw [← hret]
    constructor
    · intro h
      right
      right
      by_contra hne
      exact Ioman.not_unchanged hcount (h hne)
    · rintro (hreg | hfail | hzero) hne
      · exact absurd hfree hreg
      · exact absurd hfail hnotFail
      · exact absurd hzero hne

end Exits

/-- Both events at once: the call throws, with the events counted and known to the kernel. -/
theorem Ioman.addEvent_allOrNothing_both :
    ¬ ∀ (m : Ioman ℕ) (fd : ℕ) (e : EventMask) (f : Option ℕ) (sch : Option ℕ) (co : ℕ)
      (running : Bool), m.AllOrNothing fd (m.addEvent fd e f sch co running) := by
  intro h
  have hthrow : (({} : Ioman ℕ).addEvent 7 (READ ||| WRITE) (some 1) (some 0) 0 true).2 ≠ some 0 := by
    decide
  have hsame := h {} 7 (READ ||| WRITE) (some 1) (some 0) 0 true hthrow
  have hcount : (({} : Ioman ℕ).addEvent 7 (READ ||| WRITE) (some 1) (some 0) 0
      true).1.pendingCountor ≠ ({} : Ioman ℕ).pendingCountor := by
    decide
  exact hcount hsame.pendingCountor

end RaftKVStorage
