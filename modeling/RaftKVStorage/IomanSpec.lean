import RaftKVStorage.Ioman

set_option autoImplicit false

/-! # What the calls of the I/O manager do

What a call can do to a context and to the kernel's registration, for the two events there are. A
manager is `Tidy` as long as its callers only name `READ` and `WRITE`: what is in a context is also
known to the kernel, and an event that is not registered has no coroutine. -/

namespace RaftKVStorage

variable {F : Type}

/-! ## Events as bits -/

section Bits

variable {x y e : EventMask}

theorem and_READ_eq_zero : x &&& READ = 0 ↔ x.getLsbD 0 = false := by
  have h : READ = BitVec.twoPow 32 0 := by decide
  have hne : BitVec.twoPow 32 0 ≠ 0 := by decide
  rw [h, BitVec.and_twoPow]
  cases x.getLsbD 0
  · simp
  · simpa using hne

theorem and_WRITE_eq_zero : x &&& WRITE = 0 ↔ x.getLsbD 2 = false := by
  have h : WRITE = BitVec.twoPow 32 2 := by decide
  have hne : BitVec.twoPow 32 2 ≠ 0 := by decide
  rw [h, BitVec.and_twoPow]
  cases x.getLsbD 2
  · simp
  · simpa using hne

end Bits

section Mask

variable {side side' : FdEvent} {x : EventMask}

@[simp] theorem fdEvent_mask (side : FdEvent) : fdEvent side.mask = some side := by
  cases side <;> decide

theorem FdEvent.mask_ne_zero (side : FdEvent) : side.mask ≠ 0 := by
  cases side <;> decide

/-- Taking one event away leaves the other. -/
theorem FdEvent.andNot_and_mask (h : side' ≠ side) :
    x &&& ~~~side.mask &&& side'.mask = x &&& side'.mask := by
  have hmask : ~~~side.mask &&& side'.mask = side'.mask := by
    cases side <;> cases side' <;> first | exact absurd rfl h | decide
  rw [BitVec.and_assoc, hmask]

theorem FdEvent.andNot_and_self : x &&& ~~~side.mask &&& side.mask = 0 := by
  have hmask : ~~~side.mask &&& side.mask = 0 := by
    cases side <;> decide
  rw [BitVec.and_assoc, hmask]
  exact BitVec.and_zero

/-- So does putting one in. -/
theorem FdEvent.or_and_mask (h : side' ≠ side) :
    (x ||| side.mask) &&& side'.mask = x &&& side'.mask := by
  have hmask : side.mask &&& side'.mask = 0 := by
    cases side <;> cases side' <;> first | exact absurd rfl h | decide
  rw [BitVec.and_or_distrib_right, hmask]
  exact BitVec.or_zero

theorem FdEvent.or_and_self_ne_zero : (x ||| side.mask) &&& side.mask ≠ 0 := by
  have hself : (x ||| side.mask) &&& side.mask = side.mask := by
    rw [BitVec.and_comm, BitVec.or_comm]
    ext i
    simp
    tauto
  rw [hself]
  exact side.mask_ne_zero

/-- An event that is not there cannot be taken away. -/
theorem FdEvent.andNot_eq_self (h : x &&& side.mask = 0) : x &&& ~~~side.mask = x := by
  have hsplit : (x &&& ~~~side.mask) ||| (x &&& side.mask) = x := by
    rw [← BitVec.and_or_distrib_left]
    have hall : ~~~side.mask ||| side.mask = BitVec.allOnes 32 := by
      cases side <;> decide
    rw [hall, BitVec.and_allOnes]
  rw [h] at hsplit
  exact BitVec.or_zero.symm.trans hsplit

end Mask

/-! ## Contexts -/

section Context

variable {c : FdEventContext F} {side side' : FdEvent} {co : ℕ}

@[simp] theorem setEventContext_events (c : FdEventContext F) (ctx : EventContext F)
    (side : FdEvent) : (c.setEventContext ctx side).events = c.events := by
  cases side <;> rfl

@[simp] theorem getEventContext_setEventContext_self (ctx : EventContext F) :
    (c.setEventContext ctx side).getEventContext side = ctx := by
  cases side <;> rfl

theorem getEventContext_setEventContext_of_ne (ctx : EventContext F) (h : side' ≠ side) :
    (c.setEventContext ctx side).getEventContext side' = c.getEventContext side' := by
  cases side <;> cases side' <;> first | exact absurd rfl h | rfl

@[simp] theorem getEventContext_withEvents (c : FdEventContext F) (events : EventMask)
    (side : FdEvent) : { c with events := events }.getEventContext side = c.getEventContext side := by
  cases side <;> rfl

/-- What is left of a context without one of its events. -/
def FdEventContext.drop (c : FdEventContext F) (side : FdEvent) : FdEventContext F :=
  if c.events &&& side.mask = 0 then c
  else { c with events := c.events &&& ~~~side.mask }.setEventContext {} side

theorem FdEventContext.triggerEvent_mask (c : FdEventContext F) (side : FdEvent) :
    ∃ tasks, c.triggerEvent side.mask = some (c.drop side, tasks) := by
  rw [FdEventContext.triggerEvent, FdEventContext.drop]
  by_cases h : c.events &&& side.mask = 0
  · rw [if_pos h, if_pos h]
    exact ⟨[], rfl⟩
  · rw [if_neg h, if_neg h, fdEvent_mask]
    exact ⟨[c.getEventContext side], rfl⟩

@[simp] theorem FdEventContext.drop_events (c : FdEventContext F) (side : FdEvent) :
    (c.drop side).events = c.events &&& ~~~side.mask := by
  rw [FdEventContext.drop]
  split
  · rename_i h
    exact (FdEvent.andNot_eq_self h).symm
  · rw [setEventContext_events]

/-- The event is registered for the coroutine. -/
def FdEventContext.RegisteredFor (c : FdEventContext F) (side : FdEvent) (co : ℕ) : Prop :=
  c.events &&& side.mask ≠ 0 ∧ (c.getEventContext side).co = some co

theorem FdEventContext.not_registeredFor_drop (c : FdEventContext F) (side : FdEvent) (co : ℕ) :
    ¬ (c.drop side).RegisteredFor side co := by
  intro h
  have hreg := h.1
  rw [FdEventContext.drop_events, FdEvent.andNot_and_self] at hreg
  exact hreg rfl

theorem FdEventContext.getEventContext_drop_of_ne (c : FdEventContext F) (h : side' ≠ side) :
    (c.drop side).getEventContext side' = c.getEventContext side' := by
  rw [FdEventContext.drop]
  split
  · rfl
  · rw [getEventContext_setEventContext_of_ne _ h, getEventContext_withEvents]

theorem FdEventContext.RegisteredFor.of_drop (h : (c.drop side).RegisteredFor side' co) :
    c.RegisteredFor side' co := by
  by_cases hside : side' = side
  · subst hside
    exact absurd h (c.not_registeredFor_drop side' co)
  · obtain ⟨hevents, hco⟩ := h
    rw [FdEventContext.drop_events, FdEvent.andNot_and_mask hside] at hevents
    rw [c.getEventContext_drop_of_ne hside] at hco
    exact ⟨hevents, hco⟩

/-- There are no events but `READ` and `WRITE`, and one that is not registered has no coroutine. -/
structure FdEventContext.Tidy (c : FdEventContext F) : Prop where
  masks : c.events &&& ~~~(READ ||| WRITE) = 0
  clean : ∀ side, c.events &&& side.mask = 0 → (c.getEventContext side).co = none

theorem FdEventContext.Tidy.drop (h : c.Tidy) (side : FdEvent) : (c.drop side).Tidy := by
  refine ⟨?_, fun side' hside' => ?_⟩
  · rw [FdEventContext.drop_events, BitVec.and_assoc, BitVec.and_comm (~~~side.mask),
      ← BitVec.and_assoc, h.masks]
    exact BitVec.zero_and
  · by_cases hside : side' = side
    · subst hside
      rw [FdEventContext.drop]
      split
      · rename_i hnone
        exact h.clean side' hnone
      · rw [getEventContext_setEventContext_self]
    · rw [FdEventContext.drop_events, FdEvent.andNot_and_mask hside] at hside'
      rw [c.getEventContext_drop_of_ne hside]
      exact h.clean side' hside'

/-- A context with one more event. -/
def FdEventContext.add (c : FdEventContext F) (side : FdEvent) (ctx : EventContext F) :
    FdEventContext F :=
  { c with events := c.events ||| side.mask }.setEventContext ctx side

theorem FdEventContext.Tidy.add (h : c.Tidy) (side : FdEvent) (ctx : EventContext F) :
    (c.add side ctx).Tidy := by
  refine ⟨?_, fun side' hside' => ?_⟩
  · have hmask : side.mask &&& ~~~(READ ||| WRITE) = 0 := by
      cases side <;> decide
    rw [FdEventContext.add, setEventContext_events, BitVec.and_or_distrib_right, h.masks, hmask]
    decide
  · rw [FdEventContext.add, setEventContext_events] at hside'
    by_cases hside : side' = side
    · subst hside
      exact absurd hside' FdEvent.or_and_self_ne_zero
    · rw [FdEvent.or_and_mask hside] at hside'
      rw [FdEventContext.add, getEventContext_setEventContext_of_ne _ hside,
        getEventContext_withEvents]
      exact h.clean side' hside'

theorem FdEventContext.RegisteredFor.of_add {ctx : EventContext F}
    (h : (c.add side ctx).RegisteredFor side' co) (hctx : side' = side → ctx.co ≠ some co) :
    c.RegisteredFor side' co := by
  obtain ⟨hevents, hco⟩ := h
  rw [FdEventContext.add, setEventContext_events] at hevents
  by_cases hside : side' = side
  · rw [hside, FdEventContext.add, getEventContext_setEventContext_self] at hco
    exact absurd hco (hctx hside)
  · rw [FdEvent.or_and_mask hside] at hevents
    rw [FdEventContext.add, getEventContext_setEventContext_of_ne _ hside,
      getEventContext_withEvents] at hco
    exact ⟨hevents, hco⟩

/-- Without `READ` and `WRITE` nothing is left. -/
theorem FdEventContext.Tidy.drop_both (h : c.Tidy) :
    ((c.drop .read).drop .write).events = 0 := by
  rw [FdEventContext.drop_events, FdEventContext.drop_events, BitVec.and_assoc, ← BitVec.not_or]
  exact h.masks

end Context

/-! ## epoll -/

section Kernel

variable {m : Ioman F} {fd : ℕ}

/-- What `epoll_ctl` makes of the registrations when it succeeds. -/
theorem Kernel.ctl_eq_some {k k' : Kernel} {op : EpollOp} {mask : EventMask}
    (h : k.ctl op fd mask = some k') :
    k' = Function.update k fd (if op = .del then none else some mask) ∧
      ((k fd).isSome ↔ op ≠ .add) := by
  cases op with
  | add =>
      simp only [Kernel.ctl] at h
      split at h
      · rename_i hnone
        simp only [Option.some.injEq] at h
        simp [← h, Option.isNone_iff_eq_none.1 hnone]
      · cases h
  | mod =>
      simp only [Kernel.ctl] at h
      split at h
      · rename_i hsome
        simp only [Option.some.injEq] at h
        simp [← h, hsome]
      · cases h
  | del =>
      simp only [Kernel.ctl] at h
      split at h
      · rename_i hsome
        simp only [Option.some.injEq] at h
        simp [← h, hsome]
      · cases h

theorem Ioman.leave_eq_some {left : EventMask} {kernel : Kernel}
    (h : m.leave fd left = some kernel) : (m.kernel fd).isSome ∧
      (∀ x, x ≠ fd → kernel x = m.kernel x) ∧ ((kernel fd).isSome ↔ left ≠ 0) := by
  obtain ⟨heq, hsome⟩ := Kernel.ctl_eq_some h
  subst heq
  have hop : (if left ≠ 0 then EpollOp.mod else EpollOp.del) ≠ .add := by
    split <;> decide
  refine ⟨hsome.2 hop, fun x hx => Function.update_of_ne hx _ _, ?_⟩
  by_cases hleft : left = 0 <;> simp [hleft]

/-- A descriptor the kernel knows can be left with whatever events. -/
theorem Ioman.leave_isSome (h : (m.kernel fd).isSome) (left : EventMask) :
    ∃ kernel, m.leave fd left = some kernel := by
  rw [Ioman.leave]
  by_cases hleft : left = 0#32 <;> simp [Kernel.ctl, hleft, h]

end Kernel

/-! ## Triggering -/

section Trigger

variable {m : Ioman F} {fd : ℕ}

theorem Ioman.trigger_mask (m : Ioman F) (fd : ℕ) (side : FdEvent) :
    ∃ tasks, m.trigger fd side.mask = some { m.setContext fd ((m.contexts fd).drop side) with
      pendingCountor := m.pendingCountor - 1
      tasks := m.tasks ++ tasks } := by
  obtain ⟨tasks, htasks⟩ := (m.contexts fd).triggerEvent_mask side
  rw [Ioman.trigger, htasks]
  exact ⟨tasks, rfl⟩

/-- A context after `triggerIf`. -/
def FdEventContext.dropIf (c : FdEventContext F) (b : Bool) (side : FdEvent) : FdEventContext F :=
  if b then c.drop side else c

theorem Ioman.triggerIf_mask (m : Ioman F) (b : Bool) (fd : ℕ) (side : FdEvent) :
    (m.triggerIf b fd side.mask).contexts
        = Function.update m.contexts fd ((m.contexts fd).dropIf b side) ∧
      (m.triggerIf b fd side.mask).kernel = m.kernel ∧
      (m.triggerIf b fd side.mask).size = m.size := by
  unfold Ioman.triggerIf FdEventContext.dropIf
  cases b with
  | false => simp
  | true =>
      obtain ⟨tasks, htasks⟩ := m.trigger_mask fd side
      rw [if_pos rfl, htasks]
      exact ⟨rfl, rfl, rfl⟩

theorem Ioman.triggerBoth_mask (m : Ioman F) (r w : Bool) (fd : ℕ) :
    ((m.triggerIf r fd READ).triggerIf w fd WRITE).contexts
        = Function.update m.contexts fd (((m.contexts fd).dropIf r .read).dropIf w .write) ∧
      ((m.triggerIf r fd READ).triggerIf w fd WRITE).kernel = m.kernel ∧
      ((m.triggerIf r fd READ).triggerIf w fd WRITE).size = m.size := by
  obtain ⟨hc, hk, hs⟩ := m.triggerIf_mask r fd .read
  obtain ⟨hc', hk', hs'⟩ := (m.triggerIf r fd READ).triggerIf_mask w fd .write
  refine ⟨?_, hk'.trans hk, hs'.trans hs⟩
  rw [show WRITE = FdEvent.write.mask from rfl, hc', show READ = FdEvent.read.mask from rfl, hc,
    Function.update_self, Function.update_idem]

/-- Triggering one event leaves the other as it was. -/
theorem Ioman.triggerIf_read_and_write (m : Ioman F) (b : Bool) (fd : ℕ) :
    ((m.triggerIf b fd READ).contexts fd).events &&& WRITE
      = (m.contexts fd).events &&& WRITE := by
  rw [show READ = FdEvent.read.mask from rfl, (m.triggerIf_mask b fd .read).1,
    Function.update_self, FdEventContext.dropIf]
  cases b with
  | false => rfl
  | true =>
      have hne : FdEvent.write ≠ FdEvent.read := by decide
      rw [if_pos rfl, FdEventContext.drop_events]
      exact FdEvent.andNot_and_mask hne

/-- `cancelAll` does nothing, or it takes the descriptor out of the kernel and triggers both events,
    each if it is registered. -/
theorem Ioman.cancelAll_cases (m : Ioman F) (fd : ℕ) :
    (m.cancelAll fd).1 = m ∨ fd < m.size ∧
      (m.cancelAll fd).1 = (Ioman.triggerIf { m with kernel := Function.update m.kernel fd none }
        ((m.contexts fd).events &&& READ ≠ 0) fd READ).triggerIf
          ((m.contexts fd).events &&& WRITE ≠ 0) fd WRITE := by
  unfold Ioman.cancelAll
  split
  · exact Or.inl rfl
  rename_i hlt
  split
  · exact Or.inl rfl
  split
  · exact Or.inl rfl
  rename_i kernel hctl
  obtain ⟨heq, -⟩ := Kernel.ctl_eq_some hctl
  rw [if_pos rfl] at heq
  subst heq
  refine Or.inr ⟨not_le.1 hlt, ?_⟩
  simp only [triggerIf_read_and_write]

/-- So does the part of `_M_idle` for one result, with the events that the result stands for. -/
theorem Ioman.idle_cases (m : Ioman F) (fd : ℕ) (result : EventMask) :
    m.idle fd result = m ∨ ∃ kernel,
      m.leave fd ((m.contexts fd).events &&& ~~~triggered (m.contexts fd).events result)
        = some kernel ∧
      m.idle fd result = (Ioman.triggerIf { m with kernel := kernel }
        (READ &&& triggered (m.contexts fd).events result ≠ 0) fd READ).triggerIf
          (WRITE &&& triggered (m.contexts fd).events result ≠ 0) fd WRITE := by
  unfold Ioman.idle
  simp only
  by_cases hskip : (if NONE = (m.contexts fd).events then 1#32 else 0#32)
      &&& triggered (m.contexts fd).events result ≠ 0
  · rw [if_pos hskip]
    exact Or.inl rfl
  rw [if_neg hskip]
  cases hleave : m.leave fd
      ((m.contexts fd).events &&& ~~~triggered (m.contexts fd).events result) with
  | none => exact Or.inl rfl
  | some kernel => exact Or.inr ⟨kernel, rfl, rfl⟩

/-- A result stands for the events it has in common with `READ` and `WRITE`. -/
theorem triggered_eq (events result : EventMask) :
    ((if READ &&& triggered events result ≠ 0 then READ else NONE) |||
      (if WRITE &&& triggered events result ≠ 0 then WRITE else NONE))
        = triggered events result := by
  rw [triggered]
  generalize (if result &&& (EPOLLERR ||| EPOLLHUP) ≠ 0
    then result ||| ((EPOLLIN ||| EPOLLOUT) &&& events) else result) = r
  by_cases hin : r &&& EPOLLIN ≠ 0 <;> by_cases hout : r &&& EPOLLOUT ≠ 0
  · rw [if_pos hin, if_pos hout]
    decide
  · rw [if_pos hin, if_neg hout]
    decide
  · rw [if_neg hin, if_pos hout]
    decide
  · rw [if_neg hin, if_neg hout]
    decide

/-- What dropping both events leaves, each if its condition holds. -/
theorem FdEventContext.dropIf_both_events (c : FdEventContext F) (r w : Bool) :
    ((c.dropIf r .read).dropIf w .write).events
      = c.events &&& ~~~((if r then READ else NONE) ||| (if w then WRITE else NONE)) := by
  have hnone : ~~~(NONE ||| NONE) = BitVec.allOnes 32 := by decide
  have hread : READ ||| NONE = READ := by decide
  have hwrite : NONE ||| WRITE = WRITE := by decide
  cases r <;> cases w <;>
    simp only [FdEventContext.dropIf, Bool.false_eq_true, if_false, if_true,
      FdEventContext.drop_events]
  · rw [hnone, BitVec.and_allOnes]
  · rw [hwrite]
    rfl
  · rw [hread]
    rfl
  · rw [BitVec.not_or, BitVec.and_assoc]
    rfl

end Trigger

/-! ## Tidy managers -/

/-- Every context is tidy, and a descriptor with events lies in the vector and is known to the
    kernel. -/
structure Ioman.Tidy (m : Ioman F) : Prop where
  size : 32 ≤ m.size
  context : ∀ fd, (m.contexts fd).Tidy
  known : ∀ fd, (m.contexts fd).events ≠ 0 → (m.kernel fd).isSome ∧ fd < m.size

/-- The manager stays tidy, and the event is not registered for the coroutine if it was not. -/
structure Ioman.Keeps (m m' : Ioman F) (fd : ℕ) (side : FdEvent) (co : ℕ) : Prop where
  tidy : m'.Tidy
  registered : (m'.contexts fd).RegisteredFor side co → (m.contexts fd).RegisteredFor side co

section Tidy

variable {m m' : Ioman F} {fd fd' : ℕ} {side side' : FdEvent} {co : ℕ} {c : FdEventContext F}

theorem Ioman.Tidy.refl (h : m.Tidy) : m.Keeps m fd side co := ⟨h, id⟩

/-- One descriptor changes, in the contexts and in the kernel. -/
theorem Ioman.Tidy.update (h : m.Tidy) (hsize : m.size ≤ m'.size)
    (hcontexts : m'.contexts = Function.update m.contexts fd' c)
    (hkernel : ∀ x, x ≠ fd' → m'.kernel x = m.kernel x) (hc : c.Tidy)
    (hknown : c.events ≠ 0 → (m'.kernel fd').isSome ∧ fd' < m'.size)
    (hreg : fd = fd' → c.RegisteredFor side co → (m.contexts fd').RegisteredFor side co) :
    m.Keeps m' fd side co := by
  refine ⟨⟨h.size.trans hsize, fun x => ?_, fun x hx => ?_⟩, fun hreg' => ?_⟩
  · rw [hcontexts]
    by_cases hfd : x = fd'
    · rw [hfd, Function.update_self]
      exact hc
    · rw [Function.update_of_ne hfd]
      exact h.context x
  · rw [hcontexts] at hx
    by_cases hfd : x = fd'
    · rw [hfd, Function.update_self] at hx
      rw [hfd]
      exact hknown hx
    · rw [Function.update_of_ne hfd] at hx
      obtain ⟨hsome, hlt⟩ := h.known x hx
      exact ⟨(hkernel x hfd).symm ▸ hsome, hlt.trans_le hsize⟩
  · rw [hcontexts] at hreg'
    by_cases hfd : fd = fd'
    · rw [hfd, Function.update_self] at hreg'
      rw [hfd]
      exact hreg hfd hreg'
    · rwa [Function.update_of_ne hfd] at hreg'

/-- Events go, and what is left is what the kernel was told. -/
theorem Ioman.Tidy.removed (h : m.Tidy) (hfd : fd' < m.size) (hsize : m'.size = m.size)
    (hcontexts : m'.contexts = Function.update m.contexts fd' c)
    (hkernel : ∀ x, x ≠ fd' → m'.kernel x = m.kernel x) (hc : c.Tidy)
    (hknown : c.events ≠ 0 → (m'.kernel fd').isSome)
    (hreg : c.RegisteredFor side co → (m.contexts fd').RegisteredFor side co) :
    m.Keeps m' fd side co := by
  refine h.update hsize.ge hcontexts hkernel hc (fun hevents => ?_) fun _ => hreg
  exact ⟨hknown hevents, hsize.symm ▸ hfd⟩

/-- The lookup of `addEvent` finds a context: the vector grows by half again. -/
theorem Ioman.reach_spec (hsize : 32 ≤ m.size) (fd : ℕ) : m.size ≤ (m.reach fd).size ∧
    fd < (m.reach fd).size ∧ (m.reach fd).contexts = m.contexts ∧
      (m.reach fd).kernel = m.kernel := by
  unfold Ioman.reach
  split
  · rename_i hlt
    exact ⟨le_refl _, hlt, rfl, rfl⟩
  · have hgrow : fd * 3 / 2 > m.size := by omega
    have hfd : fd < fd * 3 / 2 := by omega
    rw [Ioman.expandContext, if_pos hgrow]
    exact ⟨hgrow.le, hfd, rfl, rfl⟩

theorem Ioman.Tidy.reach (h : m.Tidy) (fd' : ℕ) : (m.reach fd').Tidy := by
  obtain ⟨hgrow, -, hcontexts, hkernel⟩ := Ioman.reach_spec h.size fd'
  refine ⟨h.size.trans hgrow, fun x => hcontexts ▸ h.context x, fun x hx => ?_⟩
  rw [hcontexts] at hx
  rw [hkernel]
  exact ⟨(h.known x hx).1, (h.known x hx).2.trans_le hgrow⟩

/-- An event of a coroutine comes in. -/
theorem Ioman.Tidy.addEvent (h : m.Tidy) (f : Option F) (sch : Option ℕ) {co' : ℕ} (running : Bool)
    (hnew : fd = fd' → side = side' → co' ≠ co) :
    m.Keeps (m.addEvent fd' side'.mask f sch co' running).1 fd side co := by
  have hr := h.reach fd'
  obtain ⟨-, hlt, hcontexts, -⟩ := Ioman.reach_spec h.size fd'
  have hkeep : (m.reach fd').Keeps (m.addEvent fd' side'.mask f sch co' running).1 fd side co := by
    unfold Ioman.addEvent
    generalize m.reach fd' = r at hr hlt ⊢
    dsimp only
    split
    · exact hr.refl
    rename_i hfree
    split
    · exact hr.refl
    rename_i kernel hctl
    obtain ⟨heq, -⟩ := Kernel.ctl_eq_some hctl
    rw [fdEvent_mask]
    have hclean := (hr.context fd').clean side' (not_not.1 hfree)
    -- the context gets the event, and a coroutine which is not `co` or none
    have hdone : ∀ ctx : EventContext F, (fd = fd' → side = side' → ctx.co ≠ some co) →
        r.Keeps (Ioman.setContext { r with
          kernel := kernel, pendingCountor := r.pendingCountor + 1 } fd'
            ((r.contexts fd').add side' ctx)) fd side co := by
      intro ctx hctx
      refine hr.update (le_refl _) rfl (fun x hx => ?_) ((hr.context fd').add side' ctx)
        (fun _ => ⟨?_, hlt⟩) fun hfd hreg => hreg.of_add (hctx hfd)
      · show kernel x = r.kernel x
        rw [heq, Function.update_of_ne hx]
      · show (kernel fd').isSome
        rw [heq, Function.update_self]
        by_cases hz : (r.contexts fd').events = 0#32 <;> simp [hz]
    dsimp only
    cases f with
    | some f =>
        refine hdone _ fun _ _ => ?_
        rw [getEventContext_withEvents, hclean]
        simp
    | none =>
        refine hdone _ fun hfd hside hco => ?_
        exact hnew hfd hside (Option.some.inj hco)
  exact ⟨hkeep.tidy, fun hreg => hcontexts ▸ hkeep.registered hreg⟩

theorem Ioman.Tidy.tidy_addEvent (h : m.Tidy) (fd : ℕ) (side : FdEvent) (f : Option F)
    (sch : Option ℕ) (co : ℕ) (running : Bool) :
    (m.addEvent fd side.mask f sch co running).1.Tidy := by
  -- whose event does not come in is of no matter
  have hkeep : m.Keeps (m.addEvent fd side.mask f sch co running).1 fd side (co + 1) :=
    h.addEvent f sch running fun _ _ => (Nat.succ_ne_self co).symm
  exact hkeep.tidy

theorem Ioman.Tidy.delEvent (h : m.Tidy) :
    m.Keeps (m.delEvent fd' side'.mask).1 fd side co := by
  unfold Ioman.delEvent
  split
  · exact h.refl
  rename_i hlt
  dsimp only
  split
  · exact h.refl
  rename_i hreg
  split
  · exact h.refl
  rename_i kernel hleave
  obtain ⟨-, hother, hself⟩ := m.leave_eq_some hleave
  have hdrop := (h.context fd').drop side'
  rw [fdEvent_mask]
  have hc : (m.contexts fd').drop side'
      = { m.contexts fd' with
          events := (m.contexts fd').events &&& ~~~side'.mask }.setEventContext {} side' := by
    rw [FdEventContext.drop, if_neg hreg]
  refine h.removed (c := (m.contexts fd').drop side') (not_le.1 hlt) rfl ?_ hother hdrop
    (fun hevents => ?_) FdEventContext.RegisteredFor.of_drop
  · rw [hc]
    rfl
  · rw [FdEventContext.drop_events] at hevents
    exact hself.2 hevents

theorem Ioman.Tidy.cancelEvent (h : m.Tidy) :
    m.Keeps (m.cancelEvent fd' side'.mask).1 fd side co := by
  unfold Ioman.cancelEvent
  split
  · exact h.refl
  rename_i hlt
  dsimp only
  split
  · exact h.refl
  split
  · exact h.refl
  rename_i kernel hleave
  obtain ⟨-, hother, hself⟩ := m.leave_eq_some hleave
  obtain ⟨tasks, htasks⟩ := Ioman.trigger_mask { m with kernel := kernel } fd' side'
  rw [htasks]
  refine h.removed (c := (m.contexts fd').drop side') (not_le.1 hlt) rfl rfl hother
    ((h.context fd').drop side') (fun hevents => ?_) FdEventContext.RegisteredFor.of_drop
  rw [FdEventContext.drop_events] at hevents
  exact hself.2 hevents

/-- `cancelEvent` takes the event away, whoever waits for it. -/
theorem Ioman.Tidy.not_registeredFor_cancelEvent (h : m.Tidy) :
    ¬ ((m.cancelEvent fd side.mask).1.contexts fd).RegisteredFor side co := by
  unfold Ioman.cancelEvent
  by_cases hreg : (m.contexts fd).events &&& side.mask = 0
  · have hno : ¬ (m.contexts fd).RegisteredFor side co := fun hr => hr.1 hreg
    split
    · exact hno
    · dsimp only
      rw [if_pos hreg]
      exact hno
  · have hevents : (m.contexts fd).events ≠ 0 := by
      intro hz
      rw [hz] at hreg
      exact hreg BitVec.zero_and
    obtain ⟨hsome, hlt⟩ := h.known fd hevents
    obtain ⟨kernel, hleave⟩ :=
      m.leave_isSome hsome ((m.contexts fd).events &&& ~~~side.mask)
    obtain ⟨tasks, htasks⟩ := Ioman.trigger_mask { m with kernel := kernel } fd side
    rw [if_neg (not_le.2 hlt)]
    dsimp only
    rw [if_neg hreg, hleave]
    dsimp only
    rw [htasks]
    simp only [Ioman.setContext, Function.update_self]
    exact FdEventContext.not_registeredFor_drop _ side co

theorem FdEventContext.Tidy.dropIf (hc : c.Tidy) (b : Bool) (side : FdEvent) :
    (c.dropIf b side).Tidy := by
  cases b with
  | false => exact hc
  | true => exact hc.drop side

theorem FdEventContext.RegisteredFor.of_dropIf {b : Bool}
    (h : (c.dropIf b side').RegisteredFor side co) : c.RegisteredFor side co := by
  cases b with
  | false => exact h
  | true => exact h.of_drop

theorem FdEventContext.dropIf_registered (c : FdEventContext F) (side : FdEvent) :
    c.dropIf (c.events &&& side.mask ≠ 0) side = c.drop side := by
  unfold FdEventContext.dropIf
  by_cases h : c.events &&& side.mask = 0
  · simp [h, FdEventContext.drop]
  · rw [if_pos (decide_eq_true h)]

/-- Without `READ` and `WRITE`, where they are, nothing is left. -/
theorem FdEventContext.Tidy.dropIf_both (hc : c.Tidy) :
    ((c.dropIf (c.events &&& READ ≠ 0) .read).dropIf (c.events &&& WRITE ≠ 0) .write).events
      = 0 := by
  have hne : FdEvent.write ≠ FdEvent.read := by decide
  have hkeep : c.events &&& WRITE = (c.drop .read).events &&& FdEvent.write.mask := by
    rw [FdEventContext.drop_events, FdEvent.andNot_and_mask hne]
    rfl
  have hread : c.dropIf (c.events &&& READ ≠ 0) .read = c.drop .read := c.dropIf_registered .read
  simp only [hread, hkeep]
  rw [FdEventContext.dropIf_registered]
  exact hc.drop_both

theorem Ioman.Tidy.cancelAll (h : m.Tidy) : m.Keeps (m.cancelAll fd').1 fd side co := by
  rcases m.cancelAll_cases fd' with hsame | ⟨hlt, hall⟩
  · rw [hsame]
    exact h.refl
  · rw [hall]
    obtain ⟨hcontexts, hkernel, hsize⟩ := Ioman.triggerBoth_mask
      { m with kernel := Function.update m.kernel fd' none }
      ((m.contexts fd').events &&& READ ≠ 0) ((m.contexts fd').events &&& WRITE ≠ 0) fd'
    refine h.removed hlt hsize hcontexts (fun x hx => ?_) (((h.context fd').dropIf _ _).dropIf _ _)
      (fun hevents => ?_) fun hreg => hreg.of_dropIf.of_dropIf
    · rw [hkernel]
      exact Function.update_of_ne hx _ _
    · exact absurd (h.context fd').dropIf_both hevents

theorem Ioman.Tidy.idle (h : m.Tidy) (result : EventMask) :
    m.Keeps (m.idle fd' result) fd side co := by
  rcases m.idle_cases fd' result with hsame | ⟨kernel, hleave, hidle⟩
  · rw [hsame]
    exact h.refl
  · rw [hidle]
    obtain ⟨-, hother, hself⟩ := m.leave_eq_some hleave
    obtain ⟨hcontexts, hkernel, hsize⟩ := Ioman.triggerBoth_mask { m with kernel := kernel }
      (READ &&& triggered (m.contexts fd').events result ≠ 0)
      (WRITE &&& triggered (m.contexts fd').events result ≠ 0) fd'
    refine h.update hsize.ge hcontexts (fun x hx => ?_) (((h.context fd').dropIf _ _).dropIf _ _)
      (fun hevents => ?_) fun _ hreg => hreg.of_dropIf.of_dropIf
    · rw [hkernel]
      exact hother x hx
    · rw [FdEventContext.dropIf_both_events] at hevents
      simp only [decide_eq_true_eq, triggered_eq] at hevents
      have hbefore : (m.contexts fd').events ≠ 0 := by
        intro hz
        rw [hz] at hevents
        exact hevents BitVec.zero_and
      rw [hkernel, hsize]
      exact ⟨hself.2 hevents, (h.known fd' hbefore).2⟩

end Tidy

end RaftKVStorage
