import RaftKVStorage.IomanSpec

set_option autoImplicit false

/-! # The count of pending events

`_M_pendingCountor` goes up and down with the events of the contexts, each by its own statement. The
two stay together as long as each call is about one event, and no idle thread deals with a result
that reports an event which was taken back since: the test that should skip such a result never
does, and the counter falls without an event going. -/

namespace RaftKVStorage

variable {F : Type}

/-! ## Pairs -/

section Pairs

variable {x e : EventMask}

/-- How many of `READ` and `WRITE` are among the events. -/
def pairs (events : EventMask) : ℕ :=
  (if events &&& READ ≠ 0 then 1 else 0) + (if events &&& WRITE ≠ 0 then 1 else 0)

theorem pairs_eq_bits (x : EventMask) : pairs x = (x.getLsbD 0).toNat + (x.getLsbD 2).toNat := by
  rw [pairs]
  simp only [ne_eq, and_READ_eq_zero, and_WRITE_eq_zero]
  cases x.getLsbD 0 <;> cases x.getLsbD 2 <;> rfl

@[simp] theorem pairs_zero : pairs 0 = 0 := by decide

/-- Events that were not there are added. -/
theorem pairs_or (h : x &&& e = 0) : pairs (x ||| e) = pairs x + pairs e := by
  have hbit : ∀ i, x.getLsbD i = true → e.getLsbD i = false := by
    intro i hx
    have hi := congrArg (fun z : EventMask => z.getLsbD i) h
    simpa [hx] using hi
  have h0 := hbit 0
  have h2 := hbit 2
  rw [pairs_eq_bits, pairs_eq_bits, pairs_eq_bits, BitVec.getLsbD_or, BitVec.getLsbD_or]
  cases hx0 : x.getLsbD 0 <;> cases hx2 : x.getLsbD 2
  all_goals
    simp only [hx0, hx2, Bool.false_or, Bool.true_or, Bool.toNat_false, Bool.toNat_true] at h0 h2 ⊢
    simp_all [Nat.add_comm]

/-- Events are taken out. -/
theorem pairs_andNot (x e : EventMask) : pairs (x &&& ~~~e) + pairs (x &&& e) = pairs x := by
  rw [pairs_eq_bits, pairs_eq_bits, pairs_eq_bits]
  simp only [BitVec.getLsbD_and, BitVec.getLsbD_not]
  cases x.getLsbD 0 <;> cases x.getLsbD 2 <;> cases e.getLsbD 0 <;> cases e.getLsbD 2 <;> simp

theorem pairs_and_mask {side : FdEvent} (h : x &&& side.mask ≠ 0) : pairs (x &&& side.mask) = 1 := by
  have hr0 : READ.getLsbD 0 = true := by decide
  have hr2 : READ.getLsbD 2 = false := by decide
  have hw0 : WRITE.getLsbD 0 = false := by decide
  have hw2 : WRITE.getLsbD 2 = true := by decide
  rw [pairs_eq_bits, BitVec.getLsbD_and, BitVec.getLsbD_and]
  cases side with
  | read =>
      rw [FdEvent.mask, ne_eq, and_READ_eq_zero, Bool.not_eq_false] at h
      rw [FdEvent.mask, h, hr0, hr2, Bool.and_false]
      rfl
  | write =>
      rw [FdEvent.mask, ne_eq, and_WRITE_eq_zero, Bool.not_eq_false] at h
      rw [FdEvent.mask, h, hw0, hw2, Bool.and_false]
      rfl

end Pairs

/-! ## The count -/

/-- The pairs of a descriptor and an event registered in the contexts. -/
def Ioman.registered (m : Ioman F) : ℕ := ∑ fd ∈ Finset.range m.size, pairs (m.contexts fd).events

/-- The counter counts the registered events, so it has not wrapped around. -/
def Ioman.Counted (m : Ioman F) : Prop :=
  0 ≤ m.pendingCountor ∧ m.pendingCountor = m.registered

/-- The counter is right, and nothing is registered behind the end of `_M_fdEventContexts`. -/
structure Ioman.CountInv (m : Ioman F) : Prop where
  counted : m.pendingCountor = m.registered
  size : 32 ≤ m.size
  behind : ∀ fd, m.size ≤ fd → (m.contexts fd).events = 0

/-- What the kernel has registered, the pipe apart, has events in its context. -/
def Ioman.KernelInv (m : Ioman F) (tickleFd : ℕ) : Prop :=
  ∀ fd, (m.kernel fd).isSome → fd ≠ tickleFd → (m.contexts fd).events ≠ 0

section Count

variable {m : Ioman F} {fd : ℕ} {c : FdEventContext F} {e : EventMask}

theorem Ioman.registered_setContext (hfd : fd < m.size) :
    (m.setContext fd c).registered + pairs (m.contexts fd).events
      = m.registered + pairs c.events := by
  have hmem : fd ∈ Finset.range m.size := Finset.mem_range.2 hfd
  have hrest : ∑ x ∈ (Finset.range m.size).erase fd, pairs ((m.setContext fd c).contexts x).events
      = ∑ x ∈ (Finset.range m.size).erase fd, pairs (m.contexts x).events := by
    refine Finset.sum_congr rfl fun x hx => ?_
    have hne := (Finset.mem_erase.1 hx).1
    simp [Ioman.setContext, hne]
  have hnew := Finset.add_sum_erase (Finset.range m.size)
    (fun x => pairs ((m.setContext fd c).contexts x).events) hmem
  have hold := Finset.add_sum_erase (Finset.range m.size)
    (fun x => pairs (m.contexts x).events) hmem
  have hself : ((m.setContext fd c).contexts fd).events = c.events := by
    simp [Ioman.setContext]
  simp only [hrest, hself] at hnew
  rw [Ioman.registered, Ioman.registered]
  show ∑ x ∈ Finset.range m.size, pairs ((m.setContext fd c).contexts x).events + _ = _
  omega

/-- The context of a descriptor changes, and the counter with it. -/
theorem Ioman.CountInv.setContext (h : m.CountInv) (hfd : fd < m.size) {m' : Ioman F}
    (hsize : m'.size = m.size) (hcontexts : m'.contexts = Function.update m.contexts fd c)
    (hcount : m'.pendingCountor + pairs (m.contexts fd).events
      = m.pendingCountor + pairs c.events) : m'.CountInv := by
  have hreg : m'.registered = (m.setContext fd c).registered := by
    rw [Ioman.registered, Ioman.registered, hsize, hcontexts]
    rfl
  have hset := m.registered_setContext hfd (c := c)
  refine ⟨?_, hsize ▸ h.size, fun x hx => ?_⟩
  · rw [hreg]
    have hcounted := h.counted
    omega
  · rw [hsize] at hx
    rw [hcontexts, Function.update_of_ne (by omega)]
    exact h.behind x hx

/-- The vector grows by empty contexts. -/
theorem Ioman.CountInv.reach (h : m.CountInv) (fd : ℕ) :
    (m.reach fd).CountInv ∧ fd < (m.reach fd).size ∧ (m.reach fd).contexts = m.contexts ∧
      (m.reach fd).kernel = m.kernel := by
  obtain ⟨hgrow, hlt, hcontexts, hkernel⟩ := Ioman.reach_spec h.size fd
  have hcount : (m.reach fd).pendingCountor = m.pendingCountor := by
    unfold Ioman.reach Ioman.expandContext
    split
    · rfl
    · split <;> rfl
  refine ⟨⟨?_, h.size.trans hgrow, fun x hx => ?_⟩, hlt, hcontexts, hkernel⟩
  · have hsub : Finset.range m.size ⊆ Finset.range (m.reach fd).size :=
      Finset.range_subset_range.2 hgrow
    have hsum := Finset.sum_subset hsub (f := fun x => pairs (m.contexts x).events)
      fun x _ hx => by rw [h.behind x (by simpa using hx), pairs_zero]
    rw [hcount, h.counted, Ioman.registered, Ioman.registered, hcontexts, hsum]
  · rw [hcontexts]
    exact h.behind x (hgrow.trans hx)

/-- A registered event goes, and the counter goes down. -/
theorem FdEventContext.pairs_drop {side : FdEvent} (c : FdEventContext F)
    (h : c.events &&& side.mask ≠ 0) : pairs (c.drop side).events + 1 = pairs c.events := by
  rw [FdEventContext.drop_events, ← pairs_andNot c.events side.mask, pairs_and_mask h]

theorem Ioman.CountInv.triggerIf (side : FdEvent) (h : m.CountInv) (hfd : fd < m.size) {b : Bool}
    (hreg : b = true → (m.contexts fd).events &&& side.mask ≠ 0) :
    (m.triggerIf b fd side.mask).CountInv := by
  unfold Ioman.triggerIf
  cases b with
  | false => exact h
  | true =>
      obtain ⟨tasks, htasks⟩ := m.trigger_mask fd side
      have hone := (m.contexts fd).pairs_drop (hreg rfl)
      rw [if_pos rfl, htasks]
      refine h.setContext hfd rfl rfl ?_
      show m.pendingCountor - 1 + (pairs (m.contexts fd).events : ℕ)
        = m.pendingCountor + (pairs ((m.contexts fd).drop side).events : ℕ)
      omega

/-- Both events are triggered, `READ` if `r` holds and `WRITE` if `w` holds. -/
theorem Ioman.CountInv.triggerBoth (h : m.CountInv) (hfd : fd < m.size) {r w : Bool}
    (hr : r = true → (m.contexts fd).events &&& READ ≠ 0)
    (hw : w = true → (m.contexts fd).events &&& WRITE ≠ 0) :
    ((m.triggerIf r fd READ).triggerIf w fd WRITE).CountInv := by
  have hread : (m.triggerIf r fd READ).CountInv := Ioman.CountInv.triggerIf .read h hfd hr
  obtain ⟨-, -, hsize⟩ := m.triggerIf_mask r fd .read
  refine Ioman.CountInv.triggerIf .write hread (hsize ▸ hfd) fun hwt => ?_
  show ((m.triggerIf r fd READ).contexts fd).events &&& WRITE ≠ 0
  rw [m.triggerIf_read_and_write]
  exact hw hwt

end Count

/-! ## The calls -/

section Calls

variable {m : Ioman F} {fd tickleFd : ℕ} {e : EventMask}

/-- A registered descriptor has a context in the vector. -/
theorem Ioman.CountInv.lt_size (h : m.CountInv) (hfd : (m.contexts fd).events ≠ 0) :
    fd < m.size := by
  by_contra hle
  exact hfd (h.behind fd (not_lt.1 hle))

/-- Nothing but the kernel's registration of `fd` changes. -/
theorem Ioman.CountInv.setKernel (h : m.CountInv) (kernel : Kernel) :
    ({ m with kernel := kernel } : Ioman F).CountInv := ⟨h.counted, h.size, h.behind⟩

/-- The kernel invariant, one descriptor apart. -/
theorem Ioman.KernelInv.of_ne {m' : Ioman F} (h : m.KernelInv tickleFd) (fd : ℕ)
    (hkernel : ∀ x, x ≠ fd → m'.kernel x = m.kernel x)
    (hevents : ∀ x, x ≠ fd → (m'.contexts x).events = (m.contexts x).events)
    (hself : (m'.kernel fd).isSome → (m'.contexts fd).events ≠ 0) : m'.KernelInv tickleFd := by
  intro x hx htickle
  by_cases hfd : x = fd
  · subst hfd
    exact hself hx
  · rw [hevents x hfd]
    rw [hkernel x hfd] at hx
    exact h x hx htickle

/-- The events and the registration of one descriptor change, and the counter with them. -/
theorem Ioman.CountInv.change (h : m.CountInv) (hk : m.KernelInv tickleFd) (hfd : fd < m.size)
    {c : FdEventContext F} {m' : Ioman F} (hsize : m'.size = m.size)
    (hcontexts : m'.contexts = Function.update m.contexts fd c)
    (hcount : m'.pendingCountor + pairs (m.contexts fd).events = m.pendingCountor + pairs c.events)
    (hother : ∀ x, x ≠ fd → m'.kernel x = m.kernel x)
    (hself : (m'.kernel fd).isSome → c.events ≠ 0) : m'.CountInv ∧ m'.KernelInv tickleFd := by
  refine ⟨h.setContext hfd hsize hcontexts hcount, hk.of_ne fd hother (fun x hx => ?_) fun hs => ?_⟩
  · rw [hcontexts, Function.update_of_ne hx]
  · rw [hcontexts, Function.update_self]
    exact hself hs

/-- The event of a call that gets through to the contexts is one pair. -/
def Ioman.SinglePair (m : Ioman F) : IomanStep F → Prop
  | .addEvent fd e _ _ _ _ => (m.contexts fd).events &&& e = 0 →
      ((m.kernel fd).isSome ↔ (m.contexts fd).events ≠ 0) → pairs e = 1
  | .delEvent fd e => fd < m.size → (m.contexts fd).events &&& e ≠ 0 → (m.kernel fd).isSome →
      pairs ((m.contexts fd).events &&& e) = 1
  | _ => True

theorem Ioman.CountInv.addEvent (h : m.CountInv) (hk : m.KernelInv tickleFd) (f : Option F)
    (sch : Option ℕ) (co : ℕ) (running : Bool) (hone : m.SinglePair (.addEvent fd e f sch co running)) :
    (m.addEvent fd e f sch co running).1.CountInv ∧
      (m.addEvent fd e f sch co running).1.KernelInv tickleFd := by
  obtain ⟨hr, hlt, hcontexts, hkernel⟩ := h.reach fd
  have hkr : (m.reach fd).KernelInv tickleFd := by
    intro x hx
    rw [hcontexts]
    rw [hkernel] at hx
    exact hk x hx
  have hone : ((m.reach fd).contexts fd).events &&& e = 0 →
      (((m.reach fd).kernel fd).isSome ↔ ((m.reach fd).contexts fd).events ≠ 0) → pairs e = 1 := by
    rw [hcontexts, hkernel]
    exact hone
  unfold Ioman.addEvent
  generalize m.reach fd = r at *
  dsimp only
  split
  · exact ⟨hr, hkr⟩
  rename_i hfree
  split
  · exact ⟨hr, hkr⟩
  rename_i kernel hctl
  have hfree : (r.contexts fd).events &&& e = 0 := not_not.1 hfree
  obtain ⟨heq, hsome⟩ := Kernel.ctl_eq_some hctl
  have hregistered : (r.kernel fd).isSome ↔ (r.contexts fd).events ≠ 0 := by
    rw [hsome]
    by_cases hz : (r.contexts fd).events = 0 <;> simp [hz]
  have hpairs := hone hfree hregistered
  have hsum := pairs_or hfree
  -- every way through ends with the event in the context and the counter one up
  have hdone : ∀ c : FdEventContext F, c.events = (r.contexts fd).events ||| e →
      (Ioman.setContext { r with
        kernel := kernel, pendingCountor := r.pendingCountor + 1 } fd c).CountInv ∧
      (Ioman.setContext { r with
        kernel := kernel, pendingCountor := r.pendingCountor + 1 } fd c).KernelInv tickleFd := by
    intro c hevents
    refine hr.change hkr hlt (c := c) rfl rfl ?_ (fun x hx => ?_) fun _ hz => ?_
    · rw [hevents, hsum, hpairs]
      show r.pendingCountor + 1 + _ = _
      push_cast
      omega
    · show kernel x = _
      rw [heq, Function.update_of_ne hx]
    · rw [hevents] at hz
      rw [hz, pairs_zero] at hsum
      omega
  split
  · refine hdone _ ?_
    rfl
  · split
    · refine hdone _ ?_
      exact setEventContext_events _ _ _
    · refine hdone _ ?_
      exact setEventContext_events _ _ _

theorem Ioman.CountInv.delEvent (h : m.CountInv) (hk : m.KernelInv tickleFd)
    (hone : m.SinglePair (.delEvent fd e)) :
    (m.delEvent fd e).1.CountInv ∧ (m.delEvent fd e).1.KernelInv tickleFd := by
  unfold Ioman.delEvent
  split
  · exact ⟨h, hk⟩
  rename_i hlt
  dsimp only
  split
  · exact ⟨h, hk⟩
  rename_i hreg
  split
  · exact ⟨h, hk⟩
  rename_i kernel hleave
  obtain ⟨hsome, hother, hself⟩ := m.leave_eq_some hleave
  have hpairs := hone (not_le.1 hlt) hreg hsome
  have hsplit := pairs_andNot (m.contexts fd).events e
  have hdone : ∀ c : FdEventContext F, c.events = (m.contexts fd).events &&& ~~~e →
      (Ioman.setContext { m with
        kernel := kernel, pendingCountor := m.pendingCountor - 1 } fd c).CountInv ∧
      (Ioman.setContext { m with
        kernel := kernel, pendingCountor := m.pendingCountor - 1 } fd c).KernelInv tickleFd := by
    intro c hevents
    refine h.change hk (not_le.1 hlt) (c := c) rfl rfl ?_ hother fun hs => ?_
    · rw [hevents]
      show m.pendingCountor - 1 + (pairs (m.contexts fd).events : ℕ)
        = m.pendingCountor + (pairs ((m.contexts fd).events &&& ~~~e) : ℕ)
      omega
    · rw [hevents]
      exact hself.1 hs
  split
  · refine hdone _ ?_
    rfl
  · refine hdone _ ?_
    exact setEventContext_events _ _ _

theorem Ioman.CountInv.cancelEvent (h : m.CountInv) (hk : m.KernelInv tickleFd) :
    (m.cancelEvent fd e).1.CountInv ∧ (m.cancelEvent fd e).1.KernelInv tickleFd := by
  unfold Ioman.cancelEvent
  split
  · exact ⟨h, hk⟩
  rename_i hlt
  dsimp only
  split
  · exact ⟨h, hk⟩
  rename_i hreg
  split
  · exact ⟨h, hk⟩
  rename_i kernel hleave
  obtain ⟨-, hother, hself⟩ := m.leave_eq_some hleave
  have hk' := h.setKernel kernel
  by_cases he : ∃ side : FdEvent, e = side.mask
  · obtain ⟨side, rfl⟩ := he
    obtain ⟨tasks, htasks⟩ := Ioman.trigger_mask { m with kernel := kernel } fd side
    have hone := (m.contexts fd).pairs_drop hreg
    rw [htasks]
    refine h.change hk (not_le.1 hlt) (c := (m.contexts fd).drop side) rfl rfl ?_ hother fun hs => ?_
    · show m.pendingCountor - 1 + (pairs (m.contexts fd).events : ℕ)
        = m.pendingCountor + (pairs ((m.contexts fd).drop side).events : ℕ)
      omega
    · rw [FdEventContext.drop_events]
      exact hself.1 hs
  · -- `getEventContext` throws, and the events stay
    have hnone : fdEvent e = none := by
      have hread : e ≠ READ := fun heq => he ⟨.read, heq⟩
      have hwrite : e ≠ WRITE := fun heq => he ⟨.write, heq⟩
      rw [fdEvent, if_neg hread, if_neg hwrite]
    have hthrow : Ioman.trigger { m with kernel := kernel } fd e = none := by
      rw [Ioman.trigger, FdEventContext.triggerEvent, if_neg hreg, hnone]
    rw [hthrow]
    refine ⟨hk', hk.of_ne fd hother (fun x _ => rfl) fun _ hz => hreg ?_⟩
    rw [hz]
    simp

theorem Ioman.CountInv.cancelAll (h : m.CountInv) (hk : m.KernelInv tickleFd) :
    (m.cancelAll fd).1.CountInv ∧ (m.cancelAll fd).1.KernelInv tickleFd := by
  rcases m.cancelAll_cases fd with hsame | ⟨hlt, hall⟩
  · rw [hsame]
    exact ⟨h, hk⟩
  · rw [hall]
    have hcount := (h.setKernel (Function.update m.kernel fd none)).triggerBoth hlt
      (fun hr => of_decide_eq_true hr) fun hw => of_decide_eq_true hw
    obtain ⟨hcontexts, hkernel, -⟩ := Ioman.triggerBoth_mask
      { m with kernel := Function.update m.kernel fd none }
      ((m.contexts fd).events &&& READ ≠ 0) ((m.contexts fd).events &&& WRITE ≠ 0) fd
    refine ⟨hcount, hk.of_ne fd (fun x hx => ?_) (fun x hx => ?_) fun hs => ?_⟩
    · rw [hkernel]
      exact Function.update_of_ne hx _ _
    · rw [hcontexts, Function.update_of_ne hx]
    · rw [hkernel] at hs
      simp at hs

/-- The result at the head of the batch reports no event that is no longer registered, unless the
    kernel has nothing registered at all. -/
def Ioman.Fresh (m : Ioman F) (fd : ℕ) (result : EventMask) : Prop :=
  (m.kernel fd).isSome → result &&& (EPOLLIN ||| EPOLLOUT) &&& ~~~(m.contexts fd).events = 0

/-- What a fresh result triggers is registered. -/
theorem triggered_registered {events result : EventMask}
    (h : result &&& (EPOLLIN ||| EPOLLOUT) &&& ~~~events = 0) :
    (READ &&& triggered events result ≠ 0 → events &&& READ ≠ 0) ∧
      (WRITE &&& triggered events result ≠ 0 → events &&& WRITE ≠ 0) := by
  -- an error or a hang-up only adds events that are registered
  have hbits : ∀ i, (EPOLLIN ||| EPOLLOUT).getLsbD i = true →
      (if result &&& (EPOLLERR ||| EPOLLHUP) ≠ 0
        then result ||| ((EPOLLIN ||| EPOLLOUT) &&& events) else result).getLsbD i = true →
      events.getLsbD i = true := by
    intro i hmask hi
    have hbit := congrArg (fun z : EventMask => z.getLsbD i) h
    simp only [BitVec.getLsbD_and, hmask, BitVec.getLsbD_not] at hbit
    have hlt := BitVec.lt_of_getLsbD hi
    by_contra hevents
    rw [Bool.not_eq_true] at hevents
    split at hi <;> simp_all
  have h0 := hbits 0 (by decide)
  have h2 := hbits 2 (by decide)
  rw [triggered]
  generalize (if result &&& (EPOLLERR ||| EPOLLHUP) ≠ 0
    then result ||| ((EPOLLIN ||| EPOLLOUT) &&& events) else result) = r at h0 h2 ⊢
  have hread : r &&& READ ≠ 0 → events &&& READ ≠ 0 := by
    intro hr
    rw [ne_eq, and_READ_eq_zero, Bool.not_eq_false] at hr ⊢
    exact h0 hr
  have hwrite : r &&& WRITE ≠ 0 → events &&& WRITE ≠ 0 := by
    intro hr
    rw [ne_eq, and_WRITE_eq_zero, Bool.not_eq_false] at hr ⊢
    exact h2 hr
  by_cases hin : r &&& EPOLLIN ≠ 0 <;> by_cases hout : r &&& EPOLLOUT ≠ 0
  · rw [if_pos hin, if_pos hout]
    exact ⟨fun _ => hread hin, fun _ => hwrite hout⟩
  · rw [if_pos hin, if_neg hout]
    exact ⟨fun _ => hread hin, fun hw => absurd hw (by decide)⟩
  · rw [if_neg hin, if_pos hout]
    exact ⟨fun hr => absurd hr (by decide), fun _ => hwrite hout⟩
  · rw [if_neg hin, if_neg hout]
    exact ⟨fun hr => absurd hr (by decide), fun hw => absurd hw (by decide)⟩

theorem Ioman.CountInv.idle (h : m.CountInv) (hk : m.KernelInv tickleFd) {result : EventMask}
    (hfd : fd ≠ tickleFd) (hfresh : m.Fresh fd result) :
    (m.idle fd result).CountInv ∧ (m.idle fd result).KernelInv tickleFd := by
  rcases m.idle_cases fd result with hsame | ⟨kernel, hleave, hidle⟩
  · rw [hsame]
    exact ⟨h, hk⟩
  · rw [hidle]
    obtain ⟨hsome, hother, hself⟩ := m.leave_eq_some hleave
    obtain ⟨hr, hw⟩ := triggered_registered (hfresh hsome)
    have hcount := (h.setKernel kernel).triggerBoth (h.lt_size (hk fd hsome hfd))
      (fun hc => hr (of_decide_eq_true hc)) fun hc => hw (of_decide_eq_true hc)
    obtain ⟨hcontexts, hkernel, -⟩ := Ioman.triggerBoth_mask { m with kernel := kernel }
      (READ &&& triggered (m.contexts fd).events result ≠ 0)
      (WRITE &&& triggered (m.contexts fd).events result ≠ 0) fd
    refine ⟨hcount, hk.of_ne fd (fun x hx => ?_) (fun x hx => ?_) fun hs => ?_⟩
    · rw [hkernel]
      exact hother x hx
    · rw [hcontexts, Function.update_of_ne hx]
    · rw [hkernel] at hs
      rw [hcontexts, Function.update_self, FdEventContext.dropIf_both_events]
      simp only [decide_eq_true_eq, triggered_eq]
      exact hself.1 hs

end Calls

/-! ## Runs -/

section Runs

open GuardedRun

/-- The calls that get through are each about one event, and no idle thread deals with a result that
    reports an event which is no longer registered. -/
def IomanThreads.OneFreshEvent (S : IomanThreads F) : IomanStep F → Prop
  | .idle t =>
      ∀ x ∈ (S.results t).head?, x.1 ≠ S.tickleFd → S.manager.Fresh x.1 x.2
  | a => S.manager.SinglePair a

def IomanThreads.CountInv (S : IomanThreads F) : Prop :=
  S.manager.CountInv ∧ S.manager.KernelInv S.tickleFd

theorem IomanThreads.countInv_start (tickleFd : ℕ) :
    (IomanThreads.start tickleFd : IomanThreads F).CountInv := by
  refine ⟨⟨?_, le_refl 32, fun _ _ => rfl⟩, fun fd hfd htickle => ?_⟩
  · simp [IomanThreads.start, Ioman.registered, NONE, pairs]
  · have hne : fd ≠ tickleFd := htickle
    simp [IomanThreads.start, hne] at hfd

theorem IomanThreads.CountInv.step {S : IomanThreads F} (h : S.CountInv) {a : IomanStep F}
    (ha : S.OneFreshEvent a) : (S.step a).CountInv := by
  obtain ⟨hcount, hkernel⟩ := h
  cases a with
  | addEvent fd e f sch co running => exact hcount.addEvent hkernel f sch co running ha
  | delEvent fd e => exact hcount.delEvent hkernel ha
  | cancelEvent fd e => exact hcount.cancelEvent hkernel
  | cancelAll fd => exact hcount.cancelAll hkernel
  | epollWait t results => exact ⟨hcount, hkernel⟩
  | idle t =>
      simp only [IomanThreads.step]
      split
      · exact ⟨hcount, hkernel⟩
      · rename_i fd result rest hresults
        have hfresh := ha (fd, result) (by rw [hresults]; rfl)
        by_cases hfd : fd = S.tickleFd
        · rw [if_pos hfd]
          exact ⟨hcount, hkernel⟩
        · rw [if_neg hfd]
          exact hcount.idle hkernel hfd (hfresh hfd)

/-- While every call is about one event and every result is fresh, the counter is the number of the
    registered pairs, and so never below zero. -/
theorem pending_events (tickleFd : ℕ) {S : IomanThreads F}
    (h : Reach (IomanThreads.start tickleFd) IomanThreads.step IomanThreads.OneFreshEvent S) :
    S.manager.Counted := by
  have hinv : S.CountInv := by
    refine h.invariant (IomanThreads.countInv_start tickleFd) ?_
    intro T a _ hT ha
    exact hT.step ha
  have hcount := hinv.1.counted
  exact ⟨by omega, hcount⟩

instance Ioman.SinglePair.decidable (m : Ioman F) : ∀ a, Decidable (m.SinglePair a)
  | .addEvent fd e _ _ _ _ => inferInstanceAs (Decidable ((m.contexts fd).events &&& e = 0 →
      ((m.kernel fd).isSome ↔ (m.contexts fd).events ≠ 0) → pairs e = 1))
  | .delEvent fd e => inferInstanceAs (Decidable (fd < m.size → (m.contexts fd).events &&& e ≠ 0 →
      (m.kernel fd).isSome → pairs ((m.contexts fd).events &&& e) = 1))
  | .cancelEvent _ _ => isTrue trivial
  | .cancelAll _ => isTrue trivial
  | .epollWait _ _ => isTrue trivial
  | .idle _ => isTrue trivial

instance Ioman.Fresh.decidable (m : Ioman F) (fd : ℕ) (result : EventMask) :
    Decidable (m.Fresh fd result) :=
  inferInstanceAs (Decidable (_ → _))

instance IomanThreads.OneFreshEvent.decidable (S : IomanThreads F) :
    ∀ a, Decidable (S.OneFreshEvent a)
  | .addEvent fd e f sch co running =>
      inferInstanceAs (Decidable (S.manager.SinglePair (.addEvent fd e f sch co running)))
  | .delEvent fd e => inferInstanceAs (Decidable (S.manager.SinglePair (.delEvent fd e)))
  | .cancelEvent _ _ => isTrue trivial
  | .cancelAll _ => isTrue trivial
  | .epollWait _ _ => isTrue trivial
  | .idle t => inferInstanceAs (Decidable (∀ x ∈ (S.results t).head?,
      x.1 ≠ S.tickleFd → S.manager.Fresh x.1 x.2))

instance IomanThreads.Waits.decidable (S : IomanThreads F) : ∀ a, Decidable (S.Waits a)
  | .addEvent _ _ _ _ _ _ => isTrue trivial
  | .delEvent _ _ => isTrue trivial
  | .cancelEvent _ _ => isTrue trivial
  | .cancelAll _ => isTrue trivial
  | .epollWait t results => inferInstanceAs (Decidable (S.results t = [] ∧
      ∀ x ∈ results, (S.manager.kernel x.1).isSome ∧ x.2 ≠ 0 ∧
        x.2 &&& ~~~((S.manager.kernel x.1).getD 0 ||| EPOLLERR ||| EPOLLHUP) = 0))
  | .idle _ => isTrue trivial

/-- A reader and a writer wait on descriptor 7, and thread 0 is told that both can go on. -/
def readAndWrite : List (IomanStep Unit) :=
  [.addEvent 7 READ none (some 0) 1 true, .addEvent 7 WRITE none (some 0) 2 true,
    .epollWait 0 [(7, EPOLLIN ||| EPOLLOUT)], .addEvent 8 READ none (some 0) 3 true, .idle 0]

theorem readAndWrite_allowed : Allowed IomanThreads.step IomanThreads.OneFreshEvent (.start 3)
    readAndWrite := by
  decide +kernel

theorem pending_events_readAndWrite :
    (exec IomanThreads.step (IomanThreads.start 3) readAndWrite).manager.Counted ∧
      (exec IomanThreads.step (IomanThreads.start 3) readAndWrite).manager.pendingCountor = 1 :=
  ⟨pending_events 3 (Reach.exec .init readAndWrite_allowed), by decide +kernel⟩

/-- Thread 0 is told that descriptor 7 can be read; before it comes to this result the reader is
    taken away and a writer put in. -/
def staleResult : List (IomanStep Unit) :=
  [.addEvent 7 READ none (some 0) 1 true, .epollWait 0 [(7, EPOLLIN)], .delEvent 7 READ,
    .addEvent 7 WRITE none (some 0) 2 true, .idle 0]

/-- The result is dealt with although `READ` is no longer registered: the counter is 0 with the
    writer still there, and wraps around when the writer goes. -/
theorem pending_events_staleResult :
    ¬ ∀ as : List (IomanStep Unit), Allowed IomanThreads.step IomanThreads.Waits (.start 3) as →
      (exec IomanThreads.step (IomanThreads.start 3) as).manager.Counted := by
  intro h
  have hrun := (h staleResult (by decide +kernel)).2
  revert hrun
  decide +kernel

end Runs

end RaftKVStorage
