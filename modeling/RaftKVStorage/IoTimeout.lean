import RaftKVStorage.DoIo
import RaftKVStorage.IomanSpec
import RaftKVStorage.TimerSpec

set_option autoImplicit false

/-! # A timeout wakes its waiter

The timer of a hooked call is armed before its event is registered, so its callback may be through
when there is nothing yet to cancel. While every `cancelEvent` of a callback comes behind the
registration, and the callback of the timer that counts does not start in the middle of an older
one, a coroutine that still waits for its event has a timer whose callback is still to come. -/

namespace RaftKVStorage

variable {F Cb : Type}

/-! ## Callbacks in the timers -/

/-- The callbacks in the manager all have the property. -/
def TimerManager.Callbacks (m : TimerManager Cb) (P : Cb → Prop) : Prop :=
  ∀ i cb, (m.timer i).cb = some cb → P cb

/-- A call leaves callbacks with the property, and hands out such. -/
structure TimerOutcome.From (o : TimerOutcome Cb) (m : TimerManager Cb) (P : Cb → Prop) : Prop where
  callbacks : o.manager.Callbacks P
  handedOut : ∀ x ∈ o.cbs, ∀ cb, x.2 = some cb → P cb
  made : m.made ≤ o.manager.made

section Callbacks

variable {m : TimerManager Cb} {P : Cb → Prop} {i : ℕ}

theorem TimerManager.Callbacks.set (h : m.Callbacks P) {t : Timer Cb}
    (ht : ∀ cb, t.cb = some cb → P cb) : (m.set i t).Callbacks P := by
  intro j cb hj
  change (Function.update m.timer i t j).cb = some cb at hj
  by_cases hji : j = i
  · rw [hji, Function.update_self] at hj
    exact ht cb hj
  · rw [Function.update_of_ne hji] at hj
    exact h j cb hj

theorem TimerManager.mAddTimer_timer (m : TimerManager Cb) (i : ℕ) :
    (m.mAddTimer i).1.timer = m.timer ∧ (m.mAddTimer i).1.made = m.made := by
  unfold TimerManager.mAddTimer
  simp only
  split <;> exact ⟨rfl, rfl⟩

theorem TimerManager.Callbacks.mAddTimer (h : m.Callbacks P) :
    (m.mAddTimer i).1.Callbacks P := by
  intro j cb hj
  rw [(m.mAddTimer_timer i).1] at hj
  exact h j cb hj

theorem TimerManager.Callbacks.addTimer (h : m.Callbacks P) {cb : Cb} (hcb : P cb) (addr : ℕ)
    (now stale period : UInt64) (recurring : Bool) :
    (m.addTimer addr now stale period cb recurring).From m P := by
  refine ⟨?_, fun x hx => (by cases hx), ?_⟩
  · have hset : (m.set m.made (.new addr now stale period cb recurring)).Callbacks P := by
      refine h.set fun cb' hcb' => ?_
      obtain rfl := Option.some.inj hcb'
      exact hcb
    exact TimerManager.Callbacks.mAddTimer (m := { m.set m.made _ with made := m.made + 1 }) hset
  · show m.made ≤ (TimerManager.mAddTimer _ _).1.made
    rw [(TimerManager.mAddTimer_timer _ _).2]
    exact Nat.le_succ _

theorem TimerManager.Callbacks.cancel (h : m.Callbacks P) (i : ℕ) : (m.cancel i).From m P := by
  have hset : (m.set i { m.timer i with cb := none }).Callbacks P := by
    refine h.set fun cb hcb => ?_
    cases hcb
  unfold TimerManager.cancel
  split
  · dsimp only
    split
    · exact ⟨hset, fun x hx => (by cases hx), le_refl _⟩
    · exact ⟨hset, fun x hx => (by cases hx), le_refl _⟩
  · exact ⟨h, fun x hx => (by cases hx), le_refl _⟩

theorem TimerManager.Callbacks.refresh (h : m.Callbacks P) (i : ℕ) (now : UInt64) :
    (m.refresh i now).From m P := by
  unfold TimerManager.refresh
  split
  · exact ⟨h, fun x hx => (by cases hx), le_refl _⟩
  · split
    · exact ⟨h, fun x hx => (by cases hx), le_refl _⟩
    · exact ⟨h.set fun cb hcb => h i cb hcb, fun x hx => (by cases hx), le_refl _⟩

theorem TimerManager.Callbacks.reset (h : m.Callbacks P) (i : ℕ) (period : UInt64)
    (fromNow : Bool) (now : UInt64) : (m.reset i period fromNow now).From m P := by
  unfold TimerManager.reset
  split
  · exact ⟨h, fun x hx => (by cases hx), le_refl _⟩
  split
  · exact ⟨h, fun x hx => (by cases hx), le_refl _⟩
  split
  · exact ⟨h, fun x hx => (by cases hx), le_refl _⟩
  · refine ⟨TimerManager.Callbacks.mAddTimer ?_, fun x hx => (by cases hx), ?_⟩
    · exact TimerManager.Callbacks.set (m := m.erase _) h fun cb hcb => h i cb hcb
    · show m.made ≤ (TimerManager.mAddTimer _ i).1.made
      rw [(TimerManager.mAddTimer_timer _ i).2]
      exact le_refl _

theorem TimerManager.Callbacks.expire (h : m.Callbacks P) (now : UInt64) (i : ℕ) :
    (m.expire now i).Callbacks P ∧ (m.expire now i).made = m.made := by
  unfold TimerManager.expire
  simp only
  split
  · exact ⟨TimerManager.Callbacks.set (m := m.erase i) h fun cb hcb => h i cb hcb, rfl⟩
  · refine ⟨TimerManager.Callbacks.set (m := m.erase i) h fun cb hcb => ?_, rfl⟩
    cases hcb

/-- The induction is on the rounds that the loop has left. -/
theorem TimerManager.Callbacks.timeoutLoop {now : UInt64} {stop : Option ℕ} :
    ∀ (k : ℕ) (it : Option ℕ) (m : TimerManager Cb) (cbs : List (ℕ × Option Cb)),
      m.Callbacks P → (∀ x ∈ cbs, ∀ cb, x.2 = some cb → P cb) →
      ∀ m' cbs', TimerManager.timeoutLoop now stop k it m cbs = .ok (m', cbs') →
        m'.Callbacks P ∧ (∀ x ∈ cbs', ∀ cb, x.2 = some cb → P cb) ∧ m'.made = m.made := by
  intro k
  induction k with
  | zero =>
      intro it m cbs hm hcbs m' cbs' hrun
      by_cases hstop : it = stop
      · rw [timeoutLoop_stop hstop] at hrun
        cases hrun
        exact ⟨hm, hcbs, rfl⟩
      · simp [TimerManager.timeoutLoop, hstop] at hrun
  | succ k ih =>
      intro it m cbs hm hcbs m' cbs' hrun
      by_cases hstop : it = stop
      · rw [timeoutLoop_stop hstop] at hrun
        cases hrun
        exact ⟨hm, hcbs, rfl⟩
      · cases it with
        | none => simp [TimerManager.timeoutLoop, hstop] at hrun
        | some i =>
            simp only [TimerManager.timeoutLoop, if_neg hstop] at hrun
            obtain ⟨hexp, hmade⟩ := hm.expire now i
            have hcbs' : ∀ x ∈ cbs ++ [(i, (m.timer i).cb)], ∀ cb, x.2 = some cb → P cb := by
              intro x hx cb hcb
              rcases List.mem_append.1 hx with hx | hx
              · exact hcbs x hx cb hcb
              · rw [List.mem_singleton.1 hx] at hcb
                exact hm i cb hcb
            obtain ⟨hm', hout, hmade'⟩ := ih _ _ _ hexp hcbs' m' cbs' hrun
            exact ⟨hm', hout, hmade'.trans hmade⟩

theorem TimerManager.Callbacks.timeoutCallbacks (h : m.Callbacks P) (now : UInt64) (addr : ℕ) :
    (m.timeoutCallbacks now addr).From m P := by
  unfold TimerManager.timeoutCallbacks
  split
  · exact ⟨h, fun x hx => (by cases hx), le_refl _⟩
  have hroll : (m.clockRollover now).1.Callbacks P := h
  dsimp only
  split
  · exact ⟨hroll, fun x hx => (by cases hx), le_refl _⟩
  · split
    · rename_i m' cbs hrun
      obtain ⟨hm', hout, hmade⟩ := hroll.timeoutLoop _ _ _ [] (fun x hx => (by cases hx)) _ _ hrun
      exact ⟨hm', hout, hmade.ge⟩
    · exact ⟨hroll, fun x hx => (by cases hx), le_refl _⟩

/-- Every call: what is new in the manager is the callback of a new timer. -/
theorem TimerManager.Callbacks.call (h : m.Callbacks P) (c : TimerCall Cb)
    (hnew : ∀ addr now stale period cb recurring,
      c = .addTimer addr now stale period cb recurring → P cb) : (m.call c).From m P := by
  cases c with
  | addTimer addr now stale period cb recurring =>
      exact h.addTimer (hnew _ _ _ _ _ _ rfl) addr now stale period recurring
  | cancel i => exact h.cancel i
  | refresh i now => exact h.refresh i now
  | reset i period fromNow now => exact h.reset i period fromNow now
  | getNextDuration now => exact ⟨h, fun x hx => (by cases hx), le_refl _⟩
  | timeoutCallbacks now addr => exact h.timeoutCallbacks now addr

end Callbacks

/-! ## The call -/

/-- The event of the call is registered. -/
def DoIo.Registered (d : DoIoCall) (S : DoIo F) : Prop :=
  (S.ioman.manager.contexts d.fd).RegisteredFor d.ev d.co

/-- The coroutine is suspended in the call with its event registered, and the callback of its timer
    is through. -/
def DoIo.Stranded (d : DoIoCall) (S : DoIo F) : Prop :=
  S.pc = .suspended ∧ S.Registered d ∧ ∃ i ∈ S.tsptr, i ∈ S.ran

/-- The call has not come to its `addEvent`. -/
def DoIo.Ahead (S : DoIo F) : Prop := S.pc = .fn ∨ S.pc = .addTimer ∨ S.pc = .addEvent

/-- No `cancelEvent` of a callback comes before the call has tried to register its event, and the
    callback of its present timer does not start in the middle of another one. -/
def DoIo.Timely (S : DoIo F) : DoIoStep F → Prop
  | .callback i => i ∈ S.tsptr → S.midway = []
  | .cancelEvent _ => ¬ S.Ahead
  | _ => True

/-- The call waits for its event, or it is going to. -/
def DoIo.Waiting (d : DoIoCall) (S : DoIo F) : Prop :=
  S.Ahead ∨ (S.pc = .yield ∨ S.pc = .suspended) ∧ S.Registered d

/-- A callback of the call belongs to a timer that has been made. -/
def IoCallback.Made (made : ℕ) : IoCallback → Prop
  | .doIo i => i < made
  | .other _ => True

/-- While the call waits, `cancelled` has only been set by a callback that still has its
    `cancelEvent` before it, and the callback of the present timer is not through. -/
structure DoIo.Inv (d : DoIoCall) (S : DoIo F) : Prop where
  tidy : S.ioman.manager.Tidy
  callbacks : S.timers.Callbacks (IoCallback.Made S.timers.made)
  handled : ∀ i, i ∈ S.queued ∨ i ∈ S.midway ∨ i ∈ S.ran → i < S.timers.made
  waiting : S.Waiting d → (S.cancelled = true → S.midway ≠ []) ∧ ∀ i ∈ S.tsptr, i ∉ S.ran

section Call

variable {d : DoIoCall} {S S' : DoIo F} {i : ℕ}

theorem DoIo.inv_start (d : DoIoCall) (tickleFd : ℕ) (now : UInt64) :
    (DoIo.start tickleFd now : DoIo F).Inv d := by
  refine ⟨⟨le_refl 32, fun fd => ⟨?_, fun side _ => ?_⟩, fun fd hfd => ?_⟩, fun i cb hcb => ?_,
    fun i hi => ?_, fun _ => ⟨fun hc => ?_, fun i hi => ?_⟩⟩
  · show NONE &&& _ = 0
    decide
  · cases side <;> rfl
  · exact absurd rfl hfd
  · cases hcb
  · rcases hi with hi | hi | hi <;> cases hi
  · cases hc
  · cases hi

theorem IoCallback.Made.mono {made made' : ℕ} (h : made ≤ made') {cb : IoCallback}
    (hcb : cb.Made made) : cb.Made made' := by
  cases cb with
  | doIo i => exact Nat.lt_of_lt_of_le hcb h
  | other k => trivial

theorem IoCallback.mem_ours {cbs : List (ℕ × Option IoCallback)} (h : i ∈ IoCallback.ours cbs) :
    ∃ j, (j, some (.doIo i)) ∈ cbs := by
  obtain ⟨⟨j, cb⟩, hmem, heq⟩ := List.mem_filterMap.1 h
  cases cb with
  | none => cases heq
  | some cb =>
      cases cb with
      | doIo k =>
          obtain rfl := Option.some.inj heq
          exact ⟨j, hmem⟩
      | other k => cases heq

/-- Only the program counter moves, and the call does not wait more than before. -/
theorem DoIo.Inv.move (h : S.Inv d) {pc : DoIoPc}
    (hwait : DoIo.Waiting d { S with pc := pc } → S.Waiting d) : DoIo.Inv d { S with pc := pc } :=
  ⟨h.tidy, h.callbacks, h.handled, fun hw => h.waiting (hwait hw)⟩

/-- The timers change by a call that brings in nothing of the call, and hands out what it had. -/
theorem DoIo.Inv.setTimers (h : S.Inv d) {o : TimerOutcome IoCallback}
    (ho : o.From S.timers (IoCallback.Made S.timers.made)) :
    DoIo.Inv d { S with timers := o.manager, queued := S.queued ++ IoCallback.ours o.cbs } := by
  refine ⟨h.tidy, fun j cb hcb => (ho.callbacks j cb hcb).mono ho.made, fun i hi => ?_, h.waiting⟩
  rcases hi with hi | hi
  · rcases List.mem_append.1 hi with hi | hi
    · exact (h.handled i (Or.inl hi)).trans_le ho.made
    · obtain ⟨j, hj⟩ := IoCallback.mem_ours hi
      have hlt : IoCallback.Made S.timers.made (.doIo i) := ho.handedOut _ hj _ rfl
      exact Nat.lt_of_lt_of_le hlt ho.made
  · exact (h.handled i (Or.inr hi)).trans_le ho.made

theorem DoIo.Inv.cancelTimer (h : S.Inv d) {pc : DoIoPc} (hpc : ¬ DoIo.Waiting d { S with pc := pc }) :
    DoIo.Inv d { S with timers := S.cancelTimer, pc := pc } := by
  have hmove : DoIo.Inv d { S with pc := pc } := h.move fun hw => absurd hw hpc
  unfold DoIo.cancelTimer
  split
  · exact hmove
  · rename_i i hi
    have hout := h.callbacks.cancel i
    exact ⟨h.tidy, fun j cb hcb => (hout.callbacks j cb hcb).mono hout.made,
      fun k hk => (h.handled k hk).trans_le hout.made, hmove.waiting⟩

/-- The new timer has a number that no callback has yet. -/
theorem DoIo.Inv.addTimer (h : S.Inv d) (hpc : S.pc = .addTimer) (addr : ℕ) (now stale : UInt64) :
    DoIo.Inv d { S with
      timers := (S.timers.addTimer addr now stale d.timeout (.doIo S.timers.made) false).manager
      tsptr := some S.timers.made
      pc := .addEvent } := by
  have hmade : (S.timers.addTimer addr now stale d.timeout (.doIo S.timers.made) false).manager.made
      = S.timers.made + 1 := (TimerManager.mAddTimer_timer _ _).2
  have hold : S.timers.Callbacks (IoCallback.Made (S.timers.made + 1)) :=
    fun j cb hcb => (h.callbacks j cb hcb).mono (Nat.le_succ _)
  have hnew : IoCallback.Made (S.timers.made + 1) (.doIo S.timers.made) := Nat.lt_succ_self _
  have hout := hold.addTimer hnew addr now stale d.timeout false
  refine ⟨h.tidy, fun j cb hcb => ?_, fun k hk => ?_, fun _ => ⟨?_, fun k hk hran => ?_⟩⟩
  · dsimp only
    rw [hmade]
    exact hout.callbacks j cb hcb
  · dsimp only
    rw [hmade]
    exact (h.handled k hk).trans (Nat.lt_succ_self _)
  · exact (h.waiting (Or.inl (Or.inr (Or.inl hpc)))).1
  · obtain rfl := Option.some.inj hk
    exact absurd (h.handled _ (Or.inr (Or.inr hran))) (lt_irrefl _)

theorem DoIo.Inv.addEvent (h : S.Inv d) (hpc : S.pc = .addEvent) (m : Ioman F) (ret : Option ℤ)
    (hadd : S.ioman.manager.addEvent d.fd d.ev.mask none d.sch d.co true = (m, ret)) :
    DoIo.Inv d { S with
      ioman := { S.ioman with manager := m }
      pc := if ret = some 0 then .yield else .giveUp } := by
  have htidy := h.tidy.tidy_addEvent d.fd d.ev none d.sch d.co true
  rw [hadd] at htidy
  exact ⟨htidy, h.callbacks, h.handled,
    fun _ => h.waiting (Or.inl (Or.inr (Or.inr hpc)))⟩

/-- A callback looks at `cancelled`: it is the first, or it has nothing to do. -/
theorem DoIo.Inv.callback (h : S.Inv d) (hi : i ∈ S.queued) (hok : i ∈ S.tsptr → S.midway = []) :
    (S.step d (.callback i)).Inv d := by
  have hmade := h.handled i (Or.inl hi)
  rw [DoIo.step, if_pos hi]
  by_cases hover : S.pc = .returned ∨ S.cancelled
  · rw [if_pos hover]
    refine ⟨h.tidy, h.callbacks, fun k hk => ?_, fun hw => ?_⟩
    · rcases hk with hk | hk | hk
      · exact h.handled k (Or.inl (List.mem_of_mem_erase hk))
      · exact h.handled k (Or.inr (Or.inl hk))
      · rcases List.mem_cons.1 hk with rfl | hk
        · exact hmade
        · exact h.handled k (Or.inr (Or.inr hk))
    · obtain ⟨hset, hran⟩ := h.waiting hw
      refine ⟨hset, fun k hk hmem => ?_⟩
      rcases List.mem_cons.1 hmem with rfl | hmem
      · -- `cancelled` was set by a callback that is not through
        rcases hover with hret | hcancelled
        · rcases hw with (hw | hw | hw) | ⟨hw | hw, -⟩ <;> rw [hret] at hw <;> cases hw
        · exact hset hcancelled (hok hk)
      · exact hran k hk hmem
  · rw [if_neg hover]
    refine ⟨h.tidy, h.callbacks, fun k hk => ?_, fun hw => ⟨fun _ hnil => ?_, (h.waiting hw).2⟩⟩
    · rcases hk with hk | hk | hk
      · exact h.handled k (Or.inl (List.mem_of_mem_erase hk))
      · rcases List.mem_cons.1 hk with rfl | hk
        · exact hmade
        · exact h.handled k (Or.inr (Or.inl hk))
      · exact h.handled k (Or.inr (Or.inr hk))
    · cases hnil

/-- A callback cancels the event: the call no longer waits for it. -/
theorem DoIo.Inv.cancelEvent (h : S.Inv d) (hi : i ∈ S.midway) (hok : ¬ S.Ahead) :
    (S.step d (.cancelEvent i)).Inv d := by
  have hkeep : S.ioman.manager.Keeps (S.ioman.manager.cancelEvent d.fd d.ev.mask).1 d.fd d.ev d.co :=
    h.tidy.cancelEvent
  rw [DoIo.step, if_pos hi]
  refine ⟨hkeep.tidy, h.callbacks, fun k hk => ?_, fun hw => ?_⟩
  · rcases hk with hk | hk | hk
    · exact h.handled k (Or.inl hk)
    · exact h.handled k (Or.inr (Or.inl (List.mem_of_mem_erase hk)))
    · rcases List.mem_cons.1 hk with rfl | hk
      · exact h.handled k (Or.inr (Or.inl hi))
      · exact h.handled k (Or.inr (Or.inr hk))
  · rcases hw with hahead | ⟨-, hreg⟩
    · exact absurd hahead hok
    · exact absurd hreg h.tidy.not_registeredFor_cancelEvent

/-- Calls of the others, and the idle threads. -/
theorem Ioman.Tidy.step {T : IomanThreads F} (h : T.manager.Tidy) {a : IomanStep F}
    (ha : DoIo.Others d (.ioman a)) : T.manager.Keeps (T.step a).manager d.fd d.ev d.co := by
  have hside : ∀ e : EventMask, e = READ ∨ e = WRITE → ∃ side : FdEvent, e = side.mask := by
    intro e he
    rcases he with rfl | rfl
    · exact ⟨.read, rfl⟩
    · exact ⟨.write, rfl⟩
  cases a with
  | addEvent fd e f sch co running =>
      obtain ⟨he, hother⟩ := ha
      obtain ⟨side, rfl⟩ := hside e he
      refine h.addEvent f sch running fun hfd hev hco => hother ⟨hfd.symm, ?_, hco⟩
      rw [hev]
  | delEvent fd e =>
      obtain ⟨side, rfl⟩ := hside e ha
      exact h.delEvent
  | cancelEvent fd e =>
      obtain ⟨side, rfl⟩ := hside e ha
      exact h.cancelEvent
  | cancelAll fd => exact h.cancelAll
  | epollWait t results => exact h.refl
  | idle t =>
      simp only [IomanThreads.step]
      split
      · exact h.refl
      · dsimp only
        split
        · exact h.refl
        · exact h.idle _

theorem DoIo.Inv.step (h : S.Inv d) {a : DoIoStep F} (hothers : DoIo.Others d a)
    (htimely : S.Timely a) : (S.step d a).Inv d := by
  cases a with
  | fn result =>
      by_cases hpc : S.pc = .fn
      · have hahead : S.Waiting d := Or.inl (Or.inl hpc)
        simp only [DoIo.step, if_pos hpc]
        cases result with
        | done => exact h.move fun _ => hahead
        | eintr => exact h
        | eagain => exact h.move fun _ => hahead
      · simp only [DoIo.step, if_neg hpc]
        exact h
  | addTimer addr now stale =>
      by_cases hpc : S.pc = .addTimer
      · rw [DoIo.step, if_pos hpc]
        split
        · exact h.move fun _ => Or.inl (Or.inr (Or.inl hpc))
        · exact h.addTimer hpc addr now stale
      · rw [DoIo.step, if_neg hpc]
        exact h
  | addEvent =>
      by_cases hpc : S.pc = .addEvent
      · rw [DoIo.step, if_pos hpc]
        exact h.addEvent hpc _ _ rfl
      · rw [DoIo.step, if_neg hpc]
        exact h
  | giveUp =>
      by_cases hpc : S.pc = .giveUp
      · rw [DoIo.step, if_pos hpc]
        exact h.cancelTimer (by simp [DoIo.Waiting, DoIo.Ahead])
      · rw [DoIo.step, if_neg hpc]
        exact h
  | yield =>
      by_cases hpc : S.pc = .yield
      · rw [DoIo.step, if_pos hpc]
        refine h.move fun hw => ?_
        rcases hw with (hw | hw | hw) | ⟨-, hreg⟩
        · cases hw
        · cases hw
        · cases hw
        · exact Or.inr ⟨Or.inl hpc, hreg⟩
      · rw [DoIo.step, if_neg hpc]
        exact h
  | resume =>
      by_cases hpc : S.pc = .suspended
      · rw [DoIo.step, if_pos hpc]
        exact h.move fun hw => by simp [DoIo.Waiting, DoIo.Ahead] at hw
      · rw [DoIo.step, if_neg hpc]
        exact h
  | cancelTimer =>
      by_cases hpc : S.pc = .cancelTimer
      · rw [DoIo.step, if_pos hpc]
        exact h.cancelTimer (by simp [DoIo.Waiting, DoIo.Ahead])
      · rw [DoIo.step, if_neg hpc]
        exact h
  | checkCancelled =>
      by_cases hpc : S.pc = .checkCancelled
      · rw [DoIo.step, if_pos hpc]
        by_cases hcancelled : S.cancelled = true
        · rw [if_pos hcancelled]
          exact h.move fun hw => by simp [DoIo.Waiting, DoIo.Ahead] at hw
        · rw [if_neg hcancelled]
          refine ⟨h.tidy, h.callbacks, h.handled, fun _ => ⟨fun hc => absurd hc hcancelled, ?_⟩⟩
          intro i hi
          cases hi
      · rw [DoIo.step, if_neg hpc]
        exact h
  | callback i =>
      by_cases hi : i ∈ S.queued
      · exact h.callback hi htimely
      · rw [DoIo.step, if_neg hi]
        exact h
  | cancelEvent i =>
      by_cases hi : i ∈ S.midway
      · exact h.cancelEvent hi htimely
      · rw [DoIo.step, if_neg hi]
        exact h
  | ioman a =>
      have hkeep := h.tidy.step (T := S.ioman) hothers
      refine ⟨hkeep.tidy, h.callbacks, h.handled, fun hw => h.waiting ?_⟩
      rcases hw with hahead | ⟨hpc, hreg⟩
      · exact Or.inl hahead
      · exact Or.inr ⟨hpc, hkeep.registered hreg⟩
  | timers c =>
      refine h.setTimers (h.callbacks.call c fun addr now stale period cb recurring hc => ?_)
      subst hc
      cases cb with
      | doIo i => exact hothers.elim
      | other k => trivial

end Call

/-! ## Runs -/

section Runs

open GuardedRun

/-- In a run whose callbacks are timely no coroutine is left suspended in the call with its event
    registered when the callback of its timer is through. -/
theorem io_timeout_wakes (d : DoIoCall) (tickleFd : ℕ) (now : UInt64) {S : DoIo F}
    (h : Reach (DoIo.start tickleFd now) (DoIo.step d)
      (fun S a => DoIo.Others d a ∧ S.Timely a) S) : ¬ S.Stranded d := by
  have hinv : S.Inv d := by
    refine h.invariant (DoIo.inv_start d tickleFd now) ?_
    intro T a _ hT ha
    exact hT.step ha.1 ha.2
  rintro ⟨hpc, hreg, i, hi, hran⟩
  exact (hinv.waiting (Or.inr ⟨Or.inr hpc, hreg⟩)).2 i hi hran

instance DoIo.Others.decidable (d : DoIoCall) : ∀ a : DoIoStep F, Decidable (DoIo.Others d a)
  | .ioman (.addEvent fd e _ _ co _) => inferInstanceAs (Decidable
      ((e = READ ∨ e = WRITE) ∧ ¬ (fd = d.fd ∧ e = d.ev.mask ∧ co = d.co)))
  | .ioman (.delEvent _ e) => inferInstanceAs (Decidable (e = READ ∨ e = WRITE))
  | .ioman (.cancelEvent _ e) => inferInstanceAs (Decidable (e = READ ∨ e = WRITE))
  | .ioman (.cancelAll _) | .ioman (.epollWait _ _) | .ioman (.idle _) => isTrue trivial
  | .timers (.addTimer _ _ _ _ (.doIo _) _) => isFalse id
  | .timers (.addTimer _ _ _ _ (.other _) _) => isTrue trivial
  | .timers (.cancel _) | .timers (.refresh _ _) | .timers (.reset _ _ _ _) => isTrue trivial
  | .timers (.getNextDuration _) | .timers (.timeoutCallbacks _ _) => isTrue trivial
  | .fn _ | .addTimer _ _ _ | .addEvent | .giveUp | .yield | .resume => isTrue trivial
  | .cancelTimer | .checkCancelled | .callback _ | .cancelEvent _ => isTrue trivial

instance DoIo.Ahead.decidable (S : DoIo F) : Decidable S.Ahead := inferInstanceAs (Decidable (_ ∨ _ ∨ _))

instance DoIo.Timely.decidable (S : DoIo F) : ∀ a : DoIoStep F, Decidable (S.Timely a)
  | .callback i => inferInstanceAs (Decidable (i ∈ S.tsptr → S.midway = []))
  | .cancelEvent _ => inferInstanceAs (Decidable (¬ S.Ahead))
  | .fn _ | .addTimer _ _ _ | .addEvent | .giveUp | .yield | .resume => isTrue trivial
  | .cancelTimer | .checkCancelled | .ioman _ | .timers _ => isTrue trivial

instance DoIo.Stranded.decidable (d : DoIoCall) (S : DoIo F) : Decidable (S.Stranded d) :=
  inferInstanceAs (Decidable (S.pc = .suspended ∧
    ((S.ioman.manager.contexts d.fd).events &&& d.ev.mask ≠ 0 ∧
      ((S.ioman.manager.contexts d.fd).getEventContext d.ev).co = some d.co) ∧
    ∃ i ∈ S.tsptr, i ∈ S.ran))

/-- A read on descriptor 7 with a timeout of 5 milliseconds. -/
def readWithTimeout : DoIoCall := { fd := 7, ev := .read, co := 1, sch := some 0, timeout := 5 }

/-- The callback comes when the coroutine is suspended. -/
def timeoutInTime : List (DoIoStep Unit) :=
  [.fn .eagain, .addTimer 1 0 5, .addEvent, .yield, .timers (.timeoutCallbacks 10 99), .callback 0,
    .cancelEvent 0]

theorem timeoutInTime_allowed : Allowed (DoIo.step readWithTimeout)
    (fun S a => DoIo.Others readWithTimeout a ∧ S.Timely a) (.start 3 0) timeoutInTime := by
  decide +kernel

/-- The coroutine is suspended, the callback is through, and the event has gone. -/
theorem io_timeout_wakes_inTime :
    ¬ (exec (DoIo.step readWithTimeout) (.start 3 0) timeoutInTime).Stranded readWithTimeout ∧
      (exec (DoIo.step readWithTimeout) (.start 3 0) timeoutInTime).pc = .suspended ∧
      (exec (DoIo.step readWithTimeout) (.start 3 0) timeoutInTime).ran = [0] :=
  ⟨io_timeout_wakes readWithTimeout 3 0 (Reach.exec .init timeoutInTime_allowed),
    by decide +kernel, by decide +kernel⟩

/-- The callback is through before the event is registered. -/
def timeoutTooEarly : List (DoIoStep Unit) :=
  [.fn .eagain, .addTimer 1 0 5, .timers (.timeoutCallbacks 10 99), .callback 0, .cancelEvent 0,
    .addEvent, .yield]

/-- `cancelEvent` has found nothing to cancel, and nothing is left to wake the coroutine. -/
theorem io_timeout_strands : ¬ ∀ as : List (DoIoStep Unit),
    Allowed (DoIo.step readWithTimeout) (fun _ a => DoIo.Others readWithTimeout a) (.start 3 0) as →
      ¬ (exec (DoIo.step readWithTimeout) (.start 3 0) as).Stranded readWithTimeout := by
  intro h
  have hrun := h timeoutTooEarly (by decide +kernel)
  revert hrun
  decide +kernel

end Runs

end RaftKVStorage
