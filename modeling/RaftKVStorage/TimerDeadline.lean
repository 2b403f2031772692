import RaftKVStorage.TimerRegistry

set_option autoImplicit false

/-! # Deadlines

A timer is started by `addTimer`, `refresh`, `reset(p, true)` and its own expiry, and is due a full
period later. `refresh` turns every timer down that has a callback, `reset(p, true)` makes a timer
due at once, a new timer's deadline rests on storage not yet initialised, and a recurring timer put
back before the end of the expired ones is handed out a second time in the same call. Where none of
this comes up, and no deadline wraps around, every timer keeps to its deadline. -/

namespace RaftKVStorage

variable {Cb : Type}

/-- A registered timer is due a period after its last start, no callback was handed out before, and
    no live timer was refused a refresh. -/
def TimerRun.OnTime (R : TimerRun Cb) : Prop :=
  (∀ i ∈ R.manager.timers,
    (R.manager.timer i).next.toNat = R.started i + (R.manager.timer i).period.toNat) ∧
  (∀ i cb now started period, .returned i cb now started period ∈ R.history →
    started + period ≤ now) ∧
  ∀ i, .refused i ∉ R.history

/-- The clock has not gone back. -/
def TimerRun.Clocked (R : TimerRun Cb) : TimerCall Cb → Prop
  | .addTimer _ now _ _ _ _ => R.clock ≤ now
  | .cancel _ => True
  | .refresh _ now => R.clock ≤ now
  | .reset _ _ _ now => R.clock ≤ now
  | .getNextDuration now => R.clock ≤ now
  | .timeoutCallbacks now _ => R.clock ≤ now

/-- Every expired recurring timer with a positive period goes behind a timer that has not expired,
    or is the last that the loop takes: no other expired timer lies behind it, nor one of period zero
    that is back at `now`. -/
def TimerManager.FiresOnce (m : TimerManager Cb) (now : UInt64) : Prop :=
  ∀ i ∈ m.timers, (m.timer i).next ≤ now → (m.timer i).recurring = true → 0 < (m.timer i).period →
    (∃ j ∈ m.timers, now < (m.timer j).next ∧
      (m.timer j).comparator { m.timer i with next := now + (m.timer i).period } = true) ∨
    ∀ j ∈ m.timers, (m.timer j).next ≤ now → j ≠ i →
      (m.timer j).comparator (m.timer i) = true ∧
        ((m.timer j).recurring = true → (m.timer j).period = 0 →
          Timer.comparator { m.timer j with next := now } (m.timer i) = true)

/-- No call comes to one of the wrong deadlines: the storage of a new `_M_period` held the period,
    no live timer is refreshed or started anew by `reset` with a positive period, expired recurring
    timers fire once, and no deadline wraps around. -/
def TimerRun.Punctual (R : TimerRun Cb) : TimerCall Cb → Prop
  | .addTimer _ now stale period _ _ => stale = period ∧ now.toNat + period.toNat < 2 ^ 64
  | .cancel _ => True
  | .refresh i _ => i ∉ R.manager.timers
  | .reset i period fromNow _ => i ∈ R.manager.timers →
      if fromNow then period = 0
      else (R.manager.timer i).next.toNat + period.toNat
        < 2 ^ 64 + (R.manager.timer i).period.toNat
  | .getNextDuration _ => True
  | .timeoutCallbacks now _ => R.manager.FiresOnce now ∧
      ∀ i ∈ R.manager.timers, (R.manager.timer i).next ≤ now →
        (R.manager.timer i).recurring = true →
        now.toNat + (R.manager.timer i).period.toNat < 2 ^ 64

instance (R : TimerRun Cb) (c : TimerCall Cb) : Decidable (R.Clocked c) :=
  match c with
  | .addTimer _ now _ _ _ _ => inferInstanceAs (Decidable (R.clock ≤ now))
  | .cancel _ => isTrue trivial
  | .refresh _ now => inferInstanceAs (Decidable (R.clock ≤ now))
  | .reset _ _ _ now => inferInstanceAs (Decidable (R.clock ≤ now))
  | .getNextDuration now => inferInstanceAs (Decidable (R.clock ≤ now))
  | .timeoutCallbacks now _ => inferInstanceAs (Decidable (R.clock ≤ now))

instance (m : TimerManager Cb) (now : UInt64) : Decidable (m.FiresOnce now) :=
  inferInstanceAs (Decidable (∀ i ∈ m.timers, _ → _ → _ → _ ∨ _))

instance (R : TimerRun Cb) (c : TimerCall Cb) : Decidable (R.Punctual c) :=
  match c with
  | .addTimer _ now stale period _ _ =>
      inferInstanceAs (Decidable (stale = period ∧ now.toNat + period.toNat < 2 ^ 64))
  | .cancel _ => isTrue trivial
  | .refresh i _ => inferInstanceAs (Decidable (i ∉ R.manager.timers))
  | .reset i period fromNow _ =>
      inferInstanceAs (Decidable (i ∈ R.manager.timers →
        if fromNow then period = 0
        else (R.manager.timer i).next.toNat + period.toNat
          < 2 ^ 64 + (R.manager.timer i).period.toNat))
  | .getNextDuration _ => isTrue trivial
  | .timeoutCallbacks now _ =>
      inferInstanceAs (Decidable (R.manager.FiresOnce now ∧
        ∀ i ∈ R.manager.timers, (R.manager.timer i).next ≤ now →
          (R.manager.timer i).recurring = true →
          now.toNat + (R.manager.timer i).period.toNat < 2 ^ 64))

section Deadline

variable {R : TimerRun Cb}

/-! ## Arithmetic of deadlines -/

theorem toNat_add_of_lt {a b : UInt64} (h : a.toNat + b.toNat < 2 ^ 64) :
    (a + b).toNat = a.toNat + b.toNat := by
  rw [UInt64.toNat_add, Nat.mod_eq_of_lt h]

/-- Only the period changes: the start stays what it was. -/
theorem toNat_add_sub {next old period : UInt64} {started : ℕ}
    (hnext : next.toNat = started + old.toNat)
    (h : next.toNat + period.toNat < 2 ^ 64 + old.toNat) :
    (next + (period - old)).toNat = started + period.toNat := by
  rw [UInt64.toNat_add, UInt64.toNat_sub]
  have hold := old.toNat_lt
  have hperiod := period.toNat_lt
  omega

/-! ## One call -/

theorem TimerRun.OnTime.addTimer (h : R.OnTime) (hvalid : R.manager.Valid) {addr : ℕ}
    {now stale period : UInt64} {cb : Cb} {recurring : Bool}
    (hcall : R.Callable (.addTimer addr now stale period cb recurring))
    (hok : R.Punctual (.addTimer addr now stale period cb recurring)) :
    (R.step (.addTimer addr now stale period cb recurring)).OnTime := by
  obtain ⟨hstale, hlt⟩ := hok
  subst hstale
  obtain ⟨tickled, atFront, heq⟩ := R.manager.addTimer_eq addr now stale stale cb recurring
  have hfree : ∀ j ∈ R.manager.timers, (R.manager.timer j).addr
      ≠ (Timer.new addr now stale stale cb recurring).addr := hcall
  refine ⟨fun i hi => ?_, h.2.1, h.2.2⟩
  simp only [TimerRun.step, TimerManager.call, heq] at hi ⊢
  show (Function.update R.manager.timer R.manager.made _ i).next.toNat
    = Function.update R.started R.manager.made now.toNat i
      + (Function.update R.manager.timer R.manager.made _ i).period.toNat
  rcases (hvalid.mem_added hfree).1 hi with rfl | hi
  · simp only [Function.update_self, Timer.new]
    exact toNat_add_of_lt hlt
  · have hne : i ≠ R.manager.made := ((hvalid.alive i hi).1).ne
    simp only [Function.update_of_ne hne]
    exact h.1 i hi

theorem TimerRun.OnTime.cancel (h : R.OnTime) (hvalid : R.manager.Valid) {i : ℕ}
    (hcall : R.Callable (.cancel i)) : (R.step (.cancel i)).OnTime := by
  rcases hvalid.cancel_cases hcall with ⟨-, heq⟩ | ⟨-, heq⟩
  · have hstep : R.step (.cancel i) = R := by
      simp [TimerRun.step, TimerRun.enter, TimerManager.call, heq]
    rw [hstep]
    exact h
  · have hstep : R.step (.cancel i) =
        { R.record (.cancelled i) with manager := R.manager.drop i } := by
      simp [TimerRun.step, TimerRun.enter, TimerManager.call, heq, TimerRun.record]
    rw [hstep]
    refine ⟨fun j hj => ?_, fun j cb now started period hev => ?_, fun j hev => ?_⟩
    · obtain ⟨hne, hj⟩ := hvalid.mem_erase.1 hj
      show (Function.update R.manager.timer i _ j).next.toNat
        = R.started j + (Function.update R.manager.timer i _ j).period.toNat
      rw [Function.update_of_ne hne]
      exact h.1 j hj
    · simp only [TimerRun.record, List.mem_append, List.mem_singleton, reduceCtorEq, or_false] at hev
      exact h.2.1 j cb now started period hev
    · simp only [TimerRun.record, List.mem_append, List.mem_singleton, reduceCtorEq, or_false] at hev
      exact h.2.2 j hev

theorem TimerRun.OnTime.refresh (h : R.OnTime) (hvalid : R.manager.Valid) {i : ℕ} {now : UInt64}
    (hcall : R.Callable (.refresh i now)) (hok : R.Punctual (.refresh i now)) :
    (R.step (.refresh i now)).OnTime := by
  have hcb : ¬ (R.manager.timer i).cb.isSome := fun hcb => hok ((hvalid.cb i hcall.1).1 hcb)
  have hstep : R.step (.refresh i now) = { R with clock := now } := by
    simp [TimerRun.step, TimerRun.enter, TimerManager.call, hvalid.refresh_eq hcall now, hcb]
  rw [hstep]
  exact h

theorem TimerRun.OnTime.reset (h : R.OnTime) (hvalid : R.manager.Valid) {i : ℕ} {period : UInt64}
    {fromNow : Bool} {now : UInt64} (hcall : R.Callable (.reset i period fromNow now))
    (hok : R.Punctual (.reset i period fromNow now)) :
    (R.step (.reset i period fromNow now)).OnTime := by
  have hhistory : (R.step (.reset i period fromNow now)).history = R.history := by
    simp only [TimerRun.step, TimerRun.enter]
    split <;> rfl
  have hstarted : ∀ j, j ≠ i ∨ fromNow = false ∨ i ∉ R.manager.timers →
      (R.step (.reset i period fromNow now)).started j = R.started j := by
    intro j hj
    simp only [TimerRun.step, TimerRun.enter]
    split
    · rename_i hstart
      rcases hj with hj | hj | hj
      · simp [TimerRun.start, hj]
      · rw [hj] at hstart
        cases hstart.1
      · exact absurd ((hvalid.cb i hcall.1).1 hstart.2) hj
    · rfl
  rw [TimerRun.OnTime, hhistory]
  refine ⟨fun j hj => ?_, h.2⟩
  rcases hvalid.reset_cases hcall period fromNow now with ⟨heq, hsame⟩ | ⟨hi, tickled, atFront, heq⟩
  · simp only [TimerRun.step, TimerManager.call, heq] at hj ⊢
    have hkeep : j ≠ i ∨ fromNow = false ∨ i ∉ R.manager.timers := by
      by_cases hji : j = i
      · subst hji
        exact Or.inr (Or.inl (hsame hj).2)
      · exact Or.inl hji
    have hst := hstarted j hkeep
    simp only [TimerRun.step, TimerManager.call, heq] at hst
    rw [hst]
    exact h.1 j hj
  · have hok := hok hi
    have hmanager : (R.step (.reset i period fromNow now)).manager = { R.manager.reinsert i
        ((R.manager.timer i).resetTo period fromNow now) with tickled := tickled } := by
      simp only [TimerRun.step, TimerManager.call, heq]
    have haddr : ((R.manager.timer i).resetTo period fromNow now).addr
        = (R.manager.timer i).addr := rfl
    rw [hmanager] at hj ⊢
    have hj : j ∈ R.manager.timers := (hvalid.mem_reinsert hi haddr).1 hj
    show (Function.update R.manager.timer i _ j).next.toNat
      = _ + (Function.update R.manager.timer i _ j).period.toNat
    by_cases hji : j = i
    · subst hji
      rw [Function.update_self]
      simp only [Timer.resetTo]
      cases fromNow with
      | false =>
          rw [hstarted j (Or.inr (Or.inl rfl))]
          simp only [Bool.false_eq_true, if_false] at hok ⊢
          exact toNat_add_sub (h.1 j hi) hok
      | true =>
          simp only [if_true] at hok ⊢
          have hcb := (hvalid.cb j hcall.1).2 hi
          have hst : (R.step (.reset j period true now)).started j = now.toNat := by
            simp [TimerRun.step, TimerRun.enter, TimerRun.start, hcb]
          rw [hst, hok]
          simp
    · rw [Function.update_of_ne hji, hstarted j (Or.inl hji)]
      exact h.1 j hj

/-! ## Expiry -/

theorem TimerRun.note_append (now : UInt64) (x : ℕ × Option Cb) (cbs : List (ℕ × Option Cb)) :
    ∀ R : TimerRun Cb, R.note now (cbs ++ [x]) = (R.note now cbs).note now [x] := by
  induction cbs with
  | nil => exact fun R => rfl
  | cons y cbs ih =>
      intro R
      rw [List.cons_append, TimerRun.note, ih]
      rfl

/-- The loop of `timeoutCallbacks` on the way: what is yet to be visited is due, what had not expired
    is behind, and each visit found its timer a full period after its start. -/
structure DeadlineLoop (R : TimerRun Cb) (now : UInt64) (todo rest : List ℕ)
    (cbs : List (ℕ × Option Cb)) (m : TimerManager Cb) : Prop where
  period : ∀ i, (m.timer i).period = (R.manager.timer i).period
  recurring : ∀ i, (m.timer i).recurring = (R.manager.timer i).recurring
  addr : ∀ i, (m.timer i).addr = (R.manager.timer i).addr
  mem : ∀ i ∈ m.timers, i ∈ R.manager.timers
  back : ∀ i ∈ m.timers, i ∈ cbs.map Prod.fst → (R.manager.timer i).recurring = true
  next : ∀ i, i ∉ cbs.map Prod.fst → (m.timer i).next = (R.manager.timer i).next
  expired : ∀ i ∈ cbs.map Prod.fst, i ∈ R.manager.timers ∧ (R.manager.timer i).next ≤ now
  due : ∀ i ∈ todo, (m.timer i).next ≤ now
  later : ∀ i ∈ R.manager.timers, now < (R.manager.timer i).next → i ∈ rest
  deadline : ∀ i ∈ m.timers,
    (m.timer i).next.toNat = (R.note now cbs).started i + (m.timer i).period.toNat
  punctual : ∀ i cb now' started period,
    .returned i cb now' started period ∈ (R.note now cbs).history → started + period ≤ now'
  unrefused : ∀ i, .refused i ∉ (R.note now cbs).history
  previous : m.previousTime ≤ now

section Visit

variable {now : UInt64} {stop it : Option ℕ} {i : ℕ} {done todo rest todo' rest' : List ℕ}
  {cbs : List (ℕ × Option Cb)} {m : TimerManager Cb}

/-- A timer that the loop visits for the first time had expired before the call. -/
theorem DeadlineLoop.expired_of_due (h : DeadlineLoop R now todo rest cbs m) (hi : i ∈ m.timers)
    (hdue : (m.timer i).next ≤ now) :
    i ∈ R.manager.timers ∧ (R.manager.timer i).next ≤ now := by
  by_cases hseen : i ∈ cbs.map Prod.fst
  · exact h.expired i hseen
  · exact ⟨h.mem i hi, h.next i hseen ▸ hdue⟩

/-- Where the visited timer fires once, it comes back among those to visit only with period zero. -/
theorem DeadlineLoop.period_eq_zero (h : DeadlineLoop R now (i :: todo) rest cbs m)
    (hloop : TimeoutLoop now stop it done (i :: todo) rest (cbs.map Prod.fst) m)
    (hok : R.Punctual (.timeoutCallbacks now 0)) (hseen : i ∉ cbs.map Prod.fst)
    (hrec : (m.timer i).recurring = true) (htodo : todo ≠ [])
    (hrest : ∀ j ∈ rest, (m.expire now i).key i < (m.expire now i).key j) :
    (m.timer i).period = 0 := by
  have hi := hloop.mem_timers
  obtain ⟨hmem, hexp⟩ := h.expired_of_due hi (h.due i List.mem_cons_self)
  by_contra hzero
  have hpos : 0 < (R.manager.timer i).period := by
    rw [← h.period i]
    exact UInt64.pos_iff_ne_zero.2 hzero
  have hexpire : (m.expire now i).timer i
      = { m.timer i with next := now + (m.timer i).period } := by
    rw [TimerManager.expire_timer, Function.update_self, Timer.expired, if_pos hrec]
  rcases hok.1 i hmem hexp (h.recurring i ▸ hrec) hpos with ⟨j, hj, hlater, hcmp⟩ | hlast
  · -- a timer that has not expired is in front
    have hjrest := h.later j hj hlater
    have hne : j ≠ i := by
      intro heq
      subst heq
      exact absurd hexp (UInt64.not_le.2 hlater)
    have hjseen : j ∉ cbs.map Prod.fst := fun hs => absurd (h.expired j hs).2 (UInt64.not_le.2 hlater)
    have hlt := TimerManager.key_lt.1 (hrest j hjrest)
    rw [m.expire_timer_ne now hne, hexpire, h.next j hjseen] at hlt
    simp only [h.addr, h.period] at hlt
    rw [Timer.comparator_iff] at hcmp
    simp only at hcmp
    omega
  · -- another timer is still to be visited
    obtain ⟨b, hb⟩ := List.exists_mem_of_ne_nil todo htodo
    have hbm : b ∈ m.timers := by
      rw [hloop.timers]
      simp [hb]
    have hkey : m.key i < m.key b := by
      have hasc := (List.pairwise_append.1 (hloop.timers ▸ hloop.valid.ascending)).2.1
      exact (List.pairwise_cons.1 hasc).1 b (List.mem_append_left _ hb)
    have hne : b ≠ i := by
      intro heq
      subst heq
      exact lt_irrefl _ hkey
    obtain ⟨hbmem, hbexp⟩ := h.expired_of_due hbm (h.due b (List.mem_cons_of_mem _ hb))
    obtain ⟨hbefore, hback⟩ := hlast b hbmem hbexp hne
    have hlt := TimerManager.key_lt.1 hkey
    simp only [h.next i hseen, h.addr] at hlt
    by_cases hbseen : b ∈ cbs.map Prod.fst
    · have hnext := hloop.again b hbseen hbm
      have hdue := h.due b (List.mem_cons_of_mem _ hb)
      have hbrec := h.back b hbm hbseen
      have hsum := toNat_add_of_lt (hok.2 b hbmem hbexp hbrec)
      rw [UInt64.le_iff_toNat_le, hnext, h.period, hsum] at hdue
      have hbzero : (R.manager.timer b).period = 0 :=
        UInt64.toNat_inj.1 (by rw [UInt64.toNat_zero]; omega)
      have hcmp := hback hbrec hbzero
      rw [Timer.comparator_iff] at hcmp
      rw [hnext, h.period, hsum, hbzero, UInt64.toNat_zero] at hlt
      simp only at hcmp
      omega
    · rw [Timer.comparator_iff] at hbefore
      rw [h.next b hbseen] at hlt
      omega

theorem DeadlineLoop.visit (h : DeadlineLoop R now (i :: todo) rest cbs m)
    (hloop : TimeoutLoop now stop it done (i :: todo) rest (cbs.map Prod.fst) m)
    (hok : R.Punctual (.timeoutCallbacks now 0))
    (htodo : todo' = todo ∨ todo'.Perm (i :: todo) ∧ i ∉ cbs.map Prod.fst ∧
      (m.timer i).recurring = true ∧ todo ≠ [] ∧
      ∀ j ∈ rest, (m.expire now i).key i < (m.expire now i).key j)
    (hrest : ∀ j ∈ rest, j ∈ rest') :
    DeadlineLoop R now todo' rest' (cbs ++ [(i, (m.timer i).cb)]) (m.expire now i) := by
  have hi := hloop.mem_timers
  have hnot := hloop.notMem.2.1
  have hdue := h.due i List.mem_cons_self
  obtain ⟨himem, hiexp⟩ := h.expired_of_due hi hdue
  obtain ⟨-, hmem⟩ := hloop.valid.expire hi now
  have hseen : ∀ j, j ∈ (cbs ++ [(i, (m.timer i).cb)]).map Prod.fst ↔ j ∈ cbs.map Prod.fst ∨ j = i := by
    intro j
    simp
  have hexpire : (m.timer i).recurring = true → (m.expire now i).timer i
      = { m.timer i with next := now + (m.timer i).period } := by
    intro hrec
    rw [TimerManager.expire_timer, Function.update_self, Timer.expired, if_pos hrec]
  have hnote : R.note now (cbs ++ [(i, (m.timer i).cb)]) =
      if (R.manager.timer i).recurring then
        ((R.note now cbs).record (.returned i (m.timer i).cb now.toNat ((R.note now cbs).started i)
          (R.manager.timer i).period.toNat)).start i now
      else (R.note now cbs).record (.returned i (m.timer i).cb now.toNat
        ((R.note now cbs).started i) (R.manager.timer i).period.toNat) := by
    rw [TimerRun.note_append, TimerRun.note, TimerRun.note, TimerRun.note_manager]
  have hhistory : (R.note now (cbs ++ [(i, (m.timer i).cb)])).history = (R.note now cbs).history ++
      [.returned i (m.timer i).cb now.toNat ((R.note now cbs).started i)
        (R.manager.timer i).period.toNat] := by
    rw [hnote]
    split <;> rfl
  refine ⟨fun j => ?_, fun j => ?_, fun j => ?_, fun j hj => ?_, fun j hj hjseen => ?_,
    fun j hj => ?_, fun j hj => ?_, fun j hj => ?_, fun j hj hlt => hrest j (h.later j hj hlt),
    fun j hj => ?_, fun j cb now' started period hev => ?_, fun j hev => ?_, ?_⟩
  · rw [← h.period j]
    exact (m.expire_fields now i j).1
  · rw [← h.recurring j]
    exact (m.expire_fields now i j).2.1
  · rw [← h.addr j]
    exact (m.expire_fields now i j).2.2
  · exact h.mem j ((hmem j).1 hj).1
  · obtain ⟨hj, hrec⟩ := (hmem j).1 hj
    rcases (hseen j).1 hjseen with hjseen | heq
    · exact h.back j hj hjseen
    · rw [heq, ← h.recurring i]
      exact hrec heq
  · have hj : j ∉ cbs.map Prod.fst ∧ j ≠ i := not_or.1 fun hor => hj ((hseen j).2 hor)
    rw [m.expire_timer_ne now hj.2]
    exact h.next j hj.1
  · rcases (hseen j).1 hj with hj | rfl
    · exact h.expired j hj
    · exact ⟨himem, hiexp⟩
  · rcases htodo with rfl | ⟨hperm, hfirst, hrec, hne, hbefore⟩
    · have hji : j ≠ i := fun heq => hnot (heq ▸ hj)
      rw [m.expire_timer_ne now hji]
      exact h.due j (List.mem_cons_of_mem _ hj)
    · rcases List.mem_cons.1 (hperm.mem_iff.1 hj) with rfl | hj
      · rw [hexpire hrec, h.period_eq_zero hloop hok hfirst hrec hne hbefore]
        simp
      · have hji : j ≠ i := fun heq => hnot (heq ▸ hj)
        rw [m.expire_timer_ne now hji]
        exact h.due j (List.mem_cons_of_mem _ hj)
  · obtain ⟨hjm, hrec⟩ := (hmem j).1 hj
    by_cases hji : j = i
    · subst hji
      have hrec := hrec rfl
      have hrec' : (R.manager.timer j).recurring = true := h.recurring j ▸ hrec
      have hsum := toNat_add_of_lt (hok.2 j himem hiexp hrec')
      rw [hexpire hrec, hnote, if_pos hrec']
      simp only [TimerRun.start, TimerRun.record, Function.update_self, h.period]
      exact hsum
    · rw [m.expire_timer_ne now hji, hnote]
      have hsame := h.deadline j hjm
      split
      · simpa [TimerRun.start, TimerRun.record, hji] using hsame
      · exact hsame
  · rw [hhistory] at hev
    rcases List.mem_append.1 hev with hev | hev
    · exact h.punctual j cb now' started period hev
    · have hdeadline := h.deadline i hi
      rw [List.mem_singleton] at hev
      injection hev with _ _ hnow hstarted hperiod
      subst hnow hstarted hperiod
      rw [← h.period i, ← hdeadline]
      exact UInt64.le_iff_toNat_le.1 hdue
  · rw [hhistory] at hev
    rcases List.mem_append.1 hev with hev | hev
    · exact h.unrefused j hev
    · cases List.mem_singleton.1 hev
  · rw [TimerManager.expire_eq]
    split <;> exact h.previous

end Visit

theorem TimerRun.OnTime.timeoutCallbacks (h : R.OnTime) (hvalid : R.manager.Valid) {now : UInt64}
    {addr : ℕ} (hclock : R.manager.previousTime ≤ now)
    (hok : R.Punctual (.timeoutCallbacks now addr)) :
    (R.step (.timeoutCallbacks now addr)).OnTime ∧
      (R.step (.timeoutCallbacks now addr)).manager.previousTime ≤ now := by
  suffices hrule : (R.manager.timeoutCallbacks now addr).fault = none ∧
      (R.manager.timeoutCallbacks now addr).manager.Valid ∧ ∃ rest,
      DeadlineLoop R now [] rest (R.manager.timeoutCallbacks now addr).cbs
        (R.manager.timeoutCallbacks now addr).manager by
    obtain ⟨-, -, rest, hloop⟩ := hrule
    exact ⟨⟨hloop.deadline, hloop.punctual, hloop.unrefused⟩, hloop.previous⟩
  refine hvalid.timeoutCallbacks now addr ?_ ?_
  · intro todo rest htimers hcut previousTime hprevious
    obtain ⟨htodo, hrest⟩ := hcut.resolve_left fun hroll =>
      UInt64.not_lt.2 hclock (TimerManager.lt_of_clockRollover hroll)
    refine ⟨fun _ => rfl, fun _ => rfl, fun _ => rfl, fun _ hi => hi, by simp, fun _ _ => rfl,
      by simp, fun i hi => UInt64.le_iff_toNat_le.2 (htodo i hi), fun i hi hlt => ?_, h.1, h.2.1,
      h.2.2, ?_⟩
    · rw [htimers] at hi
      rcases List.mem_append.1 hi with hi | hi
      · exact absurd (htodo i hi) (not_le.2 (UInt64.lt_iff_toNat_lt.1 hlt))
      · exact hi
    · rcases hprevious with rfl | rfl
      · exact hclock
      · exact UInt64.le_refl _
  · intro stop it i done todo rest cbs m it' done' todo' rest' hloop hI _ htodo hrest
    exact hI.visit hloop hok htodo hrest

/-- What a call keeps beside the deadlines: no call but `timeoutCallbacks` notes the time. -/
theorem TimerRun.step_previousTime (hvalid : R.manager.Valid) (c : TimerCall Cb)
    (hcall : R.Callable c) (hc : ∀ now addr, c ≠ .timeoutCallbacks now addr) :
    (R.step c).manager.previousTime = R.manager.previousTime := by
  cases c with
  | addTimer addr now stale period cb recurring =>
      obtain ⟨tickled, atFront, heq⟩ := R.manager.addTimer_eq addr now stale period cb recurring
      simp only [TimerRun.step, TimerManager.call, heq]
      rfl
  | cancel i =>
      rcases hvalid.cancel_cases hcall with ⟨-, heq⟩ | ⟨-, heq⟩
      · simp [TimerRun.step, TimerManager.call, heq]
      · simp only [TimerRun.step, TimerManager.call, heq]
        rfl
  | refresh i now => simp [TimerRun.step, TimerManager.call, hvalid.refresh_eq hcall now]
  | reset i period fromNow now =>
      rcases hvalid.reset_cases hcall period fromNow now with ⟨heq, -⟩ | ⟨-, tickled, atFront, heq⟩
      · simp [TimerRun.step, TimerManager.call, heq]
      · simp only [TimerRun.step, TimerManager.call, heq]
        rfl
  | getNextDuration now => rfl
  | timeoutCallbacks now addr => exact absurd rfl (hc now addr)

/-- One call under a clock that does not go back. -/
theorem TimerRun.OnTime.step (h : R.OnTime) (hinv : R.RegistryInv)
    (hprevious : R.manager.previousTime ≤ R.clock) {c : TimerCall Cb} (hcall : R.Callable c)
    (hclock : R.Clocked c) (hok : R.Punctual c) :
    (R.step c).OnTime ∧ (R.step c).manager.previousTime ≤ (R.step c).clock := by
  have hvalid := hinv.valid
  have hkeep : (∀ now addr, c ≠ .timeoutCallbacks now addr) → R.clock ≤ (R.step c).clock →
      (R.step c).manager.previousTime ≤ (R.step c).clock := by
    intro hc hle
    rw [TimerRun.step_previousTime hvalid c hcall hc]
    exact UInt64.le_trans hprevious hle
  cases c with
  | addTimer addr now stale period cb recurring =>
      exact ⟨h.addTimer hvalid hcall hok, hkeep (by simp) hclock⟩
  | cancel i =>
      refine ⟨h.cancel hvalid hcall, hkeep (by simp) ?_⟩
      simp only [TimerRun.step, TimerRun.enter]
      split <;> exact UInt64.le_refl _
  | refresh i now => exact ⟨h.refresh hvalid hcall hok, hkeep (by simp) hclock⟩
  | reset i period fromNow now => exact ⟨h.reset hvalid hcall hok, hkeep (by simp) hclock⟩
  | getNextDuration now =>
      refine ⟨h, hkeep (by simp) hclock⟩
  | timeoutCallbacks now addr =>
      exact h.timeoutCallbacks hvalid (UInt64.le_trans hprevious hclock) hok

end Deadline

/-- In a run whose calls all keep clear of the wrong deadlines, every timer is due a full period
    after its last start and no callback is handed out before. -/
theorem TimerRun.timer_deadlines {now : UInt64} {R : TimerRun Cb}
    (h : GuardedRun.Reach (TimerRun.new now) TimerRun.step
      (fun R c => R.Callable c ∧ R.Clocked c ∧ R.Punctual c) R) : R.OnTime := by
  suffices hinv : R.RegistryInv ∧ R.OnTime ∧ R.manager.previousTime ≤ R.clock from hinv.2.1
  refine GuardedRun.Reach.invariant (P := fun R : TimerRun Cb =>
    R.RegistryInv ∧ R.OnTime ∧ R.manager.previousTime ≤ R.clock) ?_ (fun R c _ hR hok => ?_) h
  · refine ⟨.new now, ⟨?_, ?_, ?_⟩, UInt64.le_refl _⟩
    all_goals simp [TimerRun.new, TimerManager.new]
  · obtain ⟨hcall, hclock, hok⟩ := hok
    exact ⟨hR.1.step c hcall, hR.2.1.step hR.1 hR.2.2 hcall hclock hok⟩

/-- Three timers, one recurring; its period is changed, it expires with another and goes behind the
    third, and one more is added. -/
theorem TimerRun.timer_deadlines_three :
    (GuardedRun.exec TimerRun.step (TimerRun.new 0 : TimerRun ℕ)
      [.addTimer 16 0 5 5 1 false, .addTimer 8 0 6 6 2 true, .addTimer 32 0 9 9 3 false,
        .reset 1 4 false 1, .timeoutCallbacks 7 24, .addTimer 16 8 9 9 4 false]).OnTime :=
  TimerRun.timer_deadlines (.exec .init (by decide +kernel))

/-- A live timer is refused its refresh. -/
theorem TimerRun.timer_deadlines_refused :
    ¬ ∀ (now : UInt64) (R : TimerRun ℕ), GuardedRun.Reach (TimerRun.new now) TimerRun.step
      (fun R c => R.Callable c ∧ R.Clocked c) R → R.OnTime := by
  intro h
  have hreach : GuardedRun.Reach (TimerRun.new 0) TimerRun.step
      (fun R c => R.Callable c ∧ R.Clocked c) (GuardedRun.exec TimerRun.step
        (TimerRun.new 0 : TimerRun ℕ) [.addTimer 8 0 10 10 1 false, .refresh 0 5]) :=
    .exec .init (by decide +kernel)
  exact (h 0 _ hreach).2.2 0 (by decide +kernel)

end RaftKVStorage
