import RaftKVStorage.TimerSpec

set_option autoImplicit false

/-! # The registry of timers

A run of calls, with a ledger beside the manager: which timers a call of `cancel` has ended, which
callbacks were handed out, and when each timer was last started. Whatever the clock reads and
wherever the allocator puts the objects, as long as it gives no storage away that a registered timer
lies in, the set holds exactly the timers that are still to fire. -/

namespace RaftKVStorage

variable {Cb : Type}

/-- What a run is judged by. A callback handed out is noted with the timer it was read off, the
    time, and the timer's last start and period at that moment. -/
inductive TimerEvent (Cb : Type)
  | cancelled (i : ℕ)
  | refused (i : ℕ)
  | returned (i : ℕ) (cb : Option Cb) (now started period : ℕ)
deriving DecidableEq

/-- The timer an event is about. -/
def TimerEvent.timer : TimerEvent Cb → ℕ
  | .cancelled i => i
  | .refused i => i
  | .returned i _ _ _ _ => i

/-- The manager, the latest reading of the clock, and the ledger. No call reads the ledger. -/
structure TimerRun (Cb : Type) where
  manager : TimerManager Cb
  clock : UInt64
  started : ℕ → ℕ := fun _ => 0
  history : List (TimerEvent Cb) := []
  faults : List TimerFault := []

def TimerRun.new (now : UInt64) : TimerRun Cb := { manager := .new now, clock := now }

/-- Timer `i` is started. -/
def TimerRun.start (R : TimerRun Cb) (i : ℕ) (now : UInt64) : TimerRun Cb :=
  { R with started := Function.update R.started i now.toNat }

def TimerRun.record (R : TimerRun Cb) (ev : TimerEvent Cb) : TimerRun Cb :=
  { R with history := R.history ++ [ev] }

/-- The callbacks handed out at `now` are noted one by one; its expiry starts a recurring timer. -/
def TimerRun.note (now : UInt64) (R : TimerRun Cb) : List (ℕ × Option Cb) → TimerRun Cb
  | [] => R
  | (i, cb) :: cbs =>
      let R' := R.record
        (.returned i cb now.toNat (R.started i) (R.manager.timer i).period.toNat)
      note now (if (R.manager.timer i).recurring then R'.start i now else R') cbs

/-- What the ledger makes of a call and its outcome. -/
def TimerRun.enter (R : TimerRun Cb) (o : TimerOutcome Cb) : TimerCall Cb → TimerRun Cb
  | .addTimer _ now _ _ _ _ => { R.start R.manager.made now with clock := now }
  | .cancel i => if o.ret = some true then R.record (.cancelled i) else R
  | .refresh i now =>
      { if o.ret = some true then R.start i now
        else if (R.manager.timer i).cb.isSome then R.record (.refused i)
        else R with clock := now }
  | .reset i _ fromNow now =>
      { if fromNow ∧ (R.manager.timer i).cb.isSome then R.start i now else R with clock := now }
  | .getNextDuration now => { R with clock := now }
  | .timeoutCallbacks now _ => { R.note now o.cbs with clock := now }

/-- One call. -/
def TimerRun.step (R : TimerRun Cb) (c : TimerCall Cb) : TimerRun Cb :=
  let o := R.manager.call c
  { R.enter o c with manager := o.manager, faults := R.faults ++ o.fault.toList }

/-- What every caller keeps to: a call names a timer that is still there, and a new object does not
    lie in the storage of a registered one. -/
def TimerRun.Callable (R : TimerRun Cb) : TimerCall Cb → Prop
  | .addTimer addr _ _ _ _ _ => ∀ i ∈ R.manager.timers, (R.manager.timer i).addr ≠ addr
  | .cancel i => R.manager.Alive i
  | .refresh i _ => R.manager.Alive i
  | .reset i _ _ _ => R.manager.Alive i
  | .getNextDuration _ => True
  | .timeoutCallbacks _ _ => True

def TimerRun.Cancelled (R : TimerRun Cb) (i : ℕ) : Prop := .cancelled i ∈ R.history

def TimerRun.Returned (R : TimerRun Cb) (i : ℕ) : Prop :=
  ∃ cb now started period, .returned i cb now started period ∈ R.history

/-- The set is in the order of `timer::comparator` and holds exactly the timers still to fire, which
    are those with a callback; nothing undefined has happened, and no cancelled timer has had its
    callback handed out afterwards. -/
structure TimerRun.Registered (R : TimerRun Cb) : Prop where
  ordered : R.manager.timers.Pairwise fun i j =>
    (R.manager.timer i).comparator (R.manager.timer j) = true
  mem : ∀ i, i ∈ R.manager.timers ↔ i < R.manager.made ∧ ¬ R.Cancelled i ∧
    ((R.manager.timer i).recurring = true ∨ ¬ R.Returned i)
  cb : ∀ i < R.manager.made, (R.manager.timer i).cb.isSome ↔ i ∈ R.manager.timers
  noFault : R.faults = []
  silent : R.history.Pairwise fun ev ev' => ∀ i, ev = .cancelled i →
    ∀ cb now started period, ev' ≠ .returned i cb now started period

/-! ## The ledger -/

section Ledger

variable {R : TimerRun Cb}

theorem TimerRun.note_manager (now : UInt64) (cbs : List (ℕ × Option Cb)) :
    ∀ R : TimerRun Cb, (R.note now cbs).manager = R.manager := by
  induction cbs with
  | nil => exact fun R => rfl
  | cons x cbs ih =>
      intro R
      rw [TimerRun.note]
      split <;> rw [ih] <;> rfl

/-- The events of a list of callbacks are those of its entries. -/
theorem TimerRun.note_history (now : UInt64) (cbs : List (ℕ × Option Cb)) :
    ∀ R : TimerRun Cb, ∃ evs, (R.note now cbs).history = R.history ++ evs ∧
      (∀ ev ∈ evs, ∃ x ∈ cbs, ∃ started period,
        ev = .returned x.1 x.2 now.toNat started period) ∧
      ∀ x ∈ cbs, ∃ started period, .returned x.1 x.2 now.toNat started period ∈ evs := by
  induction cbs with
  | nil => exact fun R => ⟨[], by simp [TimerRun.note], by simp, by simp⟩
  | cons x cbs ih =>
      intro R
      obtain ⟨i, cb⟩ := x
      have hstep : ∀ R' : TimerRun Cb, R'.history = R.history ++
          [.returned i cb now.toNat (R.started i) (R.manager.timer i).period.toNat] →
          ∃ evs, (R'.note now cbs).history = R.history ++ evs ∧
            (∀ ev ∈ evs, ∃ x ∈ (i, cb) :: cbs, ∃ started period,
              ev = .returned x.1 x.2 now.toNat started period) ∧
            ∀ x ∈ (i, cb) :: cbs, ∃ started period,
              .returned x.1 x.2 now.toNat started period ∈ evs := by
        intro R' hR'
        obtain ⟨evs, heq, hof, hall⟩ := ih R'
        refine ⟨.returned i cb now.toNat (R.started i) (R.manager.timer i).period.toNat :: evs,
          by rw [heq, hR', List.append_assoc]; rfl, fun ev hev => ?_, fun x hx => ?_⟩
        · rcases List.mem_cons.1 hev with rfl | hev
          · exact ⟨(i, cb), List.mem_cons_self, _, _, rfl⟩
          · obtain ⟨x, hx, hev⟩ := hof ev hev
            exact ⟨x, List.mem_cons_of_mem _ hx, hev⟩
        · rcases List.mem_cons.1 hx with rfl | hx
          · exact ⟨_, _, List.mem_cons_self⟩
          · obtain ⟨started, period, hmem⟩ := hall x hx
            exact ⟨started, period, List.mem_cons_of_mem _ hmem⟩
      rw [TimerRun.note]
      split
      · exact hstep _ rfl
      · exact hstep _ rfl

end Ledger

/-! ## The invariant -/

structure TimerRun.RegistryInv (R : TimerRun Cb) : Prop where
  valid : R.manager.Valid
  mem : ∀ i, i ∈ R.manager.timers ↔ i < R.manager.made ∧ ¬ R.Cancelled i ∧
    ((R.manager.timer i).recurring = true ∨ ¬ R.Returned i)
  known : ∀ ev ∈ R.history, ev.timer < R.manager.made
  noFault : R.faults = []
  silent : R.history.Pairwise fun ev ev' => ∀ i, ev = .cancelled i →
    ∀ cb now started period, ev' ≠ .returned i cb now started period

section Invariant

variable {R R' : TimerRun Cb}

theorem TimerRun.RegistryInv.new (now : UInt64) : (TimerRun.new now : TimerRun Cb).RegistryInv := by
  refine ⟨.new now, fun i => ?_, ?_, rfl, List.Pairwise.nil⟩
  · constructor
    · intro hi
      cases hi
    · rintro ⟨hi, -⟩
      exact absurd hi (Nat.not_lt_zero i)
  · intro ev hev
    cases hev

/-- Events of timers that were registered are added to the ledger. -/
theorem TimerRun.RegistryInv.extend (h : R.RegistryInv) (evs : List (TimerEvent Cb))
    (hvalid : R'.manager.Valid) (hhistory : R'.history = R.history ++ evs)
    (hfaults : R'.faults = R.faults) (hmade : R.manager.made ≤ R'.manager.made)
    (hevs : ∀ ev ∈ evs, ev.timer ∈ R.manager.timers)
    (hquiet : evs.Pairwise fun ev ev' => ∀ i, ev = .cancelled i →
      ∀ cb now started period, ev' ≠ .returned i cb now started period)
    (hmem : ∀ i, i ∈ R'.manager.timers ↔ i < R'.manager.made ∧ ¬ R'.Cancelled i ∧
      ((R'.manager.timer i).recurring = true ∨ ¬ R'.Returned i)) : R'.RegistryInv := by
  refine ⟨hvalid, hmem, fun ev hev => ?_, hfaults.trans h.noFault, ?_⟩
  · rw [hhistory] at hev
    rcases List.mem_append.1 hev with hev | hev
    · exact (h.known ev hev).trans_le hmade
    · exact ((h.mem _).1 (hevs ev hev)).1.trans_le hmade
  · rw [hhistory]
    refine List.pairwise_append.2 ⟨h.silent, hquiet, ?_⟩
    intro ev hev ev' hev' i heq cb now started period heq'
    subst heq heq'
    -- a timer whose callback is handed out was registered, so it had not been cancelled
    exact ((h.mem i).1 (hevs _ hev')).2.1 hev

/-- A call that leaves the ledger and the members of the set alone. -/
theorem TimerRun.RegistryInv.keep (h : R.RegistryInv) (hvalid : R'.manager.Valid)
    (hhistory : R'.history = R.history) (hfaults : R'.faults = R.faults)
    (hmade : R'.manager.made = R.manager.made)
    (hrec : ∀ i, (R'.manager.timer i).recurring = (R.manager.timer i).recurring)
    (hmem : ∀ i, i ∈ R'.manager.timers ↔ i ∈ R.manager.timers) : R'.RegistryInv := by
  refine h.extend [] hvalid (by simpa using hhistory) hfaults hmade.ge (by simp)
    List.Pairwise.nil fun i => ?_
  rw [hmem, h.mem, hmade, hrec, TimerRun.Cancelled, TimerRun.Cancelled, TimerRun.Returned,
    TimerRun.Returned, hhistory]

/-! ## The calls -/

theorem TimerRun.RegistryInv.addTimer (h : R.RegistryInv) {addr : ℕ} (now stale period : UInt64)
    (cb : Cb) (recurring : Bool) (hok : R.Callable (.addTimer addr now stale period cb recurring)) :
    (R.step (.addTimer addr now stale period cb recurring)).RegistryInv := by
  obtain ⟨tickled, atFront, heq⟩ := R.manager.addTimer_eq addr now stale period cb recurring
  have hstep : R.step (.addTimer addr now stale period cb recurring) =
      { R.start R.manager.made now with
        manager := { R.manager.added (.new addr now stale period cb recurring) with
          tickled := tickled }
        clock := now } := by
    simp [TimerRun.step, TimerRun.enter, TimerManager.call, heq, TimerRun.start]
  rw [hstep]
  have hfree : ∀ j ∈ R.manager.timers, (R.manager.timer j).addr
      ≠ (Timer.new addr now stale period cb recurring).addr := hok
  refine h.extend [] ((h.valid.added hfree rfl).congr rfl rfl rfl) (List.append_nil _).symm
    rfl (Nat.le_succ _) (by simp) List.Pairwise.nil fun i => ?_
  have hmem : i ∈ (R.manager.added _).timers ↔ _ := h.valid.mem_added hfree
  show i ∈ (R.manager.added _).timers ↔ i < R.manager.made + 1 ∧ ¬ R.Cancelled i ∧
    ((Function.update R.manager.timer R.manager.made _ i).recurring = true ∨ ¬ R.Returned i)
  rw [hmem, h.mem]
  by_cases hi : i = R.manager.made
  · subst hi
    have hcancelled : ¬ R.Cancelled R.manager.made := fun hc => lt_irrefl _ (h.known _ hc)
    have hreturned : ¬ R.Returned R.manager.made := by
      rintro ⟨cb, now, started, period, hr⟩
      exact lt_irrefl _ (h.known _ hr)
    simp [hcancelled, hreturned]
  · rw [Function.update_of_ne hi]
    have hlt : i < R.manager.made + 1 ↔ i < R.manager.made := by omega
    simp [hi, hlt]

theorem TimerRun.RegistryInv.cancel (h : R.RegistryInv) {i : ℕ} (hok : R.Callable (.cancel i)) :
    (R.step (.cancel i)).RegistryInv := by
  rcases h.valid.cancel_cases hok with ⟨-, heq⟩ | ⟨hi, heq⟩
  · have hstep : R.step (.cancel i) = R := by
      simp [TimerRun.step, TimerRun.enter, TimerManager.call, heq]
    rw [hstep]
    exact h
  · have hstep : R.step (.cancel i) =
        { R.record (.cancelled i) with manager := R.manager.drop i } := by
      simp [TimerRun.step, TimerRun.enter, TimerManager.call, heq, TimerRun.record]
    rw [hstep]
    refine h.extend [.cancelled i] (h.valid.drop hi) rfl rfl le_rfl ?_
      (List.pairwise_singleton _ _) fun j => ?_
    · intro ev hev
      rw [List.mem_singleton.1 hev]
      exact hi
    · have hcancelled : TimerRun.Cancelled
          { R.record (.cancelled i) with manager := R.manager.drop i } j ↔ R.Cancelled j ∨ j = i := by
        simp [TimerRun.Cancelled, TimerRun.record]
      have hreturned : TimerRun.Returned
          { R.record (.cancelled i) with manager := R.manager.drop i } j ↔ R.Returned j := by
        simp [TimerRun.Returned, TimerRun.record]
      rw [hcancelled, hreturned]
      show j ∈ R.manager.timers.erase i ↔ j < R.manager.made ∧ _ ∧
        ((Function.update R.manager.timer i _ j).recurring = true ∨ _)
      rw [h.valid.ascending.nodup.mem_erase_iff, h.mem]
      by_cases hj : j = i
      · simp [hj]
      · rw [Function.update_of_ne hj]
        simp [hj]

theorem TimerRun.RegistryInv.refresh (h : R.RegistryInv) {i : ℕ} (now : UInt64)
    (hok : R.Callable (.refresh i now)) : (R.step (.refresh i now)).RegistryInv := by
  have heq := h.valid.refresh_eq hok now
  by_cases hcb : (R.manager.timer i).cb.isSome
  · have hstep : R.step (.refresh i now) = { R.record (.refused i) with clock := now } := by
      simp [TimerRun.step, TimerRun.enter, TimerManager.call, heq, TimerRun.record, hcb]
    rw [hstep]
    refine h.extend [.refused i] h.valid rfl rfl le_rfl ?_
      (List.pairwise_singleton _ _) fun j => ?_
    · intro ev hev
      rw [List.mem_singleton.1 hev]
      exact (h.valid.cb i hok.1).1 hcb
    · have hcancelled : TimerRun.Cancelled { R.record (.refused i) with clock := now } j ↔
          R.Cancelled j := by
        simp [TimerRun.Cancelled, TimerRun.record]
      have hreturned : TimerRun.Returned { R.record (.refused i) with clock := now } j ↔
          R.Returned j := by
        simp [TimerRun.Returned, TimerRun.record]
      rw [hcancelled, hreturned]
      exact h.mem j
  · have hstep : R.step (.refresh i now) = { R with clock := now } := by
      simp [TimerRun.step, TimerRun.enter, TimerManager.call, heq, hcb]
    rw [hstep]
    exact h.keep h.valid rfl rfl rfl (fun _ => rfl) fun _ => Iff.rfl

theorem TimerRun.RegistryInv.reset (h : R.RegistryInv) {i : ℕ} (period : UInt64) (fromNow : Bool)
    (now : UInt64) (hok : R.Callable (.reset i period fromNow now)) :
    (R.step (.reset i period fromNow now)).RegistryInv := by
  have hhistory : (R.enter (R.manager.reset i period fromNow now)
      (.reset i period fromNow now)).history = R.history := by
    simp only [TimerRun.enter]
    split <;> rfl
  rcases h.valid.reset_cases hok period fromNow now with ⟨heq, -⟩ | ⟨hi, tickled, atFront, heq⟩
  · refine h.keep ?_ hhistory ?_ ?_ ?_ ?_
    all_goals simp only [TimerRun.step, TimerManager.call, heq]
    · exact h.valid
    · exact List.append_nil _
    · exact fun _ => trivial
    · exact fun _ => trivial
  · have hcb : ((R.manager.timer i).resetTo period fromNow now).cb.isSome :=
      (h.valid.cb i hok.1).2 hi
    have haddr : ((R.manager.timer i).resetTo period fromNow now).addr
        = (R.manager.timer i).addr := rfl
    refine h.keep ?_ hhistory ?_ ?_ ?_ ?_
    all_goals simp only [TimerRun.step, TimerManager.call, heq]
    · exact (h.valid.reinsert hi haddr hcb).congr rfl rfl rfl
    · exact List.append_nil _
    · rfl
    · intro j
      by_cases hj : j = i
      · subst hj
        simp [Timer.resetTo]
      · simp [hj]
    · exact fun j => h.valid.mem_reinsert hi haddr

/-- A call of `timeoutCallbacks` hands out callbacks of registered timers, and takes out the
    one-shot timers among them. -/
theorem TimerManager.Valid.timeoutCallbacks_mem {m : TimerManager Cb} (h : m.Valid) (now : UInt64)
    (addr : ℕ) : (m.timeoutCallbacks now addr).fault = none ∧
      (m.timeoutCallbacks now addr).manager.Valid ∧
      (m.timeoutCallbacks now addr).manager.made = m.made ∧
      (∀ i, ((m.timeoutCallbacks now addr).manager.timer i).recurring = (m.timer i).recurring) ∧
      (∀ i ∈ (m.timeoutCallbacks now addr).cbs.map Prod.fst, i ∈ m.timers) ∧
      ∀ i, i ∈ (m.timeoutCallbacks now addr).manager.timers ↔ i ∈ m.timers ∧
        ((m.timer i).recurring = true ∨ i ∉ (m.timeoutCallbacks now addr).cbs.map Prod.fst) := by
  suffices hrule : (m.timeoutCallbacks now addr).fault = none ∧
      (m.timeoutCallbacks now addr).manager.Valid ∧ ∃ _ : List ℕ,
      (m.timeoutCallbacks now addr).manager.made = m.made ∧
      (∀ i, ((m.timeoutCallbacks now addr).manager.timer i).recurring = (m.timer i).recurring) ∧
      (∀ i ∈ (m.timeoutCallbacks now addr).cbs.map Prod.fst, i ∈ m.timers) ∧
      ∀ i, i ∈ (m.timeoutCallbacks now addr).manager.timers ↔ i ∈ m.timers ∧
        ((m.timer i).recurring = true ∨ i ∉ (m.timeoutCallbacks now addr).cbs.map Prod.fst) by
    obtain ⟨hfault, hvalid, -, hI⟩ := hrule
    exact ⟨hfault, hvalid, hI⟩
  refine h.timeoutCallbacks now addr (I := fun _ _ cbs m' => m'.made = m.made ∧
    (∀ i, (m'.timer i).recurring = (m.timer i).recurring) ∧
    (∀ i ∈ cbs.map Prod.fst, i ∈ m.timers) ∧
    ∀ i, i ∈ m'.timers ↔ i ∈ m.timers ∧
      ((m.timer i).recurring = true ∨ i ∉ cbs.map Prod.fst)) ?_ ?_
  · intro todo rest _ _ previousTime _
    exact ⟨rfl, fun _ => rfl, by simp, by simp⟩
  · intro stop it i done todo rest cbs m' it' done' todo' rest' hloop hI _ _ _
    obtain ⟨hmade, hrec, hcbs, hmem⟩ := hI
    have hi := hloop.mem_timers
    obtain ⟨-, hmem'⟩ := hloop.valid.expire hi now
    refine ⟨?_, fun j => ?_, fun j hj => ?_, fun j => ?_⟩
    · rw [TimerManager.expire_eq]
      split <;> exact hmade
    · rw [← hrec j]
      exact (m'.expire_fields now i j).2.1
    · rw [List.map_append, List.mem_append] at hj
      rcases hj with hj | hj
      · exact hcbs j hj
      · rw [List.mem_singleton.1 hj]
        exact ((hmem i).1 hi).1
    · rw [hmem', hmem, hrec, List.map_append, List.mem_append]
      by_cases hj : j = i
      · subst hj
        simp only [List.map_cons, List.map_nil, List.mem_singleton, true_implies, or_true,
          not_true_eq_false, or_false]
        constructor
        · rintro ⟨⟨hj, -⟩, hjrec⟩
          exact ⟨hj, hjrec⟩
        · rintro ⟨hj, hjrec⟩
          exact ⟨⟨hj, Or.inl hjrec⟩, hjrec⟩
      · simp [hj]

theorem TimerRun.RegistryInv.timeoutCallbacks (h : R.RegistryInv) (now : UInt64) (addr : ℕ) :
    (R.step (.timeoutCallbacks now addr)).RegistryInv := by
  obtain ⟨hfault, hvalid, hmade, hrec, hcbs, hmem⟩ := h.valid.timeoutCallbacks_mem now addr
  obtain ⟨evs, hhistory, hof, hall⟩ :=
    TimerRun.note_history now (R.manager.timeoutCallbacks now addr).cbs R
  have hmanager : (R.step (.timeoutCallbacks now addr)).manager
      = (R.manager.timeoutCallbacks now addr).manager := rfl
  have hhistory : (R.step (.timeoutCallbacks now addr)).history = R.history ++ evs := hhistory
  have hfaults : (R.step (.timeoutCallbacks now addr)).faults = R.faults := by
    simp [TimerRun.step, TimerManager.call, hfault]
  refine h.extend _ hvalid hhistory hfaults hmade.ge (fun ev hev => ?_) ?_ fun i => ?_
  · obtain ⟨x, hx, _, _, rfl⟩ := hof ev hev
    exact hcbs x.1 (List.mem_map_of_mem hx)
  · refine List.pairwise_of_forall_mem_list fun ev hev ev' _ i heq => ?_
    obtain ⟨x, -, _, _, rfl⟩ := hof ev hev
    cases heq
  · have hcancelled : (R.step (.timeoutCallbacks now addr)).Cancelled i ↔ R.Cancelled i := by
      rw [TimerRun.Cancelled, hhistory, List.mem_append]
      refine ⟨fun hc => hc.resolve_right fun hc => ?_, Or.inl⟩
      obtain ⟨x, -, _, _, heq⟩ := hof _ hc
      cases heq
    have hreturned : (R.step (.timeoutCallbacks now addr)).Returned i ↔ R.Returned i ∨
        i ∈ (R.manager.timeoutCallbacks now addr).cbs.map Prod.fst := by
      constructor
      · rintro ⟨cb, now', started, period, hr⟩
        rw [hhistory] at hr
        rcases List.mem_append.1 hr with hr | hr
        · exact Or.inl ⟨cb, now', started, period, hr⟩
        · obtain ⟨x, hx, _, _, heq⟩ := hof _ hr
          injection heq with hxi
          rw [hxi]
          exact Or.inr (List.mem_map_of_mem hx)
      · rintro (⟨cb, now', started, period, hr⟩ | hi)
        · exact ⟨cb, now', started, period, by rw [hhistory]; exact List.mem_append_left _ hr⟩
        · obtain ⟨x, hx, rfl⟩ := List.mem_map.1 hi
          obtain ⟨started, period, hr⟩ := hall x hx
          exact ⟨x.2, now.toNat, started, period,
            by rw [hhistory]; exact List.mem_append_right _ hr⟩
    rw [hcancelled, hreturned, hmanager, hmem, hmade, hrec, h.mem]
    tauto

theorem TimerRun.RegistryInv.step (h : R.RegistryInv) (c : TimerCall Cb) (hok : R.Callable c) :
    (R.step c).RegistryInv := by
  cases c with
  | addTimer addr now stale period cb recurring => exact h.addTimer now stale period cb recurring hok
  | cancel i => exact h.cancel hok
  | refresh i now => exact h.refresh now hok
  | reset i period fromNow now => exact h.reset period fromNow now hok
  | getNextDuration now =>
      refine h.keep (h.valid.congr rfl rfl rfl) rfl ?_ rfl (fun _ => rfl) fun _ => Iff.rfl
      exact List.append_nil _
  | timeoutCallbacks now addr => exact h.timeoutCallbacks now addr

theorem TimerRun.RegistryInv.registered (h : R.RegistryInv) : R.Registered := by
  refine ⟨?_, h.mem, h.valid.cb, h.noFault, h.silent⟩
  exact h.valid.ascending.imp fun {i j} hlt => (R.manager.orders_less i j).2 hlt

end Invariant

/-- Whatever is called in whatever order, the set and the callbacks stay in step with what the calls
    have said, `cancel` erases an element of the set, and a cancelled timer stays silent. -/
theorem TimerRun.timer_registry {now : UInt64} {R : TimerRun Cb}
    (h : GuardedRun.Reach (TimerRun.new now) TimerRun.step TimerRun.Callable R) : R.Registered := by
  have hinv : R.RegistryInv :=
    GuardedRun.Reach.invariant (.new now) (fun _ c _ hR hok => hR.step c hok) h
  exact hinv.registered

instance (m : TimerManager Cb) (i : ℕ) : Decidable (m.Alive i) :=
  inferInstanceAs (Decidable (i < m.made ∧
    ∀ j < m.made, i < j → (m.timer j).addr ≠ (m.timer i).addr))

instance (R : TimerRun Cb) (c : TimerCall Cb) : Decidable (R.Callable c) :=
  match c with
  | .addTimer addr _ _ _ _ _ =>
      inferInstanceAs (Decidable (∀ i ∈ R.manager.timers, (R.manager.timer i).addr ≠ addr))
  | .cancel i => inferInstanceAs (Decidable (R.manager.Alive i))
  | .refresh i _ => inferInstanceAs (Decidable (R.manager.Alive i))
  | .reset i _ _ _ => inferInstanceAs (Decidable (R.manager.Alive i))
  | .getNextDuration _ => isTrue trivial
  | .timeoutCallbacks _ _ => isTrue trivial

/-- A one-shot and a recurring timer expire together; the recurring one is cancelled, and the
    storage of the one-shot timer is used again. -/
theorem TimerRun.timer_registry_reused :
    (GuardedRun.exec TimerRun.step (TimerRun.new 0 : TimerRun ℕ)
      [.addTimer 16 0 5 5 1 false, .addTimer 8 0 5 5 2 true, .timeoutCallbacks 7 24, .cancel 1,
        .addTimer 16 8 5 5 3 false]).Registered :=
  TimerRun.timer_registry (.exec .init (by decide +kernel))

end RaftKVStorage
