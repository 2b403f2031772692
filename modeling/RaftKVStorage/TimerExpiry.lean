import RaftKVStorage.TimerDeadline

set_option autoImplicit false

/-! # Expiry

`timeoutCallbacks` walks the timers up to an end that it fixes beforehand, and puts every recurring
timer back into the set on its way. A timer that goes back behind that end, or that is the last on the
way, is done with. Any other comes before the end again, and the loop visits it a second time. -/

namespace RaftKVStorage

variable {Cb : Type}

/-- A call of `timeoutCallbacks` has handed out the callback of each expired timer once and in the
    order of the deadlines, taken the one-shot timers among them out, put the recurring ones back a
    period from `now`, and left every other timer as it was. -/
structure TimerManager.ExpiresExactly (m : TimerManager Cb) (now : UInt64) (out : TimerOutcome Cb) :
    Prop where
  fault : out.fault = none
  once : (out.cbs.map Prod.fst).Nodup
  expired : ∀ i, i ∈ out.cbs.map Prod.fst ↔ i ∈ m.timers ∧ (m.timer i).next ≤ now
  ordered : (out.cbs.map Prod.fst).Pairwise fun i j => (m.timer i).next ≤ (m.timer j).next
  callback : ∀ x ∈ out.cbs, x.2 = (m.timer x.1).cb
  mem : ∀ i, i ∈ out.manager.timers ↔
    i ∈ m.timers ∧ ((m.timer i).next ≤ now → (m.timer i).recurring = true)
  deadline : ∀ i ∈ m.timers, (m.timer i).next ≤ now → (m.timer i).recurring = true →
    ∃ next, out.manager.timer i = { m.timer i with next := next } ∧
      next.toNat = now.toNat + (m.timer i).period.toNat
  others : ∀ i, ¬ (i ∈ m.timers ∧ (m.timer i).next ≤ now) → out.manager.timer i = m.timer i

/-- What `FiresOnce` asks of timer `i`. -/
def TimerManager.GoesBehind (m : TimerManager Cb) (now : UInt64) (i : ℕ) : Prop :=
  (∃ j ∈ m.timers, now < (m.timer j).next ∧
    (m.timer j).comparator { m.timer i with next := now + (m.timer i).period } = true) ∨
  ∀ j ∈ m.timers, (m.timer j).next ≤ now → j ≠ i →
    (m.timer j).comparator (m.timer i) = true ∧
      ((m.timer j).recurring = true → (m.timer j).period = 0 →
        Timer.comparator { m.timer j with next := now } (m.timer i) = true)

/-- Every recurring timer of the set has a positive period. -/
def TimerManager.Periodic (m : TimerManager Cb) : Prop :=
  ∀ i ∈ m.timers, (m.timer i).recurring = true → 0 < (m.timer i).period

/-- No expired recurring timer has a deadline that wraps around. -/
def TimerManager.Unwrapped (m : TimerManager Cb) (now : UInt64) : Prop :=
  ∀ i ∈ m.timers, (m.timer i).next ≤ now → (m.timer i).recurring = true →
    now.toNat + (m.timer i).period.toNat < 2 ^ 64

theorem TimerManager.Periodic.firesOnce_iff {m : TimerManager Cb} {now : UInt64} (h : m.Periodic) :
    m.FiresOnce now ↔ ∀ i ∈ m.timers, (m.timer i).next ≤ now → (m.timer i).recurring = true →
      m.GoesBehind now i := by
  constructor
  · intro hf i hi hexp hrec
    exact hf i hi hexp hrec (h i hi hrec)
  · intro hf i hi hexp hrec _
    exact hf i hi hexp hrec

/-! ## The loop -/

/-- The loop on the way, as long as no timer has come back: it has visited the first of the expired
    timers and has yet to visit the others, in the order the set `m₀` had at the start, and what it
    left behind is as it should be. -/
structure ExpiryLoop (m₀ : TimerManager Cb) (now : UInt64) (todo rest : List ℕ)
    (cbs : List (ℕ × Option Cb)) (m : TimerManager Cb) : Prop where
  expired : ∀ i, i ∈ cbs.map Prod.fst ++ todo ↔ i ∈ m₀.timers ∧ (m₀.timer i).next ≤ now
  ascending : OrderedSet.Ascending m₀.key (cbs.map Prod.fst ++ todo)
  later : ∀ i ∈ m₀.timers, now < (m₀.timer i).next → i ∈ rest
  front : ∀ i ∈ rest.head?, i ∈ m₀.timers ∧ now < (m₀.timer i).next
  callback : ∀ x ∈ cbs, x.2 = (m₀.timer x.1).cb
  mem : ∀ i, i ∈ m.timers ↔
    i ∈ m₀.timers ∧ (i ∈ cbs.map Prod.fst → (m₀.timer i).recurring = true)
  seen : ∀ i ∈ cbs.map Prod.fst, m.timer i = (m₀.timer i).expired now
  unseen : ∀ i, i ∉ cbs.map Prod.fst → m.timer i = m₀.timer i
  behind : ∀ i ∈ cbs.map Prod.fst, (m₀.timer i).recurring = true → m₀.GoesBehind now i

/-- A timer is visited a second time, or has yet to be. -/
def TimeoutLoop.Twice (todo seen : List ℕ) : Prop := (∃ i ∈ todo, i ∈ seen) ∨ ¬ seen.Nodup

theorem TimeoutLoop.Twice.visit {i : ℕ} {todo todo' seen : List ℕ} (h : Twice (i :: todo) seen)
    (htodo : todo' = todo ∨ todo'.Perm (i :: todo)) : Twice todo' (seen ++ [i]) := by
  rcases h with ⟨j, hj, hseen⟩ | hdup
  · by_cases hji : j = i
    · subst hji
      right
      intro hnodup
      exact (List.nodup_append.1 hnodup).2.2 j hseen j List.mem_cons_self rfl
    · left
      refine ⟨j, ?_, List.mem_append_left _ hseen⟩
      rcases htodo with rfl | hperm
      · exact List.mem_of_ne_of_mem hji hj
      · exact hperm.mem_iff.2 hj
  · right
    intro hnodup
    exact hdup (List.nodup_append.1 hnodup).1

section Visit

variable {m₀ m : TimerManager Cb} {now : UInt64} {stop it it' : Option ℕ} {i : ℕ}
  {done done' todo todo' rest rest' : List ℕ} {cbs : List (ℕ × Option Cb)}

theorem ExpiryLoop.notMem_seen (h : ExpiryLoop m₀ now (i :: todo) rest cbs m) {j : ℕ}
    (hj : j ∈ i :: todo) : j ∉ cbs.map Prod.fst := by
  intro hseen
  exact (List.nodup_append.1 h.ascending.nodup).2.2 j hseen j hj rfl

/-- A timer that has not expired is not visited. -/
theorem ExpiryLoop.notMem_seen_of_later (h : ExpiryLoop m₀ now todo rest cbs m) {j : ℕ}
    (hlater : now < (m₀.timer j).next) : j ∉ cbs.map Prod.fst := by
  intro hseen
  have hexp := ((h.expired j).1 (List.mem_append_left _ hseen)).2
  exact UInt64.not_le.2 hlater hexp

/-- How the loop's body leaves timer `i`. -/
theorem ExpiryLoop.expire_self (h : ExpiryLoop m₀ now (i :: todo) rest cbs m) :
    (m.expire now i).timer i = (m₀.timer i).expired now := by
  rw [TimerManager.expire_timer, Function.update_self, h.unseen i (h.notMem_seen List.mem_cons_self)]

theorem ExpiryLoop.expire_recurring (h : ExpiryLoop m₀ now (i :: todo) rest cbs m)
    (hrec : (m₀.timer i).recurring = true) :
    (m.expire now i).timer i = { m₀.timer i with next := now + (m₀.timer i).period } := by
  rw [h.expire_self, Timer.expired, if_pos hrec]

/-- A recurring timer put back before the iterator was the last to visit: the next one to visit would
    have a deadline behind `now`. -/
theorem ExpiryLoop.todo_eq_nil (h : ExpiryLoop m₀ now (i :: todo) rest cbs m)
    (hloop : TimeoutLoop now stop it done (i :: todo) rest (cbs.map Prod.fst) m)
    (hloop' : TimeoutLoop now stop it' done' todo rest' (cbs.map Prod.fst ++ [i]) (m.expire now i))
    (hpos : m₀.Periodic) (hwrap : m₀.Unwrapped now) (hrec : (m₀.timer i).recurring = true)
    (hdone : i ∈ done') : todo = [] := by
  obtain ⟨hi, hexp⟩ := (h.expired i).1 (List.mem_append_right _ List.mem_cons_self)
  have hasc := hloop'.valid.ascending
  rw [hloop'.timers] at hasc
  by_contra hne
  obtain ⟨b, hb⟩ := List.exists_mem_of_ne_nil todo hne
  have hbi : b ≠ i := fun heq => hloop.notMem.2.1 (heq ▸ hb)
  have hlt := (List.pairwise_append.1 hasc).2.2 i hdone b (List.mem_append_left _ hb)
  rw [TimerManager.key_lt, h.expire_recurring hrec, m.expire_timer_ne now hbi,
    h.unseen b (h.notMem_seen (List.mem_cons_of_mem _ hb))] at hlt
  have hdue := ((h.expired b).1 (List.mem_append_right _ (List.mem_cons_of_mem _ hb))).2
  rw [UInt64.le_iff_toNat_le] at hdue
  have hperiod := UInt64.lt_iff_toNat_lt.1 (hpos i hi hrec)
  rw [UInt64.toNat_zero] at hperiod
  simp only [toNat_add_of_lt (hwrap i hi hexp hrec)] at hlt
  omega

/-- A recurring timer put back from `timeoutEndIt` on lies behind it. -/
theorem ExpiryLoop.exists_before (h : ExpiryLoop m₀ now (i :: todo) rest cbs m)
    (hloop : TimeoutLoop now stop it done (i :: todo) rest (cbs.map Prod.fst) m)
    (hloop' : TimeoutLoop now stop it' done' todo rest' (cbs.map Prod.fst ++ [i]) (m.expire now i))
    (hrec : (m₀.timer i).recurring = true) (hrest : i ∈ rest') :
    ∃ j ∈ m₀.timers, now < (m₀.timer j).next ∧
      (m₀.timer j).comparator { m₀.timer i with next := now + (m₀.timer i).period } = true := by
  have hasc := hloop'.valid.ascending
  rw [hloop'.timers] at hasc
  have hascrest := (List.pairwise_append.1 (List.pairwise_append.1 hasc).2.1).2.1
  cases hrest' : rest' with
  | nil =>
      rw [hrest'] at hrest
      cases hrest
  | cons j l =>
      have hhead : rest.head? = some j := by
        rw [← hloop.stop, hloop'.stop, hrest']
        rfl
      obtain ⟨hj, hlater⟩ := h.front j hhead
      have hji : j ≠ i := by
        intro heq
        subst heq
        exact hloop.notMem.2.2 (List.mem_of_head? hhead)
      refine ⟨j, hj, hlater, ?_⟩
      rw [hrest'] at hrest hascrest
      have hlt := (List.pairwise_cons.1 hascrest).1 i (List.mem_of_ne_of_mem hji.symm hrest)
      have hcmp := ((m.expire now i).orders_less j i).2 hlt
      rw [TimerManager.less, h.expire_recurring hrec, m.expire_timer_ne now hji,
        h.unseen j (h.notMem_seen_of_later hlater)] at hcmp
      exact hcmp

/-- A recurring timer that does not come back among those to visit went behind the timers that have
    not expired, or none is left to visit. -/
theorem ExpiryLoop.goesBehind (h : ExpiryLoop m₀ now (i :: todo) rest cbs m)
    (hloop : TimeoutLoop now stop it done (i :: todo) rest (cbs.map Prod.fst) m)
    (hloop' : TimeoutLoop now stop it' done' todo rest' (cbs.map Prod.fst ++ [i]) (m.expire now i))
    (hpos : m₀.Periodic) (hwrap : m₀.Unwrapped now) (hrec : (m₀.timer i).recurring = true) :
    m₀.GoesBehind now i := by
  have hmem : i ∈ (m.expire now i).timers := by
    obtain ⟨-, hmem⟩ := hloop.valid.expire hloop.mem_timers now
    refine (hmem i).2 ⟨hloop.mem_timers, fun _ => ?_⟩
    rw [h.unseen i (h.notMem_seen List.mem_cons_self)]
    exact hrec
  rw [hloop'.timers, List.mem_append, List.mem_append] at hmem
  rcases hmem with hdone | htodo | hrest
  · right
    have hnil := h.todo_eq_nil hloop hloop' hpos hwrap hrec hdone
    subst hnil
    intro j hj hjexp hji
    have hjseen : j ∈ cbs.map Prod.fst := by
      rcases List.mem_append.1 ((h.expired j).2 ⟨hj, hjexp⟩) with hseen | hlast
      · exact hseen
      · exact absurd (List.mem_singleton.1 hlast) hji
    have hlt := (List.pairwise_append.1 h.ascending).2.2 j hjseen i List.mem_cons_self
    refine ⟨(m₀.orders_less j i).2 hlt, fun hjrec hzero => ?_⟩
    have hjpos := hpos j hj hjrec
    rw [hzero] at hjpos
    exact absurd hjpos (UInt64.lt_irrefl 0)
  · exact absurd htodo hloop.notMem.2.1
  · exact Or.inl (h.exists_before hloop hloop' hrec hrest)

/-- A timer that comes back among those to visit does not go behind. -/
theorem ExpiryLoop.not_goesBehind (h : ExpiryLoop m₀ now (i :: todo) rest cbs m)
    (hloop : TimeoutLoop now stop it done (i :: todo) rest (cbs.map Prod.fst) m)
    (hrec : (m₀.timer i).recurring = true) (htodo : todo ≠ [])
    (hrest : ∀ j ∈ rest, (m.expire now i).key i < (m.expire now i).key j) :
    ¬ m₀.GoesBehind now i := by
  rintro (⟨j, hj, hlater, hcmp⟩ | hlast)
  · have hji : j ≠ i := by
      intro heq
      subst heq
      exact hloop.notMem.2.2 (h.later j hj hlater)
    have hlt : (m.expire now i).key j < (m.expire now i).key i := by
      refine ((m.expire now i).orders_less j i).1 ?_
      rw [TimerManager.less, h.expire_recurring hrec, m.expire_timer_ne now hji,
        h.unseen j (h.notMem_seen_of_later hlater)]
      exact hcmp
    exact lt_asymm hlt (hrest j (h.later j hj hlater))
  · obtain ⟨b, hb⟩ := List.exists_mem_of_ne_nil todo htodo
    have hbi : b ≠ i := fun heq => hloop.notMem.2.1 (heq ▸ hb)
    obtain ⟨hbmem, hbexp⟩ :=
      (h.expired b).1 (List.mem_append_right _ (List.mem_cons_of_mem _ hb))
    have hbefore : m₀.key b < m₀.key i :=
      (m₀.orders_less b i).1 (hlast b hbmem hbexp hbi).1
    have hafter : m₀.key i < m₀.key b :=
      (List.pairwise_cons.1 (List.pairwise_append.1 h.ascending).2.1).1 b hb
    exact lt_asymm hbefore hafter

/-- A visit after which the timer does not come back. -/
theorem ExpiryLoop.visit (h : ExpiryLoop m₀ now (i :: todo) rest cbs m)
    (hloop : TimeoutLoop now stop it done (i :: todo) rest (cbs.map Prod.fst) m)
    (hloop' : TimeoutLoop now stop it' done' todo rest' (cbs.map Prod.fst ++ [i]) (m.expire now i))
    (hpos : m₀.Periodic) (hwrap : m₀.Unwrapped now) (hrest : ∀ j ∈ rest, j ∈ rest') :
    ExpiryLoop m₀ now todo rest' (cbs ++ [(i, (m.timer i).cb)]) (m.expire now i) := by
  have hunseen := h.unseen i (h.notMem_seen List.mem_cons_self)
  have hfst : (cbs ++ [(i, (m.timer i).cb)]).map Prod.fst = cbs.map Prod.fst ++ [i] := by
    simp
  have hcons : (cbs ++ [(i, (m.timer i).cb)]).map Prod.fst ++ todo
      = cbs.map Prod.fst ++ i :: todo := by
    rw [hfst, List.append_assoc, List.singleton_append]
  have hmem : ∀ j, j ∈ (cbs ++ [(i, (m.timer i).cb)]).map Prod.fst ↔
      j ∈ cbs.map Prod.fst ∨ j = i := by
    intro j
    rw [hfst, List.mem_append, List.mem_singleton]
  obtain ⟨-, hexpire⟩ := hloop.valid.expire hloop.mem_timers now
  refine ⟨?_, ?_, fun j hj hlater => hrest j (h.later j hj hlater), ?_, fun x hx => ?_, fun j => ?_,
    fun j hj => ?_, fun j hj => ?_, fun j hj hrec => ?_⟩
  · rw [hcons]
    exact h.expired
  · rw [hcons]
    exact h.ascending
  · rw [← hloop'.stop, hloop.stop]
    exact h.front
  · rcases List.mem_append.1 hx with hx | hx
    · exact h.callback x hx
    · rw [List.mem_singleton.1 hx, hunseen]
  · rw [hexpire, h.mem, hmem, hunseen]
    by_cases hji : j = i
    · subst hji
      have hnot := h.notMem_seen (List.mem_cons_self (a := j) (l := todo))
      simp [hnot]
    · simp [hji]
  · by_cases hji : j = i
    · subst hji
      exact h.expire_self
    · rw [m.expire_timer_ne now hji]
      exact h.seen j (((hmem j).1 hj).resolve_right hji)
  · have hj : j ∉ cbs.map Prod.fst ∧ j ≠ i := not_or.1 fun hor => hj ((hmem j).2 hor)
    rw [m.expire_timer_ne now hj.2]
    exact h.unseen j hj.1
  · rcases (hmem j).1 hj with hseen | rfl
    · exact h.behind j hseen hrec
    · exact h.goesBehind hloop hloop' hpos hwrap hrec

end Visit

/-! ## The call -/

section Call

variable {m : TimerManager Cb} {now : UInt64}

/-- Either no timer ever comes back, and each of them goes behind, or one comes back that does not. -/
theorem TimerManager.Valid.expiryLoop (h : m.Valid) (hroll : (m.clockRollover now).2 = false)
    (hpos : m.Periodic) (hwrap : m.Unwrapped now) (addr : ℕ) :
    (m.timeoutCallbacks now addr).fault = none ∧ ∃ rest,
      ExpiryLoop m now [] rest (m.timeoutCallbacks now addr).cbs
        (m.timeoutCallbacks now addr).manager ∨
      TimeoutLoop.Twice [] ((m.timeoutCallbacks now addr).cbs.map Prod.fst) ∧
        ¬ m.FiresOnce now := by
  suffices hrule : (m.timeoutCallbacks now addr).fault = none ∧
      (m.timeoutCallbacks now addr).manager.Valid ∧ ∃ rest,
      ExpiryLoop m now [] rest (m.timeoutCallbacks now addr).cbs
        (m.timeoutCallbacks now addr).manager ∨
      TimeoutLoop.Twice [] ((m.timeoutCallbacks now addr).cbs.map Prod.fst) ∧
        ¬ m.FiresOnce now by
    exact ⟨hrule.1, hrule.2.2⟩
  refine h.timeoutCallbacks now addr (I := fun todo rest cbs m' =>
    ExpiryLoop m now todo rest cbs m' ∨
      TimeoutLoop.Twice todo (cbs.map Prod.fst) ∧ ¬ m.FiresOnce now) ?_ ?_
  · intro todo rest htimers hcut previousTime _
    obtain ⟨htodo, hrest⟩ := hcut.resolve_left (by rw [hroll]; exact Bool.false_ne_true)
    left
    refine ⟨fun i => ?_, ?_, fun i hi hlater => ?_, fun i hi => ?_, by simp, by simp, by simp,
      fun _ _ => rfl, by simp⟩
    · rw [List.map_nil, List.nil_append, htimers, List.mem_append]
      constructor
      · exact fun hi => ⟨Or.inl hi, UInt64.le_iff_toNat_le.2 (htodo i hi)⟩
      · rintro ⟨hi | hi, hexp⟩
        · exact hi
        · exact absurd (UInt64.le_iff_toNat_le.1 hexp) (not_le.2 (hrest i hi))
    · have hasc := h.ascending
      rw [htimers] at hasc
      exact (List.pairwise_append.1 hasc).1
    · rw [htimers] at hi
      rcases List.mem_append.1 hi with hi | hi
      · exact absurd (htodo i hi) (not_le.2 (UInt64.lt_iff_toNat_lt.1 hlater))
      · exact hi
    · have hi : i ∈ rest := List.mem_of_head? hi
      refine ⟨?_, UInt64.lt_iff_toNat_lt.2 (hrest i hi)⟩
      rw [htimers]
      exact List.mem_append_right _ hi
  · intro stop it i done todo rest cbs m' it' done' todo' rest' hloop hI hloop' htodo hrest
    rcases hI with hI | ⟨htwice, hnot⟩
    · rcases htodo with rfl | ⟨hperm, -, hrec, hne, hbefore⟩
      · exact Or.inl (hI.visit hloop hloop' hpos hwrap hrest)
      · -- timer `i` is to be visited again
        right
        have hunseen := hI.unseen i (hI.notMem_seen List.mem_cons_self)
        obtain ⟨hi, hexp⟩ := (hI.expired i).1 (List.mem_append_right _ List.mem_cons_self)
        rw [hunseen] at hrec
        refine ⟨Or.inl ⟨i, hperm.mem_iff.2 List.mem_cons_self, by simp⟩, fun hf => ?_⟩
        exact hI.not_goesBehind hloop hrec hne hbefore (hpos.firesOnce_iff.1 hf i hi hexp hrec)
    · right
      rw [List.map_append]
      exact ⟨htwice.visit (htodo.imp_right fun hback => hback.1), hnot⟩

theorem ExpiryLoop.expiresExactly {m : TimerManager Cb} {now : UInt64} {rest : List ℕ}
    {out : TimerOutcome Cb} (h : ExpiryLoop m now [] rest out.cbs out.manager)
    (hfault : out.fault = none) (hwrap : m.Unwrapped now) : m.ExpiresExactly now out := by
  have hexpired : ∀ i, i ∈ out.cbs.map Prod.fst ↔ i ∈ m.timers ∧ (m.timer i).next ≤ now := by
    intro i
    rw [← h.expired i, List.append_nil]
  have hasc : OrderedSet.Ascending m.key (out.cbs.map Prod.fst) := by
    rw [← List.append_nil (out.cbs.map Prod.fst)]
    exact h.ascending
  refine ⟨hfault, hasc.nodup, hexpired, hasc.imp fun {i j} hlt => ?_, h.callback, fun i => ?_,
    fun i hi hexp hrec => ?_, fun i hnot => h.unseen i fun hseen => hnot ((hexpired i).1 hseen)⟩
  · rw [UInt64.le_iff_toNat_le]
    rcases TimerManager.key_lt.1 hlt with hlt | ⟨heq, -⟩
    · exact hlt.le
    · exact heq.le
  · rw [h.mem, hexpired]
    constructor
    · exact fun ⟨hi, hrec⟩ => ⟨hi, fun hexp => hrec ⟨hi, hexp⟩⟩
    · exact fun ⟨hi, hrec⟩ => ⟨hi, fun hseen => hrec hseen.2⟩
  · refine ⟨now + (m.timer i).period, ?_, toNat_add_of_lt (hwrap i hi hexp hrec)⟩
    rw [h.seen i ((hexpired i).2 ⟨hi, hexp⟩), Timer.expired, if_pos hrec]

theorem TimerManager.ExpiresExactly.unwrapped {out : TimerOutcome Cb}
    (h : m.ExpiresExactly now out) : m.Unwrapped now := by
  intro i hi hexp hrec
  obtain ⟨next, -, hnext⟩ := h.deadline i hi hexp hrec
  rw [← hnext]
  exact next.toNat_lt

/-- Without a rollover, and where all recurring timers have a positive period, expiry is exact if and
    only if every expired recurring timer goes behind a timer that has not expired or is the last that
    has, and no new deadline wraps around. -/
theorem TimerManager.Valid.expiry_exact_iff (h : m.Valid) (hroll : (m.clockRollover now).2 = false)
    (hpos : m.Periodic) (addr : ℕ) :
    m.ExpiresExactly now (m.timeoutCallbacks now addr) ↔ m.FiresOnce now ∧ m.Unwrapped now := by
  constructor
  · intro hexact
    have hwrap := hexact.unwrapped
    obtain ⟨-, rest, hloop | ⟨htwice, -⟩⟩ := h.expiryLoop hroll hpos hwrap addr
    · refine ⟨hpos.firesOnce_iff.2 fun i hi hexp hrec => ?_, hwrap⟩
      exact hloop.behind i ((hexact.expired i).2 ⟨hi, hexp⟩) hrec
    · rcases htwice with ⟨i, hi, -⟩ | hdup
      · cases hi
      · exact absurd hexact.once hdup
  · rintro ⟨hfires, hwrap⟩
    obtain ⟨hfault, rest, hloop | ⟨-, hnot⟩⟩ := h.expiryLoop hroll hpos hwrap addr
    · exact hloop.expiresExactly hfault hwrap
    · exact absurd hfires hnot

end Call

/-! ## Managers that calls lead to -/

theorem TimerRun.valid_of_reach (now : UInt64) {R : TimerRun Cb}
    (h : GuardedRun.Reach (TimerRun.new now) TimerRun.step TimerRun.Callable R) :
    R.manager.Valid := by
  have hinv : R.RegistryInv :=
    GuardedRun.Reach.invariant (.new now) (fun _ c _ hR hok => hR.step c hok) h
  exact hinv.valid

instance TimerManager.decidablePeriodic (m : TimerManager Cb) : Decidable m.Periodic :=
  inferInstanceAs (Decidable (∀ i ∈ m.timers, _ → _))

instance TimerManager.decidableUnwrapped (m : TimerManager Cb) (now : UInt64) :
    Decidable (m.Unwrapped now) :=
  inferInstanceAs (Decidable (∀ i ∈ m.timers, _ → _ → _))

/-- A one-shot and two recurring timers expire and go behind a fourth one. -/
def TimerRun.fourTimers : TimerRun ℕ :=
  GuardedRun.exec TimerRun.step (TimerRun.new 0)
    [.addTimer 16 0 5 5 1 false, .addTimer 8 0 6 6 2 true, .addTimer 32 0 7 7 3 true,
      .addTimer 40 0 12 12 4 false]

theorem TimerManager.Valid.expiry_exact_four : TimerRun.fourTimers.manager.ExpiresExactly 7
    (TimerRun.fourTimers.manager.timeoutCallbacks 7 24) :=
  (TimerManager.Valid.expiry_exact_iff
    (TimerRun.valid_of_reach 0 (.exec .init (by decide +kernel))) (by decide +kernel)
    (by decide +kernel) 24).2 ⟨by decide +kernel, by decide +kernel⟩

/-- Two recurring timers expire and no other is there: the first is put back before the end, and its
    callback is handed out again. -/
def TimerRun.twoTimers : TimerRun ℕ :=
  GuardedRun.exec TimerRun.step (TimerRun.new 0)
    [.addTimer 16 0 5 5 1 true, .addTimer 8 0 6 6 2 true]

theorem TimerManager.Valid.expiry_twice :
    ¬ ∀ (m : TimerManager ℕ) (now : UInt64) (addr : ℕ), m.Valid →
      (m.clockRollover now).2 = false → m.Periodic →
      m.ExpiresExactly now (m.timeoutCallbacks now addr) := by
  intro h
  have hexact := h TimerRun.twoTimers.manager 7 24
    (TimerRun.valid_of_reach 0 (.exec .init (by decide +kernel))) (by decide +kernel)
    (by decide +kernel)
  have hdup : ¬ ((TimerRun.twoTimers.manager.timeoutCallbacks 7 24).cbs.map Prod.fst).Nodup := by
    decide +kernel
  exact hdup hexact.once

end RaftKVStorage
