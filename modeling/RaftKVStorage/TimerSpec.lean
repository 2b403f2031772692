import RaftKVStorage.Timer

set_option autoImplicit false

/-! # What the timer calls do

`TimerManager.Valid` is what every call relies on: the set is in order, the storage of a registered
timer has not been given away, and a timer has its callback as long as it is registered. Under it
every lookup finds the timer itself, so each call comes down to one of a few changes of the set. -/

namespace RaftKVStorage

variable {Cb : Type} {m : TimerManager Cb} {i j : ℕ}

/-! ## The order -/

/-- What `timer::comparator` compares. -/
def TimerManager.key (m : TimerManager Cb) (i : ℕ) : ℕ ×ₗ ℕ :=
  toLex ((m.timer i).next.toNat, (m.timer i).addr)

theorem TimerManager.key_lt : m.key i < m.key j ↔ (m.timer i).next.toNat < (m.timer j).next.toNat ∨
    (m.timer i).next.toNat = (m.timer j).next.toNat ∧ (m.timer i).addr < (m.timer j).addr :=
  Prod.Lex.toLex_lt_toLex

theorem TimerManager.key_eq : m.key i = m.key j ↔
    (m.timer i).next.toNat = (m.timer j).next.toNat ∧ (m.timer i).addr = (m.timer j).addr := by
  rw [key, key, toLex_inj, Prod.mk.injEq]

theorem Timer.comparator_iff (lhs rhs : Timer Cb) : lhs.comparator rhs = true ↔
    lhs.next.toNat < rhs.next.toNat ∨
      lhs.next.toNat = rhs.next.toNat ∧ lhs.addr < rhs.addr := by
  unfold Timer.comparator
  by_cases hlt : lhs.next < rhs.next
  · rw [if_pos hlt]
    simp [UInt64.lt_iff_toNat_lt.1 hlt]
  · rw [if_neg hlt]
    rw [UInt64.lt_iff_toNat_lt] at hlt
    by_cases hgt : rhs.next < lhs.next
    · rw [if_pos hgt]
      rw [UInt64.lt_iff_toNat_lt] at hgt
      simp only [Bool.false_eq_true, false_iff]
      omega
    · rw [if_neg hgt]
      rw [UInt64.lt_iff_toNat_lt] at hgt
      simp only [decide_eq_true_eq]
      omega

theorem TimerManager.orders_less (m : TimerManager Cb) : OrderedSet.Orders m.less m.key := by
  intro i j
  rw [key_lt]
  exact Timer.comparator_iff _ _

/-! ## The invariant -/

/-- No later object lies where timer `i` was made: the timer is still there. -/
def TimerManager.Alive (m : TimerManager Cb) (i : ℕ) : Prop :=
  i < m.made ∧ ∀ j < m.made, i < j → (m.timer j).addr ≠ (m.timer i).addr

structure TimerManager.Valid (m : TimerManager Cb) : Prop where
  ascending : OrderedSet.Ascending m.key m.timers
  alive : ∀ i ∈ m.timers, m.Alive i
  cb : ∀ i < m.made, (m.timer i).cb.isSome ↔ i ∈ m.timers

theorem TimerManager.Valid.new (now : UInt64) : (TimerManager.new now : TimerManager Cb).Valid := by
  refine ⟨List.Pairwise.nil, fun i hi => ?_, fun i hi => ?_⟩
  · cases hi
  · cases hi

/-- Two timers that are there lie at different places. -/
theorem TimerManager.Alive.addr_inj (hi : m.Alive i) (hj : m.Alive j)
    (heq : (m.timer i).addr = (m.timer j).addr) : i = j := by
  rcases lt_trichotomy i j with hlt | heq' | hlt
  · exact absurd heq.symm (hi.2 j hj.1 hlt)
  · exact heq'
  · exact absurd heq (hj.2 i hi.1 hlt)

theorem TimerManager.Valid.key_ne (h : m.Valid) (hi : m.Alive i) (hj : j ∈ m.timers) (hne : j ≠ i) :
    m.key j ≠ m.key i := by
  intro heq
  exact hne ((h.alive j hj).addr_inj hi (key_eq.1 heq).2)

theorem TimerManager.Valid.find_eq_some (h : m.Valid) (hi : i ∈ m.timers) : m.find i = some i :=
  OrderedSet.find_of_mem m.orders_less h.ascending hi

theorem TimerManager.Valid.find_eq_none (h : m.Valid) (hi : m.Alive i) (hnot : i ∉ m.timers) :
    m.find i = none := by
  cases hfind : m.find i with
  | none => rfl
  | some j =>
      obtain ⟨hj, hkey⟩ := OrderedSet.key_of_find m.orders_less hfind
      have hne : j ≠ i := fun heq => hnot (heq ▸ hj)
      exact absurd hkey (h.key_ne hi hj hne)

/-! ## Changes of the set -/

/-- Timer `i` is taken out, changed and put back. -/
def TimerManager.reinsert (m : TimerManager Cb) (i : ℕ) (t : Timer Cb) : TimerManager Cb :=
  ((m.erase i).set i t).insert i

/-- Timer `i` is taken out and loses its callback. -/
def TimerManager.drop (m : TimerManager Cb) (i : ℕ) : TimerManager Cb :=
  (m.erase i).set i { m.timer i with cb := none }

@[simp] theorem TimerManager.reinsert_timer (m : TimerManager Cb) (i : ℕ) (t : Timer Cb) :
    (m.reinsert i t).timer = Function.update m.timer i t := rfl
@[simp] theorem TimerManager.drop_timer (m : TimerManager Cb) (i : ℕ) :
    (m.drop i).timer = Function.update m.timer i { m.timer i with cb := none } := rfl
@[simp] theorem TimerManager.drop_timers (m : TimerManager Cb) (i : ℕ) :
    (m.drop i).timers = m.timers.erase i := rfl

/-- Another timer where one was makes no other timer come or go. -/
theorem TimerManager.Alive.update (h : m.Alive j) {t : Timer Cb} (ht : t.addr = (m.timer i).addr)
    {m' : TimerManager Cb} (htimer : m'.timer = Function.update m.timer i t)
    (hmade : m'.made = m.made) : m'.Alive j := by
  have haddr : ∀ k, (m'.timer k).addr = (m.timer k).addr := by
    intro k
    rw [htimer]
    by_cases hk : k = i
    · subst hk
      rw [Function.update_self, ht]
    · rw [Function.update_of_ne hk]
  refine ⟨by rw [hmade]; exact h.1, fun k hk hlt => ?_⟩
  rw [haddr, haddr]
  exact h.2 k (hmade ▸ hk) hlt

theorem TimerManager.Valid.mem_erase (h : m.Valid) : j ∈ (m.erase i).timers ↔ j ≠ i ∧ j ∈ m.timers :=
  h.ascending.nodup.mem_erase_iff

/-- The keys of the others stay when one timer is taken out and changed. -/
theorem TimerManager.Valid.ascending_erase_set (h : m.Valid) (t : Timer Cb) :
    OrderedSet.Ascending ((m.erase i).set i t).key (m.erase i).timers := by
  refine (h.ascending.erase i).congr fun j hj => ?_
  have hne : j ≠ i := (h.mem_erase.1 hj).1
  simp [TimerManager.key, TimerManager.set, TimerManager.erase, hne]

theorem TimerManager.Valid.erase_set_key_ne (h : m.Valid) {t : Timer Cb}
    (ht : t.addr = (m.timer i).addr) (hi : m.Alive i) :
    ∀ j ∈ (m.erase i).timers, ((m.erase i).set i t).key j ≠ ((m.erase i).set i t).key i := by
  intro j hj heq
  obtain ⟨hne, hj⟩ := h.mem_erase.1 hj
  have haddr := (key_eq.1 heq).2
  simp only [TimerManager.set, TimerManager.erase, Function.update_of_ne hne, Function.update_self,
    ht] at haddr
  exact hne ((h.alive j hj).addr_inj hi haddr)

theorem TimerManager.Valid.mem_reinsert (h : m.Valid) (hi : i ∈ m.timers) {t : Timer Cb}
    (ht : t.addr = (m.timer i).addr) : j ∈ (m.reinsert i t).timers ↔ j ∈ m.timers := by
  have hmem : j ∈ (m.reinsert i t).timers ↔ j = i ∨ j ∈ (m.erase i).timers :=
    OrderedSet.mem_insert (TimerManager.orders_less _) (h.erase_set_key_ne ht (h.alive i hi))
  rw [hmem, h.mem_erase]
  by_cases hj : j = i
  · subst hj
    simp [hi]
  · simp [hj]

theorem TimerManager.Valid.reinsert (h : m.Valid) (hi : i ∈ m.timers) {t : Timer Cb}
    (ht : t.addr = (m.timer i).addr) (hcb : t.cb.isSome) : (m.reinsert i t).Valid := by
  refine ⟨?_, fun j hj => ?_, fun j hj => ?_⟩
  · exact (h.ascending_erase_set t).insert (TimerManager.orders_less _)
      (h.erase_set_key_ne ht (h.alive i hi))
  · exact (h.alive j ((h.mem_reinsert hi ht).1 hj)).update ht rfl rfl
  · rw [h.mem_reinsert hi ht, reinsert_timer]
    by_cases hji : j = i
    · subst hji
      simp [hcb, hi]
    · rw [Function.update_of_ne hji]
      exact h.cb j hj

theorem TimerManager.Valid.drop (h : m.Valid) (hi : i ∈ m.timers) : (m.drop i).Valid := by
  have ht : ({ m.timer i with cb := none } : Timer Cb).addr = (m.timer i).addr := rfl
  refine ⟨h.ascending_erase_set _, fun j hj => ?_, fun j hj => ?_⟩
  · exact (h.alive j (h.mem_erase.1 hj).2).update ht rfl rfl
  · rw [drop_timers, h.ascending.nodup.mem_erase_iff, drop_timer]
    by_cases hji : j = i
    · subst hji
      simp
    · rw [Function.update_of_ne hji]
      simpa [hji] using h.cb j hj

/-- The flag `_M_tickled` and the time noted for the rollover play no part. -/
theorem TimerManager.Valid.congr (h : m.Valid) {m' : TimerManager Cb} (htimer : m'.timer = m.timer)
    (htimers : m'.timers = m.timers) (hmade : m'.made = m.made) : m'.Valid := by
  refine ⟨?_, fun i hi => ?_, fun i hi => ?_⟩
  · rw [htimers]
    exact h.ascending.congr fun i _ => by rw [TimerManager.key, TimerManager.key, htimer]
  · have hi := h.alive i (htimers ▸ hi)
    rw [TimerManager.Alive, htimer, hmade]
    exact hi
  · rw [htimer, htimers]
    exact h.cb i (hmade ▸ hi)

theorem TimerManager.mAddTimer_eq (m : TimerManager Cb) (i : ℕ) :
    ∃ tickled atFront, m.mAddTimer i = ({ m.insert i with tickled := tickled }, atFront) := by
  unfold TimerManager.mAddTimer
  dsimp only
  split
  · exact ⟨m.tickled, false, rfl⟩
  · exact ⟨true, true, rfl⟩

/-! ## The calls -/

/-- The set with a new timer, numbered last. -/
def TimerManager.added (m : TimerManager Cb) (t : Timer Cb) : TimerManager Cb :=
  { m.set m.made t with made := m.made + 1 }.insert m.made

section Added

variable {t : Timer Cb}

@[simp] theorem TimerManager.added_timer :
    (m.added t).timer = Function.update m.timer m.made t := rfl
@[simp] theorem TimerManager.added_made : (m.added t).made = m.made + 1 := rfl

/-- What the set sees of a new timer before it is put in. -/
theorem TimerManager.Valid.key_set_made (h : m.Valid) (t : Timer Cb) :
    ∀ j ∈ m.timers, (m.set m.made t).key j = m.key j := by
  intro j hj
  have hne : j ≠ m.made := ((h.alive j hj).1).ne
  simp [TimerManager.key, TimerManager.set, hne]

theorem TimerManager.Valid.key_made_ne (h : m.Valid) (ht : ∀ j ∈ m.timers, (m.timer j).addr ≠ t.addr) :
    ∀ j ∈ m.timers, (m.set m.made t).key j ≠ (m.set m.made t).key m.made := by
  intro j hj heq
  rw [h.key_set_made t j hj] at heq
  have haddr := (congrArg (fun k => (ofLex k).2) heq)
  simp only [TimerManager.key, TimerManager.set, Function.update_self, ofLex_toLex] at haddr
  exact ht j hj haddr

theorem TimerManager.Valid.mem_added (h : m.Valid) (ht : ∀ j ∈ m.timers, (m.timer j).addr ≠ t.addr) :
    j ∈ (m.added t).timers ↔ j = m.made ∨ j ∈ m.timers :=
  OrderedSet.mem_insert (TimerManager.orders_less (m.set m.made t)) (h.key_made_ne ht)

theorem TimerManager.Valid.added (h : m.Valid) (ht : ∀ j ∈ m.timers, (m.timer j).addr ≠ t.addr)
    (hcb : t.cb.isSome) : (m.added t).Valid := by
  refine ⟨?_, fun j hj => ⟨?_, fun k hk hlt => ?_⟩, fun j hj => ?_⟩
  · exact (h.ascending.congr (h.key_set_made t)).insert (TimerManager.orders_less (m.set m.made t))
      (h.key_made_ne ht)
  · rcases (h.mem_added ht).1 hj with rfl | hj
    · exact Nat.lt_succ_self _
    · exact Nat.lt_succ_of_lt (h.alive j hj).1
  · rcases (h.mem_added ht).1 hj with rfl | hj
    · rw [added_made] at hk
      omega
    · have hne : j ≠ m.made := ((h.alive j hj).1).ne
      rw [added_timer, Function.update_of_ne hne]
      by_cases hkm : k = m.made
      · subst hkm
        rw [Function.update_self]
        exact (ht j hj).symm
      · rw [Function.update_of_ne hkm]
        refine (h.alive j hj).2 k ?_ hlt
        rw [added_made] at hk
        omega
  · rw [h.mem_added ht, added_timer]
    by_cases hjm : j = m.made
    · subst hjm
      simp [hcb]
    · rw [Function.update_of_ne hjm]
      rw [added_made] at hj
      simpa [hjm] using h.cb j (by omega)

end Added

theorem TimerManager.addTimer_eq (m : TimerManager Cb) (addr : ℕ) (now stale period : UInt64)
    (cb : Cb) (recurring : Bool) : ∃ tickled atFront,
      m.addTimer addr now stale period cb recurring = { manager := { m.added
        (.new addr now stale period cb recurring) with tickled := tickled }, atFront := atFront } := by
  obtain ⟨tickled, atFront, heq⟩ := TimerManager.mAddTimer_eq
    { m.set m.made (.new addr now stale period cb recurring) with made := m.made + 1 } m.made
  refine ⟨tickled, atFront, ?_⟩
  unfold TimerManager.addTimer
  simp only [heq]
  rfl

/-- `cancel` finds a timer that has its callback, and takes it out of the set. -/
theorem TimerManager.Valid.cancel_cases (h : m.Valid) (hi : m.Alive i) :
    (i ∉ m.timers ∧ m.cancel i = { manager := m, ret := some false }) ∨
      (i ∈ m.timers ∧ m.cancel i = { manager := m.drop i, ret := some true }) := by
  unfold TimerManager.cancel
  by_cases hmem : i ∈ m.timers
  · right
    refine ⟨hmem, ?_⟩
    rw [if_pos ((h.cb i hi.1).2 hmem)]
    have hkey : ∀ j, (m.set i { m.timer i with cb := none }).key j = m.key j := by
      intro j
      by_cases hj : j = i
      · subst hj
        simp [TimerManager.key, TimerManager.set]
      · simp [TimerManager.key, TimerManager.set, hj]
    have hfind : (m.set i { m.timer i with cb := none }).find i = some i :=
      OrderedSet.find_of_mem (TimerManager.orders_less _)
        (h.ascending.congr fun j _ => hkey j) hmem
    simp only [hfind]
    rfl
  · left
    refine ⟨hmem, ?_⟩
    rw [if_neg fun hcb => hmem ((h.cb i hi.1).1 hcb)]

/-- `refresh` never does anything: with a callback the timer is refused, without one it is not in
    the set. -/
theorem TimerManager.Valid.refresh_eq (h : m.Valid) (hi : m.Alive i) (now : UInt64) :
    m.refresh i now = { manager := m, ret := some false } := by
  unfold TimerManager.refresh
  by_cases hmem : i ∈ m.timers
  · rw [if_pos ((h.cb i hi.1).2 hmem)]
  · rw [if_neg fun hcb => hmem ((h.cb i hi.1).1 hcb), h.find_eq_none hi hmem]

/-- Timer `i` as `reset` puts it back. -/
def Timer.resetTo (t : Timer Cb) (period : UInt64) (fromNow : Bool) (now : UInt64) : Timer Cb :=
  { t with
    next := if fromNow then now else t.next + (period - t.period)
    period := period }

theorem TimerManager.Valid.reset_cases (h : m.Valid) (hi : m.Alive i) (period : UInt64)
    (fromNow : Bool) (now : UInt64) :
    (m.reset i period fromNow now = { manager := m, ret := some true } ∧
      (i ∈ m.timers → period = (m.timer i).period ∧ fromNow = false)) ∨
    (i ∈ m.timers ∧ ∃ tickled atFront, m.reset i period fromNow now = { manager := { m.reinsert i
        ((m.timer i).resetTo period fromNow now) with tickled := tickled }, atFront := atFront }) := by
  unfold TimerManager.reset
  by_cases hsame : period = (m.timer i).period ∧ fromNow = false
  · rw [if_pos hsame]
    exact Or.inl ⟨rfl, fun _ => hsame⟩
  rw [if_neg hsame]
  by_cases hmem : i ∈ m.timers
  · right
    refine ⟨hmem, ?_⟩
    have hcb : ¬ (m.timer i).cb.isNone = true := by
      rw [Option.isNone_iff_eq_none]
      exact Option.isSome_iff_ne_none.1 ((h.cb i hi.1).2 hmem)
    rw [if_neg hcb, h.find_eq_some hmem]
    obtain ⟨tickled, atFront, heq⟩ := TimerManager.mAddTimer_eq
      ((m.erase i).set i ((m.timer i).resetTo period fromNow now)) i
    refine ⟨tickled, atFront, ?_⟩
    simp only [Timer.resetTo] at heq
    simp only [TimerManager.erase] at heq ⊢
    rw [heq]
    rfl
  · left
    have hcb : (m.timer i).cb.isNone = true := by
      rw [Option.isNone_iff_eq_none, ← Option.not_isSome_iff_eq_none]
      exact fun hcb => hmem ((h.cb i hi.1).1 hcb)
    rw [if_pos hcb]
    exact ⟨rfl, fun hmem' => absurd hmem' hmem⟩

theorem TimerManager.expire_eq (m : TimerManager Cb) (now : UInt64) (i : ℕ) :
    m.expire now i = if (m.timer i).recurring then
      m.reinsert i { m.timer i with next := now + (m.timer i).period } else m.drop i := rfl

/-- Timer `t` behind the loop's body. -/
def Timer.expired (t : Timer Cb) (now : UInt64) : Timer Cb :=
  if t.recurring then { t with next := now + t.period } else { t with cb := none }

theorem TimerManager.expire_timer (m : TimerManager Cb) (now : UInt64) (i : ℕ) :
    (m.expire now i).timer = Function.update m.timer i ((m.timer i).expired now) := by
  rw [TimerManager.expire_eq, Timer.expired]
  split
  · rw [TimerManager.reinsert_timer]
  · rw [TimerManager.drop_timer]

theorem TimerManager.expire_timer_ne (m : TimerManager Cb) (now : UInt64) {i j : ℕ} (h : j ≠ i) :
    (m.expire now i).timer j = m.timer j := by
  rw [TimerManager.expire_timer, Function.update_of_ne h]

/-- The body changes only the deadline and the callback of its timer. -/
theorem TimerManager.expire_fields (m : TimerManager Cb) (now : UInt64) (i j : ℕ) :
    ((m.expire now i).timer j).period = (m.timer j).period ∧
      ((m.expire now i).timer j).recurring = (m.timer j).recurring ∧
      ((m.expire now i).timer j).addr = (m.timer j).addr := by
  by_cases hj : j = i
  · subst hj
    rw [TimerManager.expire_timer, Function.update_self, Timer.expired]
    split
    · exact ⟨rfl, rfl, rfl⟩
    · exact ⟨rfl, rfl, rfl⟩
  · rw [m.expire_timer_ne now hj]
    exact ⟨rfl, rfl, rfl⟩

theorem TimerManager.Valid.expire (h : m.Valid) (hi : i ∈ m.timers) (now : UInt64) :
    (m.expire now i).Valid ∧
      ∀ j, j ∈ (m.expire now i).timers ↔ j ∈ m.timers ∧ (j = i → (m.timer i).recurring = true) := by
  rw [TimerManager.expire_eq]
  by_cases hrec : (m.timer i).recurring = true
  · rw [if_pos hrec]
    refine ⟨h.reinsert hi rfl ((h.cb i (h.alive i hi).1).2 hi), fun j => ?_⟩
    have hmem := h.mem_reinsert (j := j) hi
      (t := { m.timer i with next := now + (m.timer i).period }) rfl
    rw [hmem]
    simp [hrec]
  · rw [if_neg hrec]
    refine ⟨h.drop hi, fun j => ?_⟩
    rw [TimerManager.drop_timers, h.ascending.nodup.mem_erase_iff]
    constructor
    · exact fun ⟨hne, hj⟩ => ⟨hj, fun heq => absurd heq hne⟩
    · exact fun ⟨hj, hne⟩ => ⟨fun heq => hrec (hne heq), hj⟩

/-! ## The loop of `timeoutCallbacks` -/

/-- The set is cut at the iterators: the timers the loop has left behind, those it has yet to visit,
    and those from `timeoutEndIt` on. A timer visited before is back with its new deadline. -/
structure TimeoutLoop (now : UInt64) (stop it : Option ℕ) (done todo rest seen : List ℕ)
    (m : TimerManager Cb) : Prop where
  valid : m.Valid
  timers : m.timers = done ++ (todo ++ rest)
  it : it = (todo ++ rest).head?
  stop : stop = rest.head?
  again : ∀ i ∈ seen, i ∈ m.timers → (m.timer i).next = now + (m.timer i).period

theorem TimeoutLoop.mem_timers {now : UInt64} {stop it : Option ℕ} {done todo rest seen : List ℕ}
    (h : TimeoutLoop now stop it done (i :: todo) rest seen m) : i ∈ m.timers := by
  rw [h.timers]
  simp

/-- The timer to be visited is at one place only. -/
theorem TimeoutLoop.notMem {now : UInt64} {stop it : Option ℕ} {done todo rest seen : List ℕ}
    (h : TimeoutLoop now stop it done (i :: todo) rest seen m) : i ∉ done ∧ i ∉ todo ∧ i ∉ rest := by
  have hnodup := h.valid.ascending.nodup
  rw [h.timers] at hnodup
  have hperm : (done ++ i :: (todo ++ rest)).Perm (i :: (done ++ (todo ++ rest))) :=
    List.perm_middle
  have hout := (List.nodup_cons.1 (hperm.nodup_iff.1 hnodup)).1
  simpa only [List.mem_append, not_or] using hout

/-- A round visits the first timer of `todo`. It comes back among those to visit only if it has not
    been visited before, is recurring, and its new deadline lies behind another timer to visit and
    before all timers from `timeoutEndIt` on. -/
theorem TimeoutLoop.visit {now : UInt64} {stop it : Option ℕ} {done todo rest seen : List ℕ}
    (h : TimeoutLoop now stop it done (i :: todo) rest seen m) :
    ∃ done' todo' rest', TimeoutLoop now stop (OrderedSet.successor i m.timers) done' todo' rest'
        (seen ++ [i]) (m.expire now i) ∧
      (todo' = todo ∨ todo'.Perm (i :: todo) ∧ i ∉ seen ∧ (m.timer i).recurring = true ∧
        todo ≠ [] ∧ ∀ j ∈ rest, (m.expire now i).key i < (m.expire now i).key j) ∧
      ∀ j ∈ rest, j ∈ rest' := by
  have hi := h.mem_timers
  have hdone := h.notMem.1
  have hsplit : m.timers = done ++ i :: (todo ++ rest) := h.timers
  have hsucc : OrderedSet.successor i m.timers = (todo ++ rest).head? := by
    rw [hsplit]
    exact OrderedSet.successor_append hdone
  have herase : (m.erase i).timers = done ++ (todo ++ rest) := by
    show m.timers.erase i = _
    rw [hsplit]
    exact OrderedSet.erase_append hdone
  obtain ⟨hvalid, hmem⟩ := h.valid.expire hi now
  have hagain : ∀ j ∈ seen ++ [i], j ∈ (m.expire now i).timers →
      ((m.expire now i).timer j).next = now + ((m.expire now i).timer j).period := by
    intro j hj hjm
    obtain ⟨hjm, hrec⟩ := (hmem j).1 hjm
    by_cases hji : j = i
    · subst hji
      rw [TimerManager.expire_eq, if_pos (hrec rfl)]
      simp
    · rw [m.expire_timer_ne now hji]
      have hj : j ∈ seen := by simpa [hji] using hj
      exact h.again j hj hjm
  by_cases hrec : (m.timer i).recurring = true
  swap
  · -- a one-shot timer is gone
    refine ⟨done, todo, rest, ⟨hvalid, ?_, hsucc, h.stop, hagain⟩, Or.inl rfl,
      fun j hj => hj⟩
    rw [TimerManager.expire_eq, if_neg hrec]
    exact herase
  have hexp : m.expire now i = m.reinsert i { m.timer i with next := now + (m.timer i).period } := by
    rw [TimerManager.expire_eq, if_pos hrec]
  have hkey : ((m.erase i).set i { m.timer i with next := now + (m.timer i).period }).key
      = (m.expire now i).key := by
    rw [hexp]
    rfl
  have hless := ((m.erase i).set i
    { m.timer i with next := now + (m.timer i).period }).orders_less
  have hasc := h.valid.ascending_erase_set (i := i) { m.timer i with next := now + (m.timer i).period }
  have hne := h.valid.erase_set_key_ne (t := { m.timer i with next := now + (m.timer i).period }) rfl
    (h.valid.alive i hi)
  have htimers : (m.expire now i).timers = OrderedSet.insert
      ((m.erase i).set i { m.timer i with next := now + (m.timer i).period }).less i
      (done ++ (todo ++ rest)) := by
    rw [hexp, ← herase]
    rfl
  rw [herase, hkey] at hasc hne
  rw [hkey] at hless
  have hascRight := (List.pairwise_append.1 hasc).2.1
  rcases OrderedSet.insert_three hless hasc hne with
    ⟨heq, -⟩ | ⟨heq, hbefore, hrest⟩ | ⟨heq, hbefore⟩
  · rw [heq] at htimers
    exact ⟨_, todo, rest, ⟨hvalid, htimers, hsucc, h.stop, hagain⟩, Or.inl rfl,
      fun j hj => hj⟩
  · rw [heq] at htimers
    have hasctodo := (List.pairwise_append.1 hascRight).1
    have hhead := OrderedSet.head?_insert hless hasctodo hbefore
    obtain ⟨b, hb, hlt⟩ := hbefore
    have htodo : todo ≠ [] := List.ne_nil_of_mem hb
    refine ⟨done, _, rest, ⟨hvalid, htimers, ?_, h.stop, hagain⟩, Or.inr ⟨?_, ?_, hrec, htodo, hrest⟩,
      fun j hj => hj⟩
    · rw [hsucc, List.head?_append, List.head?_append, hhead]
    · refine OrderedSet.insert_perm hless fun c hc => hne c ?_
      exact List.mem_append_right _ (List.mem_append_left _ hc)
    · -- a timer visited before goes back where it was
      intro hseen
      have hnext := h.again i hseen hi
      have hexp' : (m.expire now i).timer = m.timer := by
        rw [hexp, TimerManager.reinsert_timer, ← hnext]
        exact Function.update_eq_self i m.timer
      have hold : m.key i < m.key b := by
        have hall := (List.pairwise_append.1 (hsplit ▸ h.valid.ascending)).2.1
        exact (List.pairwise_cons.1 hall).1 b (List.mem_append_left _ hb)
      have hkeys : (m.expire now i).key = m.key := by
        funext k
        rw [TimerManager.key, TimerManager.key, hexp']
      rw [hkeys] at hlt
      exact lt_asymm hold hlt
  · rw [heq] at htimers
    have hascrest := (List.pairwise_append.1 hascRight).2.1
    have hhead := OrderedSet.head?_insert hless hascrest hbefore
    refine ⟨done, todo, _, ⟨hvalid, htimers, ?_, ?_, hagain⟩, Or.inl rfl, fun j hj => ?_⟩
    · rw [hsucc, List.head?_append, List.head?_append, hhead]
    · rw [h.stop, hhead]
    · refine (OrderedSet.mem_insert hless fun c hc => hne c ?_).2 (Or.inr hj)
      exact List.mem_append_right _ (List.mem_append_right _ hc)

/-- How many rounds the loop has at most to go: a timer may come back once. -/
def TimeoutLoop.rounds (todo seen : List ℕ) : ℕ :=
  (todo.map fun i => if i ∈ seen then 1 else 2).sum

theorem TimeoutLoop.rounds_le (todo seen : List ℕ) : rounds todo seen ≤ 2 * todo.length := by
  unfold rounds
  induction todo with
  | nil => exact Nat.le_refl _
  | cons i todo ih =>
      simp only [List.map_cons, List.sum_cons, List.length_cons]
      split <;> omega

theorem TimeoutLoop.rounds_cons {todo todo' seen : List ℕ} (hnot : i ∉ todo)
    (htodo : todo' = todo ∨ todo'.Perm (i :: todo) ∧ i ∉ seen) :
    rounds todo' (seen ++ [i]) < rounds (i :: todo) seen := by
  have hsame : rounds todo (seen ++ [i]) = rounds todo seen := by
    unfold rounds
    congr 1
    refine List.map_congr_left fun j hj => ?_
    have hne : j ≠ i := fun heq => hnot (heq ▸ hj)
    simp [hne]
  rcases htodo with rfl | ⟨hperm, hseen⟩
  · rw [hsame]
    unfold rounds
    rw [List.map_cons, List.sum_cons]
    split <;> omega
  · have hsum : rounds todo' (seen ++ [i]) = rounds (i :: todo) (seen ++ [i]) :=
      (hperm.map _).sum_eq
    rw [hsum]
    have hself : rounds (i :: todo) (seen ++ [i]) = 1 + rounds todo (seen ++ [i]) := by
      simp [rounds]
    have hself' : rounds (i :: todo) seen = 2 + rounds todo seen := by
      simp [rounds, hseen]
    omega

theorem TimerManager.timeoutLoop_stop {now : UInt64} {stop it : Option ℕ} (h : it = stop) (k : ℕ)
    (m : TimerManager Cb) (cbs : List (ℕ × Option Cb)) :
    TimerManager.timeoutLoop now stop k it m cbs = .ok (m, cbs) := by
  cases k with
  | zero => rw [timeoutLoop, if_pos h]
  | succ k =>
      cases it with
      | none => rw [timeoutLoop, if_pos h]
      | some i => rw [timeoutLoop, if_pos h]

/-- The rule for the loop: what each round preserves holds when it stops, and it does stop. -/
theorem TimeoutLoop.run {now : UInt64} {stop : Option ℕ}
    {I : List ℕ → List ℕ → List (ℕ × Option Cb) → TimerManager Cb → Prop}
    (hstep : ∀ {it i done todo rest cbs m it' done' todo' rest'},
      TimeoutLoop now stop it done (i :: todo) rest (cbs.map Prod.fst) m → I (i :: todo) rest cbs m →
      TimeoutLoop now stop it' done' todo' rest' (cbs.map Prod.fst ++ [i]) (m.expire now i) →
      (todo' = todo ∨ todo'.Perm (i :: todo) ∧ i ∉ cbs.map Prod.fst ∧
        (m.timer i).recurring = true ∧ todo ≠ [] ∧
        ∀ j ∈ rest, (m.expire now i).key i < (m.expire now i).key j) →
      (∀ j ∈ rest, j ∈ rest') →
      I todo' rest' (cbs ++ [(i, (m.timer i).cb)]) (m.expire now i)) :
    ∀ (k : ℕ) {it : Option ℕ} {done todo rest : List ℕ} {cbs : List (ℕ × Option Cb)}
      {m : TimerManager Cb}, TimeoutLoop now stop it done todo rest (cbs.map Prod.fst) m →
      I todo rest cbs m → rounds todo (cbs.map Prod.fst) ≤ k →
      ∃ m' cbs' rest', TimerManager.timeoutLoop now stop k it m cbs = .ok (m', cbs') ∧
        m'.Valid ∧ I [] rest' cbs' m' := by
  intro k
  induction k with
  | zero =>
      intro it done todo rest cbs m h hI hk
      cases todo with
      | nil =>
          have hit : it = stop := h.it.trans h.stop.symm
          exact ⟨m, cbs, rest, TimerManager.timeoutLoop_stop hit _ m cbs, h.valid, hI⟩
      | cons i todo =>
          have : 1 ≤ rounds (i :: todo) (cbs.map Prod.fst) := by
            unfold rounds
            rw [List.map_cons, List.sum_cons]
            split <;> omega
          omega
  | succ k ih =>
      intro it done todo rest cbs m h hI hk
      cases todo with
      | nil =>
          have hit : it = stop := h.it.trans h.stop.symm
          exact ⟨m, cbs, rest, TimerManager.timeoutLoop_stop hit _ m cbs, h.valid, hI⟩
      | cons i todo =>
          have hit : it = some i := h.it
          obtain ⟨done', todo', rest', h', htodo, hrest⟩ := h.visit
          obtain ⟨-, hnot, hnotRest⟩ := h.notMem
          -- the iterator is not at `timeoutEndIt`
          have hne : ¬ it = stop := by
            rw [hit, h.stop]
            intro heq
            exact hnotRest (List.mem_of_head? heq.symm)
          have hseen : (cbs ++ [(i, (m.timer i).cb)]).map Prod.fst = cbs.map Prod.fst ++ [i] := by
            simp
          have hlt := rounds_cons hnot (htodo.imp_right fun hback => ⟨hback.1, hback.2.1⟩)
          obtain ⟨m', cbs', rest'', hrun, hvalid, hI'⟩ := ih (hseen ▸ h') (hstep h hI h' htodo hrest)
            (by rw [hseen]; omega)
          refine ⟨m', cbs', rest'', ?_, hvalid, hI'⟩
          rw [hit] at hne ⊢
          rw [TimerManager.timeoutLoop, if_neg hne]
          exact hrun

/-- The cut at `timeoutEndIt`: what lies before it has expired, the rest has not. -/
theorem TimerManager.Valid.timeoutEndIt (h : m.Valid) (now : UInt64) (addr : ℕ) :
    ∃ todo rest, m.timers = todo ++ rest ∧ m.timeoutEndIt now addr = rest.head? ∧
      (∀ i ∈ todo, (m.timer i).next.toNat ≤ now.toNat) ∧
      ∀ i ∈ rest, now.toNat < (m.timer i).next.toNat := by
  have hup : ∀ i j, m.key i < m.key j → (m.timer i).next.toNat ≤ (m.timer j).next.toNat := by
    intro i j hlt
    rcases key_lt.1 hlt with hlt | ⟨heq, -⟩
    · exact hlt.le
    · exact heq.le
  obtain ⟨p, hp⟩ : ∃ p, p = fun i => (m.timer i).comparator { addr := addr, next := now } := ⟨_, rfl⟩
  obtain ⟨q, hq⟩ : ∃ q, q = fun i => now == (m.timer i).next := ⟨_, rfl⟩
  have hp_iff : ∀ i, p i = true → (m.timer i).next.toNat ≤ now.toNat := by
    intro i hi
    rw [hp, Timer.comparator_iff] at hi
    simp only at hi
    omega
  have hp_not : ∀ i, p i = false → now.toNat ≤ (m.timer i).next.toNat := by
    intro i hi
    have hi : ¬ p i = true := by simp [hi]
    rw [hp, Timer.comparator_iff] at hi
    simp only at hi
    omega
  have hlower : ∀ i ∈ m.timers.dropWhile p, now.toNat ≤ (m.timer i).next.toNat :=
    h.ascending.forall_dropWhile (fun i j hlt hi => hi.trans (hup i j hlt)) fun i _ => hp_not i
  have hasc : OrderedSet.Ascending m.key (m.timers.dropWhile p) :=
    List.Pairwise.sublist (List.dropWhile_sublist p) h.ascending
  refine ⟨m.timers.takeWhile p ++ (m.timers.dropWhile p).takeWhile q,
    (m.timers.dropWhile p).dropWhile q, ?_, ?_, fun i hi => ?_, ?_⟩
  · rw [List.append_assoc, List.takeWhile_append_dropWhile, List.takeWhile_append_dropWhile]
  · rw [TimerManager.timeoutEndIt, hp, hq]
  · rcases List.mem_append.1 hi with hi | hi
    · exact hp_iff i (List.all_eq_true.1 List.all_takeWhile i hi)
    · have hnow : now = (m.timer i).next := by
        have := List.all_eq_true.1 List.all_takeWhile i hi
        rw [hq] at this
        simpa using this
      rw [← hnow]
  · refine hasc.forall_dropWhile (fun i j hlt hi => hi.trans_le (hup i j hlt)) fun i hi hqi => ?_
    refine lt_of_le_of_ne (hlower i hi) fun heq => ?_
    rw [hq] at hqi
    simp only [beq_eq_false_iff_ne, ne_eq] at hqi
    exact hqi (UInt64.toNat_inj.1 heq)

/-- A rollover needs a clock that has gone back. -/
theorem TimerManager.lt_of_clockRollover {now : UInt64} (h : (m.clockRollover now).2 = true) :
    now < m.previousTime := by
  simp only [TimerManager.clockRollover, Bool.and_eq_true, decide_eq_true_eq] at h
  exact h.1

/-- The rule for `timeoutCallbacks`: it ends without a fault, and what the visit of a timer
    preserves holds at the end. Without a rollover it starts with the timers that have expired. -/
theorem TimerManager.Valid.timeoutCallbacks (h : m.Valid) (now : UInt64) (addr : ℕ)
    {I : List ℕ → List ℕ → List (ℕ × Option Cb) → TimerManager Cb → Prop}
    (hstart : ∀ todo rest, m.timers = todo ++ rest →
      ((m.clockRollover now).2 = true ∨ (∀ i ∈ todo, (m.timer i).next.toNat ≤ now.toNat) ∧
        ∀ i ∈ rest, now.toNat < (m.timer i).next.toNat) →
      ∀ previousTime, previousTime = m.previousTime ∨ previousTime = now →
        I todo rest [] { m with previousTime := previousTime })
    (hstep : ∀ {stop it i done todo rest cbs m it' done' todo' rest'},
      TimeoutLoop now stop it done (i :: todo) rest (cbs.map Prod.fst) m → I (i :: todo) rest cbs m →
      TimeoutLoop now stop it' done' todo' rest' (cbs.map Prod.fst ++ [i]) (m.expire now i) →
      (todo' = todo ∨ todo'.Perm (i :: todo) ∧ i ∉ cbs.map Prod.fst ∧
        (m.timer i).recurring = true ∧ todo ≠ [] ∧
        ∀ j ∈ rest, (m.expire now i).key i < (m.expire now i).key j) →
      (∀ j ∈ rest, j ∈ rest') →
      I todo' rest' (cbs ++ [(i, (m.timer i).cb)]) (m.expire now i)) :
    (m.timeoutCallbacks now addr).fault = none ∧ (m.timeoutCallbacks now addr).manager.Valid ∧
      ∃ rest, I [] rest (m.timeoutCallbacks now addr).cbs (m.timeoutCallbacks now addr).manager := by
  unfold TimerManager.timeoutCallbacks
  cases hhead : m.timers.head? with
  | none =>
      have hnil : m.timers = [] := List.head?_eq_none_iff.1 hhead
      refine ⟨rfl, h, [], hstart [] [] hnil (Or.inr ⟨by simp, by simp⟩) m.previousTime (Or.inl rfl)⟩
  | some first =>
      have hm₀ : ({ m with previousTime := now } : TimerManager Cb).Valid := h.congr rfl rfl rfl
      have hfirst : ∀ i ∈ m.timers, (m.timer first).next.toNat ≤ (m.timer i).next.toNat := by
        obtain ⟨l, hl⟩ := List.head?_eq_some_iff.1 hhead
        intro i hi
        rw [hl] at hi
        rcases List.mem_cons.1 hi with rfl | hi
        · exact le_rfl
        · have hlt := (List.pairwise_cons.1 (hl ▸ h.ascending)).1 i hi
          rcases key_lt.1 hlt with hlt | ⟨heq, -⟩
          · exact hlt.le
          · exact heq.le
      simp only [TimerManager.clockRollover]
      by_cases hroll : (decide (now < m.previousTime)
          && decide (now < m.previousTime - 60 * 60 * 1000)) = true
      · have hloop : TimeoutLoop now none (some first) [] m.timers []
            (([] : List (ℕ × Option Cb)).map Prod.fst) { m with previousTime := now } :=
          ⟨hm₀, by simp, by simpa using hhead.symm, rfl, by simp⟩
        obtain ⟨m', cbs, rest, hrun, hvalid, hI⟩ := TimeoutLoop.run hstep
          (2 * m.timers.length) hloop
          (hstart m.timers [] (by simp) (Or.inl hroll) now (Or.inr rfl)) (TimeoutLoop.rounds_le _ _)
        simp only [hroll, Bool.not_true, Bool.false_and, Bool.false_eq_true, if_false, if_true, hrun]
        exact ⟨trivial, hvalid, rest, hI⟩
      · rw [Bool.not_eq_true] at hroll
        simp only [hroll, Bool.not_false, Bool.true_and, Bool.false_eq_true, if_false]
        by_cases hlater : (m.timer first).next > now
        · rw [if_pos (by simpa using hlater)]
          have hlater : now.toNat < (m.timer first).next.toNat := UInt64.lt_iff_toNat_lt.1 hlater
          exact ⟨rfl, hm₀, m.timers, hstart [] m.timers rfl
            (Or.inr ⟨by simp, fun i hi => hlater.trans_le (hfirst i hi)⟩) now (Or.inr rfl)⟩
        · rw [if_neg (by simpa using hlater)]
          obtain ⟨todo, rest, htimers, hstop, htodo, hrest⟩ := hm₀.timeoutEndIt now addr
          have hloop : TimeoutLoop now (({ m with previousTime := now } :
              TimerManager Cb).timeoutEndIt now addr) (some first) [] todo rest
              (([] : List (ℕ × Option Cb)).map Prod.fst) { m with previousTime := now } :=
            ⟨hm₀, by simpa using htimers, by rw [← htimers]; exact hhead.symm, hstop, by simp⟩
          have hk : TimeoutLoop.rounds todo [] ≤ 2 * m.timers.length := by
            have hle := TimeoutLoop.rounds_le todo []
            have hlen : m.timers.length = todo.length + rest.length := by
              rw [← List.length_append, ← htimers]
            omega
          obtain ⟨m', cbs, rest', hrun, hvalid, hI⟩ := TimeoutLoop.run hstep
            (2 * m.timers.length) hloop
            (hstart todo rest htimers (Or.inr ⟨htodo, hrest⟩) now (Or.inr rfl)) hk
          simp only [hrun]
          exact ⟨trivial, hvalid, rest', hI⟩

end RaftKVStorage
