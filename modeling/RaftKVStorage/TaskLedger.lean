import RaftKVStorage.Scheduler

set_option autoImplicit false

/-! # No task is lost

A task goes from the queue to the thread that takes it, and from there to the coroutine that is
entered for it. A coroutine may put its own wake-up into the queue before it yields, so another
thread may take the task too early: `resume` then returns at once and the task has gone, or it
switches into a context that is not saved yet. While neither happens every task is accounted for. -/

namespace RaftKVStorage

open GuardedRun

variable {F : Type}

/-- The task a thread holds and has not entered a coroutine for. -/
def SchedulerPc.task : SchedulerPc F → Option (SchedulerTask F)
  | .took tsk => some tsk
  | .resume tsk _ => some tsk
  | _ => none

/-- The coroutine a thread is in. -/
def SchedulerPc.coroutine : SchedulerPc F → Option ℕ
  | .running c => some c
  | .yield c => some c
  | _ => none

def Scheduler.Holds (S : Scheduler F) (t : ℤ) (tsk : SchedulerTask F) : Prop :=
  (S.threads t).task = some tsk

def Scheduler.Runs (S : Scheduler F) (t : ℤ) (c : ℕ) : Prop := (S.threads t).coroutine = some c

/-- Every task put into the queue is in it or has been taken off it once, by a thread it is not
    pinned away from; a task taken is held by its thread until the one time its coroutine, or a new
    one with its function, is entered; and no two threads are in one coroutine. -/
structure Scheduler.Ledger (S : Scheduler F) : Prop where
  accounted : ((S.tasks ++ S.taken.map Prod.snd).map (·.number)).Perm (List.range S.added)
  allowed : ∀ t tsk, (t, tsk) ∈ S.taken → ¬ tsk.Barred t
  served : ∀ t tsk, (t, tsk) ∈ S.taken → S.Holds t tsk ∨ ∃ c, (tsk, c) ∈ S.served
  once : (S.served.map fun x => x.1.number).Nodup
  held : ∀ t tsk c, S.Holds t tsk → (tsk, c) ∉ S.served
  entered : ∀ tsk c, (tsk, c) ∈ S.served → (∃ t, (t, tsk) ∈ S.taken) ∧
    (tsk.coroutine = some c ∨ tsk.coroutine = none ∧ (S.coroutines c).func = tsk.func)
  alone : ∀ t t' c, S.Runs t c → S.Runs t' c → t = t'

/-- A thread that resumes the coroutine of a task finds it `READY`, and when it switches into it the
    coroutine is still `READY` and its context is saved. -/
def Scheduler.Yielded (S : Scheduler F) : SchedulerStep F → Prop
  | .next t _ =>
      match S.threads t with
      | .took tsk => ∀ c ∈ tsk.coroutine, (S.coroutines c).state = .READY
      | .resume _ c => (S.coroutines c).state = .READY ∧ (S.coroutines c).saved = true
      | _ => True
  | _ => True

/-! ## The queue -/

section Queue

variable {t : ℤ} {tsk : SchedulerTask F}

/-- What a thread takes: nothing if every task is pinned to other threads, else the first task that
    is not. -/
theorem takeTask_cases (t : ℤ) (tasks : List (SchedulerTask F)) :
    takeTask t tasks = (none, tasks) ∨
      ∃ pre tsk post, tasks = pre ++ tsk :: post ∧ takeTask t tasks = (some tsk, pre ++ post) ∧
        ¬ tsk.Barred t := by
  induction tasks with
  | nil => exact Or.inl rfl
  | cons x tasks ih =>
      by_cases hx : x.Barred t
      · rw [takeTask, if_pos hx]
        rcases ih with hnone | ⟨pre, tsk, post, heq, htake, hfree⟩
        · rw [hnone]
          exact Or.inl rfl
        · rw [htake]
          exact Or.inr ⟨x :: pre, tsk, post, by rw [heq]; rfl, rfl, hfree⟩
      · rw [takeTask, if_neg hx]
        exact Or.inr ⟨[], x, tasks, rfl, rfl, hx⟩

/-- What a selection does to a task in the queue: one ahead of it goes, or it goes itself, or it is
    pinned to another thread and stays where it is. -/
theorem takeTask_ahead (t : ℤ) (pre : List (SchedulerTask F)) (tsk : SchedulerTask F)
    (post : List (SchedulerTask F)) :
    (∃ x pre', takeTask t (pre ++ tsk :: post) = (some x, pre' ++ tsk :: post) ∧
        pre'.length + 1 = pre.length) ∨
      takeTask t (pre ++ tsk :: post) = (some tsk, pre ++ post) ∨
      tsk.Barred t ∧ ∃ r post', takeTask t (pre ++ tsk :: post) = (r, pre ++ tsk :: post') := by
  induction pre with
  | nil =>
      by_cases htsk : tsk.Barred t
      · refine Or.inr (Or.inr ⟨htsk, (takeTask t post).1, (takeTask t post).2, ?_⟩)
        rw [List.nil_append, takeTask, if_pos htsk]
        rfl
      · refine Or.inr (Or.inl ?_)
        rw [List.nil_append, takeTask, if_neg htsk]
        rfl
  | cons x pre ih =>
      by_cases hx : x.Barred t
      · rw [List.cons_append, takeTask, if_pos hx]
        rcases ih with ⟨y, pre', htake, hlen⟩ | htake | ⟨htsk, r, post', htake⟩
        · refine Or.inl ⟨y, x :: pre', ?_, ?_⟩
          · rw [htake]
            rfl
          · rw [List.length_cons, List.length_cons, hlen]
        · refine Or.inr (Or.inl ?_)
          rw [htake]
          rfl
        · refine Or.inr (Or.inr ⟨htsk, r, post', ?_⟩)
          rw [htake]
          rfl
      · refine Or.inl ⟨x, pre, ?_, rfl⟩
        rw [List.cons_append, takeTask, if_neg hx]

end Queue

/-! ## One step -/

/-- The ledger, with what keeps it: a task held is a task taken, and a coroutine a thread is in has
    no saved context. -/
structure Scheduler.Inv (S : Scheduler F) : Prop extends S.Ledger where
  job : ∀ tsk, (tsk ∈ S.tasks ∨ ∃ t, S.Holds t tsk) →
    (tsk.coroutine.isSome ∨ tsk.func.isSome) ∧ ∀ c ∈ tsk.coroutine, c < S.made
  holds : ∀ t tsk, S.Holds t tsk → (t, tsk) ∈ S.taken
  resume : ∀ t tsk c, S.threads t = .resume tsk c → tsk.coroutine = some c
  runs : ∀ t c, S.Runs t c → c < S.made ∧ (S.coroutines c).saved = false
  made : ∀ tsk c, (tsk, c) ∈ S.served → c < S.made

section Step

variable {S : Scheduler F} {t t' : ℤ} {tsk : SchedulerTask F} {c : ℕ} {pc : SchedulerPc F}

@[simp] theorem Scheduler.goto_threads_self : (S.goto t pc).threads t = pc := by
  simp [Scheduler.goto]

theorem Scheduler.goto_threads_of_ne (h : t' ≠ t) : (S.goto t pc).threads t' = S.threads t' := by
  simp [Scheduler.goto, h]

theorem Scheduler.inv_start : ({} : Scheduler F).Inv := by
  refine ⟨⟨List.Perm.refl _, fun t tsk h => ?_, fun t tsk h => ?_, List.nodup_nil,
    fun t tsk c h => ?_, fun tsk c h => ?_, fun t t' c h => ?_⟩, fun tsk h => ?_, fun t tsk h => ?_,
    fun t tsk c h => ?_, fun t c h => ?_, fun tsk c h => ?_⟩
  · cases h
  · cases h
  · cases h
  · cases h
  · cases h
  · rcases h with h | ⟨t, h⟩ <;> cases h
  · cases h
  · cases h
  · cases h
  · cases h

theorem Scheduler.Ledger.numbers (h : S.Ledger) :
    (S.tasks.map (·.number) ++ S.taken.map fun x => x.2.number).Nodup := by
  have hnodup := h.accounted.nodup_iff.2 List.nodup_range
  rwa [List.map_append, List.map_map] at hnodup

/-- A task is taken once. -/
theorem Scheduler.Ledger.taken_inj (h : S.Ledger) {tsk' : SchedulerTask F}
    (hx : (t, tsk) ∈ S.taken) (hy : (t', tsk') ∈ S.taken) (heq : tsk.number = tsk'.number) :
    t = t' ∧ tsk = tsk' := by
  have hinj := List.inj_on_of_nodup_map h.numbers.of_append_right hx hy heq
  exact ⟨congrArg Prod.fst hinj, congrArg Prod.snd hinj⟩

/-- A task in the queue has not been taken. -/
theorem Scheduler.Ledger.not_mem_taken (h : S.Ledger) (hmem : tsk ∈ S.tasks) :
    (t, tsk) ∉ S.taken := by
  intro htaken
  have hdisjoint := List.disjoint_of_nodup_append h.numbers
  exact hdisjoint (List.mem_map_of_mem hmem) (List.mem_map_of_mem (f := fun x => x.2.number) htaken)

theorem Scheduler.Inv.addTask (h : S.Inv) {co : Option ℕ} (func : Option F) (thread : ℤ)
    (hco : ∀ c ∈ co, c < S.made) : (S.addTask co func thread).Inv := by
  unfold Scheduler.addTask
  split
  · rename_i hjob
    refine ⟨⟨?_, h.allowed, h.served, h.once, h.held, h.entered, h.alone⟩, fun tsk htsk => ?_,
      h.holds, h.resume, h.runs, h.made⟩
    · -- the new number goes behind those in the queue
      have hmiddle : ∀ new : SchedulerTask F, new.number = S.added →
          ((S.tasks ++ [new] ++ S.taken.map Prod.snd).map (·.number)).Perm
            (List.range S.added ++ [S.added]) := by
        intro new hnew
        simp only [List.map_append, List.map_cons, List.map_nil, List.append_assoc, hnew]
        refine (List.Perm.append_left _ List.perm_append_comm).trans ?_
        rw [← List.append_assoc, ← List.map_append]
        exact h.accounted.append_right _
      rw [List.range_succ]
      exact hmiddle _ rfl
    · rcases htsk with htsk | htsk
      · rcases List.mem_append.1 htsk with htsk | htsk
        · exact h.job tsk (Or.inl htsk)
        · rw [List.mem_singleton.1 htsk]
          exact ⟨hjob, hco⟩
      · exact h.job tsk (Or.inr htsk)
  · exact h

theorem Scheduler.Inv.newCoroutine (h : S.Inv) (func : Option F) : (S.newCoroutine func).Inv := by
  have hold : ∀ c, c < S.made → (S.newCoroutine func).coroutines c = S.coroutines c := by
    intro c hc
    simp [Scheduler.newCoroutine, hc.ne]
  refine ⟨⟨h.accounted, h.allowed, h.served, h.once, h.held, fun tsk c hserved => ?_, h.alone⟩,
    fun tsk htsk => ?_, h.holds, h.resume, fun t c hruns => ?_, fun tsk c hserved => ?_⟩
  · rw [hold c (h.made tsk c hserved)]
    exact h.entered tsk c hserved
  · exact ⟨(h.job tsk htsk).1, fun c hc => Nat.lt_succ_of_lt ((h.job tsk htsk).2 c hc)⟩
  · obtain ⟨hlt, hsaved⟩ := h.runs t c hruns
    rw [hold c hlt]
    exact ⟨Nat.lt_succ_of_lt hlt, hsaved⟩
  · exact Nat.lt_succ_of_lt (h.made tsk c hserved)

/-- A coroutine's state changes; while a thread is in it its context is not saved. -/
theorem Scheduler.Inv.setState (h : S.Inv) (state : CoroutineState) {saved : Bool}
    (hsaved : (∃ t, S.Runs t c) → saved = false) : (S.setState c state saved).Inv := by
  have hfunc : ∀ c', ((S.setState c state saved).coroutines c').func = (S.coroutines c').func := by
    intro c'
    by_cases hc : c' = c
    · rw [hc]
      simp [Scheduler.setState]
    · simp [Scheduler.setState, hc]
  refine ⟨⟨h.accounted, h.allowed, h.served, h.once, h.held, fun tsk c' hserved => ?_, h.alone⟩,
    h.job, h.holds, h.resume, fun t c' hruns => ⟨(h.runs t c' hruns).1, ?_⟩, h.made⟩
  · rw [hfunc]
    exact h.entered tsk c' hserved
  · by_cases hc : c' = c
    · subst hc
      simpa [Scheduler.setState] using hsaved ⟨t, hruns⟩
    · simpa [Scheduler.setState, hc] using (h.runs t c' hruns).2

/-- A thread goes on with the task or the coroutine it has. -/
theorem Scheduler.Inv.goto (h : S.Inv) (htask : pc.task = (S.threads t).task)
    (hco : pc.coroutine = (S.threads t).coroutine)
    (hresume : ∀ tsk c, pc = .resume tsk c → tsk.coroutine = some c) : (S.goto t pc).Inv := by
  have hholds : ∀ t' tsk, (S.goto t pc).Holds t' tsk ↔ S.Holds t' tsk := by
    intro t' tsk
    unfold Scheduler.Holds
    by_cases ht : t' = t
    · rw [ht, goto_threads_self, htask]
    · rw [goto_threads_of_ne ht]
  have hruns : ∀ t' c, (S.goto t pc).Runs t' c ↔ S.Runs t' c := by
    intro t' c
    unfold Scheduler.Runs
    by_cases ht : t' = t
    · rw [ht, goto_threads_self, hco]
    · rw [goto_threads_of_ne ht]
  refine ⟨⟨h.accounted, h.allowed, fun t' tsk hmem => ?_, h.once, fun t' tsk c hh => ?_, h.entered,
    fun t' t'' c h1 h2 => ?_⟩, fun tsk htsk => h.job tsk ?_, fun t' tsk hh => ?_,
    fun t' tsk c hpc => ?_, fun t' c hr => h.runs t' c ((hruns t' c).1 hr), h.made⟩
  · rw [hholds]
    exact h.served t' tsk hmem
  · exact h.held t' tsk c ((hholds t' tsk).1 hh)
  · exact h.alone t' t'' c ((hruns t' c).1 h1) ((hruns t'' c).1 h2)
  · rcases htsk with htsk | ⟨t', hh⟩
    · exact Or.inl htsk
    · exact Or.inr ⟨t', (hholds t' tsk).1 hh⟩
  · exact h.holds t' tsk ((hholds t' tsk).1 hh)
  · by_cases ht : t' = t
    · rw [ht, goto_threads_self] at hpc
      exact hresume tsk c hpc
    · rw [goto_threads_of_ne ht] at hpc
      exact h.resume t' tsk c hpc

/-- A thread takes a task off the queue. -/
theorem Scheduler.Inv.take (h : S.Inv) (hpc : S.threads t = .schedule)
    {pre post : List (SchedulerTask F)} (htasks : S.tasks = pre ++ tsk :: post)
    (hfree : ¬ tsk.Barred t) :
    Scheduler.Inv { S.goto t (.took tsk) with
      tasks := pre ++ post
      taken := (t, tsk) :: S.taken } := by
  have hmem : tsk ∈ S.tasks := by simp [htasks]
  have hsub : ∀ x ∈ pre ++ post, x ∈ S.tasks := by
    intro x hx
    rw [htasks]
    exact (List.perm_middle.mem_iff).2 (List.mem_cons_of_mem _ hx)
  have hnone : ∀ x, ¬ S.Holds t x := by
    intro x hx
    rw [Scheduler.Holds, hpc] at hx
    cases hx
  have hholds : ∀ t' x, ((S.goto t (.took tsk)).threads t').task = some x →
      t' = t ∧ x = tsk ∨ t' ≠ t ∧ S.Holds t' x := by
    intro t' x hx
    by_cases ht : t' = t
    · rw [ht, goto_threads_self] at hx
      exact Or.inl ⟨ht, (Option.some.inj hx).symm⟩
    · rw [goto_threads_of_ne ht] at hx
      exact Or.inr ⟨ht, hx⟩
  have hruns : ∀ t' c, ((S.goto t (.took tsk)).threads t').coroutine = some c → S.Runs t' c := by
    intro t' c hc
    by_cases ht : t' = t
    · rw [ht, goto_threads_self] at hc
      cases hc
    · rwa [goto_threads_of_ne ht] at hc
  refine ⟨⟨?_, fun t' x hx => ?_, fun t' x hx => ?_, h.once, fun t' x c hx hserved => ?_,
    fun x c hserved => ?_, fun t' t'' c h1 h2 => ?_⟩, fun x hx => ?_, fun t' x hx => ?_,
    fun t' x c hx => ?_, fun t' c hc => h.runs t' c (hruns t' c hc), h.made⟩
  · have hperm : (pre ++ post ++ tsk :: S.taken.map Prod.snd).Perm
        (S.tasks ++ S.taken.map Prod.snd) := by
      rw [htasks]
      have hfront : (pre ++ tsk :: post).Perm (tsk :: (pre ++ post)) := List.perm_middle
      exact List.perm_middle.trans (hfront.symm.append_right _)
    exact (hperm.map _).trans h.accounted
  · rcases List.mem_cons.1 hx with heq | hx
    · cases heq
      exact hfree
    · exact h.allowed t' x hx
  · rcases List.mem_cons.1 hx with heq | hx
    · cases heq
      refine Or.inl ?_
      simp [Scheduler.Holds, SchedulerPc.task]
    · rcases h.served t' x hx with hold | hserved
      · have ht : t' ≠ t := fun ht => hnone x (ht ▸ hold)
        refine Or.inl ?_
        unfold Scheduler.Holds at hold ⊢
        dsimp only
        rwa [goto_threads_of_ne ht]
      · exact Or.inr hserved
  · rcases hholds t' x hx with ⟨-, rfl⟩ | ⟨-, hold⟩
    · obtain ⟨⟨t₀, htaken⟩, -⟩ := h.entered x c hserved
      exact h.not_mem_taken hmem htaken
    · exact h.held t' x c hold hserved
  · obtain ⟨⟨t₀, htaken⟩, hco⟩ := h.entered x c hserved
    exact ⟨⟨t₀, List.mem_cons_of_mem _ htaken⟩, hco⟩
  · exact h.alone t' t'' c (hruns t' c h1) (hruns t'' c h2)
  · rcases hx with hx | ⟨t', hx⟩
    · exact h.job x (Or.inl (hsub x hx))
    · rcases hholds t' x hx with ⟨-, rfl⟩ | ⟨-, hold⟩
      · exact h.job x (Or.inl hmem)
      · exact h.job x (Or.inr ⟨t', hold⟩)
  · rcases hholds t' x hx with ⟨rfl, rfl⟩ | ⟨-, hold⟩
    · exact List.mem_cons_self
    · exact List.mem_cons_of_mem _ (h.holds t' x hold)
  · by_cases ht : t' = t
    · dsimp only at hx
      rw [ht, goto_threads_self] at hx
      cases hx
    · dsimp only at hx
      rw [goto_threads_of_ne ht] at hx
      exact h.resume t' x c hx

/-- A thread is out of its coroutine. -/
theorem Scheduler.Inv.leave (h : S.Inv) (hpc : S.threads t = .yield c) :
    (S.goto t .schedule).Inv ∧ ∀ t', ¬ (S.goto t .schedule).Runs t' c := by
  have hrun : S.Runs t c := by
    rw [Scheduler.Runs, hpc]
    rfl
  have hholds : ∀ t' x, (S.goto t .schedule).Holds t' x ↔ S.Holds t' x := by
    intro t' x
    unfold Scheduler.Holds
    by_cases ht : t' = t
    · rw [ht, goto_threads_self, hpc]
      rfl
    · rw [goto_threads_of_ne ht]
  have hruns : ∀ t' c', (S.goto t .schedule).Runs t' c' → t' ≠ t ∧ S.Runs t' c' := by
    intro t' c' hc
    unfold Scheduler.Runs at hc
    by_cases ht : t' = t
    · rw [ht, goto_threads_self] at hc
      cases hc
    · rw [goto_threads_of_ne ht] at hc
      exact ⟨ht, hc⟩
  refine ⟨⟨⟨h.accounted, h.allowed, fun t' x hx => ?_, h.once, fun t' x c hx => ?_, h.entered,
    fun t' t'' c h1 h2 => ?_⟩, fun x hx => h.job x ?_, fun t' x hx => ?_, fun t' x c hx => ?_,
    fun t' c hc => h.runs t' c (hruns t' c hc).2, h.made⟩, fun t' hc => ?_⟩
  · rw [hholds]
    exact h.served t' x hx
  · exact h.held t' x c ((hholds t' x).1 hx)
  · exact h.alone t' t'' c (hruns t' c h1).2 (hruns t'' c h2).2
  · rcases hx with hx | ⟨t', hx⟩
    · exact Or.inl hx
    · exact Or.inr ⟨t', (hholds t' x).1 hx⟩
  · exact h.holds t' x ((hholds t' x).1 hx)
  · by_cases ht : t' = t
    · rw [ht, goto_threads_self] at hx
      cases hx
    · rw [goto_threads_of_ne ht] at hx
      exact h.resume t' x c hx
  · obtain ⟨hne, hold⟩ := hruns t' c hc
    exact hne (h.alone t' t c hold hrun)

/-- A thread enters a coroutine for the task it holds. No other thread is in it. -/
theorem Scheduler.Inv.enter (h : S.Inv) (hhold : S.Holds t tsk) (hc : c < S.made)
    (hco : tsk.coroutine = some c ∨ tsk.coroutine = none ∧ (S.coroutines c).func = tsk.func)
    (hsaved : ∀ t', ¬ S.Runs t' c) : (S.enter t tsk c).Inv := by
  have hset : (S.setState c .RUNNING false).Inv := h.setState .RUNNING fun _ => rfl
  have htaken := h.holds t tsk hhold
  have hholds : ∀ t' x, (S.enter t tsk c).Holds t' x → t' ≠ t ∧ S.Holds t' x := by
    intro t' x hx
    by_cases ht : t' = t
    · rw [Scheduler.Holds, ht] at hx
      change ((S.goto t (.running c)).threads t).task = some x at hx
      rw [goto_threads_self] at hx
      cases hx
    · change ((S.goto t (.running c)).threads t').task = some x at hx
      rw [goto_threads_of_ne ht] at hx
      exact ⟨ht, hx⟩
  have hruns : ∀ t' c', (S.enter t tsk c).Runs t' c' → t' = t ∧ c' = c ∨ t' ≠ t ∧ S.Runs t' c' := by
    intro t' c' hx
    by_cases ht : t' = t
    · rw [Scheduler.Runs, ht] at hx
      change ((S.goto t (.running c)).threads t).coroutine = some c' at hx
      rw [goto_threads_self] at hx
      exact Or.inl ⟨ht, (Option.some.inj hx).symm⟩
    · change ((S.goto t (.running c)).threads t').coroutine = some c' at hx
      rw [goto_threads_of_ne ht] at hx
      exact Or.inr ⟨ht, hx⟩
  have hfresh : ∀ y ∈ S.served, y.1.number ≠ tsk.number := by
    rintro ⟨y, c'⟩ hy heq
    obtain ⟨⟨t₀, hy₀⟩, -⟩ := h.entered y c' hy
    obtain ⟨-, rfl⟩ := h.taken_inj hy₀ htaken heq
    exact h.held t y c' hhold hy
  refine ⟨⟨h.accounted, h.allowed, fun t' x hx => ?_, ?_, fun t' x c' hx hserved => ?_,
    fun x c' hserved => ?_, fun t' t'' c' h1 h2 => ?_⟩, fun x hx => ?_, fun t' x hx => ?_,
    fun t' x c' hx => ?_, fun t' c' hx => ?_, fun x c' hserved => ?_⟩
  · rcases h.served t' x hx with hold | ⟨c', hserved⟩
    · by_cases ht : t' = t
      · subst ht
        have heq : x = tsk := Option.some.inj (hold.symm.trans hhold)
        exact Or.inr ⟨c, heq ▸ List.mem_cons_self⟩
      · refine Or.inl ?_
        unfold Scheduler.Holds at hold ⊢
        change ((S.goto t (.running c)).threads t').task = some x
        rwa [goto_threads_of_ne ht]
    · exact Or.inr ⟨c', List.mem_cons_of_mem _ hserved⟩
  · refine List.nodup_cons.2 ⟨fun hmem => ?_, h.once⟩
    obtain ⟨y, hy, heq⟩ := List.mem_map.1 hmem
    exact hfresh y hy heq
  · obtain ⟨hne, hold⟩ := hholds t' x hx
    rcases List.mem_cons.1 hserved with heq | hserved
    · cases heq
      exact hne (h.taken_inj (h.holds t' _ hold) htaken rfl).1
    · exact h.held t' x c' hold hserved
  · rcases List.mem_cons.1 hserved with heq | hserved
    · cases heq
      refine ⟨⟨t, htaken⟩, hco.imp_right fun hnew => ⟨hnew.1, ?_⟩⟩
      simpa [Scheduler.enter, Scheduler.goto, Scheduler.setState] using hnew.2
    · exact hset.entered x c' hserved
  · rcases hruns t' c' h1 with ⟨rfl, rfl⟩ | ⟨-, hold⟩
    · rcases hruns t'' _ h2 with ⟨rfl, -⟩ | ⟨-, hold'⟩
      · rfl
      · exact absurd hold' (hsaved t'')
    · rcases hruns t'' c' h2 with ⟨-, rfl⟩ | ⟨-, hold'⟩
      · exact absurd hold (hsaved t')
      · exact h.alone t' t'' c' hold hold'
  · rcases hx with hx | ⟨t', hx⟩
    · exact h.job x (Or.inl hx)
    · exact h.job x (Or.inr ⟨t', (hholds t' x hx).2⟩)
  · exact h.holds t' x (hholds t' x hx).2
  · by_cases ht : t' = t
    · rw [ht] at hx
      change (S.goto t (.running c)).threads t = .resume x c' at hx
      rw [goto_threads_self] at hx
      cases hx
    · change (S.goto t (.running c)).threads t' = .resume x c' at hx
      rw [goto_threads_of_ne ht] at hx
      exact h.resume t' x c' hx
  · rcases hruns t' c' hx with ⟨-, rfl⟩ | ⟨-, hold⟩
    · exact ⟨hc, by simp [Scheduler.enter, Scheduler.goto, Scheduler.setState]⟩
    · exact hset.runs t' c' hold
  · rcases List.mem_cons.1 hserved with heq | hserved
    · cases heq
      exact hc
    · exact h.made x c' hserved

/-- One case for every place a thread can stand in. -/
theorem Scheduler.Inv.next (h : S.Inv) {finish : Bool} (hok : S.Yielded (.next t finish)) :
    (S.next t finish).Inv := by
  unfold Scheduler.Yielded at hok
  dsimp only at hok
  unfold Scheduler.next
  cases hpc : S.threads t with
  | schedule =>
      dsimp only
      rcases takeTask_cases t S.tasks with hnone | ⟨pre, tsk, post, htasks, htake, hfree⟩
      · rw [hnone]
        exact h
      · rw [htake]
        exact h.take hpc htasks hfree
  | took tsk =>
      have hhold : S.Holds t tsk := by
        rw [Scheduler.Holds, hpc]
        rfl
      obtain ⟨hjob, hmade⟩ := h.job tsk (Or.inr ⟨t, hhold⟩)
      rw [hpc] at hok
      dsimp only at hok ⊢
      cases hco : tsk.coroutine with
      | some c =>
          dsimp only
          rw [if_neg (not_not.2 (hok c hco))]
          refine h.goto ?_ ?_ fun tsk' c' heq => ?_
          · rw [hpc]
            rfl
          · rw [hpc]
            rfl
          · cases heq
            exact hco
      | none =>
          dsimp only
          cases hfunc : tsk.func with
          | none => simp [hco, hfunc] at hjob
          | some f =>
              have hnew := h.newCoroutine (some f)
              refine hnew.enter hhold (Nat.lt_succ_self _) (Or.inr ⟨hco, ?_⟩) fun t' hrun => ?_
              · simp [Scheduler.newCoroutine, hfunc]
              · exact absurd (h.runs t' S.made hrun).1 (lt_irrefl _)
  | resume tsk c =>
      have hhold : S.Holds t tsk := by
        rw [Scheduler.Holds, hpc]
        rfl
      have hco := h.resume t tsk c hpc
      rw [hpc] at hok
      dsimp only at hok ⊢
      refine h.enter hhold ((h.job tsk (Or.inr ⟨t, hhold⟩)).2 c hco) (Or.inl hco) fun t' hrun => ?_
      have hsaved := (h.runs t' c hrun).2
      rw [hok.2] at hsaved
      cases hsaved
  | running c =>
      have hrun : S.Runs t c := by
        rw [Scheduler.Runs, hpc]
        rfl
      -- with whatever state, the thread goes on to `yield`
      have hyield : ∀ state, ((S.setState c state false).goto t (.yield c)).Inv := by
        intro state
        refine (h.setState state fun _ => rfl).goto ?_ ?_ fun tsk' c' heq => ?_
        · show none = (S.threads t).task
          rw [hpc]
          rfl
        · exact hrun.symm
        · cases heq
      dsimp only
      split
      · exact hyield .TERM
      · split
        · exact h
        · rw [(h.runs t c hrun).2]
          exact hyield .READY
        · refine h.goto ?_ hrun.symm fun tsk' c' heq => ?_
          · rw [hpc]
            rfl
          · cases heq
  | yield c =>
      obtain ⟨hleave, hout⟩ := h.leave hpc
      exact hleave.setState _ fun ⟨t', hrun⟩ => absurd hrun (hout t')

theorem Scheduler.Inv.step (h : S.Inv) {a : SchedulerStep F} (hcall : S.Callable a)
    (hok : S.Yielded a) : (S.step a).Inv := by
  cases a with
  | addTask co func thread => exact h.addTask func thread hcall
  | newCoroutine func => exact h.newCoroutine func
  | next t finish => exact h.next hok

end Step

/-! ## Progress -/

def SchedulerPc.isSchedule : SchedulerPc F → Bool
  | .schedule => true
  | _ => false

/-- In this step a thread looks for a task, and the task is not pinned to another thread. -/
def Scheduler.Selects (S : Scheduler F) (tsk : SchedulerTask F) : SchedulerStep F → Prop
  | .next t _ => (S.threads t).isSchedule = true ∧ ¬ tsk.Barred t
  | _ => False

instance Scheduler.Selects.decidable (S : Scheduler F) (tsk : SchedulerTask F) :
    ∀ a, Decidable (S.Selects tsk a)
  | .addTask _ _ _ => isFalse id
  | .newCoroutine _ => isFalse id
  | .next t _ => inferInstanceAs (Decidable ((S.threads t).isSchedule = true ∧ ¬ tsk.Barred t))

/-- How often that happens in a run. -/
def Scheduler.selections (tsk : SchedulerTask F) : Scheduler F → List (SchedulerStep F) → ℕ
  | _, [] => 0
  | S, a :: as => (if S.Selects tsk a then 1 else 0) + selections tsk (S.step a) as

def SchedulerStep.isNext (t : ℤ) : SchedulerStep F → Bool
  | .next t' _ => t' = t
  | _ => false

section Progress

variable {S : Scheduler F} {t t' : ℤ} {tsk : SchedulerTask F} {c : ℕ} {a : SchedulerStep F}

/-- A thread that does not look for a task leaves the queue and what was taken as they are. -/
theorem Scheduler.next_tasks (finish : Bool) (hpc : (S.threads t).isSchedule = false) :
    (S.next t finish).tasks = S.tasks ∧ (S.next t finish).taken = S.taken := by
  unfold Scheduler.next
  cases h : S.threads t with
  | schedule => simp [h, SchedulerPc.isSchedule] at hpc
  | took tsk =>
      dsimp only
      split
      · split <;> exact ⟨rfl, rfl⟩
      · split <;> exact ⟨rfl, rfl⟩
  | resume tsk c => exact ⟨rfl, rfl⟩
  | running c =>
      dsimp only
      split
      · exact ⟨rfl, rfl⟩
      · split <;> exact ⟨rfl, rfl⟩
  | yield c => exact ⟨rfl, rfl⟩

theorem Scheduler.next_schedule (finish : Bool) (hpc : (S.threads t).isSchedule = true) :
    (S.next t finish).tasks = (takeTask t S.tasks).2 ∧
      ((takeTask t S.tasks).1 = none ∧ (S.next t finish).taken = S.taken ∨
        ∃ tsk, (takeTask t S.tasks).1 = some tsk ∧
          (S.next t finish).taken = (t, tsk) :: S.taken) := by
  have hschedule : S.threads t = .schedule := by
    cases h : S.threads t with
    | schedule => rfl
    | took tsk => simp [h, SchedulerPc.isSchedule] at hpc
    | resume tsk c => simp [h, SchedulerPc.isSchedule] at hpc
    | running c => simp [h, SchedulerPc.isSchedule] at hpc
    | yield c => simp [h, SchedulerPc.isSchedule] at hpc
  unfold Scheduler.next
  rw [hschedule]
  rcases takeTask_cases t S.tasks with hnone | ⟨pre, tsk, post, -, htake, -⟩
  · rw [hnone]
    exact ⟨rfl, Or.inl ⟨rfl, rfl⟩⟩
  · rw [htake]
    exact ⟨rfl, Or.inr ⟨tsk, rfl, rfl⟩⟩

/-- What has been taken stays taken. -/
theorem Scheduler.taken_step (a : SchedulerStep F) {x : ℤ × SchedulerTask F} (hx : x ∈ S.taken) :
    x ∈ (S.step a).taken := by
  cases a with
  | addTask co func thread =>
      simp only [Scheduler.step, Scheduler.addTask]
      split <;> exact hx
  | newCoroutine func => exact hx
  | next t finish =>
      cases hpc : (S.threads t).isSchedule with
      | false =>
          show x ∈ (S.next t finish).taken
          rw [(S.next_tasks finish hpc).2]
          exact hx
      | true =>
          show x ∈ (S.next t finish).taken
          rcases (S.next_schedule finish hpc).2 with ⟨-, hsame⟩ | ⟨tsk, -, hcons⟩
          · rw [hsame]
            exact hx
          · rw [hcons]
            exact List.mem_cons_of_mem _ hx

theorem Scheduler.taken_exec (as : List (SchedulerStep F)) {x : ℤ × SchedulerTask F} :
    ∀ {S : Scheduler F}, x ∈ S.taken → x ∈ (exec Scheduler.step S as).taken := by
  induction as with
  | nil => exact fun hx => hx
  | cons a as ih => exact fun hx => ih (Scheduler.taken_step a hx)

/-- A step leaves the task where it is or brings it forward, and if a thread it is not pinned away
    from looks for a task it comes forward or is taken. -/
theorem Scheduler.step_ahead (a : SchedulerStep F) {pre post : List (SchedulerTask F)}
    (htasks : S.tasks = pre ++ tsk :: post) :
    (∃ t, (t, tsk) ∈ (S.step a).taken) ∨
      ∃ pre' post', (S.step a).tasks = pre' ++ tsk :: post' ∧
        pre'.length + (if S.Selects tsk a then 1 else 0) ≤ pre.length := by
  cases a with
  | addTask co func thread =>
      refine Or.inr ?_
      simp only [Scheduler.step, Scheduler.addTask]
      split
      · refine ⟨pre, post ++ [{ number := S.added, coroutine := co, func, thread }], ?_, le_refl _⟩
        simp only [htasks, List.append_assoc, List.cons_append]
      · exact ⟨pre, post, htasks, le_refl _⟩
  | newCoroutine func => exact Or.inr ⟨pre, post, htasks, le_refl _⟩
  | next t finish =>
      show (∃ t', (t', tsk) ∈ (S.next t finish).taken) ∨ ∃ pre' post',
        (S.next t finish).tasks = pre' ++ tsk :: post' ∧ _
      cases hpc : (S.threads t).isSchedule with
      | false =>
          have hno : ¬ S.Selects tsk (.next t finish) := by
            intro hsel
            rw [Scheduler.Selects, hpc] at hsel
            cases hsel.1
          rw [(S.next_tasks finish hpc).1, if_neg hno]
          exact Or.inr ⟨pre, post, htasks, le_refl _⟩
      | true =>
          obtain ⟨hrest, htaken⟩ := S.next_schedule finish hpc
          rw [hrest]
          rw [htasks] at htaken ⊢
          rcases takeTask_ahead t pre tsk post with ⟨x, pre', htake, hlen⟩ | htake |
            ⟨hbarred, r, post', htake⟩
          · refine Or.inr ⟨pre', post, by rw [htake], ?_⟩
            split <;> omega
          · rw [htake] at htaken
            rcases htaken with ⟨hnone, -⟩ | ⟨tsk', heq, hcons⟩
            · cases hnone
            · obtain rfl := Option.some.inj heq
              exact Or.inl ⟨t, hcons ▸ List.mem_cons_self⟩
          · have hno : ¬ S.Selects tsk (.next t finish) := fun hsel => hsel.2 hbarred
            rw [if_neg hno]
            exact Or.inr ⟨pre, post', by rw [htake], le_refl _⟩

/-- A task with `k` tasks ahead of it is taken by the time threads it is not pinned away from have
    looked for a task more than `k` times. -/
theorem Scheduler.taken_of_selections (as : List (SchedulerStep F)) :
    ∀ {S : Scheduler F} {pre post : List (SchedulerTask F)}, S.tasks = pre ++ tsk :: post →
      pre.length < S.selections tsk as →
      ∃ t, (t, tsk) ∈ (exec Scheduler.step S as).taken := by
  induction as with
  | nil =>
      intro S pre post _ hlt
      exact absurd hlt (Nat.not_lt_zero _)
  | cons a as ih =>
      intro S pre post htasks hlt
      rw [Scheduler.selections] at hlt
      rcases Scheduler.step_ahead a htasks with ⟨t, htaken⟩ | ⟨pre', post', htasks', hlen⟩
      · exact ⟨t, Scheduler.taken_exec as htaken⟩
      · exact ih htasks' (by omega)

/-- Another thread's steps, and what is added, leave a thread where it is. -/
theorem Scheduler.threads_step_of_ne (a : SchedulerStep F) (h : a.isNext t = false) :
    (S.step a).threads t = S.threads t := by
  cases a with
  | addTask co func thread =>
      simp only [Scheduler.step, Scheduler.addTask]
      split <;> rfl
  | newCoroutine func => rfl
  | next t' finish =>
      have hne : t ≠ t' := by
        intro heq
        simp [SchedulerStep.isNext, heq] at h
      have hgoto : ∀ (T : Scheduler F) (pc : SchedulerPc F), T.threads = S.threads →
          (T.goto t' pc).threads t = S.threads t := by
        intro T pc hT
        rw [goto_threads_of_ne hne, hT]
      show (S.next t' finish).threads t = S.threads t
      unfold Scheduler.next
      split
      · split
        · rfl
        · exact hgoto S _ rfl
      · split
        · split
          · exact hgoto S _ rfl
          · exact hgoto S _ rfl
        · split
          · exact hgoto _ _ rfl
          · exact hgoto S _ rfl
      · exact hgoto _ _ rfl
      · split
        · exact hgoto _ _ rfl
        · split
          · rfl
          · exact hgoto _ _ rfl
          · exact hgoto S _ rfl
      · exact hgoto _ _ rfl

/-- A coroutine that was entered for a task stays so. -/
theorem Scheduler.served_step (a : SchedulerStep F) {x : SchedulerTask F × ℕ}
    (hx : x ∈ S.served) : x ∈ (S.step a).served := by
  cases a with
  | addTask co func thread =>
      simp only [Scheduler.step, Scheduler.addTask]
      split <;> exact hx
  | newCoroutine func => exact hx
  | next t finish =>
      show x ∈ (S.next t finish).served
      unfold Scheduler.next
      split
      · split <;> exact hx
      · split
        · split <;> exact hx
        · split
          · exact List.mem_cons_of_mem _ hx
          · exact hx
      · exact List.mem_cons_of_mem _ hx
      · split
        · exact hx
        · split <;> exact hx
      · exact hx

theorem Scheduler.served_exec (as : List (SchedulerStep F)) {x : SchedulerTask F × ℕ} :
    ∀ {S : Scheduler F}, x ∈ S.served → x ∈ (exec Scheduler.step S as).served := by
  induction as with
  | nil => exact fun hx => hx
  | cons a as ih => exact fun hx => ih (Scheduler.served_step a hx)

/-- How many steps a thread has still to take for the task it holds. -/
def SchedulerPc.distance : SchedulerPc F → ℕ
  | .took _ => 2
  | .resume _ _ => 1
  | _ => 0

/-- A thread that holds a task serves it, or comes nearer to it. -/
theorem Scheduler.Inv.advance (h : S.Inv) (hhold : S.Holds t tsk) {finish : Bool}
    (hok : S.Yielded (.next t finish)) : (∃ c, (tsk, c) ∈ (S.next t finish).served) ∨
      (S.next t finish).Holds t tsk ∧
        ((S.next t finish).threads t).distance < (S.threads t).distance := by
  have hjob := (h.job tsk (Or.inr ⟨t, hhold⟩)).1
  unfold Scheduler.Holds at hhold ⊢
  unfold Scheduler.Yielded at hok
  dsimp only at hok
  unfold Scheduler.next
  cases hpc : S.threads t with
  | schedule => simp [hpc, SchedulerPc.task] at hhold
  | took tsk' =>
      rw [hpc] at hhold hok
      obtain rfl : tsk' = tsk := Option.some.inj hhold
      dsimp only at hok ⊢
      cases hco : tsk'.coroutine with
      | some c =>
          dsimp only
          rw [if_neg (not_not.2 (hok c hco)), goto_threads_self]
          exact Or.inr ⟨rfl, Nat.lt_succ_self 1⟩
      | none =>
          dsimp only
          cases hfunc : tsk'.func with
          | none => simp [hco, hfunc] at hjob
          | some f => exact Or.inl ⟨S.made, List.mem_cons_self⟩
  | resume tsk' c =>
      rw [hpc] at hhold
      obtain rfl : tsk' = tsk := Option.some.inj hhold
      exact Or.inl ⟨c, List.mem_cons_self⟩
  | running c => simp [hpc, SchedulerPc.task] at hhold
  | yield c => simp [hpc, SchedulerPc.task] at hhold

/-- The guard of a run: the calls are possible, and coroutines have yielded. -/
def Scheduler.InTime (S : Scheduler F) (a : SchedulerStep F) : Prop := S.Callable a ∧ S.Yielded a

/-- A task that is held is served by the time its thread has taken two steps. -/
theorem Scheduler.served_of_steps (as : List (SchedulerStep F)) :
    ∀ {S : Scheduler F}, S.Inv → S.Holds t tsk → Allowed Scheduler.step Scheduler.InTime S as →
      (S.threads t).distance ≤ as.countP (SchedulerStep.isNext t) →
      ∃ c, (tsk, c) ∈ (exec Scheduler.step S as).served := by
  induction as with
  | nil =>
      intro S _ hhold _ hle
      unfold Scheduler.Holds at hhold
      cases hpc : S.threads t with
      | schedule => simp [hpc, SchedulerPc.task] at hhold
      | took tsk' => simp [hpc, SchedulerPc.distance] at hle
      | resume tsk' c => simp [hpc, SchedulerPc.distance] at hle
      | running c => simp [hpc, SchedulerPc.task] at hhold
      | yield c => simp [hpc, SchedulerPc.task] at hhold
  | cons a as ih =>
      intro S h hhold ⟨hok, hrest⟩ hle
      have hinv := h.step hok.1 hok.2
      cases hnext : a.isNext t with
      | false =>
          have hsame := Scheduler.threads_step_of_ne (S := S) a hnext
          refine ih hinv ?_ hrest ?_
          · rw [Scheduler.Holds, hsame]
            exact hhold
          · rw [List.countP_cons_of_neg (by simp [hnext])] at hle
            rwa [hsame]
      | true =>
          rw [List.countP_cons_of_pos hnext] at hle
          cases a with
          | addTask co func thread => cases hnext
          | newCoroutine func => cases hnext
          | next t' finish =>
              obtain rfl : t' = t := of_decide_eq_true hnext
              rcases h.advance hhold hok.2 with ⟨c, hserved⟩ | ⟨hhold', hlt⟩
              · exact ⟨c, Scheduler.served_exec as hserved⟩
              · refine ih hinv hhold' hrest ?_
                show ((S.next t' finish).threads t').distance ≤ _
                omega

end Progress

/-! ## Runs -/

section Runs

/-- In a run in which coroutines have yielded before they are resumed no task is lost or run twice:
    the ledger is right in every state, a task in the queue is taken when it comes to be the first
    that a thread may take, and a task that is taken is served by the second step of its thread. -/
theorem no_task_lost {S : Scheduler F} (h : Reach {} Scheduler.step Scheduler.InTime S) :
    S.Ledger ∧
      (∀ pre tsk post, S.tasks = pre ++ tsk :: post →
        ∀ as, pre.length < S.selections tsk as →
          ∃ t, (t, tsk) ∈ (exec Scheduler.step S as).taken) ∧
      ∀ t tsk, S.Holds t tsk → ∀ as, Allowed Scheduler.step Scheduler.InTime S as →
        2 ≤ as.countP (SchedulerStep.isNext t) →
          ∃ c, (tsk, c) ∈ (exec Scheduler.step S as).served := by
  have hinv : S.Inv := by
    refine h.invariant Scheduler.inv_start ?_
    intro T a _ hT ha
    exact hT.step ha.1 ha.2
  refine ⟨hinv.toLedger, fun pre tsk post htasks as hlt => ?_, fun t tsk hhold as hok htwo => ?_⟩
  · exact Scheduler.taken_of_selections as htasks hlt
  · refine Scheduler.served_of_steps as hinv hhold hok (le_trans ?_ htwo)
    cases S.threads t <;> simp [SchedulerPc.distance]

instance Scheduler.Callable.decidable (S : Scheduler F) : ∀ a, Decidable (S.Callable a)
  | .addTask co _ _ => inferInstanceAs (Decidable (∀ c ∈ co, c < S.made))
  | .newCoroutine _ => isTrue trivial
  | .next _ _ => isTrue trivial

instance Scheduler.Yielded.decidable (S : Scheduler F) : ∀ a, Decidable (S.Yielded a)
  | .addTask _ _ _ => isTrue trivial
  | .newCoroutine _ => isTrue trivial
  | .next t _ =>
      match h : S.threads t with
      | .took tsk => decidable_of_iff (∀ c ∈ tsk.coroutine, (S.coroutines c).state = .READY)
          (by simp [Scheduler.Yielded, h])
      | .resume _ c => decidable_of_iff
          ((S.coroutines c).state = .READY ∧ (S.coroutines c).saved = true)
          (by simp [Scheduler.Yielded, h])
      | .schedule => isTrue (by simp [Scheduler.Yielded, h])
      | .running _ => isTrue (by simp [Scheduler.Yielded, h])
      | .yield _ => isTrue (by simp [Scheduler.Yielded, h])

instance Scheduler.InTime.decidable (S : Scheduler F) (a : SchedulerStep F) :
    Decidable (S.InTime a) :=
  inferInstanceAs (Decidable (_ ∧ _))

/-- Thread 0 runs a function that sleeps; thread 1 runs the callback of its timer, which adds the
    coroutine as a task. -/
def sleeper : List (SchedulerStep ℕ) :=
  [.addTask none (some 0) (-1), .next 0 false, .next 0 false, .addTask none (some 1) (-1),
    .next 1 false, .next 1 false, .addTask (some 0) none (-1)]

/-- Thread 2 takes that task when the coroutine has yielded. -/
def sleeperWakes : List (SchedulerStep ℕ) :=
  sleeper ++ [.next 0 false, .next 0 false, .next 2 false, .next 2 false, .next 2 false]

theorem sleeperWakes_allowed : Allowed Scheduler.step Scheduler.InTime {} sleeperWakes := by
  decide +kernel

theorem no_task_lost_sleeperWakes : (exec Scheduler.step {} sleeperWakes).Ledger ∧
    (exec Scheduler.step {} sleeperWakes).served.map (fun x => (x.1.number, x.2))
      = [(2, 0), (1, 1), (0, 0)] :=
  ⟨(no_task_lost (Reach.exec .init sleeperWakes_allowed)).1, by decide +kernel⟩

/-- Thread 2 takes that task when the coroutine has not yet yielded. -/
def sleeperSleeps : List (SchedulerStep ℕ) :=
  sleeper ++ [.next 2 false, .next 2 false, .next 0 false, .next 0 false]

/-- `resume` has returned at once: the task has been taken and is nowhere, and its coroutine sleeps
    for ever. -/
theorem no_task_lost_sleeperSleeps : ¬ ∀ as : List (SchedulerStep ℕ),
    Allowed Scheduler.step Scheduler.Callable {} as → (exec Scheduler.step {} as).Ledger := by
  intro h
  have hledger := h sleeperSleeps (by decide +kernel)
  have htaken : ((2 : ℤ), { number := 2, coroutine := some 0 })
      ∈ (exec Scheduler.step {} sleeperSleeps).taken := by
    decide +kernel
  have hholds : ((exec Scheduler.step {} sleeperSleeps).threads 2).task = none := by
    decide +kernel
  have hnumbers : (exec Scheduler.step {} sleeperSleeps).served.map (fun x => x.1.number)
      = [1, 0] := by
    decide +kernel
  rcases hledger.served _ _ htaken with hhold | ⟨c, hserved⟩
  · rw [Scheduler.Holds, hholds] at hhold
    cases hhold
  · have hmem := List.mem_map_of_mem (f := fun x => x.1.number) hserved
    rw [hnumbers] at hmem
    simp at hmem

end Runs

end RaftKVStorage
