import RaftKVStorage.ExactlyOnce

set_option autoImplicit false

/-! # Reads of completed writes

`_L_get` answers from the map of the server that is asked, whether that server leads or lags behind.
When puts come as in `Service.Orderly`, the answer is no older than the puts that were over before
the get, as long as the server has executed these, or later ones, by the time it reads. -/

namespace RaftKVStorage

variable {n m : ℕ} {boost : Boost}

/-- The put that has returned. -/
def ClerkEvent.returnedPut? : ClerkEvent n m → Option Op
  | .putReturned _ command _ _ => some command
  | _ => none

namespace Service

/-- The puts that were over at a place of the history. -/
def completed (S : Service n m) (i : ℕ) : List Op :=
  (S.history.take i).filterMap ClerkEvent.returnedPut?

/-- A get that is invoked after a put on its key is over returns the value of that put, or of one that
    was not over when that put was invoked. -/
def ReadsCompleted (S : Service n m) : Prop :=
  ∀ (b : ℕ) c x a p, S.history[b]? = some (.putReturned c x a p) →
    ∀ (j : ℕ) c' get i value, S.history[j]? = some (.getReturned c' get i value) →
      b < i → get.key = x.key →
      ∃ (a' : ℕ) (c'' : Fin m) (y : Op), S.history[a']? = some (.invoked c'' y) ∧
        y.operation = .put ∧ y.key = x.key ∧ y.value = value ∧
        ∀ (b' : ℕ) p', S.history[b']? = some (.putReturned c'' y a' p') → a < b'

/-! ## The guard -/

/-- The remote call whose thread is about to read the map of its server. -/
def reading (S : Service n m) : ServiceAction n m → Option (ℕ × Fin n)
  | .serve t =>
      match S.rpcs[t]? with
      | some ⟨p, _, .waited⟩ => some (t, p)
      | _ => none
  | _ => none

/-- When a server reads its map for the remote call of a get in progress, it has executed every put on
    the key that was over before the get was invoked, or a later put on the key. -/
def CaughtUp (S : Service n m) (a : ServiceAction n m) : Prop :=
  ∀ r ∈ S.reading a, ∀ c, ∀ call ∈ (S.clerks c).call, call.rpc = some r.1 →
    ∀ x ∈ S.completed call.invokedAt, x.key = call.command.key →
      ∃ y ∈ S.executed r.2, y.key = x.key ∧ x.requestId ≤ y.requestId

/-- The run goes on as in `Orderly`, and servers that read have caught up. -/
def OrderlyReads (boost : Boost) (S : Service n m) (a : ServiceAction n m) : Prop :=
  S.Orderly boost a ∧ S.CaughtUp a

instance CaughtUp.decidable (S : Service n m) (a : ServiceAction n m) : Decidable (S.CaughtUp a) :=
  inferInstanceAs (Decidable (∀ r ∈ S.reading a, _))

instance OrderlyReads.decidable (boost : Boost) (S : Service n m) (a : ServiceAction n m) :
    Decidable (S.OrderlyReads boost a) :=
  inferInstanceAs (Decidable (_ ∧ _))

/-! ## The invariant -/

/-- `value` is that of `x` or of a later put on its key. -/
def UpToDate (S : Service n m) (x : Op) (value : Bytes) : Prop :=
  ∃ y ∈ S.puts, y.key = x.key ∧ y.value = value ∧ x.requestId ≤ y.requestId

/-- An answer to a get of `key` that was invoked at `i`. -/
def Answers (S : Service n m) (key : Bytes) (i : ℕ) (value : Bytes) : Prop :=
  ∀ x ∈ S.completed i, x.key = key → S.UpToDate x value

structure ReadInv (boost : Boost) (uuid : Bytes) (S : Service n m) : Prop where
  once : S.OnceInv boost uuid
  /-- The map of a server is not behind what the server has executed. -/
  current : ∀ p, ∀ x ∈ S.executed p,
    ∃ value, (S.apps p).kv.data.find x.key = some value ∧ S.UpToDate x value
  /-- An answer on its way to a clerk. -/
  answers : ∀ (c : Fin m) (call : ClerkCall n) (t : ℕ) (rpc : KvRpc n) (reply : GetReply),
    (S.clerks c).call = some call → call.rpc = some t → S.rpcs[t]? = some rpc →
    rpc.stage = .answered (.get reply) → S.Answers call.command.key call.invokedAt reply.value
  /-- An answer a clerk has returned. -/
  gets : ∀ (c : Fin m) (get : Op) (i : ℕ) (value : Bytes),
    .getReturned c get i value ∈ S.history → i < S.history.length ∧ S.Answers get.key i value

variable {uuid : Bytes} {S S' : Service n m}

theorem ReadInv.new [NeZero n] (rand : ℕ → ℕ) (size : Int) :
    (Service.new m rand size : Service n m).ReadInv boost (clerkUuid rand) where
  once := .new rand size
  current := by simp [Service.new]
  answers := by simp [Service.new]
  gets := by simp [Service.new]

/-- Calls are added to the history. -/
structure Later (S S' : Service n m) : Prop where
  puts : ∀ x ∈ S.puts, x ∈ S'.puts
  completed : ∀ i ≤ S.history.length, S'.completed i = S.completed i
  length : S.history.length ≤ S'.history.length

theorem later_of_append {events : List (ClerkEvent n m)}
    (h : S'.history = S.history ++ events) : S.Later S' where
  puts := by
    intro x hx
    obtain ⟨hinvoked, hput⟩ := mem_puts.1 hx
    obtain ⟨c, hmem⟩ := mem_invoked.1 hinvoked
    refine mem_puts.2 ⟨mem_invoked.2 ⟨c, ?_⟩, hput⟩
    rw [h]
    exact List.mem_append_left _ hmem
  completed := by
    intro i hi
    unfold completed
    rw [h, List.take_append_of_le_length hi]
  length := by
    rw [h, List.length_append]
    exact Nat.le_add_right _ _

theorem UpToDate.later {x : Op} {value : Bytes} (h : S.UpToDate x value) (hlater : S.Later S') :
    S'.UpToDate x value := by
  obtain ⟨y, hy, hrest⟩ := h
  exact ⟨y, hlater.puts y hy, hrest⟩

theorem Answers.later {key value : Bytes} {i : ℕ} (h : S.Answers key i value)
    (hi : i ≤ S.history.length) (hlater : S.Later S') : S'.Answers key i value := by
  intro x hx hkey
  rw [hlater.completed i hi] at hx
  exact (h x hx hkey).later hlater

/-- A call in progress was invoked in the past. -/
theorem Traced.invokedAt_lt {done : Fin n → Op → Prop} (h : S.Traced boost uuid done) {c : Fin m}
    {call : ClerkCall n} (hcall : (S.clerks c).call = some call) :
    call.invokedAt < S.history.length :=
  (List.getElem?_eq_some_iff.1 (h.call c call hcall)).1

/-! ### Steps of the servers -/

/-- The servers do something. -/
theorem ReadInv.servers (h : S.ReadInv boost uuid) (honce : S'.OnceInv boost uuid)
    (hclerks : S'.clerks = S.clerks) (hhistory : S'.history = S.history)
    (hcurrent : ∀ p, ∀ x ∈ S'.executed p,
      ∃ value, (S'.apps p).kv.data.find x.key = some value ∧ S.UpToDate x value)
    (hanswers : ∀ (c : Fin m) (call : ClerkCall n) (t : ℕ) (rpc : KvRpc n) (reply : GetReply),
      (S.clerks c).call = some call → call.rpc = some t → S'.rpcs[t]? = some rpc →
      rpc.stage = .answered (.get reply) → S.Answers call.command.key call.invokedAt reply.value) :
    S'.ReadInv boost uuid := by
  have hlater : S.Later S' := later_of_append (hhistory.trans (List.append_nil _).symm)
  constructor
  · exact honce
  · intro p x hx
    obtain ⟨value, hfind, hvalue⟩ := hcurrent p x hx
    exact ⟨value, hfind, hvalue.later hlater⟩
  · intro c call t rpc reply hcall hrpc ht hstage
    rw [hclerks] at hcall
    exact (hanswers c call t rpc reply hcall hrpc ht hstage).later
      (h.once.traced.invokedAt_lt hcall).le hlater
  · intro c get i value hmem
    rw [hhistory] at hmem ⊢
    obtain ⟨hi, hanswer⟩ := h.gets c get i value hmem
    exact ⟨hi, hanswer.later hi.le hlater⟩

theorem ReadInv.quiet (h : S.ReadInv boost uuid) (hquiet : S.Quiet S')
    (honce : S'.OnceInv boost uuid) : S'.ReadInv boost uuid := by
  refine h.servers honce hquiet.clerks hquiet.history ?_ ?_
  · intro p x hx
    rw [hquiet.executed] at hx
    rw [hquiet.data]
    exact h.current p x hx
  · intro c call t rpc reply hcall hrpc ht hstage
    exact h.answers c call t rpc reply hcall hrpc (hquiet.answered t rpc reply ht hstage) hstage

theorem ReadInv.serve (h : S.ReadInv boost uuid) (t : ℕ) (honce : (S.serve boost t).OnceInv boost uuid)
    (hguard : S.CaughtUp (.serve t)) : (S.serve boost t).ReadInv boost uuid := by
  by_cases hwaited : ∃ p command, S.rpcs[t]? = some ⟨p, command, .waited⟩
  · obtain ⟨p, command, ht⟩ := hwaited
    have hreads : S.reading (.serve t) = some (t, p) := by
      simp only [reading, ht]
    have hcaught := hguard _ hreads
    obtain ⟨stage, heq, hanswer⟩ := serve_waited boost ht
    rw [heq] at honce ⊢
    refine h.servers honce rfl rfl ?_ ?_
    · intro q x hx
      by_cases hq : q = p
      · subst hq
        simpa [setKv, Service.setApp, setStage, KvServer.executeGetOp] using h.current q x hx
      · simpa [setKv, Service.setApp, setStage, Function.update_of_ne hq] using h.current q x hx
    · intro c call u rpc reply hcall hu hrpc hstage
      by_cases htu : t = u
      · subst htu
        obtain ⟨rpc', hrpc', -, hcommand⟩ := h.once.traced.ticket c call t hcall hu
        obtain rfl := Option.some.inj (ht.symm.trans hrpc')
        have hset : rpc = ⟨p, command, stage⟩ := by
          obtain ⟨hlt, heq⟩ := List.getElem?_eq_some_iff.1 hrpc
          rw [← heq]
          exact List.getElem_set_self ..
        rw [hset] at hstage
        have hfind := hanswer reply hstage
        -- the map has a value no older than that of any put the server has executed
        intro x hx hkey
        obtain ⟨y, hy, hykey, hle⟩ := hcaught c call hcall hu x hx hkey
        obtain ⟨value, hvalue, z, hz, hzkey, hzvalue, hyz⟩ := h.current p y hy
        dsimp only at hcommand
        rw [hykey, hkey, ← hcommand, hfind] at hvalue
        exact ⟨z, hz, hzkey.trans hykey, hzvalue.trans (Option.some.inj hvalue).symm, hle.trans hyz⟩
      · exact h.answers c call u rpc reply hcall hu ((List.getElem?_set_ne htu).symm.trans hrpc) hstage
  · refine h.quiet (S.quiet_serve t ?_) honce
    rintro ⟨p, command, stage⟩ ht rfl
    exact hwaited ⟨p, command, ht⟩

theorem ReadInv.loop (h : S.ReadInv boost uuid) (p : Fin n)
    (honce : (S.loop boost p).OnceInv boost uuid) : (S.loop boost p).ReadInv boost uuid := by
  refine h.servers honce rfl rfl ?_ h.answers
  intro q x hx
  by_cases hq : q = p
  swap
  · have hold := h.current q x (by simpa [Service.loop, Function.update_of_ne hq] using hx)
    simpa [Service.loop, Service.setApp, Function.update_of_ne hq] using hold
  subst hq
  have hkv : ((S.loop boost q).apps q).kv = ((S.apps q).kv.popMessageLoop boost
      ((S.cluster.procs q).node.getRaftStateSize boost)).1 := by
    simp [Service.loop, Service.setApp, App.loop]
  have hexec : (S.loop boost q).executed q = S.executed q ++ (S.apps q).kv.putting := by
    simp [Service.loop]
  have hmem : x ∈ S.puts := honce.traced.executed q x hx
  rw [hkv]
  rw [hexec] at hx
  obtain ⟨msg, command, hs, hput, heq⟩ | ⟨msg, kv', hs, hput, hload, -, -, hdata⟩ |
    ⟨hput, -, hdata, -⟩ := (S.apps q).kv.popMessageLoop_cases boost
      ((S.cluster.procs q).node.getRaftStateSize boost)
  · -- `_L_executePutOp`: the command is newer than all before
    have hcommand : command ∈ S.puts := by
      have hstage := (h.once.traced.app q).stage
      rw [hs] at hstage
      exact hstage
    rw [heq]
    dsimp only [KvServer.executePutOp]
    rw [hput] at hx
    have hle : x.requestId ≤ command.requestId := by
      rcases List.mem_append.1 hx with hx | hx
      · exact ((h.once.tallies q).fresh msg command hs x hx).le
      · exact (congrArg Op.requestId (List.mem_singleton.1 hx)).le
    by_cases hkey : x.key = command.key
    · refine ⟨command.value, ?_, command, hcommand, hkey.symm, rfl, hle⟩
      rw [KvSkipList.find_assign, if_pos hkey]
    · rcases List.mem_append.1 hx with hx | hx
      · obtain ⟨value, hfind, hvalue⟩ := h.current q x hx
        refine ⟨value, ?_, hvalue⟩
        rw [KvSkipList.find_assign, if_neg hkey]
        exact hfind
      · exact absurd (congrArg Op.key (List.mem_singleton.1 hx)) hkey
  · -- a snapshot is loaded
    rw [hput, List.append_nil] at hx
    obtain ⟨value, hfind, hvalue⟩ := h.current q x hx
    rw [hdata]
    exact ⟨value, KvServer.find_load hload hfind, hvalue⟩
  · rw [hput, List.append_nil] at hx
    rw [hdata]
    exact h.current q x hx

/-! ### Steps of a clerk -/

/-- The clerks do something. A call that waits for an answered remote call was there before. -/
theorem ReadInv.clerks (h : S.ReadInv boost uuid) (honce : S'.OnceInv boost uuid)
    (happs : S'.apps = S.apps) (hexecuted : S'.executed = S.executed)
    {events : List (ClerkEvent n m)} (hhistory : S'.history = S.history ++ events)
    (hwaits : ∀ (c : Fin m) (call : ClerkCall n) (t : ℕ) (rpc : KvRpc n) (reply : GetReply),
      (S'.clerks c).call = some call → call.rpc = some t → S'.rpcs[t]? = some rpc →
      rpc.stage = .answered (.get reply) →
      (S.clerks c).call = some call ∧ S.rpcs[t]? = some rpc)
    (hgets : ∀ (c : Fin m) (get : Op) (i : ℕ) (value : Bytes), .getReturned c get i value ∈ events →
      i < S.history.length ∧ S.Answers get.key i value) : S'.ReadInv boost uuid := by
  have hlater : S.Later S' := later_of_append hhistory
  constructor
  · exact honce
  · intro p x hx
    rw [hexecuted] at hx
    obtain ⟨value, hfind, hvalue⟩ := h.current p x hx
    rw [happs]
    exact ⟨value, hfind, hvalue.later hlater⟩
  · intro c call t rpc reply hcall hrpc ht hstage
    obtain ⟨hcall', ht'⟩ := hwaits c call t rpc reply hcall hrpc ht hstage
    exact (h.answers c call t rpc reply hcall' hrpc ht' hstage).later
      (h.once.traced.invokedAt_lt hcall').le hlater
  · intro c get i value hmem
    rw [hhistory] at hmem
    have hanswer : i < S.history.length ∧ S.Answers get.key i value := by
      rcases List.mem_append.1 hmem with hmem | hmem
      · exact h.gets c get i value hmem
      · exact hgets c get i value hmem
    exact ⟨hanswer.1.trans_le hlater.length, hanswer.2.later hanswer.1.le hlater⟩

theorem ReadInv.invoke (h : S.ReadInv boost uuid) (c : Fin m) (operation : Operation)
    (key value : Bytes) (honce : (S.invoke c operation key value).OnceInv boost uuid) :
    (S.invoke c operation key value).ReadInv boost uuid := by
  cases hcall : (S.clerks c).call with
  | some call =>
    have heq : S.invoke c operation key value = S := by
      unfold Service.invoke
      rw [hcall]
    rw [heq]
    exact h
  | none =>
    rw [invoke_idle hcall] at honce ⊢
    refine h.clerks honce rfl rfl rfl ?_ ?_
    · intro c' call t rpc reply hcall' hrpc ht hstage
      by_cases hc : c' = c
      · subst hc
        dsimp only at hcall'
        rw [Function.update_self] at hcall'
        obtain rfl := Option.some.inj hcall'
        cases hrpc
      · dsimp only at hcall'
        rw [Function.update_of_ne hc] at hcall'
        exact ⟨hcall', ht⟩
    · intro c' get i value' hmem
      cases List.mem_singleton.1 hmem

theorem ReadInv.send (h : S.ReadInv boost uuid) (c : Fin m) (honce : (S.send c).OnceInv boost uuid) :
    (S.send c).ReadInv boost uuid := by
  unfold Service.send at honce ⊢
  split at honce
  swap
  · exact h
  rename_i command leaderId invokedAt hcall
  refine h.clerks honce rfl rfl (List.append_nil _).symm ?_ ?_
  · intro c' call t rpc reply hcall' hrpc ht hstage
    dsimp only at hcall' ht
    by_cases hc : c' = c
    · subst hc
      rw [Function.update_self] at hcall'
      obtain rfl := Option.some.inj hcall'
      obtain rfl := Option.some.inj hrpc
      rw [List.getElem?_concat_length] at ht
      obtain rfl := Option.some.inj ht
      cases hstage
    · rw [Function.update_of_ne hc] at hcall'
      obtain ⟨rpc', hrpc', -⟩ := h.once.traced.ticket c' call t hcall' hrpc
      rw [List.getElem?_append_left (List.getElem?_eq_some_iff.1 hrpc').1] at ht
      exact ⟨hcall', ht⟩
  · intro c' get i value hmem
    cases hmem

/-- A get that returns a value was answered with it. -/
theorem getReturned_mem {call : ClerkCall n} {c c' : Fin m} {reply : Option KvReply} {get : Op}
    {i : ℕ} {value : Bytes} (h : .getReturned c' get i value ∈ call.returned c reply)
    (hkey : ∀ r, reply = some (.get r) → r.err ≠ .noKey) :
    get = call.command ∧ i = call.invokedAt ∧
      ∃ r, reply = some (.get r) ∧ r.err = .ok ∧ r.value = value := by
  unfold ClerkCall.returned at h
  split at h
  · cases h
  · split_ifs at h
    · cases List.mem_singleton.1 h
    · cases h
  · rename_i r
    split_ifs at h with hnone hok
    · exact absurd hnone (hkey r rfl)
    · obtain ⟨rfl, rfl, rfl, rfl⟩ := ClerkEvent.getReturned.inj (List.mem_singleton.1 h)
      exact ⟨rfl, rfl, r, rfl, hok, rfl⟩
    · cases h

/-- A remote call is back. What it answers to a get is fit to be returned. -/
theorem ReadInv.resume [NeZero n] (h : S.ReadInv boost uuid) (c : Fin m)
    {reply : Op → Option KvReply} (honce : (S.resume c reply).OnceInv boost uuid)
    (hreply : ∀ call, (S.clerks c).call = some call → ∀ r, reply call.command = some (.get r) →
      r.err ≠ .noKey ∧ (r.err = .ok → S.Answers call.command.key call.invokedAt r.value)) :
    (S.resume c reply).ReadInv boost uuid := by
  unfold Service.resume at honce ⊢
  split at honce
  swap
  · exact h
  rename_i command leaderId t invokedAt hcall
  obtain ⟨hloop, -⟩ := (S.clerks c).loop_call ⟨command, leaderId, some t, invokedAt⟩ (reply command)
  refine h.clerks honce rfl rfl rfl ?_ ?_
  · intro c' call' u rpc r hcall' hrpc hu hstage
    dsimp only at hcall'
    by_cases hc : c' = c
    · subst hc
      rw [Function.update_self] at hcall'
      rcases hloop with hnone | ⟨leaderId', hsome⟩
      · rw [hnone] at hcall'
        cases hcall'
      · rw [hsome] at hcall'
        obtain rfl := Option.some.inj hcall'
        cases hrpc
    · rw [Function.update_of_ne hc] at hcall'
      exact ⟨hcall', hu⟩
  · intro c' get i value hmem
    obtain ⟨rfl, rfl, r, hr, hok, rfl⟩ := getReturned_mem hmem fun r hr => (hreply _ hcall r hr).1
    exact ⟨h.once.traced.invokedAt_lt hcall, (hreply _ hcall r hr).2 hok⟩

theorem ReadInv.receive [NeZero n] (h : S.ReadInv boost uuid) (c : Fin m)
    (honce : (S.receive c).OnceInv boost uuid) : (S.receive c).ReadInv boost uuid := by
  unfold Service.receive at honce ⊢
  split at honce
  · exact h
  rename_i t ht
  split at honce
  swap
  · exact h
  rename_i server command reply hrpc
  refine h.resume c honce ?_
  rintro call hcall r hr
  obtain rfl := Option.some.inj hr
  rw [hcall] at ht
  obtain ⟨-, -, hok⟩ := h.once.traced.rpc _ (List.mem_of_getElem? hrpc)
  refine ⟨?_, fun _ => h.answers c call t _ r hcall ht hrpc rfl⟩
  rw [hok]
  rintro ⟨⟩

theorem ReadInv.step [NeZero n] (h : S.ReadInv boost uuid) {a : ServiceAction n m}
    (hguard : S.OrderlyReads boost a) : (S.step boost a).ReadInv boost uuid := by
  obtain ⟨horderly, hcaught⟩ := hguard
  have honce := h.once.step horderly
  cases a with
  | raft a =>
    by_cases ha : a.ForApp
    · simpa only [Service.step, if_pos ha] using h
    · simp only [Service.step, if_neg ha] at honce ⊢
      exact h.quiet (Quiet.cluster (.refl S) _) honce
  | take p => exact h.quiet (S.quiet_take p) honce
  | push p => exact h.quiet (S.quiet_push p) honce
  | pushMessage p k => exact h.quiet (S.quiet_pushMessage p k) honce
  | deliverSnapshot p k => exact h.quiet (S.quiet_deliverSnapshot p k) honce
  | loop p => exact h.loop p honce
  | put c key value => exact h.invoke c .put key value honce
  | get c key => exact h.invoke c .get key [] honce
  | send c => exact h.send c honce
  | fail c =>
    refine h.resume c honce ?_
    rintro call - r ⟨⟩
  | empty c =>
    refine h.resume c honce ?_
    intro call _ r hr
    unfold KvReply.empty at hr
    split at hr
    · cases hr
    · cases hr
      exact ⟨by rintro ⟨⟩, by rintro ⟨⟩⟩
  | receive c => exact h.receive c honce
  | serve t => exact h.serve t honce hcaught
  | timeout t => exact h.quiet (S.quiet_timeout t) honce

/-- Of two puts the one invoked first has the lesser number. -/
theorem OnceInv.requestId_lt (h : S.OnceInv boost uuid) {a a' : ℕ} {c c' : Fin m} {x y : Op}
    (ha : S.history[a]? = some (.invoked c x)) (ha' : S.history[a']? = some (.invoked c' y))
    (hx : x.operation = .put) (hy : y.operation = .put) (hlt : a < a') :
    x.requestId < y.requestId := by
  have hpair := h.ascending
  unfold puts invoked at hpair
  rw [List.pairwise_filter, List.pairwise_filterMap] at hpair
  obtain ⟨hlen, heq⟩ := List.getElem?_eq_some_iff.1 ha
  obtain ⟨hlen', heq'⟩ := List.getElem?_eq_some_iff.1 ha'
  have hstep := List.pairwise_iff_getElem.1 hpair a a' hlen hlen' hlt
  rw [heq, heq'] at hstep
  exact hstep x rfl y rfl (by simp [hx]) (by simp [hy])

theorem ReadInv.readsCompleted (h : S.ReadInv boost uuid) : S.ReadsCompleted := by
  intro b c x a p hb j c' get i value hj hbi hkey
  obtain ⟨hi, hanswer⟩ := h.gets c' get i value (List.mem_of_getElem? hj)
  have hcompleted : x ∈ S.completed i := by
    refine List.mem_filterMap.2 ⟨.putReturned c x a p, ?_, rfl⟩
    refine List.mem_of_getElem? (i := b) ?_
    rw [List.getElem?_take_of_lt hbi]
    exact hb
  obtain ⟨y, hy, hykey, hvalue, hle⟩ := hanswer x hcompleted hkey.symm
  obtain ⟨hinvoked, hput⟩ := mem_puts.1 hy
  obtain ⟨c'', hmem⟩ := mem_invoked.1 hinvoked
  obtain ⟨a', ha'⟩ := List.mem_iff_getElem?.1 hmem
  refine ⟨a', c'', y, ha', hput, hykey, hvalue, fun b' p' hb' => ?_⟩
  obtain ⟨-, hx, hxput⟩ := h.once.traced.returned b c x a p hb
  obtain ⟨hlt, -, -⟩ := h.once.traced.returned b' c'' y a' p' hb'
  -- had `y` been over when `x` was invoked, its number would be the lesser
  by_contra hge
  rcases Nat.lt_or_ge a' a with hlt' | hge'
  · exact absurd (h.once.requestId_lt ha' hx hput hxput hlt') (not_lt.2 hle)
  · omega

end Service

/-- Node `q` executes the first put as well. A second put is executed at node `p` only, and the get
    after it, given up at `p`, is answered by `q`. -/
def laggingRead (p q : Fin 3) (c : Fin 2) : List (ServiceAction 3 2) :=
  [ .raft (.heartBeat p), .raft (.deliverAppend p 1),
    .take q, .push q, .loop q, .loop q, .loop q, .loop q, .loop q,
    .put c [107] [119], .send c, .serve 1, .serve 1,
    .raft (.heartBeat p), .raft (.deliverAppend p 4), .raft (.returnAppend p 4),
    .take p, .push p, .loop p, .loop p, .loop p, .loop p, .loop p, .serve 1, .serve 1, .receive c,
    .get c [107], .send c, .fail c, .send c, .serve 3, .serve 3, .serve 3, .receive c ]

end RaftKVStorage
