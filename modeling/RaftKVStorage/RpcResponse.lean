import RaftKVStorage.RpcChannel
import Mathlib.Data.Fintype.Basic

set_option autoImplicit false

/-! # Reading a response

A channel whose calls come one after another. A response has no length on the wire and is read with
one `recv` of at most 1024 bytes, so a call gets its response whole only if all of it has arrived by
then and fits. What a call leaves on the connection is read by the next. -/

namespace RaftKVStorage

/-- The call is between its `send` and its return: bytes may be on their way to it. -/
def CallStage.Outstanding : CallStage → Prop
  | .recv | .receiving _ | .drop => True
  | .enter | .socket | .connect | .send | .resend | .failed | .filled _ _ => False

/-- The call has begun and not returned. -/
def CallStage.Active : CallStage → Prop
  | .socket | .connect | .send | .resend | .recv | .receiving _ | .drop => True
  | .enter | .failed | .filled _ _ => False

instance CallStage.Active.decidable : (stage : CallStage) → Decidable stage.Active
  | .socket | .connect | .send | .resend | .recv | .receiving _ | .drop => .isTrue trivial
  | .enter | .failed | .filled _ _ => .isFalse id

theorem CallStage.Outstanding.active {stage : CallStage} (h : stage.Outstanding) : stage.Active := by
  cases stage <;> first | exact trivial | exact h

namespace Connection

variable {ι : Type} {conn : Connection ι} {i : ι}

/-- Nothing can be read, and nothing is on its way. -/
def Empty (conn : Connection ι) : Prop := conn.unread = [] ∧ conn.inFlight = []

/-- Nothing can be read, now or later. -/
def Idle (conn : Connection ι) : Prop := (conn.pending = [] ∨ conn.finished = true) ∧ conn.Empty

/-- The request of the call, sent on the connection, is all there is left to do on it: it is not
    answered yet, or the rest of the stream is its answer. -/
def Serves (conn : Connection ι) (i : ι) : Prop :=
  ((conn.pending = [i] ∨ conn.finished = true) ∧ conn.Empty ∧ i ∉ conn.answered.map Prod.fst) ∨
    ((conn.pending = [] ∨ conn.finished = true) ∧
      ∃ own, (i, own) ∈ conn.answered ∧ conn.unread ++ conn.inFlight = own)

/-- The next `recv` of the call returns its whole answer; or the stream has ended without one, and no
    bytes do not parse. -/
def Whole (calls : ι → Call) (conn : Connection ι) (i : ι) : Prop :=
  (∃ own, (i, own) ∈ conn.answered ∧ conn.unread = own ∧ own.length ≤ 1024 ∧ conn.inFlight = []) ∨
    (i ∉ conn.answered.map Prod.fst ∧ conn.unread = [] ∧ (calls i).parses [] = false)

/-- Every byte the call can come to read on the connection belongs to its own answer. -/
def OnlyOwn (conn : Connection ι) (i : ι) : Prop :=
  conn.Empty ∨ ∃ own, (i, own) ∈ conn.answered ∧ conn.unread ++ conn.inFlight = own

theorem Serves.onlyOwn (h : conn.Serves i) : conn.OnlyOwn i := by
  rcases h with ⟨-, hempty, -⟩ | ⟨-, hown⟩
  · exact .inl hempty
  · exact .inr hown

theorem Idle.answer (h : conn.Idle) (bytes : Bytes) : (conn.answer bytes).Idle := by
  unfold Connection.answer
  split
  · rename_i hfinished hpending
    -- an idle connection has no request left to take up
    rcases h.1 with hnil | hdone
    · rw [hnil] at hpending
      cases hpending
    · rw [hfinished] at hdone
      cases hdone
  · exact h

theorem Serves.answer (h : conn.Serves i) (bytes : Bytes) : (conn.answer bytes).Serves i := by
  unfold Connection.answer
  split
  · rename_i j rest hfinished hpending
    rcases h with ⟨hwaits, ⟨hunread, hinFlight⟩, -⟩ | ⟨hdone, -⟩
    · rcases hwaits with hone | hdone
      · rw [hpending] at hone
        obtain ⟨rfl, rfl⟩ := List.cons.inj hone
        refine .inr ⟨.inl rfl, bytes, List.mem_append_right _ (List.mem_singleton_self _), ?_⟩
        simp [hunread, hinFlight]
      · rw [hfinished] at hdone
        cases hdone
    · rcases hdone with hnil | hdone
      · rw [hpending] at hnil
        cases hnil
      · rw [hfinished] at hdone
        cases hdone
  · exact h

theorem Empty.arrive (h : conn.Empty) (size : ℕ) : (conn.arrive size).Empty := by
  obtain ⟨hunread, hinFlight⟩ := h
  simp [Connection.arrive, Empty, hunread, hinFlight]

theorem Serves.arrive (h : conn.Serves i) (size : ℕ) : (conn.arrive size).Serves i := by
  rcases h with ⟨hwaits, hempty, hnot⟩ | ⟨hdone, own, hmem, hstream⟩
  · exact .inl ⟨hwaits, hempty.arrive size, hnot⟩
  · refine .inr ⟨hdone, own, hmem, ?_⟩
    rw [← hstream]
    simp [Connection.arrive]

theorem Serves.finish (h : conn.Serves i) : Serves { conn with finished := true } i := by
  rcases h with ⟨-, hempty, hnot⟩ | ⟨-, hown⟩
  · exact .inl ⟨.inr rfl, hempty, hnot⟩
  · exact .inr ⟨.inr rfl, hown⟩

/-- What a call that sends finds on the connection is nothing. -/
theorem Idle.send (h : conn.Idle) (hi : i ∉ conn.requests) :
    Serves { conn with pending := conn.pending ++ [i] } i := by
  refine .inl ⟨?_, h.2, fun hmem => hi (List.mem_append_left _ hmem)⟩
  rcases h.1 with hnil | hdone
  · exact .inl (by rw [hnil]; rfl)
  · exact .inr hdone

theorem recv_eq_some {recvBuf : Bytes} (h : conn.recv = some recvBuf) :
    recvBuf = conn.unread.take 1024 := by
  unfold Connection.recv at h
  split_ifs at h
  exact (Option.some.inj h).symm

/-- Once its whole answer has arrived, the `recv` of a call returns if there is anything to return. -/
theorem Serves.recv_iff (h : conn.Serves i) (hnodup : conn.requests.Nodup) {own : Bytes}
    (hown : (i, own) ∈ conn.answered) (harrived : conn.inFlight = []) :
    conn.recv ≠ none ↔ own ≠ [] ∨ conn.finished = true := by
  rcases h with ⟨-, -, hnot⟩ | ⟨-, own', hmem, hstream⟩
  · exact absurd (List.mem_map_of_mem hown) hnot
  · have hsame : own = own' := by
      have hkeys : (conn.answered.map Prod.fst).Nodup := (List.nodup_append.1 hnodup).1
      exact congrArg Prod.snd (List.inj_on_of_nodup_map hkeys hown hmem rfl)
    rw [harrived, List.append_nil, ← hsame] at hstream
    unfold Connection.recv
    by_cases hnil : own = []
    · simp [hstream, hnil, harrived]
    · simp [hstream, hnil]

/-- A call that gets its answer whole leaves nothing. -/
theorem Serves.take {calls : ι → Call} (h : conn.Serves i) (hrecv : conn.recv ≠ none)
    (hwhole : conn.Whole calls i) : (conn.take i).Idle := by
  rcases hwhole with ⟨own, hmem, hunread, hlen, hinFlight⟩ | ⟨hnot, hunread, -⟩
  · have hrest : conn.unread.drop 1024 = [] := List.drop_eq_nil_of_le (by rwa [hunread])
    rcases h with ⟨-, -, hnot⟩ | ⟨hdone, -⟩
    · exact absurd (List.mem_map_of_mem hmem) hnot
    · exact ⟨hdone, hrest, hinFlight⟩
  · -- the end of the stream
    have hend : conn.finished = true ∧ conn.inFlight = [] := by
      by_contra hmore
      exact hrecv (if_pos ⟨hunread, hmore⟩)
    exact ⟨.inr hend.1, by simp [Connection.take, hunread], hend.2⟩

end Connection

namespace Channel

variable {ι : Type} {pb : Protobuf} {calls : ι → Call} {connected : Bool} {s : Channel ι} {i : ι}
  {c : ℕ}

/-- A call starts when no other is under way. -/
def Alone (s : Channel ι) : ChannelAction ι → Prop
  | .run i _ => s.stage i = .enter → ∀ j, j ≠ i → ¬ (s.stage j).Active
  | _ => True

/-- A `recv` that returns, returns the whole answer or the end of the stream. -/
def Whole (calls : ι → Call) (s : Channel ι) : ChannelAction ι → Prop
  | .run i true => ∀ c, s.stage i = .receiving c → (s.connection c).recv ≠ none →
      (s.connection c).Whole calls i
  | _ => True

instance Alone.decidable [Fintype ι] [DecidableEq ι] (s : Channel ι) :
    (a : ChannelAction ι) → Decidable (s.Alone a)
  | .run i _ =>
      inferInstanceAs (Decidable (s.stage i = .enter → ∀ j, j ≠ i → ¬ (s.stage j).Active))
  | .answer _ _ | .arrive _ _ | .finish _ => .isTrue trivial

theorem Whole.of_not_receiving {ok : Bool} (h : (s.stage i).receivingOn = none) :
    s.Whole calls (.run i ok) := by
  cases ok with
  | true =>
    intro c hc
    rw [hc] at h
    cases h
  | false => trivial

theorem Whole.of_receiving (h : (s.stage i).receivingOn = some c)
    (hwhole : (s.connection c).Whole calls i) : s.Whole calls (.run i true) := by
  intro c' hc
  rw [hc] at h
  cases h
  exact fun _ => hwhole

/-- One call at a time, and nothing on the connection in use but what that call is to read. -/
structure Sequential (s : Channel ι) : Prop where
  nodup : ∀ c, (s.connection c).requests.Nodup
  sent : ∀ c, ∀ i ∈ (s.connection c).requests, (s.stage i).Sent
  filled : ∀ i c recvBuf, s.stage i = .filled c recvBuf → (i, recvBuf) ∈ (s.connection c).answered
  alone : ∀ i j, (s.stage i).Active → (s.stage j).Active → i = j
  old : ∀ c, s.clientFd = some c → c < s.next
  fresh : ∀ c, s.next ≤ c → (s.connection c).pending = [] ∧ (s.connection c).Empty
  receiving : ∀ i c, s.stage i = .receiving c → s.clientFd = some c
  idle : ∀ c, s.clientFd = some c → (∀ i, ¬ (s.stage i).Outstanding) → (s.connection c).Idle
  serves : ∀ i c, s.clientFd = some c → s.stage i = .recv ∨ s.stage i = .receiving c →
    (s.connection c).Serves i

theorem Sequential.init : (Channel.init connected : Channel ι).Sequential where
  nodup := fun _ => List.nodup_nil
  sent := fun _ _ hi => absurd hi List.not_mem_nil
  filled := fun _ _ _ h => CallStage.noConfusion h
  alone := fun _ _ h => absurd h id
  old := fun c h => by
    simp only [Channel.init] at h ⊢
    split_ifs at h
    rw [← Option.some.inj h]
    exact Nat.one_pos
  fresh := fun _ _ => ⟨rfl, rfl, rfl⟩
  receiving := fun _ _ h => CallStage.noConfusion h
  idle := fun _ _ _ => ⟨.inl rfl, rfl, rfl⟩
  serves := fun _ _ _ h => h.elim CallStage.noConfusion CallStage.noConfusion

/-- The others have not begun, or have returned. -/
theorem Sequential.others (h : s.Sequential) (hi : (s.stage i).Active) :
    ∀ j, j ≠ i → ¬ (s.stage j).Active :=
  fun _ hne hj => hne (h.alone _ _ hj hi)

/-- The network and the server act on a connection. -/
theorem Sequential.environment (h : s.Sequential) {f : Connection ι → Connection ι}
    (hrequests : (f (s.connection c)).requests = (s.connection c).requests)
    (hanswered : ∀ p ∈ (s.connection c).answered, p ∈ (f (s.connection c)).answered)
    (hfresh : (s.connection c).pending = [] ∧ (s.connection c).Empty →
      (f (s.connection c)).pending = [] ∧ (f (s.connection c)).Empty)
    (hidle : (s.connection c).Idle → (f (s.connection c)).Idle)
    (hserves : ∀ i, (s.connection c).Serves i → (f (s.connection c)).Serves i) :
    (s.modify c f).Sequential := by
  refine ⟨fun c' => ?_, fun c' j hj => ?_, fun j c' recvBuf hj => ?_, h.alone, h.old, fun c' hc' => ?_,
    h.receiving, fun c' hfd hnone => ?_, fun j c' hfd hj => ?_⟩
  all_goals by_cases heq : c' = c
  all_goals first | subst heq; rw [connection_modify_self] at * | rw [connection_modify_of_ne heq] at *
  · exact hrequests ▸ h.nodup c'
  · exact h.nodup c'
  · exact h.sent c' j (hrequests ▸ hj)
  · exact h.sent c' j hj
  · exact hanswered _ (h.filled j c' recvBuf hj)
  · exact h.filled j c' recvBuf hj
  · exact hfresh (h.fresh c' hc')
  · exact h.fresh c' hc'
  · exact hidle (h.idle c' hfd hnone)
  · exact h.idle c' hfd hnone
  · exact hserves j (h.serves j c' hfd hj)
  · exact h.serves j c' hfd hj

theorem close_of_none (h : s.clientFd = none) : s.close = s := by
  rw [close, ← h]

variable [DecidableEq ι]

/-- A call goes on, with what it does to the connection in use. -/
theorem Sequential.act (h : s.Sequential) (hfd : s.clientFd = some c)
    (hothers : ∀ j, j ≠ i → ¬ (s.stage j).Active) {f : Connection ι → Connection ι}
    {stage : CallStage} (hsent : (s.stage i).Sent → stage.Sent)
    (hnodup : (f (s.connection c)).requests.Nodup)
    (hrequests : ∀ j ∈ (f (s.connection c)).requests,
      j ∈ (s.connection c).requests ∨ j = i ∧ stage.Sent)
    (hanswered : ∀ p ∈ (s.connection c).answered, p ∈ (f (s.connection c)).answered)
    (hfilled : ∀ c' recvBuf, stage = .filled c' recvBuf →
      c' = c ∧ (i, recvBuf) ∈ (f (s.connection c)).answered)
    (hreceiving : ∀ c', stage = .receiving c' → c' = c)
    (hidle : ¬ stage.Outstanding → (f (s.connection c)).Idle)
    (hserves : stage = .recv ∨ stage = .receiving c → (f (s.connection c)).Serves i) :
    ((s.modify c f).setStage i stage).Sequential := by
  have hstage : ∀ j, j ≠ i → ((s.modify c f).setStage i stage).stage j = s.stage j :=
    fun j hne => stage_setStage_of_ne hne
  have hself : ((s.modify c f).setStage i stage).stage i = stage := stage_setStage_self
  -- only this call can be under way
  have honly : ∀ j, (((s.modify c f).setStage i stage).stage j).Active → j = i := by
    intro j hj
    by_contra hne
    rw [hstage j hne] at hj
    exact hothers j hne hj
  refine ⟨fun c' => ?_, fun c' j hj => ?_, fun j c' recvBuf hj => ?_, fun j k hj hk => ?_, h.old,
    fun c' hc' => ?_, fun j c' hj => ?_, fun c' hfd' hnone => ?_, fun j c' hfd' hj => ?_⟩
  · by_cases heq : c' = c
    · subst heq
      simpa [setStage] using hnodup
    · simpa [setStage, connection_modify_of_ne heq] using h.nodup c'
  · have hj : j ∈ (s.connection c').requests ∨ j = i ∧ stage.Sent := by
      by_cases heq : c' = c
      · subst heq
        exact hrequests j (by simpa [setStage] using hj)
      · exact .inl (by simpa [setStage, connection_modify_of_ne heq] using hj)
    by_cases hne : j = i
    · subst hne
      rw [hself]
      rcases hj with hj | ⟨-, hj⟩
      · exact hsent (h.sent c' j hj)
      · exact hj
    · rw [hstage j hne]
      exact h.sent c' j (hj.resolve_right fun hj => hne hj.1)
  · by_cases hne : j = i
    · subst hne
      rw [hself] at hj
      obtain ⟨rfl, hmem⟩ := hfilled c' recvBuf hj
      simpa [setStage] using hmem
    · rw [hstage j hne] at hj
      have hmem := h.filled j c' recvBuf hj
      by_cases heq : c' = c
      · subst heq
        simpa [setStage] using hanswered _ hmem
      · simpa [setStage, connection_modify_of_ne heq] using hmem
  · exact (honly j hj).trans (honly k hk).symm
  · have hne : c' ≠ c := by
      have hold := h.old c hfd
      have hc' : s.next ≤ c' := hc'
      omega
    simpa [setStage, connection_modify_of_ne hne] using h.fresh c' hc'
  · by_cases hne : j = i
    · subst hne
      rw [hself] at hj
      rw [hreceiving c' hj]
      exact hfd
    · rw [hstage j hne] at hj
      exact h.receiving j c' hj
  · have hc : c' = c := Option.some.inj (hfd'.symm.trans hfd)
    subst hc
    have hi := hnone i
    rw [hself] at hi
    simpa [setStage] using hidle hi
  · have hc : c' = c := Option.some.inj (hfd'.symm.trans hfd)
    subst hc
    have hji : j = i := honly j (by rcases hj with hj | hj <;> rw [hj] <;> trivial)
    subst hji
    rw [hself] at hj
    simpa [setStage] using hserves hj

/-- A call goes on without touching the connection. -/
theorem Sequential.goOn (h : s.Sequential) (hfd : s.clientFd = some c)
    (hothers : ∀ j, j ≠ i → ¬ (s.stage j).Active) {stage : CallStage}
    (hsent : (s.stage i).Sent → stage.Sent) (hfilled : ∀ c' recvBuf, stage ≠ .filled c' recvBuf)
    (hreceiving : ∀ c', stage = .receiving c' → c' = c)
    (hidle : ¬ stage.Outstanding → (s.connection c).Idle)
    (hserves : stage = .recv ∨ stage = .receiving c → (s.connection c).Serves i) :
    (s.setStage i stage).Sequential := by
  have hsame : s.modify c id = s := by
    simp [modify]
  have hact := h.act (i := i) hfd hothers (f := id) hsent (h.nodup c) (fun j hj => .inl hj) (fun p hp => hp)
    (fun c' recvBuf heq => absurd heq (hfilled c' recvBuf)) hreceiving hidle hserves
  rwa [hsame] at hact

/-- A call goes on after `_M_close`. -/
theorem Sequential.closed (h : s.Sequential) (hothers : ∀ j, j ≠ i → ¬ (s.stage j).Active)
    {stage : CallStage} (hsent : (s.stage i).Sent → stage.Sent)
    (hfilled : ∀ c recvBuf, stage ≠ .filled c recvBuf) (hreceiving : ∀ c, stage ≠ .receiving c) :
    (s.close.setStage i stage).Sequential := by
  have hstage : ∀ j, j ≠ i → (s.close.setStage i stage).stage j = s.stage j :=
    fun j hne => stage_setStage_of_ne hne
  have hself : (s.close.setStage i stage).stage i = stage := stage_setStage_self
  have honly : ∀ j, ((s.close.setStage i stage).stage j).Active → j = i := by
    intro j hj
    by_contra hne
    rw [hstage j hne] at hj
    exact hothers j hne hj
  refine ⟨h.nodup, fun c j hj => ?_, fun j c recvBuf hj => ?_,
    fun j k hj hk => (honly j hj).trans (honly k hk).symm,
    fun c hfd => absurd hfd (by simp [close, setStage]), h.fresh, fun j c hj => ?_,
    fun c hfd => absurd hfd (by simp [close, setStage]),
    fun j c hfd => absurd hfd (by simp [close, setStage])⟩
  · by_cases hne : j = i
    · subst hne
      rw [hself]
      exact hsent (h.sent c j hj)
    · rw [hstage j hne]
      exact h.sent c j hj
  · by_cases hne : j = i
    · subst hne
      rw [hself] at hj
      exact absurd hj (hfilled c recvBuf)
    · rw [hstage j hne] at hj
      exact h.filled j c recvBuf hj
  · have hji : j = i := honly j (by rw [hj]; trivial)
    subst hji
    rw [hself] at hj
    exact absurd hj (hreceiving c)

theorem Sequential.socket (h : s.Sequential) (hstage : s.stage i = .socket) :
    (({ s with clientFd := some s.next, next := s.next + 1 } : Channel ι).setStage i
      .connect).Sequential := by
  have hothers := h.others (i := i) (by rw [hstage]; trivial)
  have hopen : Sequential ({ s with clientFd := some s.next, next := s.next + 1 } : Channel ι) := by
    have hnone : ∀ j, ¬ (s.stage j).Outstanding := by
      intro j hj
      by_cases hne : j = i
      · rw [hne, hstage] at hj
        exact hj
      · exact hothers j hne hj.active
    refine ⟨h.nodup, h.sent, h.filled, h.alone, fun c hc => ?_, fun c hc => h.fresh c ?_, fun j c hj => ?_,
      fun c hc _ => ?_, fun j c _ hj => ?_⟩
    · rw [← Option.some.inj hc]
      exact Nat.lt_succ_self _
    · exact (Nat.le_succ _).trans hc
    · exact absurd (by rw [hj]; trivial) (hnone j)
    · rw [← Option.some.inj hc]
      exact ⟨.inl (h.fresh _ le_rfl).1, (h.fresh _ le_rfl).2⟩
    · exact absurd (by rcases hj with hj | hj <;> rw [hj] <;> trivial) (hnone j)
  refine hopen.goOn rfl hothers ?_ (fun _ _ heq => CallStage.noConfusion heq)
    (fun _ heq => CallStage.noConfusion heq) (fun _ => ?_) fun heq => ?_
  · show (s.stage i).Sent → _
    rw [hstage]
    exact id
  · exact ⟨.inl (h.fresh _ le_rfl).1, (h.fresh _ le_rfl).2⟩
  · rcases heq with heq | heq <;> cases heq

/-- Before it has sent, a call finds nothing on the connection. -/
theorem Sequential.idle_of (h : s.Sequential) (hfd : s.clientFd = some c)
    (hothers : ∀ j, j ≠ i → ¬ (s.stage j).Active) (hi : ¬ (s.stage i).Outstanding) :
    (s.connection c).Idle := by
  refine h.idle c hfd fun j hj => ?_
  by_cases hne : j = i
  · rw [hne] at hj
    exact hi hj
  · exact hothers j hne hj.active

theorem Sequential.connect (h : s.Sequential) (hstage : s.stage i = .connect) (ok : Bool) :
    (s.connect i ok).Sequential := by
  have hothers := h.others (i := i) (by rw [hstage]; trivial)
  have hunsent : ¬ (s.stage i).Sent := by
    rw [hstage]
    exact id
  have hfail : (s.close.setStage i .failed).Sequential :=
    h.closed hothers (fun _ => trivial) (fun _ _ heq => CallStage.noConfusion heq)
      fun _ heq => CallStage.noConfusion heq
  unfold Channel.connect
  split
  · exact hfail
  · rename_i c hfd
    have hidle := h.idle_of hfd hothers (by rw [hstage]; exact id)
    split_ifs with hok
    · exact h.act hfd hothers (fun hs => absurd hs hunsent) (h.nodup c) (fun j hj => .inl hj) (fun p hp => hp)
        (fun _ _ heq => CallStage.noConfusion heq) (fun _ heq => CallStage.noConfusion heq)
        (fun _ => hidle) fun heq => by rcases heq with heq | heq <;> cases heq
    · exact hfail

theorem Sequential.send (h : s.Sequential) (hstage : s.stage i = .send) (ok : Bool) :
    (s.send pb calls i ok).Sequential := by
  have hothers := h.others (i := i) (by rw [hstage]; trivial)
  have hunsent : ¬ (s.stage i).Sent := by
    rw [hstage]
    exact id
  have hgoOn : ∀ {stage : CallStage}, (∀ c recvBuf, stage ≠ .filled c recvBuf) →
      (∀ c, stage ≠ .receiving c) → stage ≠ .recv → (s.setStage i stage).Sequential := by
    intro stage hfilled hreceiving hrecv
    cases hfd : s.clientFd with
    | none =>
        have hclosed := h.closed hothers (fun hs => absurd hs hunsent) hfilled hreceiving
        rwa [close_of_none hfd] at hclosed
    | some c =>
        exact h.goOn hfd hothers (fun hs => absurd hs hunsent) hfilled
          (fun c' heq => absurd heq (hreceiving c'))
          (fun _ => h.idle_of hfd hothers (by rw [hstage]; exact id))
          fun heq => (heq.elim hrecv (hreceiving c)).elim
  unfold Channel.send
  split
  · exact hgoOn (fun _ _ => CallStage.noConfusion) (fun _ => CallStage.noConfusion)
      CallStage.noConfusion
  · exact hgoOn (fun _ _ => CallStage.noConfusion) (fun _ => CallStage.noConfusion)
      CallStage.noConfusion
  · rename_i c _ hfd
    split_ifs with hok
    · have hnot : i ∉ (s.connection c).requests := fun hmem => hunsent (h.sent c i hmem)
      have hserves := (h.idle_of hfd hothers (by rw [hstage]; exact id)).send hnot
      refine h.act hfd hothers (fun _ => trivial) (Connection.nodup_send (h.nodup c) hnot)
        (fun j hj => ?_) (fun p hp => hp)
        (fun _ _ heq => CallStage.noConfusion heq) (fun _ heq => CallStage.noConfusion heq)
        (fun hout => absurd trivial hout) fun _ => hserves
      have hj : j ∈ (s.connection c).answered.map Prod.fst ++ ((s.connection c).pending ++ [i]) := hj
      rw [← List.append_assoc] at hj
      rcases List.mem_append.1 hj with hj | hj
      · exact .inl hj
      · exact .inr ⟨List.mem_singleton.1 hj, trivial⟩
    · exact hgoOn (fun _ _ => CallStage.noConfusion) (fun _ => CallStage.noConfusion)
        CallStage.noConfusion

theorem Sequential.receive (h : s.Sequential) (hstage : s.stage i = .receiving c)
    (hwhole : (s.connection c).recv ≠ none → (s.connection c).Whole calls i) :
    (s.receive calls i c).Sequential := by
  have hothers := h.others (i := i) (by rw [hstage]; trivial)
  have hfd := h.receiving i c hstage
  unfold Channel.receive
  split
  · exact h
  · rename_i recvBuf hrecv
    have hne : (s.connection c).recv ≠ none := by simp [hrecv]
    have hidle := (h.serves i c hfd (.inr hstage)).take hne (hwhole hne)
    have hbuf := Connection.recv_eq_some hrecv
    refine h.act hfd hothers (fun _ => ?_) (h.nodup c) (fun j hj => .inl hj) (fun p hp => hp)
      (fun c' recvBuf' heq => ?_) (fun c' heq => ?_) (fun _ => hidle) fun heq => ?_
    · split_ifs <;> trivial
    · split_ifs at heq with hparses
      obtain ⟨rfl, rfl⟩ := CallStage.filled.inj heq
      refine ⟨rfl, ?_⟩
      rcases hwhole hne with ⟨own, hmem, hunread, hlen, -⟩ | ⟨-, hunread, hfails⟩
      · rw [hbuf, hunread, List.take_of_length_le hlen]
        exact hmem
      · rw [hbuf, hunread, List.take_nil, hfails] at hparses
        cases hparses
    · split_ifs at heq
    · split_ifs at heq <;> rcases heq with heq | heq <;> cases heq

theorem Sequential.run (h : s.Sequential) (ok : Bool) (halone : s.Alone (.run i ok))
    (hwhole : s.Whole calls (.run i ok)) : (s.run pb calls i ok).Sequential := by
  unfold Channel.run
  cases hstage : s.stage i with
  | enter =>
    have hothers := halone hstage
    have hsent : ∀ {stage : CallStage}, (s.stage i).Sent → stage.Sent := by
      rw [hstage]
      exact False.elim
    cases hfd : s.clientFd with
    | none =>
        have hclosed : (s.close.setStage i .socket).Sequential := h.closed hothers hsent
          (fun _ _ heq => CallStage.noConfusion heq) fun _ heq => CallStage.noConfusion heq
        rw [close_of_none hfd] at hclosed
        rwa [if_pos rfl]
    | some c =>
        rw [if_neg (by simp)]
        refine h.goOn hfd hothers hsent (fun _ _ heq => CallStage.noConfusion heq)
          (fun _ heq => CallStage.noConfusion heq)
          (fun _ => h.idle_of hfd hothers (by rw [hstage]; exact id)) fun heq => ?_
        rcases heq with heq | heq <;> cases heq
  | socket =>
    simp only
    split_ifs with hok
    · exact h.socket hstage
    · exact h.closed (h.others (by rw [hstage]; trivial)) (fun _ => trivial)
        (fun _ _ heq => CallStage.noConfusion heq) fun _ heq => CallStage.noConfusion heq
  | connect => exact h.connect hstage ok
  | send => exact h.send hstage ok
  | resend =>
    refine h.closed (h.others (by rw [hstage]; trivial)) (fun hsent => ?_)
      (fun _ _ heq => CallStage.noConfusion heq) fun _ heq => CallStage.noConfusion heq
    rw [hstage] at hsent
    exact hsent.elim
  | recv =>
    have hothers := h.others (i := i) (by rw [hstage]; trivial)
    simp only
    split
    · rename_i hfd
      have hclosed : (s.close.setStage i .drop).Sequential := h.closed hothers (fun _ => trivial)
        (fun _ _ heq => CallStage.noConfusion heq) fun _ heq => CallStage.noConfusion heq
      rwa [close_of_none hfd] at hclosed
    · rename_i c hfd
      split_ifs with hok
      · exact h.goOn hfd hothers (fun _ => trivial) (fun _ _ heq => CallStage.noConfusion heq)
          (fun _ heq => (CallStage.receiving.inj heq).symm) (fun hout => absurd trivial hout)
          fun _ => h.serves i c hfd (.inl hstage)
      · refine h.goOn hfd hothers (fun _ => trivial) (fun _ _ heq => CallStage.noConfusion heq)
          (fun _ heq => CallStage.noConfusion heq) (fun hout => absurd trivial hout) fun heq => ?_
        rcases heq with heq | heq <;> cases heq
  | receiving c =>
    cases ok with
    | true => exact h.receive hstage (hwhole c hstage)
    | false =>
      refine h.goOn (h.receiving i c hstage) (h.others (by rw [hstage]; trivial)) (fun _ => trivial)
        (fun _ _ heq => CallStage.noConfusion heq) (fun _ heq => CallStage.noConfusion heq)
        (fun hout => absurd trivial hout) fun heq => ?_
      rcases heq with heq | heq <;> cases heq
  | drop =>
    exact h.closed (h.others (by rw [hstage]; trivial)) (fun _ => trivial)
      (fun _ _ heq => CallStage.noConfusion heq) fun _ heq => CallStage.noConfusion heq
  | failed => exact h
  | filled c recvBuf => exact h

theorem Sequential.step (h : s.Sequential) (a : ChannelAction ι) (halone : s.Alone a)
    (hwhole : s.Whole calls a) : (Channel.step pb calls s a).Sequential := by
  cases a with
  | run i ok => exact h.run ok halone hwhole
  | answer c bytes =>
    refine h.environment (f := (·.answer bytes)) (Connection.requests_answer _ bytes) (fun p hp => ?_)
      (fun hfresh => ?_) (fun hidle => hidle.answer bytes) fun j hserves => hserves.answer bytes
    · unfold Connection.answer
      split
      · exact List.mem_append_left _ hp
      · exact hp
    · unfold Connection.answer
      split
      · rename_i hpending
        rw [hfresh.1] at hpending
        cases hpending
      · exact hfresh
  | arrive c size =>
    exact h.environment (f := (·.arrive size)) rfl (fun p hp => hp)
      (fun hfresh => ⟨hfresh.1, hfresh.2.arrive size⟩) (fun hidle => ⟨hidle.1, hidle.2.arrive size⟩)
      fun j hserves => hserves.arrive size
  | finish c =>
    exact h.environment (f := fun conn => { conn with finished := true }) rfl (fun p hp => hp) id
      (fun hidle => ⟨.inr rfl, hidle.2⟩) fun j hserves => hserves.finish

/-- What is left of the connection after the `recv` of a call, and what the call returns, are right
    only if it was handed its answer whole. -/
theorem Sequential.whole_iff (h : s.Sequential) (hstage : s.stage i = .receiving c)
    (hrecv : (s.connection c).recv ≠ none) :
    (s.connection c).Whole calls i ↔
      (∀ c' recvBuf, (s.receive calls i c).stage i = .filled c' recvBuf →
        (i, recvBuf) ∈ ((s.receive calls i c).connection c').answered) ∧
      ((s.receive calls i c).connection c).Empty := by
  have hserves := h.serves i c (h.receiving i c hstage) (.inr hstage)
  constructor
  · intro hwhole
    have hnext := h.receive hstage fun _ => hwhole
    refine ⟨fun c' recvBuf => hnext.filled i c' recvBuf, ?_⟩
    obtain ⟨recvBuf, hbuf⟩ := Option.ne_none_iff_exists'.1 hrecv
    have hidle := hserves.take hrecv hwhole
    simpa [Channel.receive, hbuf, setStage] using hidle.2
  · rintro ⟨hfilled, hempty⟩
    obtain ⟨recvBuf, hbuf⟩ := Option.ne_none_iff_exists'.1 hrecv
    have heq := Connection.recv_eq_some hbuf
    have hempty : ((s.connection c).take i).Empty := by
      simpa [Channel.receive, hbuf, setStage] using hempty
    obtain ⟨hrest, hinFlight⟩ := hempty
    have hlen : (s.connection c).unread.length ≤ 1024 := List.drop_eq_nil_iff.1 hrest
    rcases hserves with ⟨-, ⟨hunread, -⟩, hnot⟩ | ⟨-, own, hmem, hstream⟩
    · refine .inr ⟨hnot, hunread, ?_⟩
      by_contra hparses
      rw [hunread, List.take_nil] at heq
      subst heq
      have hmem := hfilled c [] (by simp [Channel.receive, hbuf, hparses])
      have hmem : (i, []) ∈ (s.connection c).answered := by
        simpa [Channel.receive, hbuf, setStage, Connection.take] using hmem
      exact hnot (List.mem_map_of_mem hmem)
    · have hinFlight : (s.connection c).inFlight = [] := hinFlight
      rw [hinFlight, List.append_nil] at hstream
      exact .inl ⟨own, hmem, hstream, by rwa [← hstream], hinFlight⟩

/-- With calls one after another, as long as every `recv` that returns hands over the whole answer, or
    the end of a stream that does not parse, a response that was filled is what the server sent, and a
    call can read no byte but those of its own answer. A `recv` that hands over anything else fills
    the response with something else or leaves bytes for the next call, and one whose answer is there
    but empty does not return before the connection ends. -/
theorem responses_whole (pb : Protobuf) (calls : ι → Call) (connected : Bool) {s : Channel ι}
    (h : GuardedRun.Reach (Channel.init connected) (Channel.step pb calls)
      (fun s a => s.Alone a ∧ s.Whole calls a) s) :
    (∀ i c recvBuf, s.stage i = .filled c recvBuf → (i, recvBuf) ∈ (s.connection c).answered) ∧
    ∀ i c, s.stage i = .receiving c → (s.connection c).OnlyOwn i ∧
      ((s.connection c).recv ≠ none → ((s.connection c).Whole calls i ↔
        (∀ c' recvBuf, (Channel.step pb calls s (.run i true)).stage i = .filled c' recvBuf →
          (i, recvBuf) ∈ ((Channel.step pb calls s (.run i true)).connection c').answered) ∧
        ((Channel.step pb calls s (.run i true)).connection c).Empty)) ∧
      ∀ own, (i, own) ∈ (s.connection c).answered → (s.connection c).inFlight = [] →
        ((s.connection c).recv ≠ none ↔ own ≠ [] ∨ (s.connection c).finished = true) := by
  have hseq : s.Sequential :=
    h.invariant Sequential.init fun _ a _ hs hok => hs.step a hok.1 hok.2
  refine ⟨hseq.filled, fun i c hstage => ?_⟩
  have hserves := hseq.serves i c (hseq.receiving i c hstage) (.inr hstage)
  refine ⟨hserves.onlyOwn, fun hrecv => ?_, fun own => hserves.recv_iff (hseq.nodup c)⟩
  have hstep : Channel.step pb calls s (.run i true) = s.receive calls i c := by
    simp only [Channel.step, Channel.run, hstage, if_true]
  rw [hstep]
  exact hseq.whole_iff hstage hrecv

/-- A heartbeat and then a request for a vote: each gets its answer whole. -/
theorem responses_whole_oneByOne :
    let s := GuardedRun.exec (Channel.step .wire twoCalls) (Channel.init true) oneByOne
    s.stage false = .filled 0 heartbeatAnswer ∧ (false, heartbeatAnswer) ∈ (s.connection 0).answered ∧
      s.stage true = .filled 0 voteAnswer ∧ (true, voteAnswer) ∈ (s.connection 0).answered := by
  have hreach : GuardedRun.Reach (Channel.init true) (Channel.step .wire twoCalls)
      (fun s a => s.Alone a ∧ s.Whole twoCalls a)
      (GuardedRun.exec (Channel.step .wire twoCalls) (Channel.init true) oneByOne) := by
    refine GuardedRun.Reach.exec .init ⟨⟨by decide +kernel, .of_not_receiving (by decide +kernel)⟩,
      ⟨by decide +kernel, .of_not_receiving (by decide +kernel)⟩, ⟨trivial, trivial⟩,
      ⟨trivial, trivial⟩, ⟨by decide +kernel, .of_not_receiving (by decide +kernel)⟩,
      ⟨by decide +kernel, .of_receiving (c := 0) (by decide +kernel) (.inl ⟨heartbeatAnswer, ?_⟩)⟩,
      ⟨by decide +kernel, .of_not_receiving (by decide +kernel)⟩,
      ⟨by decide +kernel, .of_not_receiving (by decide +kernel)⟩, ⟨trivial, trivial⟩,
      ⟨trivial, trivial⟩, ⟨by decide +kernel, .of_not_receiving (by decide +kernel)⟩,
      ⟨by decide +kernel, .of_receiving (c := 0) (by decide +kernel) (.inl ⟨voteAnswer, ?_⟩)⟩, trivial⟩
    · decide +kernel
    · decide +kernel
  have hfilled := (responses_whole .wire twoCalls true hreach).1
  have hfalse : (GuardedRun.exec (Channel.step .wire twoCalls) (Channel.init true) oneByOne).stage
      false = .filled 0 heartbeatAnswer := by decide +kernel
  have htrue : (GuardedRun.exec (Channel.step .wire twoCalls) (Channel.init true) oneByOne).stage
      true = .filled 0 voteAnswer := by decide +kernel
  exact ⟨hfalse, hfilled _ _ _ hfalse, htrue, hfilled _ _ _ htrue⟩

/-- The answer to the heartbeat arrives in two segments. -/
def twoSegments : List (ChannelAction Bool) :=
  [.run false true, .run false true, .answer 0 heartbeatAnswer, .arrive 0 6, .run false true,
    .run false true, .arrive 0 2, .run true true, .run true true, .run true true, .run true true]

/-- The heartbeat is filled with the first of them, and the vote, asked for when the heartbeat has
    returned, with the second. -/
theorem responses_whole_twoSegments :
    (¬ ∀ (s : Channel Bool), GuardedRun.Reach (Channel.init true) (Channel.step .wire twoCalls)
        (fun s a => s.Alone a) s →
      ∀ i c recvBuf, s.stage i = .filled c recvBuf → (i, recvBuf) ∈ (s.connection c).answered) ∧
    let s := GuardedRun.exec (Channel.step .wire twoCalls) (Channel.init true) twoSegments
    s.stage false = .filled 0 (heartbeatAnswer.take 6) ∧
      s.stage true = .filled 0 (heartbeatAnswer.drop 6) ∧
      (s.connection 0).answered = [(false, heartbeatAnswer)] := by
  have hfilled : (GuardedRun.exec (Channel.step .wire twoCalls) (Channel.init true)
      twoSegments).stage false = .filled 0 (heartbeatAnswer.take 6) := by decide +kernel
  refine ⟨fun h => ?_, hfilled, by decide +kernel, by decide +kernel⟩
  exact absurd (h _ (.exec .init (by decide +kernel)) false 0 (heartbeatAnswer.take 6) hfilled)
    (by decide +kernel)

end Channel

end RaftKVStorage
