import RaftKVStorage.RpcReply
import RaftKVStorage.RpcProvider

set_option autoImplicit false

/-! # A shared channel

The threads of a node that call one peer share its `mprpcChannel`: one descriptor, no lock, and
nothing in a response that says which request it answers. A thread is followed from one access of
`_M_clientFd` to the next; the server answers the requests of a connection one by one. -/

namespace RaftKVStorage

/-- A call of `CallMethod`: what it sends, and whether bytes parse as its response. -/
structure Call where
  request : Request
  parses : Bytes → Bool

/-- A connection with its server. `received` are the calls whose `recv` on it has returned. -/
structure Connection (ι : Type) where
  connected : Bool := false
  finished : Bool := false
  answered : List (ι × Bytes) := []
  pending : List ι := []
  inFlight : Bytes := []
  unread : Bytes := []
  received : List ι := []

/-- Where a call stands. `receiving c` is inside `recv` on connection `c`, `drop` behind a `recv` that
    failed, `resend` behind a `send` that did. -/
inductive CallStage
  | enter
  | socket
  | connect
  | send
  | resend
  | recv
  | receiving (c : ℕ)
  | drop
  | failed
  | filled (c : ℕ) (recvBuf : Bytes)
deriving DecidableEq

/-- An `mprpcChannel` and the calls on it. Descriptors are numbered as they are made. -/
structure Channel (ι : Type) where
  clientFd : Option ℕ
  next : ℕ
  connection : ℕ → Connection ι
  stage : ι → CallStage

inductive ChannelAction (ι : Type)
  /-- The thread of the call goes on; `ok` says whether the system call it comes to succeeds. -/
  | run (i : ι) (ok : Bool)
  | answer (c : ℕ) (bytes : Bytes)
  | arrive (c size : ℕ)
  | finish (c : ℕ)

namespace Connection

variable {ι : Type}

/-- What a `recv` of 1024 bytes returns, if it does not block. -/
def recv (conn : Connection ι) : Option Bytes :=
  if conn.unread = [] ∧ ¬ (conn.finished ∧ conn.inFlight = []) then none
  else some (conn.unread.take 1024)

/-- The server takes up its oldest request. -/
def answer (conn : Connection ι) (bytes : Bytes) : Connection ι :=
  match conn.finished, conn.pending with
  | false, j :: rest =>
      { conn with
        answered := conn.answered ++ [(j, bytes)]
        pending := rest
        inFlight := conn.inFlight ++ bytes }
  | _, _ => conn

def arrive (conn : Connection ι) (size : ℕ) : Connection ι :=
  { conn with
    unread := conn.unread ++ conn.inFlight.take size
    inFlight := conn.inFlight.drop size }

def take (conn : Connection ι) (i : ι) : Connection ι :=
  { conn with unread := conn.unread.drop 1024, received := conn.received ++ [i] }

/-- The calls whose requests went over the connection, in their order. -/
def requests (conn : Connection ι) : List ι := conn.answered.map Prod.fst ++ conn.pending

end Connection

namespace Channel

variable {ι : Type} [DecidableEq ι]

/-- `mprpcChannel::mprpcChannel`; `connected` if it was told to connect and did. -/
def init (connected : Bool) : Channel ι where
  clientFd := if connected then some 0 else none
  next := 1
  connection := fun c => { connected := connected && c == 0 }
  stage := fun _ => .enter

def setStage (s : Channel ι) (i : ι) (stage : CallStage) : Channel ι :=
  { s with stage := Function.update s.stage i stage }

def modify (s : Channel ι) (c : ℕ) (f : Connection ι → Connection ι) : Channel ι :=
  { s with connection := Function.update s.connection c (f (s.connection c)) }

/-- `_M_close`. -/
def close (s : Channel ι) : Channel ι := { s with clientFd := none }

/-- The `connect` of `_M_connect`. -/
def connect (s : Channel ι) (i : ι) (ok : Bool) : Channel ι :=
  match s.clientFd with
  | none => s.close.setStage i .failed
  | some c =>
      if ok ∧ ¬ (s.connection c).connected then
        (s.modify c fun conn => { conn with connected := true }).setStage i .send
      else s.close.setStage i .failed

/-- `send`, which hands over all of the request or fails. -/
def send (pb : Protobuf) (calls : ι → Call) (s : Channel ι) (i : ι) (ok : Bool) : Channel ι :=
  match callMethod pb (calls i).request, s.clientFd with
  | none, _ => s.setStage i .failed
  | some _, none => s.setStage i .resend
  | some _, some c =>
      if ok ∧ (s.connection c).connected then
        (s.modify c fun conn => { conn with pending := conn.pending ++ [i] }).setStage i .recv
      else s.setStage i .resend

/-- The return of `recv` and `ParseFromArray`. -/
def receive (calls : ι → Call) (s : Channel ι) (i : ι) (c : ℕ) : Channel ι :=
  match (s.connection c).recv with
  | none => s
  | some recvBuf =>
      (s.modify c (·.take i)).setStage i
        (if (calls i).parses recvBuf then .filled c recvBuf else .failed)

/-- `CallMethod` from one access of the shared descriptor to the next. -/
def run (pb : Protobuf) (calls : ι → Call) (s : Channel ι) (i : ι) (ok : Bool) : Channel ι :=
  match s.stage i with
  | .enter => s.setStage i (if s.clientFd = none then .socket else .send)
  | .socket =>
      if ok then { s with clientFd := some s.next, next := s.next + 1 }.setStage i .connect
      else s.close.setStage i .failed
  | .connect => s.connect i ok
  | .send => s.send pb calls i ok
  | .resend => s.close.setStage i .socket
  | .recv =>
      match s.clientFd with
      | none => s.setStage i .drop
      | some c => s.setStage i (if ok ∧ (s.connection c).connected then .receiving c else .drop)
  | .receiving c => if ok then s.receive calls i c else s.setStage i .drop
  | .drop => s.close.setStage i .failed
  | .failed => s
  | .filled _ _ => s

def step (pb : Protobuf) (calls : ι → Call) (s : Channel ι) : ChannelAction ι → Channel ι
  | .run i ok => s.run pb calls i ok
  | .answer c bytes => s.modify c (·.answer bytes)
  | .arrive c size => s.modify c (·.arrive size)
  | .finish c => s.modify c fun conn => { conn with finished := true }

end Channel

namespace Connection

variable {ι : Type} {conn : Connection ι} {i : ι}

open Framing (SplitAt)

/-- The call is the next to receive and gets its answer whole: the answers to earlier requests have
    been received, as far as they have any bytes, those to later ones have not, and what has arrived
    of the stream ends with its answer, or fills the buffer with it. -/
def InTurn (conn : Connection ι) (i : ι) : Prop :=
  ∃ before own behind, conn.answered = before ++ (i, own) :: behind ∧
    (∀ p ∈ before, p.2 ≠ [] → p.1 ∈ conn.received) ∧
    (∀ p ∈ behind, p.2 ≠ [] → p.1 ∉ conn.received) ∧ own.length = min 1024 conn.unread.length

/-- What `recv` hands over begins and ends with the answer to the call, counted from the end of what
    the server has sent. -/
def HandsOver (conn : Connection ι) (i : ι) : Prop :=
  ∃ before own behind, conn.answered = before ++ (i, own) :: behind ∧
    conn.unread.length + conn.inFlight.length = own.length + (behind.flatMap Prod.snd).length ∧
    own.length = min 1024 conn.unread.length

/-- What the server sent that was not received is what it sent to the calls that did not receive. -/
structure Ordered (conn : Connection ι) : Prop where
  nodup : conn.requests.Nodup
  received : ∀ j ∈ conn.received, j ∈ conn.answered.map Prod.fst
  untaken : ∃ before behind, conn.answered = before ++ behind ∧
    SplitAt Prod.snd (·.1 ∈ conn.received) before behind ∧
    behind.flatMap Prod.snd = conn.unread ++ conn.inFlight

theorem Ordered.of_empty (hanswered : conn.answered = []) (hpending : conn.pending = [])
    (hreceived : conn.received = []) (hunread : conn.unread = []) (hinFlight : conn.inFlight = []) :
    conn.Ordered where
  nodup := by simp [requests, hanswered, hpending]
  received := by simp [hreceived]
  untaken := ⟨[], [], by simp [hanswered], by simp [SplitAt], by simp [hunread, hinFlight]⟩

theorem requests_answer (conn : Connection ι) (bytes : Bytes) :
    (conn.answer bytes).requests = conn.requests := by
  unfold answer
  split
  · rename_i hpending
    simp [requests, hpending]
  · rfl

theorem Ordered.answer (h : conn.Ordered) (bytes : Bytes) : (conn.answer bytes).Ordered := by
  have hnodup : (conn.answer bytes).requests.Nodup := by
    rw [requests_answer]
    exact h.nodup
  unfold Connection.answer at hnodup ⊢
  split
  · rename_i j rest hfinished hpending
    obtain ⟨before, behind, hanswered, hsplit, huntaken⟩ := h.untaken
    -- a call that has not been answered has not received
    have hj : j ∉ conn.received := by
      intro hmem
      have hnodup := h.nodup
      rw [requests, hpending] at hnodup
      exact (List.nodup_append.1 hnodup).2.2 j (h.received j hmem) j (List.mem_cons_self ..) rfl
    refine ⟨by simpa [hfinished, hpending] using hnodup, fun j' hj' => ?_, before,
      behind ++ [(j, bytes)], ?_, ⟨hsplit.1, ?_⟩, ?_⟩
    · rw [List.map_append]
      exact List.mem_append_left _ (h.received j' hj')
    · simp [hanswered]
    · intro p hp hne
      rcases List.mem_append.1 hp with hp | hp
      · exact hsplit.2 p hp hne
      · rw [List.mem_singleton.1 hp]
        exact hj
    · simp [huntaken]
  · exact h

theorem Ordered.arrive (h : conn.Ordered) (size : ℕ) : (conn.arrive size).Ordered := by
  obtain ⟨before, behind, hanswered, hsplit, huntaken⟩ := h.untaken
  refine ⟨h.nodup, h.received, before, behind, hanswered, hsplit, ?_⟩
  simp [huntaken, Connection.arrive]

/-- A call sends once. -/
theorem nodup_send (h : conn.requests.Nodup) (hi : i ∉ conn.requests) :
    (requests { conn with pending := conn.pending ++ [i] }).Nodup := by
  show (conn.answered.map Prod.fst ++ (conn.pending ++ [i])).Nodup
  rw [← List.append_assoc]
  refine List.nodup_append.2 ⟨h, List.nodup_singleton i, ?_⟩
  rintro a ha b hb rfl
  rw [List.mem_singleton.1 hb] at ha
  exact hi ha

theorem Ordered.send (h : conn.Ordered) (hi : i ∉ conn.requests) :
    Ordered { conn with pending := conn.pending ++ [i] } :=
  ⟨nodup_send h.nodup hi, h.received, h.untaken⟩

/-- In turn, what is left to take begins with the own answer. -/
theorem Ordered.untaken_of_split (h : conn.Ordered) {before behind : List (ι × Bytes)} {own : Bytes}
    (hanswered : conn.answered = before ++ (i, own) :: behind) (hi : i ∉ conn.received)
    (hbefore : ∀ p ∈ before, p.2 ≠ [] → p.1 ∈ conn.received)
    (hbehind : ∀ p ∈ behind, p.2 ≠ [] → p.1 ∉ conn.received) :
    conn.unread ++ conn.inFlight = own ++ behind.flatMap Prod.snd := by
  obtain ⟨before', behind', hanswered', hsplit', huntaken⟩ := h.untaken
  have hsplit : SplitAt Prod.snd (·.1 ∈ conn.received) before ((i, own) :: behind) := by
    refine ⟨hbefore, fun p hp hne => ?_⟩
    rcases List.mem_cons.1 hp with rfl | hp
    · exact hi
    · exact hbehind p hp hne
  rw [← huntaken, hsplit'.flatMap_eq hsplit (hanswered'.symm.trans hanswered), List.flatMap_cons]

/-- Being in turn means to be handed over the own answer. -/
theorem Ordered.inTurn_iff (h : conn.Ordered) (hi : i ∉ conn.received) :
    conn.InTurn i ↔ conn.HandsOver i := by
  constructor
  · rintro ⟨before, own, behind, hanswered, hbefore, hbehind, hlen⟩
    have huntaken := h.untaken_of_split hanswered hi hbefore hbehind
    refine ⟨before, own, behind, hanswered, ?_, hlen⟩
    rw [← List.length_append, huntaken, List.length_append]
  · rintro ⟨before, own, behind, hanswered, huntakenLen, hlen⟩
    obtain ⟨before', behind', hanswered', hsplit', huntaken⟩ := h.untaken
    have hsplit : SplitAt Prod.snd (·.1 ∈ conn.received) before ((i, own) :: behind) :=
      hsplit'.of_length_eq (hanswered'.symm.trans hanswered) (by
        rw [huntaken, List.length_append, huntakenLen, List.flatMap_cons, List.length_append])
    exact ⟨before, own, behind, hanswered, hsplit.1,
      fun p hp => hsplit.2 p (List.mem_cons_of_mem _ hp), hlen⟩

/-- A call in turn takes its answer, and leaves the connection in order. -/
theorem Ordered.take (h : conn.Ordered) (hi : i ∉ conn.received) (hturn : conn.InTurn i) :
    (conn.take i).Ordered ∧ (i, conn.unread.take 1024) ∈ conn.answered := by
  obtain ⟨before, own, behind, hanswered, hbefore, hbehind, hlen⟩ := hturn
  have huntaken := h.untaken_of_split hanswered hi hbefore hbehind
  have hcut : conn.unread.take 1024 ++ (conn.unread.drop 1024 ++ conn.inFlight) =
      own ++ behind.flatMap Prod.snd := by
    rw [← List.append_assoc, List.take_append_drop, huntaken]
  obtain ⟨hown, hrest⟩ := List.append_inj hcut (by rw [List.length_take, hlen])
  -- a call behind the own one is another call
  have hother : ∀ p ∈ behind, p.1 ≠ i := by
    rintro p hp rfl
    have hnodup := (List.nodup_append.1 h.nodup).1
    rw [hanswered, List.map_append, List.map_cons] at hnodup
    exact (List.nodup_cons.1 (List.nodup_append.1 hnodup).2.1).1 (List.mem_map.2 ⟨p, hp, rfl⟩)
  refine ⟨⟨h.nodup, fun j hj => ?_, before ++ [(i, own)], behind, ?_, ⟨?_, ?_⟩, hrest.symm⟩, ?_⟩
  · rcases List.mem_append.1 hj with hj | hj
    · exact h.received j hj
    · rw [List.mem_singleton.1 hj]
      show i ∈ conn.answered.map Prod.fst
      simp [hanswered]
  · show conn.answered = _
    simp [hanswered]
  · intro p hp hne
    rcases List.mem_append.1 hp with hp | hp
    · exact List.mem_append_left _ (hbefore p hp hne)
    · rw [List.mem_singleton.1 hp]
      exact List.mem_append_right _ (List.mem_singleton_self i)
  · intro p hp hne hmem
    rcases List.mem_append.1 hmem with hmem | hmem
    · exact hbehind p hp hne hmem
    · exact hother p hp (List.mem_singleton.1 hmem)
  · rw [hown, hanswered]
    simp

end Connection

/-- The request may have been handed over. -/
def CallStage.Sent : CallStage → Prop
  | .enter | .socket | .connect | .send | .resend => False
  | .recv | .receiving _ | .drop | .failed | .filled _ _ => True

/-- The connection whose `recv` the call is inside. -/
def CallStage.receivingOn : CallStage → Option ℕ
  | .receiving c => some c
  | _ => none

/-- The call has returned. -/
def CallStage.Ended : CallStage → Prop
  | .failed | .filled _ _ => True
  | _ => False

namespace Channel

open ProtoWire (fieldsOf)

variable {ι : Type} {pb : Protobuf} {calls : ι → Call} {connected : Bool} {s : Channel ι} {i : ι}
  {c : ℕ}

@[simp] theorem connection_modify_self {f : Connection ι → Connection ι} :
    (s.modify c f).connection c = f (s.connection c) := Function.update_self ..

theorem connection_modify_of_ne {f : Connection ι → Connection ι} {c' : ℕ} (h : c' ≠ c) :
    (s.modify c f).connection c' = s.connection c' := Function.update_of_ne h ..

/-- A `recv` returns only when its call is in turn on the connection. -/
def InTurn (s : Channel ι) : ChannelAction ι → Prop
  | .run i true => ∀ c ∈ (s.stage i).receivingOn, (s.connection c).recv ≠ none →
      (s.connection c).InTurn i
  | _ => True

theorem InTurn.of_not_receiving {ok : Bool} (h : (s.stage i).receivingOn = none) :
    s.InTurn (.run i ok) := by
  cases ok with
  | true =>
    intro c hc
    rw [h] at hc
    cases hc
  | false => trivial

theorem InTurn.of_receiving (h : (s.stage i).receivingOn = some c) (hturn : (s.connection c).InTurn i) :
    s.InTurn (.run i true) := by
  intro c' hc
  rw [h] at hc
  cases hc
  exact fun _ => hturn

/-- Each connection is in order, and a response is the server's answer to the own request. -/
structure Paired (s : Channel ι) : Prop where
  ordered : ∀ c, (s.connection c).Ordered
  sent : ∀ c, ∀ i ∈ (s.connection c).requests, (s.stage i).Sent
  received : ∀ c, ∀ i ∈ (s.connection c).received, (s.stage i).Ended
  filled : ∀ i c recvBuf, s.stage i = .filled c recvBuf → (i, recvBuf) ∈ (s.connection c).answered

theorem Paired.init : (Channel.init connected : Channel ι).Paired where
  ordered := fun _ => .of_empty rfl rfl rfl rfl rfl
  sent := fun _ _ hi => absurd hi List.not_mem_nil
  received := fun _ _ hi => absurd hi List.not_mem_nil
  filled := fun _ _ _ h => CallStage.noConfusion h

theorem Paired.withFd (h : s.Paired) (clientFd : Option ℕ) (next : ℕ) :
    Paired { s with clientFd := clientFd, next := next } :=
  ⟨h.ordered, h.sent, h.received, h.filled⟩

theorem Paired.modify (h : s.Paired) {f : Connection ι → Connection ι}
    (hordered : (f (s.connection c)).Ordered)
    (hrequests : ∀ j ∈ (f (s.connection c)).requests,
      j ∈ (s.connection c).requests ∨ (s.stage j).Sent)
    (hreceived : ∀ j ∈ (f (s.connection c)).received,
      j ∈ (s.connection c).received ∨ (s.stage j).Ended)
    (hanswered : ∀ p ∈ (s.connection c).answered, p ∈ (f (s.connection c)).answered) :
    (s.modify c f).Paired := by
  refine ⟨fun c' => ?_, fun c' j hj => ?_, fun c' j hj => ?_, fun j c' recvBuf hj => ?_⟩
  · by_cases heq : c' = c
    · subst heq
      rw [connection_modify_self]
      exact hordered
    · rw [connection_modify_of_ne heq]
      exact h.ordered c'
  · by_cases heq : c' = c
    · subst heq
      rw [connection_modify_self] at hj
      rcases hrequests j hj with hj | hj
      · exact h.sent c' j hj
      · exact hj
    · rw [connection_modify_of_ne heq] at hj
      exact h.sent c' j hj
  · by_cases heq : c' = c
    · subst heq
      rw [connection_modify_self] at hj
      rcases hreceived j hj with hj | hj
      · exact h.received c' j hj
      · exact hj
    · rw [connection_modify_of_ne heq] at hj
      exact h.received c' j hj
  · have hmem := h.filled j c' recvBuf hj
    by_cases heq : c' = c
    · subst heq
      rw [connection_modify_self]
      exact hanswered _ hmem
    · rw [connection_modify_of_ne heq]
      exact hmem

variable [DecidableEq ι]

@[simp] theorem stage_setStage_self {stage : CallStage} : (s.setStage i stage).stage i = stage :=
  Function.update_self ..

theorem stage_setStage_of_ne {stage : CallStage} {j : ι} (h : j ≠ i) :
    (s.setStage i stage).stage j = s.stage j := Function.update_of_ne h ..

theorem Paired.setStage (h : s.Paired) {stage : CallStage}
    (hsent : (s.stage i).Sent → stage.Sent) (hended : (s.stage i).Ended → stage.Ended)
    (hfilled : ∀ c recvBuf, stage = .filled c recvBuf → (i, recvBuf) ∈ (s.connection c).answered) :
    (s.setStage i stage).Paired := by
  refine ⟨h.ordered, fun c j hj => ?_, fun c j hj => ?_, fun j c recvBuf hj => ?_⟩
  · by_cases heq : j = i
    · subst heq
      rw [stage_setStage_self]
      exact hsent (h.sent c j hj)
    · rw [stage_setStage_of_ne heq]
      exact h.sent c j hj
  · by_cases heq : j = i
    · subst heq
      rw [stage_setStage_self]
      exact hended (h.received c j hj)
    · rw [stage_setStage_of_ne heq]
      exact h.received c j hj
  · by_cases heq : j = i
    · subst heq
      rw [stage_setStage_self] at hj
      exact hfilled c recvBuf hj
    · rw [stage_setStage_of_ne heq] at hj
      exact h.filled j c recvBuf hj

/-- A stage of a call that has not returned, and does not return with a response here. -/
theorem Paired.goOn (h : s.Paired) {stage : CallStage} (hsent : (s.stage i).Sent → stage.Sent)
    (hended : ¬ (s.stage i).Ended) (hstage : ∀ c recvBuf, stage ≠ .filled c recvBuf) :
    (s.setStage i stage).Paired :=
  h.setStage hsent (fun h => absurd h hended) fun c recvBuf heq => absurd heq (hstage c recvBuf)

theorem Paired.fail (h : s.Paired) : (s.setStage i .failed).Paired :=
  h.setStage (fun _ => trivial) (fun _ => trivial) fun _ _ heq => CallStage.noConfusion heq

theorem Paired.connect (h : s.Paired) (hstage : s.stage i = .connect) (ok : Bool) :
    (s.connect i ok).Paired := by
  unfold Channel.connect
  split
  · exact (h.withFd none s.next).fail
  · rename_i c hfd
    split_ifs with hok
    · have hconn := h.modify (c := c) (f := fun conn => { conn with connected := true })
        ⟨(h.ordered c).nodup, (h.ordered c).received, (h.ordered c).untaken⟩ (fun j => Or.inl)
        (fun j => Or.inl) fun p hp => hp
      refine hconn.goOn ?_ ?_ fun _ _ heq => CallStage.noConfusion heq
      · show (s.stage i).Sent → _
        rw [hstage]
        exact id
      · show ¬ (s.stage i).Ended
        rw [hstage]
        exact id
    · exact (h.withFd none s.next).fail

theorem Paired.send (h : s.Paired) (hstage : s.stage i = .send) (ok : Bool) :
    (s.send pb calls i ok).Paired := by
  have hunsent : ¬ (s.stage i).Sent := by
    rw [hstage]
    exact id
  have hended : ¬ (s.stage i).Ended := by
    rw [hstage]
    exact id
  unfold Channel.send
  split
  · exact h.fail
  · exact h.goOn (fun hsent => absurd hsent hunsent) hended fun _ _ heq => CallStage.noConfusion heq
  · rename_i c hframe hfd
    split_ifs with hok
    · -- the stage first: the call is then one that may have sent
      have hrecv : (s.setStage i .recv).Paired :=
        h.goOn (fun _ => trivial) hended fun _ _ heq => CallStage.noConfusion heq
      have hnot : i ∉ (s.connection c).requests := fun hmem => hunsent (h.sent c i hmem)
      refine hrecv.modify (f := fun conn => { conn with pending := conn.pending ++ [i] })
        ((h.ordered c).send hnot) (fun j hj => ?_) (fun j => Or.inl) fun p hp => hp
      have hj : j ∈ (s.connection c).answered.map Prod.fst ++ ((s.connection c).pending ++ [i]) := hj
      rw [← List.append_assoc] at hj
      rcases List.mem_append.1 hj with hj | hj
      · exact .inl hj
      · rw [List.mem_singleton.1 hj]
        right
        rw [stage_setStage_self]
        trivial
    · exact h.goOn (fun hsent => absurd hsent hunsent) hended fun _ _ heq => CallStage.noConfusion heq

theorem Paired.receive (h : s.Paired) (hstage : s.stage i = .receiving c)
    (hturn : (s.connection c).recv ≠ none → (s.connection c).InTurn i) :
    (s.receive calls i c).Paired := by
  have hnot : i ∉ (s.connection c).received := by
    intro hmem
    have hended := h.received c i hmem
    rw [hstage] at hended
    exact hended
  unfold Channel.receive
  split
  · exact h
  · rename_i recvBuf hrecv
    obtain ⟨hordered, hown⟩ := (h.ordered c).take hnot (hturn (by simp [hrecv]))
    have hbuf : recvBuf = (s.connection c).unread.take 1024 := by
      unfold Connection.recv at hrecv
      split_ifs at hrecv
      exact (Option.some.inj hrecv).symm
    have hset : (s.setStage i
        (if (calls i).parses recvBuf then .filled c recvBuf else .failed)).Paired := by
      split_ifs
      · refine h.setStage (fun _ => trivial) (fun _ => trivial) fun c' recvBuf' heq => ?_
        obtain ⟨rfl, rfl⟩ := CallStage.filled.inj heq
        rw [hbuf]
        exact hown
      · exact h.fail
    refine hset.modify (f := (·.take i)) hordered (fun j => Or.inl) (fun j hj => ?_) fun p hp => hp
    rcases List.mem_append.1 hj with hj | hj
    · exact .inl hj
    · rw [List.mem_singleton.1 hj]
      right
      rw [stage_setStage_self]
      split_ifs <;> trivial

theorem Paired.run (h : s.Paired) (ok : Bool) (hturn : s.InTurn (.run i ok)) :
    (s.run pb calls i ok).Paired := by
  have hstep : ∀ {stage : CallStage}, ((s.stage i).Sent → stage.Sent) → ¬ (s.stage i).Ended →
      (∀ c recvBuf, stage ≠ .filled c recvBuf) → (s.setStage i stage).Paired :=
    fun hsent hended hstage => h.goOn hsent hended hstage
  unfold Channel.run
  cases hstage : s.stage i with
  | enter =>
    rw [hstage] at hstep
    refine hstep False.elim id fun c recvBuf => ?_
    split_ifs <;> exact CallStage.noConfusion
  | socket =>
    simp only
    split_ifs with hok
    · refine (h.withFd (some s.next) (s.next + 1)).goOn ?_ ?_ fun _ _ heq => CallStage.noConfusion heq
      · show (s.stage i).Sent → _
        rw [hstage]
        exact id
      · show ¬ (s.stage i).Ended
        rw [hstage]
        exact id
    · exact (h.withFd none s.next).fail
  | connect => exact h.connect hstage ok
  | send => exact h.send hstage ok
  | resend =>
    refine (h.withFd none s.next).goOn ?_ ?_ fun _ _ heq => CallStage.noConfusion heq
    · show (s.stage i).Sent → _
      rw [hstage]
      exact id
    · show ¬ (s.stage i).Ended
      rw [hstage]
      exact id
  | recv =>
    rw [hstage] at hstep
    simp only
    split
    · exact hstep (fun _ => trivial) id fun _ _ heq => CallStage.noConfusion heq
    · split_ifs
      · exact hstep (fun _ => trivial) id fun _ _ heq => CallStage.noConfusion heq
      · exact hstep (fun _ => trivial) id fun _ _ heq => CallStage.noConfusion heq
  | receiving c =>
    cases ok with
    | true =>
      refine h.receive hstage (hturn c ?_)
      rw [hstage]
      rfl
    | false =>
      rw [hstage] at hstep
      exact hstep (fun _ => trivial) id fun _ _ heq => CallStage.noConfusion heq
  | drop => exact (h.withFd none s.next).fail
  | failed => exact h
  | filled c recvBuf => exact h

theorem Paired.step (h : s.Paired) (a : ChannelAction ι) (hturn : s.InTurn a) :
    (Channel.step pb calls s a).Paired := by
  cases a with
  | run i ok => exact h.run ok hturn
  | answer c bytes =>
    refine h.modify (f := (·.answer bytes)) ((h.ordered c).answer bytes) (fun j hj => ?_) (fun j hj => ?_) fun p hp => ?_
    · rw [Connection.requests_answer] at hj
      exact .inl hj
    · unfold Connection.answer at hj
      split at hj <;> exact .inl hj
    · unfold Connection.answer
      split
      · exact List.mem_append_left _ hp
      · exact hp
  | arrive c size =>
    exact h.modify (f := (·.arrive size)) ((h.ordered c).arrive size) (fun j => Or.inl)
      (fun j => Or.inl) fun p hp => hp
  | finish c =>
    exact h.modify (f := fun conn => { conn with finished := true }) ⟨(h.ordered c).nodup, (h.ordered c).received, (h.ordered c).untaken⟩
      (fun j => Or.inl) (fun j => Or.inl) fun p hp => hp

/-- While every `recv` that returns does so for the call in turn, a response that was filled is the
    server's answer to the request of its call; and only the call in turn is handed its answer. -/
theorem responses_paired (pb : Protobuf) (calls : ι → Call) (connected : Bool) {s : Channel ι}
    (h : GuardedRun.Reach (Channel.init connected) (Channel.step pb calls) Channel.InTurn s) :
    (∀ i c recvBuf, s.stage i = .filled c recvBuf → (i, recvBuf) ∈ (s.connection c).answered) ∧
      ∀ i c, s.stage i = .receiving c →
        ((s.connection c).InTurn i ↔ (s.connection c).HandsOver i) := by
  have hpaired : s.Paired := h.invariant Paired.init fun _ a _ hs hturn => hs.step a hturn
  refine ⟨hpaired.filled, fun i c hstage => (hpaired.ordered c).inTurn_iff fun hmem => ?_⟩
  have hended := hpaired.received c i hmem
  rw [hstage] at hended
  exact hended

/-- "appendEntries" -/
def appendEntriesName : Bytes := [97, 112, 112, 101, 110, 100, 69, 110, 116, 114, 105, 101, 115]

/-- A heartbeat and a request for a vote on the channel of one peer. -/
def twoCalls : Bool → Call
  | false => ⟨⟨raftBaseName, appendEntriesName, [8, 1]⟩, fun bytes => (fieldsOf bytes).isSome⟩
  | true => ⟨⟨raftBaseName, requestVoteName, [8, 1]⟩, fun bytes => (fieldsOf bytes).isSome⟩

/-- The heartbeat succeeds, the vote is refused. -/
def heartbeatAnswer : Bytes :=
  AppendEntriesReply.serialize
    { term := 1, success := true, updateNextIndex := 1, state := .connected }

def voteAnswer : Bytes := RequestVoteReply.serialize { term := 1, voteGranted := false, state := .voted }

/-- The heartbeat is answered before the vote is asked for. -/
def oneByOne : List (ChannelAction Bool) :=
  [.run false true, .run false true, .answer 0 heartbeatAnswer, .arrive 0 8, .run false true,
    .run false true, .run true true, .run true true, .answer 0 voteAnswer, .arrive 0 4,
    .run true true, .run true true]

/-- Both have sent when the first answer arrives. -/
def bothSent : List (ChannelAction Bool) :=
  [.run false true, .run false true, .run true true, .run true true, .answer 0 heartbeatAnswer,
    .answer 0 voteAnswer, .arrive 0 8, .run true true, .run true true]

theorem responses_paired_oneByOne :
    let s := GuardedRun.exec (Channel.step .wire twoCalls) (Channel.init true) oneByOne
    s.stage false = .filled 0 heartbeatAnswer ∧ (false, heartbeatAnswer) ∈ (s.connection 0).answered ∧
      s.stage true = .filled 0 voteAnswer ∧ (true, voteAnswer) ∈ (s.connection 0).answered := by
  have hreach : GuardedRun.Reach (Channel.init true) (Channel.step .wire twoCalls) Channel.InTurn
      (GuardedRun.exec (Channel.step .wire twoCalls) (Channel.init true) oneByOne) := by
    refine GuardedRun.Reach.exec .init ⟨.of_not_receiving (by decide +kernel),
      .of_not_receiving (by decide +kernel), trivial, trivial, .of_not_receiving (by decide +kernel),
      .of_receiving (c := 0) (by decide +kernel) ⟨[], heartbeatAnswer, [], ?_⟩,
      .of_not_receiving (by decide +kernel), .of_not_receiving (by decide +kernel), trivial, trivial,
      .of_not_receiving (by decide +kernel),
      .of_receiving (c := 0) (by decide +kernel) ⟨[(false, heartbeatAnswer)], voteAnswer, [], ?_⟩,
      trivial⟩
    · decide +kernel
    · decide +kernel
  have hpaired := (responses_paired .wire twoCalls true hreach).1
  have hfalse : (GuardedRun.exec (Channel.step .wire twoCalls) (Channel.init true) oneByOne).stage
      false = .filled 0 heartbeatAnswer := by decide +kernel
  have htrue : (GuardedRun.exec (Channel.step .wire twoCalls) (Channel.init true) oneByOne).stage
      true = .filled 0 voteAnswer := by decide +kernel
  exact ⟨hfalse, hpaired _ _ _ hfalse, htrue, hpaired _ _ _ htrue⟩

/-- The thread that asks for a vote receives the answer to the heartbeat: field 2 of what it reads,
    the vote, is the success of the heartbeat. -/
theorem vote_reads_heartbeat :
    let s := GuardedRun.exec (Channel.step .wire twoCalls) (Channel.init true) bothSent
    s.stage true = .filled 0 heartbeatAnswer ∧
      (s.connection 0).answered = [(false, heartbeatAnswer), (true, voteAnswer)] ∧
      (true, heartbeatAnswer) ∉ (s.connection 0).answered ∧
      fieldsOf heartbeatAnswer =
        some [.varint 1 1, .varint 2 1, .varint 3 1, .varint 4 1] ∧
      fieldsOf voteAnswer = some [.varint 1 1, .varint 3 1] := by
  decide +kernel

end Channel

end RaftKVStorage
