import RaftKVStorage.SentEntries

set_option autoImplicit false

/-! # What a leader commits

A leader counts the peers that accepted a request in one counter a round. All requests of a round
are of one term and end at one index, so a counter that reaches the majority stands for that many
peers that hold the leader's log up to there. `Ledger` watches a run of the cluster: it keeps every
answer that was given and every time the majority branch was entered. -/

namespace RaftKVStorage

variable {n : ℕ}

/-! ## The ledger -/

/-- The index of the last entry a peer holds that accepts the request. -/
def AppendEntriesArgs.endIndex (args : AppendEntriesArgs) : Int :=
  args.prevLogIndex + args.entries.length

/-- An answer to a request; `round` is the place of the round's counter at the leader. -/
structure Answer (n : ℕ) where
  leader : Fin n
  round : ℕ
  server : Fin n
  args : AppendEntriesArgs
  reply : AppendEntriesReply

/-- `q` answered success, in term `term`, to a request of the round that ends at `index`. -/
def Approved (answers : List (Answer n)) (leader : Fin n) (round : ℕ) (q : Fin n)
    (term index : Int) : Prop :=
  ∃ a ∈ answers, a.leader = leader ∧ a.round = round ∧ a.server = q ∧ a.reply.success = true ∧
    a.reply.term = term ∧ a.args.term = term ∧ a.args.endIndex = index

/-- The answer an action gives. -/
def Cluster.answered (σ : Cluster n) : Action n → List (Answer n)
  | .deliverAppend p k =>
      match (σ.procs p).appendCalls[k]? with
      | some ⟨server, args, cell, none⟩ =>
          match ((σ.procs server).node.appendEntries args).fault with
          | none => [⟨p, cell, server, args, ((σ.procs server).node.appendEntries args).ret⟩]
          | some _ => []
      | _ => []
  | _ => []

/-- The way through `_L_sendAppendEntries` that leads into its majority branch. -/
def Node.EntersMajority (s : Node n) (server : Fin n) (args : AppendEntriesArgs)
    (reply : AppendEntriesReply) (appendNum : ℕ) : Prop :=
  reply.state ≠ .disconnected ∧ ¬ reply.term > s.term ∧
    ¬ (reply.term < s.term ∨ s.identity ≠ .leader) ∧ reply.success = true ∧
    ¬ (s.recordMatch server args).nextIndex server > s.getLastLogIndex + 1 ∧
    appendNum + 1 ≥ n / 2 + 1

instance (s : Node n) (server : Fin n) (args : AppendEntriesArgs) (reply : AppendEntriesReply)
    (appendNum : ℕ) : Decidable (s.EntersMajority server args reply appendNum) :=
  inferInstanceAs (Decidable (_ ∧ _))

/-- The rounds whose majority branch an action enters. -/
def Cluster.entered (σ : Cluster n) : Action n → List (Fin n × ℕ)
  | .returnAppend p k =>
      match (σ.procs p).appendCalls[k]? with
      | some ⟨server, args, cell, some reply⟩ =>
          if (σ.procs p).node.EntersMajority server args reply ((σ.procs p).appendNums.getD cell 0)
          then [(p, cell)] else []
      | _ => []
  | _ => []

/-- The cluster, the answers given so far and the rounds that entered the majority branch. -/
structure Ledger (n : ℕ) where
  cluster : Cluster n
  answers : List (Answer n) := []
  majorities : List (Fin n × ℕ) := []

def Ledger.new (n : ℕ) : Ledger n := { cluster := Cluster.new n }

def Ledger.step (L : Ledger n) (a : Action n) : Ledger n :=
  { cluster := L.cluster.step a
    answers := L.answers ++ L.cluster.answered a
    majorities := L.majorities ++ L.cluster.entered a }

def Ledger.Reachable (L : Ledger n) : Prop :=
  GuardedRun.Reach (Ledger.new n) Ledger.step (fun _ _ => True) L

/-- The ledger watches and does not interfere. -/
theorem Ledger.Reachable.cluster {L : Ledger n} (h : L.Reachable) : L.cluster.Reachable := by
  induction h with
  | init => exact .init
  | step a _ _ ih => exact .step a ih trivial

theorem Approved.mono {A A' : List (Answer n)} (hsub : ∀ a ∈ A, a ∈ A') {p : Fin n} {c : ℕ}
    {q : Fin n} {T N : Int} (h : Approved A p c q T N) : Approved A' p c q T N := by
  obtain ⟨a, ha, hrest⟩ := h
  exact ⟨a, hsub a ha, hrest⟩

/-! ## What a reply does -/

section Reply

variable {s : Node n} {server : Fin n} {args : AppendEntriesArgs} {reply : AppendEntriesReply}
  {num : ℕ}

theorem Node.EntersMajority.sendAppendEntries (h : s.EntersMajority server args reply num) :
    (s.sendAppendEntries server args reply num).node =
        (s.recordMatch server args).updateCommitIndex args ∧
      (s.sendAppendEntries server args reply num).ret = 0 := by
  obtain ⟨hstate, hnewer, hstale, hsuccess, hnext, hover⟩ := h
  have hlast : (s.recordMatch server args).getLastLogIndex = s.getLastLogIndex := rfl
  unfold Node.sendAppendEntries
  rw [if_neg hstate, if_neg hnewer, if_neg hstale, if_neg (by simp [hsuccess])]
  dsimp only
  rw [hlast, if_neg hnext, if_pos hover, if_pos hover]
  exact ⟨rfl, rfl⟩

/-- Outside the majority branch nothing is committed, and only a success of the leader's term is
    counted. -/
theorem Node.sendAppendEntries_of_not_enters (h : ¬ s.EntersMajority server args reply num) :
    (s.sendAppendEntries server args reply num).node.commitIndex = s.commitIndex ∧
      ((s.sendAppendEntries server args reply num).ret = num ∨ reply.success = true ∧
        (s.sendAppendEntries server args reply num).ret = num + 1) := by
  have hlast : (s.recordMatch server args).getLastLogIndex = s.getLastLogIndex := rfl
  unfold Node.sendAppendEntries
  split
  · exact ⟨rfl, Or.inl rfl⟩
  split
  · exact ⟨rfl, Or.inl rfl⟩
  split
  · exact ⟨rfl, Or.inl rfl⟩
  split
  · split
    · exact ⟨rfl, Or.inl rfl⟩
    · exact ⟨rfl, Or.inl rfl⟩
  rename_i hstate hnewer hstale hsuccess
  have hsuccess : reply.success = true := by simpa using hsuccess
  dsimp only
  rw [hlast]
  split
  · exact ⟨rfl, Or.inr ⟨hsuccess, rfl⟩⟩
  · rename_i hnext
    have hover : ¬ num + 1 ≥ n / 2 + 1 := fun hover =>
      h ⟨hstate, hnewer, hstale, hsuccess, hnext, hover⟩
    rw [if_neg hover, if_neg hover]
    exact ⟨rfl, Or.inr ⟨hsuccess, rfl⟩⟩

end Reply

/-! ## The rounds of a leader -/

/-- What process `p` knows about its rounds: a reply noted with a call is an answer that was given,
    the requests of a round share their term and their end, and its counter is sound. -/
structure Proc.RoundInv (A : List (Answer n)) (W : List (Fin n × ℕ)) (p : Fin n) (P : Proc n) :
    Prop where
  noted : ∀ call ∈ P.appendCalls, ∀ reply, call.reply = some reply → reply.success = true →
    reply.term = call.args.term ∧
      Approved A p call.appendNum call.server call.args.term call.args.endIndex
  opened : ∀ c, (p, c) ∈ W → c < P.appendNums.length
  rounds : ∃ T N : ℕ → Int,
    (∀ call ∈ P.appendCalls,
      call.args.term = T call.appendNum ∧ call.args.endIndex = N call.appendNum) ∧
    Tally.Sound p (fun c q => q = p ∨ Approved A p c q (T c) (N c)) (fun c => (p, c) ∈ W)
      (P.appendCalls.map fun call => (call.appendNum, call.server)) P.appendNums

section RoundInv

variable {A A' : List (Answer n)} {W W' : List (Fin n × ℕ)} {p : Fin n} {P P' : Proc n}

theorem Proc.RoundInv.new (me : Fin n) : Proc.RoundInv [] [] p (Proc.new me) := by
  refine ⟨?_, ?_, fun _ => 0, fun _ => 0, ?_, Tally.Sound.nil⟩
  · simp [Proc.new]
  · simp
  · simp [Proc.new]

/-- Answers may be added, and other processes may win rounds. -/
theorem Proc.RoundInv.mono (h : P.RoundInv A W p) (hA : ∀ a ∈ A, a ∈ A')
    (hW : ∀ c, (p, c) ∈ W' → (p, c) ∈ W) : P.RoundInv A' W' p := by
  obtain ⟨T, N, hcalls, hsound⟩ := h.rounds
  refine ⟨fun call hc reply hr hs => (h.noted call hc reply hr hs).imp_right fun ha => ha.mono hA,
    fun c hc => h.opened c (hW c hc), T, N, hcalls, ?_⟩
  exact hsound.mono (fun c _ q hq => hq.imp_right fun hq => hq.mono hA) fun c _ hc => hW c hc

/-- A step that leaves the counters alone and at most drops calls. -/
theorem Proc.RoundInv.frame (h : P.RoundInv A W p) (hcalls : P'.appendCalls.Sublist P.appendCalls)
    (hnums : P'.appendNums = P.appendNums) : P'.RoundInv A W p := by
  obtain ⟨T, N, hT, hsound⟩ := h.rounds
  refine ⟨fun call hc => h.noted call (hcalls.subset hc), ?_, T, N,
    fun call hc => hT call (hcalls.subset hc), ?_⟩
  · rw [hnums]
    exact h.opened
  · rw [hnums]
    exact hsound.sublist (hcalls.map _)

/-- A new round: its requests all end at the leader's last entry. -/
theorem Proc.RoundInv.heartBeat (h : P.RoundInv A W p) (hinv : P.IndexInv) (hme : P.node.me = p) :
    P.heartBeat.RoundInv A W p := by
  by_cases hid : P.node.identity = .leader
  swap
  · rw [Proc.heartBeat, if_neg hid]
    exact h
  obtain ⟨T, N, hcalls, hsound⟩ := h.rounds
  have hnew : ∀ call ∈ P.node.heartBeat.1.filterMap (Launch.toAppendCall P.appendNums.length),
      call.appendNum = P.appendNums.length ∧ call.reply = none ∧ call.args.term = P.node.term ∧
        call.args.endIndex = P.node.getLastLogIndex := by
    intro call hcall
    obtain ⟨server, args, hmem, rfl⟩ := mem_toAppendCall hcall
    rw [Node.heartBeat, if_pos hid] at hmem
    obtain ⟨-, -, -, hargs⟩ := Node.mem_heartBeatPeers hmem
    obtain ⟨hterm, -, -, hlo, hhi, -, hentries⟩ := hinv.node.contiguous.heartBeatArgs hargs
    obtain ⟨-, hend⟩ := hinv.node.contiguous.heartBeatArgs_entries hlo hhi
    refine ⟨rfl, rfl, hterm, ?_⟩
    rw [AppendEntriesArgs.endIndex, hentries]
    exact hend
  rw [Proc.heartBeat, if_pos hid]
  refine ⟨fun call hc reply hr hs => ?_, fun c hc => ?_,
    Function.update T P.appendNums.length P.node.term,
    Function.update N P.appendNums.length P.node.getLastLogIndex, fun call hc => ?_, ?_⟩
  · rcases List.mem_append.1 hc with hc | hc
    · exact h.noted call hc reply hr hs
    · rw [(hnew call hc).2.1] at hr
      cases hr
  · rw [List.length_append]
    exact (h.opened c hc).trans_le (Nat.le_add_right _ _)
  · rcases List.mem_append.1 hc with hc | hc
    · have hlt := hsound.inRange _ (List.mem_map_of_mem hc)
      rw [Function.update_of_ne hlt.ne, Function.update_of_ne hlt.ne]
      exact hcalls call hc
    · obtain ⟨hnum, -, hterm, hend⟩ := hnew call hc
      rw [hnum, Function.update_self, Function.update_self]
      exact ⟨hterm, hend⟩
  · -- the old rounds keep their term and end
    have hold : Tally.Sound p (fun c q => q = p ∨
        Approved A p c q (Function.update T P.appendNums.length P.node.term c)
          (Function.update N P.appendNums.length P.node.getLastLogIndex c)) (fun c => (p, c) ∈ W)
        (P.appendCalls.map fun call => (call.appendNum, call.server)) P.appendNums :=
      hsound.mono (fun c hc q hq => by
        rw [Function.update_of_ne hc.ne, Function.update_of_ne hc.ne]
        exact hq) fun _ _ hw => hw
    have hsub := P.node.heartBeatPeers_servers P.appendNums.length (List.finRange n)
    have hstart := hold.start
      ((P.node.heartBeat.1.filterMap (Launch.toAppendCall P.appendNums.length)).map
        AppendCall.server)
      (by
        rw [Node.heartBeat, if_pos hid]
        exact ((List.nodup_finRange n).filter _).sublist hsub)
      (by
        rw [Node.heartBeat, if_pos hid, ← hme]
        intro hmem
        simpa using hsub.subset hmem)
      (Or.inl rfl) fun hw => absurd (h.opened _ hw) (lt_irrefl _)
    have hmap : (P.node.heartBeat.1.filterMap (Launch.toAppendCall P.appendNums.length)).map
        (fun call => (call.appendNum, call.server)) =
        ((P.node.heartBeat.1.filterMap (Launch.toAppendCall P.appendNums.length)).map
          AppendCall.server).map fun q => (P.appendNums.length, q) := by
      rw [List.map_map]
      exact List.map_congr_left fun call hc => by rw [(hnew call hc).1]; rfl
    rw [List.map_append, hmap]
    exact hstart

/-- A reply is noted with its call. -/
theorem Proc.RoundInv.answer (h : P.RoundInv A W p) {k : ℕ} {call : AppendCall n}
    {reply : AppendEntriesReply} (hcall : P.appendCalls[k]? = some call)
    (hreply : reply.success = true → reply.term = call.args.term ∧
      Approved A p call.appendNum call.server call.args.term call.args.endIndex) :
    Proc.RoundInv A W p
      { P with appendCalls := P.appendCalls.set k { call with reply := some reply } } := by
  obtain ⟨T, N, hT, hsound⟩ := h.rounds
  refine ⟨fun c hc r hr hs => ?_, h.opened, T, N, fun c hc => ?_, ?_⟩
  · rcases List.mem_or_eq_of_mem_set hc with hc | rfl
    · exact h.noted c hc r hr hs
    · cases hr
      exact hreply hs
  · obtain ⟨c', hc', heq⟩ := exists_of_mem_set
      (f := fun call : AppendCall n => (call.args, call.appendNum)) hcall hc rfl
    simp only [Prod.mk.injEq] at heq
    rw [heq.1, heq.2]
    exact hT c' hc'
  · have hmap : (P.appendCalls.set k { call with reply := some reply }).map
        (fun call => (call.appendNum, call.server))
        = P.appendCalls.map fun call => (call.appendNum, call.server) := map_set_eq_map hcall rfl
    simp only [hmap]
    exact hsound

/-- A reply is taken in outside the majority branch. -/
theorem Proc.RoundInv.below (h : P.RoundInv A W p) {k : ℕ} {call : AppendCall n}
    {reply : AppendEntriesReply} (hcall : P.appendCalls[k]? = some call)
    (hreply : call.reply = some reply)
    (hnot : ¬ P.node.EntersMajority call.server call.args reply
      (P.appendNums.getD call.appendNum 0)) : (P.appendReply k reply).1.RoundInv A W p := by
  obtain ⟨T, N, hT, hsound⟩ := h.rounds
  have hmem := List.mem_of_getElem? hcall
  have hpend : (P.appendCalls.map fun call => (call.appendNum, call.server))[k]?
      = some (call.appendNum, call.server) := by simp [hcall]
  have hlt := hsound.inRange _ (List.mem_of_getElem? hpend)
  simp only [Proc.appendReply, hcall]
  refine ⟨fun c hc => h.noted c (List.mem_of_mem_eraseIdx hc), ?_, T, N,
    fun c hc => hT c (List.mem_of_mem_eraseIdx hc), ?_⟩
  · simpa using h.opened
  · rw [← List.eraseIdx_map]
    obtain ⟨-, heq | ⟨hsuccess, heq⟩⟩ := Node.sendAppendEntries_of_not_enters hnot
    · rw [heq, List.getD_eq_getElem _ _ hlt, List.set_getElem_self]
      exact hsound.sublist (List.eraseIdx_sublist _ _)
    · refine hsound.count hpend (Or.inr ?_) heq.le
      rw [← (hT call hmem).1, ← (hT call hmem).2]
      exact (h.noted call hmem reply hreply hsuccess).2

/-- A reply enters the majority branch: its round did not before, and half of the peers accepted
    the requests of the round. -/
theorem Proc.RoundInv.enters (h : P.RoundInv A W p) {k : ℕ} {call : AppendCall n}
    {reply : AppendEntriesReply} (hcall : P.appendCalls[k]? = some call)
    (hreply : call.reply = some reply)
    (henters : P.node.EntersMajority call.server call.args reply
      (P.appendNums.getD call.appendNum 0)) :
    (P.appendReply k reply).1.RoundInv A (W ++ [(p, call.appendNum)]) p ∧
      (p, call.appendNum) ∉ W ∧ ∃ Q : Finset (Fin n), n / 2 ≤ Q.card ∧ p ∉ Q ∧
        ∀ q ∈ Q, Approved A p call.appendNum q call.args.term call.args.endIndex := by
  obtain ⟨T, N, hT, hsound⟩ := h.rounds
  have hmem := List.mem_of_getElem? hcall
  have hpend : (P.appendCalls.map fun call => (call.appendNum, call.server))[k]?
      = some (call.appendNum, call.server) := by simp [hcall]
  have hlt := hsound.inRange _ (List.mem_of_getElem? hpend)
  have hmaj : Fintype.card (Fin n) / 2 + 1 ≤ P.appendNums.getD call.appendNum 0 + 1 := by
    rw [Fintype.card_fin]
    exact henters.2.2.2.2.2
  have hyes : call.server = p ∨
      Approved A p call.appendNum call.server (T call.appendNum) (N call.appendNum) := by
    right
    rw [← (hT call hmem).1, ← (hT call hmem).2]
    exact (h.noted call hmem reply hreply henters.2.2.2.1).2
  refine ⟨?_, hsound.not_won (List.mem_of_getElem? hpend) hmaj, ?_⟩
  · simp only [Proc.appendReply, hcall]
    refine ⟨fun c hc => h.noted c (List.mem_of_mem_eraseIdx hc), fun c hc => ?_, T, N,
      fun c hc => hT c (List.mem_of_mem_eraseIdx hc), ?_⟩
    · rw [List.length_set]
      rcases List.mem_append.1 hc with hc | hc
      · exact h.opened c hc
      · obtain ⟨-, rfl⟩ := Prod.mk.inj (List.mem_singleton.1 hc)
        exact hlt
    · rw [← List.eraseIdx_map, henters.sendAppendEntries.2]
      refine hsound.win hpend hyes hmaj fun c _ hc => ?_
      rcases List.mem_append.1 hc with hc | hc
      · exact Or.inl hc
      · exact Or.inr (Prod.mk.inj (List.mem_singleton.1 hc)).2
  · obtain ⟨Q, hQ, hall⟩ := hsound.majority (List.mem_of_getElem? hpend) hyes hmaj
    refine ⟨Q.erase p, ?_, Finset.notMem_erase p Q, fun q hq => ?_⟩
    · have hcard := Finset.pred_card_le_card_erase (s := Q) (a := p)
      rw [LeaderLogs.Majority, Fintype.card_fin] at hQ
      omega
    · obtain ⟨hne, hq⟩ := Finset.mem_erase.1 hq
      rw [(hT call hmem).1, (hT call hmem).2]
      exact (hall q hq).resolve_left hne

end RoundInv

/-! ## Along a run -/

section Rounds

variable {σ σ' : Cluster n} {A A' : List (Answer n)} {W : List (Fin n × ℕ)}

theorem Cluster.feed_roundInv (h : ∀ q, (σ.procs q).RoundInv A W q)
    (hinv : ∀ q, (σ.procs q).IndexInv) (hme : ∀ q, (σ.procs q).node.me = q) (p : Fin n)
    (input : Input n) (hreply : ∀ k reply, input ≠ .appendReply k reply) (q : Fin n) :
    ((σ.feed p input).procs q).RoundInv A W q := by
  refine σ.forall_setProc p (I := fun q P => P.RoundInv A W q) h ?_ q
  by_cases hbeat : input = .heartBeat
  · subst hbeat
    exact (h p).heartBeat (hinv p) (hme p)
  · obtain ⟨hcalls, hnums⟩ := (σ.procs p).step_appendCalls hbeat hreply
    exact (h p).frame (by rw [hcalls]) hnums

/-- A success is answered in the term of the request. -/
theorem Node.Contiguous.appendEntries_success {s : Node n} (h : s.Contiguous)
    {args : AppendEntriesArgs} (hcons : Consecutive args.prevLogIndex args.entries)
    (hfault : (s.appendEntries args).fault = none)
    (hsuccess : (s.appendEntries args).ret.success = true) :
    (s.appendEntries args).ret.term = args.term := by
  rcases h.appendEntries_cases hcons with
    ⟨-, heq⟩ | ⟨-, index, heq, -⟩ | ⟨-, -, -, -, heq⟩ | ⟨-, -, _, _, _, _, -, -, -, -, -, -, -, hf, -⟩
  · rw [heq] at hsuccess
    cases hsuccess
  · rw [heq] at hsuccess
    cases hsuccess
  · rw [heq]
  · rw [hf] at hfault
    cases hfault

theorem Cluster.answered_deliverAppend {p : Fin n} {k : ℕ} {call : AppendCall n}
    (hcall : (σ.procs p).appendCalls[k]? = some call) (hreply : call.reply = none)
    (hfault : ((σ.procs call.server).node.appendEntries call.args).fault = none) :
    σ.answered (.deliverAppend p k) = [⟨p, call.appendNum, call.server, call.args,
      ((σ.procs call.server).node.appendEntries call.args).ret⟩] := by
  obtain ⟨server, args, cell, reply⟩ := call
  simp only at hreply hfault
  subst hreply
  simp [Cluster.answered, hcall, hfault]

/-- All moves but a returning reply. -/
theorem Cluster.Move.roundInv {a : Action n} (hmove : σ.Move a σ')
    (ha : ∀ p k, a ≠ .returnAppend p k) (h : ∀ q, (σ.procs q).RoundInv A W q)
    (hinv : ∀ q, (σ.procs q).IndexInv) (hme : ∀ q, (σ.procs q).node.me = q)
    (q : Fin n) : (σ'.procs q).RoundInv (A ++ σ.answered a) W q := by
  have hA : ∀ x ∈ A, x ∈ A ++ σ.answered a := fun x hx => List.mem_append_left _ hx
  have h' : ∀ q, (σ.procs q).RoundInv (A ++ σ.answered a) W q := fun q =>
    (h q).mono hA fun _ hc => hc
  cases hmove with
  | idle => exact h' q
  | run _ p hlocal =>
      refine σ.feed_roundInv h' hinv hme p _ (fun k reply heq => ?_) q
      subst heq
      exact hlocal
  | apply p _ => exact σ.feed_roundInv h' hinv hme p _ (by simp) q
  | @deliverAppend p k call hcall hreply hfault =>
      have hf := σ.feed_roundInv h' hinv hme call.server (.appendEntries call.args)
        (by simp)
      refine Cluster.forall_setProc _ p (I := fun q P => P.RoundInv _ W q) hf ?_ q
      refine (hf p).answer ?_ fun hsuccess => ?_
      · rw [(σ.feed_request p call.server (.appendEntries call.args) trivial).1]
        exact hcall
      · have hterm := (hinv call.server).node.contiguous.appendEntries_success
          ((hinv p).appendConsecutive call (List.mem_of_getElem? hcall)) hfault hsuccess
        refine ⟨hterm, ⟨p, call.appendNum, call.server, call.args,
          ((σ.procs call.server).node.appendEntries call.args).ret⟩, ?_, rfl, rfl, rfl, hsuccess,
          hterm, rfl, rfl⟩
        rw [Cluster.answered_deliverAppend hcall hreply hfault]
        exact List.mem_append_right _ (List.mem_singleton.2 rfl)
  | @loseAppend p k call _ _ _ _ =>
      have hf := σ.feed_roundInv h' hinv hme call.server (.appendEntries call.args)
        (by simp)
      refine Cluster.forall_setProc _ p (I := fun q P => P.RoundInv _ W q) hf ((hf p).frame ?_ ?_) q
      · exact List.eraseIdx_sublist _ k
      · rfl
  | @deliverVote p k call _ =>
      have hf := σ.feed_roundInv h' hinv hme call.server (.requestVote call.args) (by simp)
      refine Cluster.forall_setProc _ p (I := fun q P => P.RoundInv _ W q) hf ((hf p).frame ?_ ?_) q
      · exact List.Sublist.refl _
      · rfl
  | @deliverSnapshot p k call args _ _ _ =>
      have hf := σ.feed_roundInv h' hinv hme call.server (.installSnapshot args) (by simp)
      refine Cluster.forall_setProc _ p (I := fun q P => P.RoundInv _ W q) hf ((hf p).frame ?_ ?_) q
      · exact List.Sublist.refl _
      · rfl
  | @loseSnapshot p k call args _ _ _ _ =>
      have hf := σ.feed_roundInv h' hinv hme call.server (.installSnapshot args) (by simp)
      refine Cluster.forall_setProc _ p (I := fun q P => P.RoundInv _ W q) hf ((hf p).frame ?_ ?_) q
      · exact List.Sublist.refl _
      · rfl
  | returnAppend p k _ _ => exact absurd rfl (ha p k)
  | returnVote p k _ _ => exact σ.feed_roundInv h' hinv hme p _ (by simp) q
  | returnSnapshot p k _ _ => exact σ.feed_roundInv h' hinv hme p _ (by simp) q

end Rounds

/-! ## The run invariant -/

structure Ledger.Inv (L : Ledger n) : Prop where
  rounds : ∀ q, (L.cluster.procs q).RoundInv L.answers L.majorities q
  once : L.majorities.Nodup

theorem Ledger.Inv.new : (Ledger.new n).Inv := ⟨fun q => .new q, List.nodup_nil⟩

theorem Cluster.step_returnAppend {σ : Cluster n} {p : Fin n} {k : ℕ} {call : AppendCall n}
    {reply : AppendEntriesReply} (hcall : (σ.procs p).appendCalls[k]? = some call)
    (hreply : call.reply = some reply) :
    σ.step (.returnAppend p k) = σ.feed p (.appendReply k reply) := by
  obtain ⟨server, args, cell, reply'⟩ := call
  simp only at hreply
  subst hreply
  simp [Cluster.step, hcall]

theorem Cluster.entered_returnAppend {σ : Cluster n} {p : Fin n} {k : ℕ} {call : AppendCall n}
    {reply : AppendEntriesReply} (hcall : (σ.procs p).appendCalls[k]? = some call)
    (hreply : call.reply = some reply) : σ.entered (.returnAppend p k) =
      if (σ.procs p).node.EntersMajority call.server call.args reply
        ((σ.procs p).appendNums.getD call.appendNum 0) then [(p, call.appendNum)] else [] := by
  obtain ⟨server, args, cell, reply'⟩ := call
  simp only at hreply
  subst hreply
  simp [Cluster.entered, hcall]

theorem Ledger.Inv.returnAppend {L : Ledger n} (h : L.Inv) {p : Fin n} {k : ℕ}
    {call : AppendCall n} {reply : AppendEntriesReply}
    (hcall : (L.cluster.procs p).appendCalls[k]? = some call) (hreply : call.reply = some reply) :
    (L.step (.returnAppend p k)).Inv := by
  have hcluster : L.cluster.step (.returnAppend p k) = L.cluster.feed p (.appendReply k reply) :=
    Cluster.step_returnAppend hcall hreply
  have hanswers : (L.step (.returnAppend p k)).answers = L.answers := List.append_nil _
  have hself : ((L.step (.returnAppend p k)).cluster.procs p)
      = ((L.cluster.procs p).appendReply k reply).1 := by
    simp only [Ledger.step, hcluster, Cluster.feed_procs_self, Proc.step]
  have hother : ∀ q, q ≠ p →
      (L.step (.returnAppend p k)).cluster.procs q = L.cluster.procs q := by
    intro q hq
    simp only [Ledger.step, hcluster]
    exact L.cluster.feed_procs_ne p _ hq
  have hmaj : (L.step (.returnAppend p k)).majorities
      = L.majorities ++ L.cluster.entered (.returnAppend p k) := rfl
  by_cases henters : (L.cluster.procs p).node.EntersMajority call.server call.args reply
      ((L.cluster.procs p).appendNums.getD call.appendNum 0)
  · rw [Cluster.entered_returnAppend hcall hreply, if_pos henters] at hmaj
    obtain ⟨hround, hnot, -⟩ := (h.rounds p).enters hcall hreply henters
    refine ⟨fun q => ?_, ?_⟩
    · rw [hanswers, hmaj]
      by_cases hq : q = p
      · subst hq
        rw [hself]
        exact hround
      · rw [hother q hq]
        refine (h.rounds q).mono (fun _ ha => ha) fun c hc => ?_
        rcases List.mem_append.1 hc with hc | hc
        · exact hc
        · exact absurd (Prod.mk.inj (List.mem_singleton.1 hc)).1 hq
    · rw [hmaj, List.nodup_append_comm, List.singleton_append, List.nodup_cons]
      exact ⟨hnot, h.once⟩
  · rw [Cluster.entered_returnAppend hcall hreply, if_neg henters, List.append_nil] at hmaj
    refine ⟨fun q => ?_, hmaj ▸ h.once⟩
    rw [hanswers, hmaj]
    by_cases hq : q = p
    · subst hq
      rw [hself]
      exact (h.rounds q).below hcall hreply henters
    · rw [hother q hq]
      exact h.rounds q

/-- A call that has no reply is not taken in. -/
theorem Cluster.step_returnAppend_idle {σ : Cluster n} {p : Fin n} {k : ℕ}
    (h : ∀ call reply, (σ.procs p).appendCalls[k]? = some call → call.reply ≠ some reply) :
    σ.step (.returnAppend p k) = σ ∧ σ.entered (.returnAppend p k) = [] := by
  rcases hcall : (σ.procs p).appendCalls[k]? with _ | ⟨server, args, cell, _ | reply⟩
  · simp [Cluster.step, Cluster.entered, hcall]
  · simp [Cluster.step, Cluster.entered, hcall]
  · exact absurd rfl (h _ reply hcall)

theorem Ledger.Inv.step {L : Ledger n} (h : L.Inv) (hreach : L.Reachable) (a : Action n) :
    (L.step a).Inv := by
  by_cases ha : ∀ p k, a ≠ .returnAppend p k
  · have hentered : L.cluster.entered a = [] := by
      cases a with
      | returnAppend p k => exact absurd rfl (ha p k)
      | _ => rfl
    have hmaj : (L.step a).majorities = L.majorities := by
      rw [Ledger.step, hentered, List.append_nil]
    refine ⟨fun q => ?_, hmaj ▸ h.once⟩
    rw [hmaj]
    exact (L.cluster.step_move a).roundInv ha h.rounds hreach.cluster.indexInv
      hreach.cluster.electionInv.me q
  · push Not at ha
    obtain ⟨p, k, rfl⟩ := ha
    by_cases hidle : ∀ call reply, (L.cluster.procs p).appendCalls[k]? = some call →
        call.reply ≠ some reply
    · obtain ⟨hcluster, hentered⟩ := Cluster.step_returnAppend_idle hidle
      have hL : L.step (.returnAppend p k) = L := by
        rw [Ledger.step, hcluster, hentered]
        simp [Cluster.answered]
      rw [hL]
      exact h
    · push Not at hidle
      obtain ⟨call, reply, hcall, hreply⟩ := hidle
      exact h.returnAppend hcall hreply

theorem Ledger.Reachable.inv {L : Ledger n} (h : L.Reachable) : L.Inv :=
  GuardedRun.Reach.invariant .new (fun _ a hreach hL _ => hL.step hreach a) h

/-- A leader that raises its commit index in a returning reply has an entry of its term there, which
    half of its peers accepted in one round; and no round enters the majority branch twice. -/
theorem commit_quorum {L : Ledger n} (h : L.Reachable) :
    L.majorities.Nodup ∧ ∀ p k,
      let s := (L.cluster.procs p).node
      let s' := ((L.step (.returnAppend p k)).cluster.procs p).node
      s.commitIndex < s'.commitIndex →
        (s'.identity = .leader ∧ s'.term = s.term) ∧
        (∃ e ∈ s'.logs, e.index = s'.commitIndex ∧ e.term = s'.term) ∧
        ∃ round, ∃ Q : Finset (Fin n), n / 2 ≤ Q.card ∧ p ∉ Q ∧
          ∀ q ∈ Q, Approved L.answers p round q s'.term s'.commitIndex := by
  refine ⟨h.inv.once, fun p k => ?_⟩
  intro s s' hraise
  by_cases hidle : ∀ call reply, (L.cluster.procs p).appendCalls[k]? = some call →
      call.reply ≠ some reply
  · have hs' : s' = s := by
      simp only [s', s, Ledger.step, (Cluster.step_returnAppend_idle hidle).1]
    rw [hs'] at hraise
    exact absurd hraise (lt_irrefl _)
  push Not at hidle
  obtain ⟨call, reply, hcall, hreply⟩ := hidle
  have hs' : s' = (s.sendAppendEntries call.server call.args reply
      ((L.cluster.procs p).appendNums.getD call.appendNum 0)).node := by
    simp [s', s, Ledger.step, Cluster.step_returnAppend hcall hreply, Proc.step, Proc.appendReply,
      hcall]
  by_cases henters : s.EntersMajority call.server call.args reply
      ((L.cluster.procs p).appendNums.getD call.appendNum 0)
  swap
  · rw [hs', (Node.sendAppendEntries_of_not_enters henters).1] at hraise
    exact absurd hraise (lt_irrefl _)
  obtain ⟨-, -, Q, hcard, hp, hall⟩ := (h.inv.rounds p).enters hcall hreply henters
  have hmem := List.mem_of_getElem? hcall
  -- the request is one of the leader's present term
  have hargs : call.args.term = s.term := by
    rw [← ((h.inv.rounds p).noted call hmem reply hreply henters.2.2.2.1).1]
    have := henters.2.1
    have := henters.2.2.1
    omega
  have hid : s.identity = .leader := by
    have := henters.2.2.1
    simpa using fun hne => this (Or.inr hne)
  rw [henters.sendAppendEntries.1] at hs'
  rcases (s.recordMatch call.server call.args).updateCommitIndex_cases call.args with
    heq | ⟨⟨e, he, hterm⟩, heq⟩
  · rw [hs', heq] at hraise
    exact absurd hraise (lt_irrefl _)
  have hcommit : s'.commitIndex = max s.commitIndex call.args.endIndex := by
    rw [hs', heq]
    rfl
  have hend : s'.commitIndex = call.args.endIndex := by omega
  have hidx : e.index = call.args.endIndex := by
    have hne : call.args.entries ≠ [] := by
      intro hnil
      simp [hnil] at he
    rw [List.getLast?_eq_getElem?] at he
    have := (h.cluster.indexInv p).appendConsecutive call hmem _ e he
    have hpos := List.length_pos_of_ne_nil hne
    rw [AppendEntriesArgs.endIndex]
    omega
  refine ⟨⟨?_, ?_⟩, ⟨e, ?_, ?_, ?_⟩, call.appendNum, Q, hcard, hp, fun q hq => ?_⟩
  · rw [hs', heq]
    exact hid
  · rw [hs', heq]
    rfl
  · -- the snapshot of the leader does not reach beyond what it committed
    rcases (h.cluster.sentInv p).kept hid call hmem hargs e (List.mem_of_getLast? he) with hlog | hle
    · rw [hs', heq]
      exact hlog
    · have hinv : s.IndexInv := (h.cluster.indexInv p).node
      have hle : e.index ≤ s.lastSnapshotIndex := hle
      have := hinv.snapshotLeApplied.trans hinv.appliedLeCommit
      omega
  · rw [hidx, hend]
  · rw [hterm, hs', heq]
  · have hterm' : s'.term = call.args.term := by
      rw [hs', heq]
      exact hargs.symm
    rw [hterm', hend]
    exact hall q hq

/-- Node 0 of three leads, takes in a command and has node 1 accept it. -/
theorem commit_quorum_three :
    let L := GuardedRun.exec Ledger.step (Ledger.new 3)
      [.stand4Election 0, .deliverVote 0 0, .returnVote 0 0, .execute 0 [1], .heartBeat 0,
        .deliverAppend 0 0]
    ∃ e ∈ ((L.step (.returnAppend 0 0)).cluster.procs 0).node.logs, e.index = 1 ∧ e.term = 1 := by
  intro L
  have hreach : L.Reachable := .exec .init (.of_forall (fun _ _ => trivial) _ _)
  obtain ⟨-, ⟨e, he, hidx, hterm⟩, -⟩ := (commit_quorum hreach).2 0 0 (by decide +kernel)
  have hcommit : ((L.step (.returnAppend 0 0)).cluster.procs 0).node.commitIndex = 1 := by
    decide +kernel
  have hterm' : ((L.step (.returnAppend 0 0)).cluster.procs 0).node.term = 1 := by decide +kernel
  exact ⟨e, he, hidx.trans hcommit, hterm.trans hterm'⟩

end RaftKVStorage
