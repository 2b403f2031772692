import RaftKVStorage.Descriptors

set_option autoImplicit false

/-! # What a program sees of its descriptors

Against the plain table of open files, the hooks differ in one bit: a socket with a context is
non-blocking underneath, and the context holds the bit the program would see without the hooks. -/

namespace RaftKVStorage

variable {k : KernelRules} {modes limits : Prop}

/-! ## The one bit -/

theorem getLsbD_oNonBlock (i : ℕ) : oNonBlock.getLsbD i = decide (i = 11) := by
  rw [oNonBlock, BitVec.getLsbD_twoPow]
  grind

theorem and_oNonBlock_ne_zero (x : BitVec 32) : x &&& oNonBlock ≠ 0 ↔ x.getLsbD 11 = true := by
  constructor
  · intro h
    by_contra hbit
    refine h (BitVec.eq_of_getLsbD_eq fun i _ => ?_)
    have hzero : (0 : BitVec 32).getLsbD i = false := BitVec.getLsbD_zero
    rw [BitVec.getLsbD_and, getLsbD_oNonBlock, hzero]
    by_cases h11 : i = 11
    · rw [h11, eq_false_of_ne_true hbit, Bool.false_and]
    · rw [decide_eq_false h11, Bool.and_false]
  · intro hbit h
    have hone : (x &&& oNonBlock).getLsbD 11 = true := by
      simp only [BitVec.getLsbD_and, getLsbD_oNonBlock, hbit, decide_true, Bool.and_self]
    rw [h] at hone
    exact absurd hone (by decide)

theorem decide_oNonBlock (x : BitVec 32) : decide (x &&& oNonBlock ≠ 0) = x.getLsbD 11 := by
  rw [Bool.eq_iff_iff, decide_eq_true_eq]
  exact and_oNonBlock_ne_zero x

theorem SameFlags.refl (x : BitVec 32) : SameFlags x x := fun _ _ _ => rfl

theorem SameFlags.symm {x y : BitVec 32} (h : SameFlags x y) : SameFlags y x :=
  fun i hi hne => (h i hi hne).symm

theorem SameFlags.trans {x y z : BitVec 32} (h : SameFlags x y) (h' : SameFlags y z) :
    SameFlags x z := fun i hi hne => (h i hi hne).trans (h' i hi hne)

theorem SameFlags.set {x y arg arg' : BitVec 32} (h : SameFlags x y) (harg : SameFlags arg arg') :
    SameFlags (k.set x arg) (k.set y arg') := by
  intro i hi hne
  simp only [KernelRules.set, BitVec.getLsbD_or, BitVec.getLsbD_and, BitVec.getLsbD_not, h i hi hne,
    harg i hi hne]

theorem SameFlags.or (x : BitVec 32) : SameFlags (x ||| oNonBlock) x := by
  intro i hi hne
  rw [BitVec.getLsbD_or, getLsbD_oNonBlock, decide_eq_false hne, Bool.or_false]

theorem SameFlags.and_not (x : BitVec 32) : SameFlags (x &&& ~~~oNonBlock) x := by
  intro i hi hne
  rw [BitVec.getLsbD_and, BitVec.getLsbD_not, getLsbD_oNonBlock, decide_eq_false hne,
    decide_eq_true hi, Bool.not_false, Bool.and_self, Bool.and_true]

theorem getLsbD_or_oNonBlock (x : BitVec 32) : (x ||| oNonBlock).getLsbD 11 = true := by
  simp only [BitVec.getLsbD_or, getLsbD_oNonBlock, decide_true, Bool.or_true]

theorem getLsbD_and_not_oNonBlock (x : BitVec 32) : (x &&& ~~~oNonBlock).getLsbD 11 = false := by
  simp only [BitVec.getLsbD_and, BitVec.getLsbD_not, getLsbD_oNonBlock, decide_true, Bool.not_true,
    Bool.and_false]

/-- `O_NONBLOCK` can be set and cleared. -/
theorem KernelRules.getLsbD_set (k : KernelRules) (old arg : BitVec 32) :
    (k.set old arg).getLsbD 11 = arg.getLsbD 11 := by
  have hbit := congrArg (fun y : BitVec 32 => y.getLsbD 11) k.nonBlock
  simp only [BitVec.getLsbD_and, getLsbD_oNonBlock, decide_true, Bool.and_true] at hbit
  simp only [KernelRules.set, BitVec.getLsbD_or, BitVec.getLsbD_and, BitVec.getLsbD_not, hbit,
    Bool.and_true, Bool.not_true, Bool.and_false, Bool.or_false]

/-- Flags are known by `O_NONBLOCK` and the others. -/
theorem SameFlags.eq {x y : BitVec 32} (h : SameFlags x y) (hbit : x.getLsbD 11 = y.getLsbD 11) :
    x = y := by
  refine BitVec.eq_of_getLsbD_eq fun i hi => ?_
  by_cases hne : i = 11
  · rw [hne, hbit]
  · exact h i hi hne

/-- `O_NONBLOCK` alone is never refused. -/
theorem KernelRules.refuses_or (k : KernelRules) (file : FdFile) :
    k.refuses file (file.flags ||| oNonBlock) = false := by
  rw [refuses, k.refusesFlags_congr file.sock (.refl _) (SameFlags.or file.flags)]
  exact k.refusesFlags_self file.sock file.flags

/-! ## Contexts and files -/

/-- The milliseconds that the hook computes are those of the time, if there are not too many. -/
theorem Timeval.toNat_ms {v : Timeval} (h : v.sec < 9007199254740992) : v.ms.toNat = v.millis := by
  have hsec : v.sec.toNat < 9007199254740992 := h
  have husec := v.usec.toNat_lt
  simp only [ms, millis, UInt64.toNat_add, UInt64.toNat_mul, UInt64.toNat_div, UInt64.reduceToNat]
  omega

/-- The context of a socket that is `file` in the kernel and would be `own` without the hooks. Whether
    the context shows the mode and the time limits of `own` depends on the calls. -/
structure FdContext.Shows (modes limits : Prop) (ctx : FdContext) (file own : FdFile) : Prop where
  isSocket : ctx.isSocket = true
  sysNonBlock : ctx.sysNonBlock = true
  isClose : ctx.isClose = false
  fileSock : file.sock = true
  ownSock : own.sock = true
  flags : SameFlags file.flags own.flags
  kernelMode : own.flags.getLsbD 11 = true → file.flags.getLsbD 11 = true
  times : ∀ type, file.timeout type = own.timeout type
  mode : modes → ctx.userNonBlock = own.flags.getLsbD 11
  limit : limits → ∀ type, ctx.limit type = (own.timeout type).map Timeval.millis

/-- A descriptor with its context, in the kernel and without the hooks. -/
inductive MirrorsAt (modes limits : Prop) :
    Option FdContext → Option FdFile → Option FdFile → Prop
  | bare (file : Option FdFile) : MirrorsAt modes limits none file file
  | context {ctx : FdContext} {file own : FdFile} (h : ctx.Shows modes limits file own) :
      MirrorsAt modes limits (some ctx) (some file) (some own)

/-- The hooks stand for the plain table `T`. -/
def Hooked.Mirrors (modes limits : Prop) (H : Hooked) (T : FdTable) : Prop :=
  ∀ fd, MirrorsAt modes limits (H.datas fd) (H.kernel fd) (T fd)

theorem Hooked.Mirrors.isNone_iff {H : Hooked} {T : FdTable} (h : H.Mirrors modes limits T) (fd : ℕ) :
    H.kernel fd = none ↔ T fd = none := by
  have hfd := h fd
  generalize H.datas fd = ctx, H.kernel fd = file, T fd = own at hfd
  cases hfd with
  | bare => rfl
  | context => simp

theorem Hooked.Mirrors.any_sock {H : Hooked} {T : FdTable} (h : H.Mirrors modes limits T) (fd : ℕ) :
    (H.kernel fd).any (·.sock) = (T fd).any (·.sock) := by
  have hfd := h fd
  generalize H.datas fd = ctx, H.kernel fd = file, T fd = own at hfd
  cases hfd with
  | bare => rfl
  | context hshows => simp [hshows.fileSock, hshows.ownSock]

/-- Changing one descriptor on both sides. -/
theorem Hooked.Mirrors.update {H : Hooked} {T : FdTable} (h : H.Mirrors modes limits T) (fd : ℕ)
    {ctx : Option FdContext} {file own : Option FdFile} (hfd : MirrorsAt modes limits ctx file own) :
    Hooked.Mirrors modes limits
      { kernel := Function.update H.kernel fd file, datas := Function.update H.datas fd ctx }
      (Function.update T fd own) := by
  intro fd'
  by_cases heq : fd' = fd
  · subst heq
    simpa using hfd
  · simpa [heq] using h fd'

theorem Hooked.Mirrors.update_kernel {H : Hooked} {T : FdTable} (h : H.Mirrors modes limits T) {fd : ℕ}
    {file own : Option FdFile} (hfd : MirrorsAt modes limits (H.datas fd) file own) :
    Hooked.Mirrors modes limits { H with kernel := Function.update H.kernel fd file }
      (Function.update T fd own) := by
  have hboth := h.update fd hfd
  rwa [Function.update_eq_self] at hboth

/-! ## One call -/

/-- The context a socket gets when it is opened in blocking mode. -/
theorem MirrorsAt.new (file : FdFile) (hsock : file.sock = true)
    (hrecv : file.recvTimeout = none) (hsend : file.sendTimeout = none)
    (hmode : file.flags &&& oNonBlock = 0) :
    MirrorsAt modes limits (some { isInit := true, isSocket := true, sysNonBlock := true })
      (some { file with flags := k.set file.flags (file.flags ||| oNonBlock) }) (some file) := by
  have hbit : file.flags.getLsbD 11 = false :=
    eq_false_of_ne_true (mt (and_oNonBlock_ne_zero file.flags).2 (not_not.2 hmode))
  refine .context ⟨rfl, rfl, rfl, hsock, hsock, ?_, fun hset => ?_, fun type => ?_, fun _ => hbit.symm,
    fun _ type => ?_⟩
  · intro i hi hne
    have hor := SameFlags.or file.flags i hi hne
    simp only [KernelRules.set, BitVec.getLsbD_or, BitVec.getLsbD_and, BitVec.getLsbD_not] at hor ⊢
    rw [hor, decide_eq_true hi, Bool.true_and, ← Bool.and_or_distrib_left, Bool.or_not_self,
      Bool.and_true]
  · rw [hbit] at hset
    cases hset
  · cases type <;> rfl
  · cases type with
    | recv => simp [FdContext.limit, FdContext.timeout, FdFile.timeout, hrecv]
    | send => simp [FdContext.limit, FdContext.timeout, FdFile.timeout, hsend]

theorem FdContext.limit_setTimeout {v : Timeval} (h : v.sec < 9007199254740992) (hv : v ≠ ⟨0, 0⟩)
    (ctx : FdContext) (type : TimeoutType) :
    (ctx.setTimeout v.ms type).limit type = v.limit.map Timeval.millis := by
  have hms := Timeval.toNat_ms h
  have hsec : v.sec.toNat < 9007199254740992 := h
  have husec := v.usec.toNat_lt
  have hne : v.ms ≠ -1 := by
    intro heq
    rw [heq, Timeval.millis] at hms
    have hmax : (-1 : UInt64).toNat = 18446744073709551615 := by decide
    omega
  have htimeout : (ctx.setTimeout v.ms type).timeout type = v.ms := by cases type <;> rfl
  rw [limit, htimeout, if_neg hne, hms, Timeval.limit, if_neg hv, Option.map_some]

/-- A time limit that the context is told of, and the kernel too if it takes it. -/
theorem FdContext.Shows.setTimeout {ctx : FdContext} {file own : FdFile}
    (h : ctx.Shows modes limits file own) (type : TimeoutType) (v : Timeval)
    (hv : limits → v ≠ ⟨0, 0⟩ ∧ v.sec < 9007199254740992) :
    (ctx.setTimeout v.ms type).Shows modes limits (file.setTimeout v type)
      (own.setTimeout v type) := by
  have hrecv := h.times .recv
  have hsend := h.times .send
  have hnew := fun hlimits => ctx.limit_setTimeout (hv hlimits).2 (hv hlimits).1 type
  cases type with
  | recv =>
      refine ⟨h.isSocket, h.sysNonBlock, h.isClose, h.fileSock, h.ownSock, h.flags, h.kernelMode,
        fun type => ?_, h.mode, fun hlimits type => ?_⟩
      · cases type with
        | recv => rfl
        | send => exact hsend
      · cases type with
        | recv => exact hnew hlimits
        | send => exact h.limit hlimits .send
  | send =>
      refine ⟨h.isSocket, h.sysNonBlock, h.isClose, h.fileSock, h.ownSock, h.flags, h.kernelMode,
        fun type => ?_, h.mode, fun hlimits type => ?_⟩
      · cases type with
        | recv => exact hrecv
        | send => rfl
      · cases type with
        | recv => exact h.limit hlimits .recv
        | send => exact hnew hlimits

/-- A time limit that only the context is told of. -/
theorem FdContext.Shows.setTimeout_refused {ctx : FdContext} {file own : FdFile}
    (h : ctx.Shows modes limits file own) (type : TimeoutType) (t : UInt64) (hlimits : ¬ limits) :
    (ctx.setTimeout t type).Shows modes limits file own := by
  cases type <;>
    exact ⟨h.isSocket, h.sysNonBlock, h.isClose, h.fileSock, h.ownSock, h.flags, h.kernelMode,
      h.times, h.mode, fun hyes => absurd hyes hlimits⟩

section Call

variable {H : Hooked} {T : FdTable}

theorem Hooked.Mirrors.bare (h : H.Mirrors modes limits T) {fd : ℕ} (hctx : H.datas fd = none) :
    H.kernel fd = T fd := by
  have hfd := h fd
  rw [hctx] at hfd
  generalize H.kernel fd = file, T fd = own at hfd
  cases hfd
  rfl

theorem Hooked.Mirrors.shows (h : H.Mirrors modes limits T) {fd : ℕ} {ctx : FdContext}
    (hctx : H.datas fd = some ctx) :
    ∃ file own, H.kernel fd = some file ∧ T fd = some own ∧ ctx.Shows modes limits file own := by
  have hfd := h fd
  rw [hctx] at hfd
  generalize H.kernel fd = file, T fd = own at hfd ⊢
  cases hfd with
  | context hshows => exact ⟨_, _, rfl, rfl, hshows⟩

/-- A descriptor without a file has no context. -/
theorem Hooked.Mirrors.datas_none (h : H.Mirrors modes limits T) {fd : ℕ} (hfile : H.kernel fd = none) :
    H.datas fd = none := by
  cases hctx : H.datas fd with
  | none => rfl
  | some ctx =>
      obtain ⟨file, own, hkernel, -, -⟩ := h.shows hctx
      rw [hfile] at hkernel
      cases hkernel

theorem Hooked.managed_eq_none {fd : ℕ} (hctx : H.datas fd = none) : H.managed fd = none := by
  rw [Hooked.managed, hctx, Option.filter_none]

theorem Hooked.managed_eq_some {fd : ℕ} {ctx : FdContext} (hctx : H.datas fd = some ctx)
    (hsocket : ctx.isSocket = true) (hclose : ctx.isClose = false) : H.managed fd = some ctx := by
  rw [Hooked.managed, hctx, Option.filter_some, hsocket, hclose]
  rfl

/-- A call that changes an open file, on both sides, where the context has been brought in step. -/
theorem Hooked.Mirrors.change (h : H.Mirrors modes limits T) {fd : ℕ} {f g : FdFile → FdFile}
    {datas : ℕ → Option FdContext} (hdatas : ∀ fd', fd' ≠ fd → datas fd' = H.datas fd')
    (hbare : H.datas fd = none → datas fd = none ∧ f = g)
    (hctx : ∀ ctx file own, H.datas fd = some ctx → ctx.Shows modes limits file own →
      ∃ ctx', datas fd = some ctx' ∧ ctx'.Shows modes limits (f file) (g own)) :
    Hooked.Mirrors modes limits { kernel := (H.kernel.change fd f).1, datas := datas } (T.change fd g).1 ∧
      (H.kernel.change fd f).2 = (T.change fd g).2 := by
  cases hfd : H.datas fd with
  | none =>
      obtain ⟨hnone, rfl⟩ := hbare hfd
      have hdatas' : datas = H.datas := by
        funext fd'
        by_cases heq : fd' = fd
        · rw [heq, hnone, hfd]
        · exact hdatas fd' heq
      have heq := h.bare hfd
      simp only [FdTable.change, heq, hdatas']
      cases T fd with
      | none => exact ⟨h, rfl⟩
      | some file => exact ⟨h.update_kernel (hfd ▸ .bare _), rfl⟩
  | some ctx =>
      obtain ⟨file, own, hkernel, hplain, hshows⟩ := h.shows hfd
      obtain ⟨ctx', hctx', hshows'⟩ := hctx ctx file own hfd hshows
      have hdatas' : datas = Function.update H.datas fd (some ctx') := by
        funext fd'
        by_cases heq : fd' = fd
        · rw [heq, hctx', Function.update_self]
        · rw [Function.update_of_ne heq, hdatas fd' heq]
      simp only [FdTable.change, hkernel, hplain, hdatas']
      exact ⟨h.update fd (.context hshows'), trivial⟩

/-- A call that changes an open file without a context. -/
theorem Hooked.Mirrors.change_bare (h : H.Mirrors modes limits T) {fd : ℕ} (hctx : H.datas fd = none)
    (f : FdFile → FdFile) :
    Hooked.Mirrors modes limits { H with kernel := (H.kernel.change fd f).1 } (T.change fd f).1 ∧
      (H.kernel.change fd f).2 = (T.change fd f).2 := by
  refine h.change (fun _ _ => rfl) (fun _ => ⟨hctx, rfl⟩) fun ctx _ _ hsome => ?_
  rw [hctx] at hsome
  cases hsome

theorem Hooked.Mirrors.add (h : H.Mirrors modes limits T) (fd : ℕ) (file : FdFile) :
    Hooked.Mirrors modes limits { H with kernel := (H.kernel.add fd file).1 } (T.add fd file).1 ∧
      (H.kernel.add fd file).2 = (T.add fd file).2 := by
  simp only [FdTable.add, h.isNone_iff fd]
  split
  · rename_i hfree
    have hnone := h.datas_none ((h.isNone_iff fd).2 hfree.1)
    exact ⟨h.update_kernel (hnone ▸ .bare _), rfl⟩
  · exact ⟨h, rfl⟩

/-- A new socket in blocking mode gets a context. -/
theorem Hooked.Mirrors.create (h : H.Mirrors modes limits T) (fd : ℕ) {flags : BitVec 32}
    (hmode : flags &&& oNonBlock = 0)
    (hret : (H.kernel.add fd { sock := true, flags := flags }).2 ≠ failed) :
    (Hooked.create k { H with kernel := (H.kernel.add fd { sock := true, flags := flags }).1 }
      fd).Mirrors modes limits (T.add fd { sock := true, flags := flags }).1 := by
  simp only [FdTable.add, h.isNone_iff fd] at hret ⊢
  by_cases hfree : T fd = none ∧ fd < 0x80000000
  case neg =>
    rw [if_neg hfree] at hret
    exact absurd rfl hret
  have hnone := h.datas_none ((h.isNone_iff fd).2 hfree.1)
  rw [if_pos hfree, if_pos hfree]
  have hgrant := k.refuses_or { sock := true, flags := flags }
  simp only at hgrant
  simp only [Hooked.create, hnone, FdContext.init, Function.update_self, if_true, hmode,
    FdTable.call, Option.any_some, hgrant, Bool.false_eq_true, if_false, FdTable.change,
    Function.update_idem]
  exact h.update fd (.new { sock := true, flags := flags } rfl rfl rfl hmode)

/-- The kernel refuses the same flags under the hooks and without them. -/
theorem FdContext.Shows.refuses {ctx : FdContext} {file own : FdFile}
    (h : ctx.Shows modes limits file own) {arg arg' : BitVec 32} (harg : SameFlags arg arg') :
    k.refuses file arg = k.refuses own arg' := by
  rw [KernelRules.refuses, KernelRules.refuses, h.fileSock, h.ownSock]
  exact k.refusesFlags_congr true h.flags harg

theorem Hooked.Mirrors.update_datas (h : H.Mirrors modes limits T) {fd : ℕ} {ctx : Option FdContext}
    (hfd : MirrorsAt modes limits ctx (H.kernel fd) (T fd)) :
    Hooked.Mirrors modes limits { H with datas := Function.update H.datas fd ctx } T := by
  have hboth := h.update fd hfd
  rwa [Function.update_eq_self, Function.update_eq_self] at hboth

/-- `F_SETFL` on a socket with a context. -/
theorem Hooked.Mirrors.setfl (h : H.Mirrors modes limits T) {hook : Bool} {fd : ℕ} {arg : BitVec 32}
    (hgranted : modes → H.Granted k ⟨hook, .setfl fd arg⟩) {ctx : FdContext}
    (hctx : H.datas fd = some ctx) :
    (H.call k ⟨hook, .setfl fd arg⟩).1.Mirrors modes limits (T.call k (.setfl fd arg)).1 ∧
      (H.call k ⟨hook, .setfl fd arg⟩).2 = (T.call k (.setfl fd arg)).2 := by
  obtain ⟨file, own, hkernel, hplain, hshows⟩ := h.shows hctx
  have hrefuses : k.refuses file (arg ||| oNonBlock) = k.refuses own arg :=
    hshows.refuses (SameFlags.or arg)
  simp only [Hooked.call, Hooked.managed_eq_some hctx hshows.isSocket hshows.isClose,
    hshows.sysNonBlock, if_true, Hooked.fn, FdTable.call, hkernel, hplain, Option.any_some, hrefuses]
  cases hrefused : k.refuses own arg with
  | true =>
      -- the context has taken the mode, and the kernel has not
      simp only [if_true, and_true]
      refine h.update_datas ?_
      rw [hkernel, hplain]
      refine .context ⟨hshows.isSocket, rfl, hshows.isClose, hshows.fileSock, hshows.ownSock,
        hshows.flags, hshows.kernelMode, hshows.times, fun hmodes => ?_, hshows.limit⟩
      have hsame := hgranted hmodes
      simp only [Hooked.Granted, FdCall.setflArgs, Option.all_some, hctx, hkernel, Option.any_some,
        hshows.refuses (SameFlags.refl arg), hrefused, Bool.not_true, Bool.false_or,
        beq_iff_eq] at hsame
      rw [← hshows.mode hmodes, hsame]
      exact decide_oNonBlock arg
  | false =>
      simp only [Bool.false_eq_true, if_false]
      refine h.change (fun fd' hne => Function.update_of_ne hne _ _) (fun hnone => ?_)
        fun ctx' file' own' hsome hshows' => ?_
      · rw [hctx] at hnone
        cases hnone
      · obtain rfl := Option.some.inj (hctx.symm.trans hsome)
        refine ⟨_, Function.update_self _ _ _, hshows'.isSocket, rfl, hshows'.isClose,
          hshows'.fileSock, hshows'.ownSock, hshows'.flags.set (SameFlags.or arg), fun _ => ?_,
          hshows'.times, fun _ => ?_, hshows'.limit⟩
        · exact (k.getLsbD_set _ _).trans (getLsbD_or_oNonBlock _)
        · exact (decide_oNonBlock arg).trans (k.getLsbD_set _ _).symm

/-- A time limit for a socket with a context. -/
theorem Hooked.Mirrors.setTimeout (h : H.Mirrors modes limits T) {fd : ℕ} {type : TimeoutType}
    {v : Timeval} (hlimits : limits → H.Limits k ⟨true, .setTimeout fd type v⟩) {ctx : FdContext}
    (hctx : H.datas fd = some ctx) :
    (H.call k ⟨true, .setTimeout fd type v⟩).1.Mirrors modes limits
        (T.call k (.setTimeout fd type v)).1 ∧
      (H.call k ⟨true, .setTimeout fd type v⟩).2 = (T.call k (.setTimeout fd type v)).2 := by
  obtain ⟨file, own, hkernel, hplain, hshows⟩ := h.shows hctx
  have hgood : limits → k.refusesLimit v = false ∧ v ≠ ⟨0, 0⟩ ∧ v.sec < 9007199254740992 := by
    intro hyes
    have htaken := hlimits hyes
    simpa [Hooked.Limits, FdCall.limitArgs, hctx, and_assoc] using htaken
  simp only [Hooked.call, hctx, Hooked.fn, FdTable.call, hkernel, hplain, Option.any_some,
    hshows.fileSock, hshows.ownSock, Bool.true_and]
  cases hrefused : k.refusesLimit v with
  | true =>
      -- the context has taken the limit, and the kernel has not
      simp only [Bool.not_true, Bool.false_eq_true, if_false, and_true]
      refine h.update_datas ?_
      rw [hkernel, hplain]
      refine .context (hshows.setTimeout_refused type v.ms fun hyes => ?_)
      rw [(hgood hyes).1] at hrefused
      cases hrefused
  | false =>
      simp only [Bool.not_false, if_true]
      refine h.change (fun fd' hne => Function.update_of_ne hne _ _) (fun hnone => ?_)
        fun ctx' file' own' hsome hshows' => ?_
      · rw [hctx] at hnone
        cases hnone
      · obtain rfl := Option.some.inj (hctx.symm.trans hsome)
        exact ⟨_, Function.update_self _ _ _, hshows'.setTimeout type v fun hyes => (hgood hyes).2⟩

/-- The flags that `F_GETFL` shows, on a socket with a context. -/
theorem FdContext.Shows.getfl {ctx : FdContext} {file own : FdFile}
    (h : ctx.Shows modes limits file own) (hmodes : modes) :
    (if ctx.userNonBlock = true then file.flags ||| oNonBlock else file.flags &&& ~~~oNonBlock) =
      own.flags := by
  rw [h.mode hmodes]
  cases hbit : own.flags.getLsbD 11 with
  | true =>
      refine ((SameFlags.or _).trans h.flags).eq ?_
      rw [hbit, getLsbD_or_oNonBlock]
  | false =>
      refine ((SameFlags.and_not _).trans h.flags).eq ?_
      rw [hbit, getLsbD_and_not_oNonBlock]

/-- Under the hooks and without them, a call leaves the descriptors in step, and it answers alike if
    the contexts show the modes. -/
theorem Hooked.Mirrors.call (h : H.Mirrors modes limits T) {step : FdStep} (hok : H.InStep step)
    (hgranted : modes → H.Granted k step) (hlimits : limits → H.Limits k step) :
    (H.call k step).1.Mirrors modes limits (T.call k step.call).1 ∧
      (modes → (H.call k step).2 = (T.call k step.call).2) := by
  obtain ⟨hook, call⟩ := step
  cases call with
  | openFile fd file =>
      obtain ⟨hadd, hret⟩ := h.add fd file
      exact ⟨hadd, fun _ => hret⟩
  | socket fd flags =>
      obtain ⟨hadd, hret⟩ := h.add fd { sock := true, flags := flags }
      dsimp only [Hooked.call]
      split
      · rename_i hcreate
        exact ⟨h.create fd (hok hcreate.1) hcreate.2, fun _ => hret⟩
      · exact ⟨hadd, fun _ => hret⟩
  | accept sockfd fd =>
      obtain ⟨hadd, hret⟩ := h.add fd { sock := true, flags := 2 }
      simp only [Hooked.call, Hooked.fn, FdTable.call, h.any_sock]
      by_cases hany : (T sockfd).any (·.sock) = true
      · simp only [hany, if_true]
        split
        · rename_i hcreate
          exact ⟨h.create fd (by decide) (by simpa using hcreate), fun _ => hret⟩
        · exact ⟨hadd, fun _ => hret⟩
      · simp only [hany, Bool.false_eq_true, if_false, ne_eq, not_true_eq_false]
        exact ⟨h, fun _ => trivial⟩
  | close fd =>
      simp only [Hooked.call, Hooked.fn, Hooked.del, FdTable.call]
      cases hctx : H.datas fd with
      | none =>
          simp only [Option.isSome_none, Bool.false_eq_true, and_false, if_false, h.bare hctx]
          cases T fd with
          | none => exact ⟨h, fun _ => rfl⟩
          | some file => exact ⟨h.update_kernel (hctx ▸ .bare none), fun _ => rfl⟩
      | some ctx =>
          have hhook : hook = true := hok.resolve_right (by rw [hctx]; simp)
          obtain ⟨file, own, hkernel, hplain, -⟩ := h.shows hctx
          simp only [hhook, Option.isSome_some, and_self, if_true, hkernel, hplain]
          exact ⟨h.update fd (.bare none), fun _ => trivial⟩
  | setfl fd arg =>
      cases hctx : H.datas fd with
      | none =>
          simp only [Hooked.call, Hooked.managed_eq_none hctx, Hooked.fn, FdTable.call, h.bare hctx]
          split
          · exact ⟨h, fun _ => rfl⟩
          · obtain ⟨hchange, hret⟩ := h.change_bare hctx
              (fun file => { file with flags := k.set file.flags arg })
            exact ⟨hchange, fun _ => hret⟩
      | some ctx =>
          obtain ⟨hsetfl, hret⟩ := h.setfl hgranted hctx
          exact ⟨hsetfl, fun _ => hret⟩
  | getfl fd =>
      cases hctx : H.datas fd with
      | none =>
          have hmanaged : Hooked.managed { H with kernel := H.kernel } fd = none :=
            H.managed_eq_none hctx
          simp only [Hooked.call, Hooked.fn, FdTable.call, h.bare hctx]
          cases T fd with
          | none => simp only [hmanaged]; exact ⟨h, fun _ => trivial⟩
          | some file => simp only [hmanaged]; exact ⟨h, fun _ => trivial⟩
      | some ctx =>
          obtain ⟨file, own, hkernel, hplain, hshows⟩ := h.shows hctx
          have hmanaged : Hooked.managed { H with kernel := H.kernel } fd = some ctx :=
            H.managed_eq_some hctx hshows.isSocket hshows.isClose
          simp only [Hooked.call, Hooked.fn, FdTable.call, hkernel, hplain, hmanaged]
          exact ⟨h, hshows.getfl⟩
  | fionbio fd on =>
      cases hctx : H.datas fd with
      | none =>
          simp only [Hooked.call, Hooked.managed_eq_none hctx, Hooked.fn, FdTable.call]
          obtain ⟨hchange, hret⟩ := h.change_bare hctx (·.fionbio on)
          exact ⟨hchange, fun _ => hret⟩
      | some ctx =>
          obtain ⟨file, own, -, -, hshows⟩ := h.shows hctx
          simp only [Hooked.call, Hooked.managed_eq_some hctx hshows.isSocket hshows.isClose,
            Hooked.fn, FdTable.call]
          refine (h.change (fun fd' hne => Function.update_of_ne hne _ _) (fun hnone => ?_)
            fun ctx' file' own' hsome hshows' => ?_).imp_right fun hret _ => hret
          · rw [hctx] at hnone
            cases hnone
          · obtain rfl := Option.some.inj (hctx.symm.trans hsome)
            refine ⟨_, Function.update_self _ _ _, hshows'.isSocket, hshows'.sysNonBlock,
              hshows'.isClose, hshows'.fileSock, hshows'.ownSock, ?_, ?_, hshows'.times, ?_,
              hshows'.limit⟩
            · cases on with
              | true => exact (SameFlags.or _).trans (hshows'.flags.trans (SameFlags.or _).symm)
              | false =>
                  exact (SameFlags.and_not _).trans (hshows'.flags.trans (SameFlags.and_not _).symm)
            · cases on with
              | true => exact fun _ => getLsbD_or_oNonBlock _
              | false =>
                  intro hset
                  rw [FdFile.fionbio, if_neg (by simp), getLsbD_and_not_oNonBlock] at hset
                  cases hset
            · cases on with
              | true => exact fun _ => (getLsbD_or_oNonBlock _).symm
              | false => exact fun _ => (getLsbD_and_not_oNonBlock _).symm
  | setTimeout fd type v =>
      cases hctx : H.datas fd with
      | none =>
          simp only [Hooked.call, hctx, Hooked.fn, FdTable.call, h.any_sock fd]
          split
          · obtain ⟨hchange, hret⟩ := h.change_bare hctx (·.setTimeout v type)
            exact ⟨hchange, fun _ => hret⟩
          · exact ⟨h, fun _ => rfl⟩
      | some ctx =>
          have hhook : hook = true := hok.resolve_right (by rw [hctx]; simp)
          subst hhook
          obtain ⟨hset, hret⟩ := h.setTimeout hlimits hctx
          exact ⟨hset, fun _ => hret⟩

end Call

/-! ## Runs -/

/-- One call of the hooked program. -/
abbrev Hooked.next (k : KernelRules) : Hooked → FdStep → Hooked := Answering.next (Hooked.call k)

/-- The same call without the hooks. -/
def FdTable.plainCall (k : KernelRules) (T : FdTable) (step : FdStep) : FdTable × BitVec 32 :=
  T.call k step.call

theorem Hooked.Mirrors.start : Hooked.start.Mirrors modes limits fun _ => none := fun _ => .bare none

/-- The table the plain calls leave. -/
def FdTable.after (k : KernelRules) (steps : List FdStep) : FdTable :=
  GuardedRun.exec (Answering.next (FdTable.plainCall k)) (fun _ => none) steps

/-- The descriptors the hooked calls leave. -/
def Hooked.after (k : KernelRules) (steps : List FdStep) : Hooked :=
  GuardedRun.exec (Hooked.next k) .start steps

/-- The hooks simulate the plain table, as long as the contexts show the modes. -/
theorem Hooked.simulates (H : Hooked) (T : FdTable) (step : FdStep) (h : H.Mirrors True limits T)
    (hok : H.InStep step ∧ H.Granted k step) (hlimits : limits → H.Limits k step) :
    (H.call k step).1.Mirrors True limits (T.plainCall k step).1 ∧
      (H.call k step).2 = (T.plainCall k step).2 := by
  obtain ⟨hmirrors, hret⟩ := h.call hok.1 (fun _ => hok.2) hlimits
  exact ⟨hmirrors, hret trivial⟩

/-- A program whose calls keep contexts and sockets in step cannot tell from their answers, the
    flags `F_GETFL` shows it among them, whether the hooks are there, as long as the kernel refuses it
    no `F_SETFL` that asks for another mode: the hook has told the context of that mode already. -/
theorem hooks_transparent {steps : List FdStep}
    (hok : GuardedRun.Allowed (Hooked.next k) (fun H step => H.InStep step ∧ H.Granted k step)
      .start steps) :
    Answering.answers (Hooked.call k) .start steps =
      Answering.answers (FdTable.plainCall k) (fun _ => none) steps := by
  have hstart : Hooked.start.Mirrors True False fun _ => none := .start
  refine Answering.answers_eq (fun H T step h hstep => ?_) hstart hok
  exact H.simulates T step h hstep False.elim

/-- No call on a socket with a context can block a thread. -/
def Hooked.NonBlocking (H : Hooked) : Prop :=
  ∀ fd ctx file, H.datas fd = some ctx → H.kernel fd = some file → file.flags.getLsbD 11 = true

/-- The descriptor an `ioctl` switches to blocking mode. -/
def FdCall.toBlocking : FdCall → Option ℕ
  | .fionbio fd false => some fd
  | _ => none

/-- Not an `ioctl` that switches a socket with a context to blocking mode. -/
def Hooked.KeepsMode (H : Hooked) (step : FdStep) : Prop :=
  (step.call.toBlocking.all fun fd => (H.datas fd).isNone) = true

instance (H : Hooked) (step : FdStep) : Decidable (H.KeepsMode step) := instDecidableEqBool _ _

/-- What holds of every context and its file holds after one descriptor has changed. -/
theorem Hooked.NonBlocking.update {H : Hooked} (h : H.NonBlocking) (fd : ℕ)
    {ctx : Option FdContext} {file : Option FdFile}
    (hfd : ∀ f, ctx.isSome → file = some f → f.flags.getLsbD 11 = true) :
    Hooked.NonBlocking { kernel := Function.update H.kernel fd file
                         datas := Function.update H.datas fd ctx } := by
  intro fd' ctx' file' hctx' hfile'
  by_cases heq : fd' = fd
  · subst heq
    simp only [Function.update_self] at hctx' hfile'
    exact hfd file' (hctx' ▸ rfl) hfile'
  · simp only [Function.update_of_ne heq] at hctx' hfile'
    exact h fd' ctx' file' hctx' hfile'

theorem Hooked.NonBlocking.update_kernel {H : Hooked} (h : H.NonBlocking) {fd : ℕ}
    {file : Option FdFile}
    (hfd : ∀ f, (H.datas fd).isSome → file = some f → f.flags.getLsbD 11 = true) :
    Hooked.NonBlocking { H with kernel := Function.update H.kernel fd file } := by
  have hboth := h.update fd hfd
  rwa [Function.update_eq_self] at hboth

theorem Hooked.NonBlocking.create {H : Hooked} (h : H.NonBlocking) {fd : ℕ}
    (hsock : ∀ file, H.kernel fd = some file → file.sock = true) :
    (H.create k fd).NonBlocking := by
  unfold Hooked.create
  cases hctx : H.datas fd with
  | some ctx => exact h
  | none =>
      cases hfile : H.kernel fd with
      | none =>
          simp only [FdContext.init, hfile]
          exact h
      | some file =>
          simp only [FdContext.init, hfile, hsock file hfile, if_true]
          split
          · simp only [FdTable.call, hfile, Option.any_some, k.refuses_or, Bool.false_eq_true, if_false,
              FdTable.change]
            refine h.update fd fun f _ hf => ?_
            obtain rfl := Option.some.inj hf
            exact (k.getLsbD_set _ _).trans (getLsbD_or_oNonBlock _)
          · rename_i hmode
            refine fun fd' ctx' file' hctx' hfile' => ?_
            by_cases heq : fd' = fd
            · subst heq
              obtain rfl := Option.some.inj (hfile.symm.trans hfile')
              exact (and_oNonBlock_ne_zero _).1 hmode
            · simp only [Function.update_of_ne heq] at hctx'
              exact h fd' ctx' file' hctx' hfile'

section Mode

variable {H : Hooked} {T : FdTable}

/-- A context that is changed while the kernel is not. -/
theorem Hooked.NonBlocking.update_datas (h : H.NonBlocking) {fd : ℕ} {ctx ctx' : FdContext}
    (hctx : H.datas fd = some ctx) :
    Hooked.NonBlocking { H with datas := Function.update H.datas fd (some ctx') } := by
  intro fd' ctx'' file' hctx'' hfile'
  by_cases heq : fd' = fd
  · subst heq
    exact h fd' ctx file' hctx hfile'
  · exact h fd' ctx'' file' (by simpa [heq] using hctx'') hfile'

theorem Hooked.NonBlocking.add (h : H.NonBlocking) (hmirrors : H.Mirrors modes limits T) (fd : ℕ)
    (file : FdFile) :
    Hooked.NonBlocking { H with kernel := (H.kernel.add fd file).1 } := by
  unfold FdTable.add
  split
  · rename_i hfree
    refine h.update_kernel fun f hsome _ => ?_
    rw [hmirrors.datas_none hfree.1] at hsome
    cases hsome
  · exact h

/-- A new socket, with a context or without. -/
theorem Hooked.NonBlocking.addSocket (h : H.NonBlocking) (hmirrors : H.Mirrors modes limits T) (fd : ℕ)
    (flags : BitVec 32) : (Hooked.create k { H with
      kernel := (H.kernel.add fd { sock := true, flags := flags }).1 } fd).NonBlocking ∨
      (H.kernel.add fd { sock := true, flags := flags }).2 = failed := by
  by_cases hfree : H.kernel fd = none ∧ fd < 0x80000000
  · left
    refine (h.add hmirrors fd _).create fun file hfile => ?_
    simp only [FdTable.add, if_pos hfree, Function.update_self] at hfile
    exact Option.some.inj hfile ▸ rfl
  · right
    rw [FdTable.add, if_neg hfree]

theorem Hooked.NonBlocking.change (h : H.NonBlocking) {fd : ℕ} {f : FdFile → FdFile}
    {datas : ℕ → Option FdContext} (hdatas : ∀ fd', fd' ≠ fd → datas fd' = H.datas fd')
    (hfd : ∀ file, H.kernel fd = some file → (datas fd).isSome → (f file).flags.getLsbD 11 = true) :
    Hooked.NonBlocking { kernel := (H.kernel.change fd f).1, datas := datas } := by
  intro fd' ctx' file' hctx' hfile'
  by_cases heq : fd' = fd
  · subst heq
    cases hkernel : H.kernel fd' with
    | none => simp [FdTable.change, hkernel] at hfile'
    | some file =>
        simp only [FdTable.change, hkernel, Function.update_self, Option.some.injEq] at hfile'
        exact hfile' ▸ hfd file hkernel (Option.isSome_iff_exists.2 ⟨ctx', hctx'⟩)
  · refine h fd' ctx' file' (hdatas fd' heq ▸ hctx') ?_
    cases hkernel : H.kernel fd with
    | none => simpa [FdTable.change, hkernel] using hfile'
    | some file => simpa [FdTable.change, hkernel, heq] using hfile'

/-- Without an `ioctl` to blocking mode, the sockets with a context stay non-blocking. -/
theorem Hooked.NonBlocking.next (h : H.NonBlocking) (hmirrors : H.Mirrors modes limits T) {step : FdStep}
    (hkeeps : H.KeepsMode step) : (H.next k step).NonBlocking := by
  obtain ⟨hook, call⟩ := step
  cases call with
  | openFile fd file => exact h.add hmirrors fd file
  | socket fd flags =>
      dsimp only [Hooked.next, Answering.next, Hooked.call]
      split
      · rename_i hcreate
        exact (h.addSocket hmirrors fd flags).resolve_right hcreate.2
      · exact h.add hmirrors fd _
  | accept sockfd fd =>
      dsimp only [Hooked.next, Answering.next, Hooked.call]
      by_cases hany : (H.kernel sockfd).any (·.sock) = true
      · simp only [Hooked.fn, FdTable.call, hany, if_true]
        split
        · rename_i hcreate
          exact (h.addSocket hmirrors fd 2).resolve_right hcreate
        · exact h.add hmirrors fd _
      · simp only [Hooked.fn, FdTable.call, hany, Bool.false_eq_true, if_false, ne_eq,
          not_true_eq_false]
        exact h
  | close fd =>
      intro fd' ctx' file' hctx' hfile'
      have hkernel : H.kernel fd' = some file' := by
        simp only [Hooked.next, Answering.next, Hooked.call, Hooked.fn, Hooked.del,
          FdTable.call] at hfile'
        split at hfile' <;> split at hfile' <;> grind [Function.update_apply]
      have hdatas : H.datas fd' = some ctx' := by
        simp only [Hooked.next, Answering.next, Hooked.call, Hooked.fn, Hooked.del] at hctx'
        split at hctx' <;> grind [Function.update_apply]
      exact h fd' ctx' file' hdatas hkernel
  | setfl fd arg =>
      cases hctx : H.datas fd with
      | none =>
          simp only [Hooked.next, Answering.next, Hooked.call, Hooked.managed_eq_none hctx, Hooked.fn,
            FdTable.call]
          split
          · exact h
          · refine h.change (fun _ _ => rfl) fun file _ hsome => ?_
            rw [hctx] at hsome
            cases hsome
      | some ctx =>
          obtain ⟨file, own, -, -, hshows⟩ := hmirrors.shows hctx
          simp only [Hooked.next, Answering.next, Hooked.call,
            Hooked.managed_eq_some hctx hshows.isSocket hshows.isClose, hshows.sysNonBlock, if_true,
            Hooked.fn, FdTable.call]
          split
          · exact h.update_datas hctx
          · refine h.change (fun fd' hne => Function.update_of_ne hne _ _) fun file _ _ => ?_
            exact (k.getLsbD_set _ _).trans (getLsbD_or_oNonBlock _)
  | getfl fd =>
      have hsame : (H.next k ⟨hook, .getfl fd⟩).NonBlocking ↔ H.NonBlocking := by
        simp only [Hooked.next, Answering.next, Hooked.call, Hooked.fn, FdTable.call]
        cases H.kernel fd with
        | none => simp only; split <;> rfl
        | some file => simp only; split <;> rfl
      exact hsame.2 h
  | fionbio fd on =>
      cases hctx : H.datas fd with
      | none =>
          simp only [Hooked.next, Answering.next, Hooked.call, Hooked.managed_eq_none hctx, Hooked.fn,
            FdTable.call]
          refine h.change (fun _ _ => rfl) fun file _ hsome => ?_
          rw [hctx] at hsome
          cases hsome
      | some ctx =>
          obtain ⟨file, own, -, -, hshows⟩ := hmirrors.shows hctx
          have hon : on = true := by
            by_contra hoff
            obtain rfl := eq_false_of_ne_true hoff
            have hnone : (H.datas fd).isNone = true := hkeeps
            rw [hctx] at hnone
            cases hnone
          simp only [Hooked.next, Answering.next, Hooked.call,
            Hooked.managed_eq_some hctx hshows.isSocket hshows.isClose, hon, Hooked.fn, FdTable.call]
          refine h.change (fun fd' hne => Function.update_of_ne hne _ _) fun file _ _ => ?_
          exact getLsbD_or_oNonBlock _
  | setTimeout fd type v =>
      have hold : ∀ file, H.kernel fd = some file → (H.datas fd).isSome →
          (file.setTimeout v type).flags.getLsbD 11 = true := by
        intro file hfile hsome
        obtain ⟨ctx, hctx⟩ := Option.isSome_iff_exists.1 hsome
        cases type <;> exact h fd ctx file hctx hfile
      dsimp only [Hooked.next, Answering.next, Hooked.call]
      split
      · rename_i ctx hctx
        simp only [Hooked.fn, FdTable.call]
        split
        · refine h.change (fun fd' hne => Function.update_of_ne hne _ _) fun file hfile _ => ?_
          exact hold file hfile (by rw [hctx]; rfl)
        · exact h.update_datas hctx
      · simp only [Hooked.fn, FdTable.call]
        split
        · exact h.change (fun _ _ => rfl) hold
        · exact h

/-- An `ioctl` to blocking mode reaches the kernel. -/
theorem Hooked.Mirrors.keepsMode (hmirrors : H.Mirrors modes limits T) {step : FdStep}
    (h : (H.next k step).NonBlocking) : H.KeepsMode step := by
  obtain ⟨hook, call⟩ := step
  rw [Hooked.KeepsMode, Option.all_eq_true]
  intro fd hcall
  have hioctl : call = .fionbio fd false := by
    cases call with
    | fionbio fd' on =>
        cases on with
        | true => cases hcall
        | false => rw [Option.some.inj hcall]
    | _ => cases hcall
  subst hioctl
  by_contra hne
  obtain ⟨ctx, hctx⟩ := Option.ne_none_iff_exists'.1 (mt Option.isNone_iff_eq_none.2 hne)
  obtain ⟨file, own, hkernel, -, hshows⟩ := hmirrors.shows hctx
  have hbit := h fd { ctx with userNonBlock := false } (file.fionbio false)
  simp only [Hooked.next, Answering.next, Hooked.call,
    Hooked.managed_eq_some hctx hshows.isSocket hshows.isClose, Hooked.fn, FdTable.call,
    FdTable.change, hkernel, Function.update_self, forall_const] at hbit
  have hoff : (file.fionbio false).flags.getLsbD 11 = false := getLsbD_and_not_oNonBlock _
  rw [hoff] at hbit
  cases hbit

end Mode

/-- What holds of all the states of a run, step by step. -/
theorem Hooked.nonBlocking_iff {H : Hooked} {T : FdTable} (hmirrors : H.Mirrors False False T)
    (h : H.NonBlocking) {steps : List FdStep}
    (hok : GuardedRun.Allowed (Hooked.next k) Hooked.InStep H steps) :
    (∀ pre, pre <+: steps → (GuardedRun.exec (Hooked.next k) H pre).NonBlocking) ↔
      GuardedRun.Allowed (Hooked.next k) Hooked.KeepsMode H steps := by
  induction steps generalizing H T with
  | nil =>
      refine ⟨fun _ => trivial, fun _ pre hpre => ?_⟩
      rw [List.prefix_nil.1 hpre]
      exact h
  | cons step rest ih =>
      have hmirrors' : (H.next k step).Mirrors False False (T.call k step.call).1 :=
        (hmirrors.call hok.1 False.elim False.elim).1
      constructor
      · intro hall
        have hnext : (H.next k step).NonBlocking := hall [step] ⟨rest, rfl⟩
        refine ⟨hmirrors.keepsMode hnext, (ih hmirrors' hnext hok.2).1 fun pre hpre => ?_⟩
        exact hall (step :: pre) (List.cons_prefix_cons.2 ⟨rfl, hpre⟩)
      · rintro ⟨hstep, hrest⟩ pre hpre
        cases pre with
        | nil => exact h
        | cons step' pre =>
            obtain ⟨rfl, hpre'⟩ := List.cons_prefix_cons.1 hpre
            exact (ih hmirrors' (h.next hmirrors hstep) hok.2).2 hrest pre hpre'

/-- The sockets with a context stay non-blocking underneath, so that no hooked call blocks a thread,
    for as long as none of them is switched to blocking mode by `ioctl(FIONBIO)`: unlike
    `fcntl(F_SETFL)`, that hook hands the mode on to the kernel as it is. -/
theorem sockets_nonBlocking_iff {steps : List FdStep}
    (hok : GuardedRun.Allowed (Hooked.next k) Hooked.InStep .start steps) :
    (∀ pre, pre <+: steps → (Hooked.after k pre).NonBlocking) ↔
      GuardedRun.Allowed (Hooked.next k) Hooked.KeepsMode .start steps :=
  Hooked.nonBlocking_iff Hooked.Mirrors.start (fun _ _ _ hctx _ => nomatch hctx) hok

/-! ## A server's descriptors -/

/-- The flags of Linux that `F_SETFL` can change. A socket does not get `O_DIRECT`, and no time limit has
    a million microseconds. -/
def linuxRules : KernelRules where
  settable := 0x46c00
  nonBlock := by decide
  refusesFlags sock flags arg := sock && arg.getLsbD 14 && !flags.getLsbD 14
  refusesFlags_congr sock flags flags' arg arg' hflags harg := by
    rw [hflags 14 (by decide) (by decide), harg 14 (by decide) (by decide)]
  refusesFlags_self sock flags := by cases flags.getLsbD 14 <;> simp
  refusesLimit v := 1000000 ≤ v.usec

/-- A listening socket, a file, and a connection that the program makes non-blocking, then blocking
    again, and gives a time limit. -/
def serverSteps : List FdStep :=
  [ ⟨true, .socket 3 2⟩, ⟨true, .openFile 4 ⟨false, 0, none, none⟩⟩, ⟨true, .accept 3 5⟩,
    ⟨true, .getfl 5⟩, ⟨true, .setfl 5 0x800⟩, ⟨true, .getfl 5⟩, ⟨true, .setTimeout 5 .recv ⟨2, 0⟩⟩,
    ⟨true, .fionbio 5 false⟩, ⟨true, .getfl 5⟩, ⟨true, .close 4⟩ ]

theorem hooks_transparent_server :
    Answering.answers (Hooked.call linuxRules) .start serverSteps =
      [3, 4, 5, 2, 0, 0x802, 0, 0, 2, 0] := by
  rw [hooks_transparent (by decide)]
  decide

/-- `O_DIRECT` is refused, and the context has taken `O_NONBLOCK` nevertheless. -/
example :
    let steps : List FdStep := [⟨true, .socket 3 2⟩, ⟨true, .setfl 3 0x4800⟩, ⟨true, .getfl 3⟩]
    Answering.answers (Hooked.call linuxRules) .start steps = [3, failed, 0x802] ∧
      Answering.answers (FdTable.plainCall linuxRules) (fun _ => none) steps = [3, failed, 2] := by
  decide

theorem sockets_nonBlocking_server :
    ¬ ∀ pre, pre <+: serverSteps → (Hooked.after linuxRules pre).NonBlocking := by
  rw [sockets_nonBlocking_iff (by decide)]
  decide

end RaftKVStorage
