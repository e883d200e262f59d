import CentrifugoProxy.Proof.SharedResult

/-!
# What a call of `handle` returns

A call returns the outcome of its own dispatch, the pair held by the lock it woke on, or its own
context's error. Two faults follow from the second.

A leader whose `ProxyCacheEmpty` call panics still runs its deferred `Delete` and
`close(lock.done)`, but it has stored nothing: the followers it wakes return the lock's zero
pair, a nil response with a nil error. When every proxy that returns a nil error returns a
response, that is the only way a call returns that pair.

A leader dispatches under its own context. When that context is cancelled and the proxy honours
it, the leader stores its context's error, and its followers return that error though their own
contexts are live. When every proxy honours its context, that is the only way a call returns the
error of a context other than its own.

The proxies are the environment: what they may answer is a predicate on the steps, checked
against the state each step is taken in.
-/

namespace CentrifugoProxy

/-! ### What the proxies may answer -/

variable {P : Type}

/-- A step whose proxy call, if any, returns a response whenever it returns a nil error. -/
def Label.respondsOrFails : Label P → Bool
  | .dispatch _ _ (.returned ⟨none, none⟩) => false
  | _ => true

def Completion.ctxErr : Completion → Option Nat
  | .returned ⟨_, some (.contextDone k)⟩ => some k
  | _ => none

/-- A `ProxyCacheEmpty` call honouring its context `ctx`: once `ctx` is done it fails with
`ctx`'s error, and before it returns no context's error. -/
def Completion.honours (done : Bool) (ctx : Nat) (answer : Completion) : Bool :=
  answer.ctxErr == if done then some ctx else none

/-- Every proxy call honours the context it is given, as that context is when the call is made. -/
def honoursContext (calls : List HandleCall) (s : State) : Label P → Bool
  | .dispatch t _ answer =>
      match calls[t]? with
      | some call => answer.honours (s.ctxDone call.ctx) call.ctx
      | none => true
  | _ => true

theorem Completion.honours_ctxErr {answer : Completion} {done : Bool} {ctx k : Nat}
    (hh : answer.honours done ctx) (hk : answer.ctxErr = some k) : k = ctx ∧ done = true := by
  cases done <;> simp_all [honours]

theorem handleCacheEmpty_ne_nil {answer : Completion} (ha : answer ≠ .returned ⟨none, none⟩)
    (ctx : Nat) (req : NotifyCacheEmptyRequest) (order : List (String × Option P)) :
    (handleCacheEmpty (fun _ _ _ => answer) ctx req order).2 ≠ .returned ⟨none, none⟩ := by
  rw [handleCacheEmpty_eq_firstProxy]
  split
  · simp [emptyResponse]
  · rcases answer with ⟨resp, _ | err⟩ | _ <;> simp_all [Completion.keepErrorOrResponse]

theorem handleCacheEmpty_contextDone {answer : Completion} {out : Outcome} {k : Nat} (ctx : Nat)
    (req : NotifyCacheEmptyRequest) (order : List (String × Option P))
    (hret : (handleCacheEmpty (fun _ _ _ => answer) ctx req order).2 = .returned out)
    (herr : out.err = some (.contextDone k)) : answer.ctxErr = some k := by
  rw [handleCacheEmpty_eq_firstProxy] at hret
  split at hret
  · cases hret; simp [emptyResponse] at herr
  · rcases answer with ⟨resp, _ | err⟩ | _ <;> simp [Completion.keepErrorOrResponse] at hret <;>
      subst hret <;> simp_all [Completion.ctxErr]

/-! ### What a step adds -/

variable {h : CacheEmptyHandler P} {calls : List HandleCall} {s s' : State} {a : Label P}

theorem Step.dispatch_mem (hinv : Inv calls s) (hs : Step h calls s a s') {t : Nat}
    {req : NotifyCacheEmptyRequest} {ret : Completion} (hmem : .dispatch t req ret ∈ s'.log) :
    .dispatch t req ret ∈ s.log ∨ ∃ call order answer, a = .dispatch t order answer ∧
      calls[t]? = some call ∧
        ret = (handleCacheEmpty (fun _ _ _ => answer) call.ctx ⟨call.channel⟩ order).2 := by
  cases hs with
  | getOrCreateLock => simpa [State.getOrCreateLock_log] using hmem
  | dispatch hcall _ hs =>
      rw [State.dispatch_log hs, List.mem_append, List.mem_singleton] at hmem
      rcases hmem with hold | heq
      · exact .inl hold
      · simp only [Event.dispatch.injEq] at heq
        obtain ⟨rfl, -, rfl⟩ := heq
        exact .inr ⟨_, _, _, rfl, hcall, rfl⟩
  | close _ hpc => simpa [State.close_log _ _ (hinv.open_of_closing hpc)] using hmem
  | cancel => exact .inl hmem
  | _ => simpa using hmem

theorem Step.ctxDone_mono (hs : Step h calls s a s') {k : Nat} (hk : s.ctxDone k) :
    s'.ctxDone k := by
  cases hs with
  | getOrCreateLock => unfold State.getOrCreateLock; split <;> exact hk
  | dispatch _ _ hs => unfold State.dispatch at hs; split at hs <;> cases hs <;> exact hk
  | close => unfold State.close; split <;> exact hk
  | cancel ctx => by_cases heq : k = ctx <;> simp [Function.update_apply, heq, hk]
  | _ => exact hk

/-! ### Dispatch outcomes over a run -/

def NoNilDispatch (s : State) : Prop :=
  ∀ t req, .dispatch t req (.returned ⟨none, none⟩) ∉ s.log

/-- Every dispatch that returned a context's error was made by the call of that context, and
that context is done. -/
def ContextErrors (calls : List HandleCall) (s : State) : Prop :=
  ∀ t req out k, .dispatch t req (.returned out) ∈ s.log → out.err = some (.contextDone k) →
    ∃ call, calls[t]? = some call ∧ k = call.ctx ∧ s.ctxDone k

theorem Step.noNilDispatch (hinv : Inv calls s) (hQ : NoNilDispatch s) (ha : a.respondsOrFails)
    (hs : Step h calls s a s') : NoNilDispatch s' := by
  intro t req hmem
  rcases hs.dispatch_mem hinv hmem with hold | ⟨call, order, answer, rfl, -, hret⟩
  · exact hQ t req hold
  · refine handleCacheEmpty_ne_nil ?_ _ _ _ hret.symm
    rintro rfl
    simp [Label.respondsOrFails] at ha

theorem Step.contextErrors (hinv : Inv calls s) (hQ : ContextErrors calls s)
    (ha : honoursContext calls s a) (hs : Step h calls s a s') : ContextErrors calls s' := by
  intro t req out k hmem herr
  rcases hs.dispatch_mem hinv hmem with hold | ⟨call, order, answer, rfl, hcall, hret⟩
  · obtain ⟨call, hcall, rfl, hdone⟩ := hQ t req out k hold herr
    exact ⟨call, hcall, rfl, hs.ctxDone_mono hdone⟩
  · simp only [honoursContext, hcall] at ha
    obtain ⟨rfl, hdone⟩ :=
      Completion.honours_ctxErr ha (handleCacheEmpty_contextDone _ _ _ hret.symm herr)
    exact ⟨call, hcall, rfl, hs.ctxDone_mono hdone⟩

/-! ### Where a returned pair comes from -/

/-- **Returned pairs.** A call that returned at a leader's `return` or after its timer fired
returned its own dispatch's outcome; one woken by `lock.done` returned what the lock's creator
returned, or the nil pair of a creator that panicked; one that left through `ctx.Done()`
returned its own context's error. -/
theorem Inv.returned_cases (hinv : Inv calls s) {t : Nat} {site : Site} {out : Outcome}
    (hpc : s.pc t = .returned site out) :
    ∃ call, calls[t]? = some call ∧
      ((site = .leader ∨ site = .timerFired) ∧
          .dispatch t ⟨call.channel⟩ (.returned out) ∈ s.log ∨
        (∃ l, site = .lockDone l ∧ (s.pc l = .returned .leader out ∨
          s.pc l = .panicked .leader ∧ out = ⟨none, none⟩)) ∨
        site = .ctxDone ∧ out = ⟨none, some (.contextDone call.ctx)⟩ ∧ s.ctxDone call.ctx) := by
  obtain ⟨call, hcall⟩ : ∃ call, calls[t]? = some call :=
    Option.ne_none_iff_exists'.1 fun hnone => by simp [hinv.started t hnone] at hpc
  refine ⟨call, hcall, ?_⟩
  rcases site with _ | l | _ | _
  · exact .inl ⟨.inl rfl, (hinv.mem_log_iff hcall (by rfl)).2
      (by simp [hpc, Pc.history, Pc.wonHistory])⟩
  · obtain ⟨-, hdone, hout⟩ := hinv.woken t l out hpc
    refine .inr (.inl ⟨l, rfl, ?_⟩)
    rcases Pc.lock_done_cases hdone with hl | hl
    · exact .inl (by rw [hout]; exact hl)
    · exact .inr ⟨hl, by rw [hout, hl]; rfl⟩
  · exact .inl ⟨.inr rfl, (hinv.mem_log_iff hcall (by rfl)).2 (by simp [hpc, Pc.history])⟩
  · exact .inr (.inr ⟨rfl, hinv.cancelled t call out hcall hpc⟩)

/-! ### A panicking leader -/

variable [DecidableEq P]

/-- **Nil pairs.** In every interleaving of any calls on any channels whose proxies return a
response with every nil error, a call returns a nil response with a nil error exactly when it
was woken by `lock.done` on the lock of a leader whose dispatch panicked. -/
theorem returned_nil_iff_woken_by_panic {labels : List (Label P)}
    (hrun : run h calls init labels = some s) (hresp : ∀ a ∈ labels, a.respondsOrFails) :
    ∀ t site out, s.pc t = .returned site out →
      (out = ⟨none, none⟩ ↔ ∃ l, site = .lockDone l ∧ s.pc l = .panicked .leader) := by
  obtain ⟨hinv, hnil⟩ := runWith_induction
    (fun hinv hQ ha hs => Step.noNilDispatch hinv hQ ha hs) (inv_init calls)
    (fun _ _ h => nomatch h) (runWith_of_run hrun hresp)
  -- the outcome of a dispatch, which the leader returns, is never the nil pair
  have hleader : ∀ l out, s.pc l = .returned .leader out → out ≠ ⟨none, none⟩ := by
    rintro l out hpc rfl
    obtain ⟨call, -, ⟨-, hmem⟩ | ⟨_, ⟨⟩, -⟩ | ⟨⟨⟩, -⟩⟩ := hinv.returned_cases hpc
    exact hnil l _ hmem
  intro t site out hpc
  obtain ⟨call, -, ⟨hsite, hmem⟩ | ⟨l, rfl, hl | ⟨hl, rfl⟩⟩ | ⟨rfl, rfl, -⟩⟩ :=
    hinv.returned_cases hpc
  · -- its own dispatch's outcome, and it was not woken
    refine ⟨fun hout => (hnil t _ (hout ▸ hmem)).elim, ?_⟩
    rintro ⟨l, rfl, -⟩
    simp at hsite
  · -- woken by a leader that returned
    refine ⟨fun hout => (hleader l out hl hout).elim, ?_⟩
    rintro ⟨l', ⟨⟩, hl'⟩
    simp [hl] at hl'
  · exact ⟨fun _ => ⟨l, rfl, hl⟩, fun _ => rfl⟩
  · simp

/-- The nil pair on the package's test setting: call 1 waits on call 0, whose proxy panics. -/
theorem returned_nil_iff_woken_by_panic_test :
    ∃ s, run testHandler testCalls init (followerWokenRun .panicked) = some s ∧
      ∀ t site out, s.pc t = .returned site out →
        (out = ⟨none, none⟩ ↔ ∃ l, site = .lockDone l ∧ s.pc l = .panicked .leader) := by
  obtain ⟨s, hs⟩ : ∃ s, run testHandler testCalls init (followerWokenRun .panicked) = some s :=
    ⟨_, rfl⟩
  exact ⟨s, hs, returned_nil_iff_woken_by_panic hs (by decide)⟩

/-- **A panicking leader's follower returns nil, nil.** On the package's test setting, call 1
waits on the lock of call 0, whose `ProxyCacheEmpty` call panics: call 0's deferred cleanup
closes the lock with nothing stored, and call 1 returns a nil response with a nil error. The
run keeps the proxy contract: its one proxy call panics. -/
theorem lockDone_returns_nil_after_leader_panic :
    (∀ a ∈ followerWokenRun .panicked, a.respondsOrFails) ∧
      ∃ s, run testHandler testCalls init (followerWokenRun .panicked) = some s ∧
        s.pc 0 = .panicked .leader ∧ s.locks 0 = ⟨none, none, true⟩ ∧
        s.pc 1 = .returned (.lockDone 0) ⟨none, none⟩ :=
  ⟨by decide, _, rfl, rfl, rfl, rfl⟩

/-! ### A cancelled leader -/

/-- Call 0 leads and call 1 follows it; call 0's context is cancelled before its proxy call,
which honours it; call 0 stores that error, cleans up, and wakes call 1. -/
def leaderCancelledRun : List (Label Unit) :=
  [.getOrCreateLock 0, .getOrCreateLock 1, .cancel 0,
    .dispatch 0 [("test", some ())] (.returned ⟨none, some (.contextDone 0)⟩),
    .store 0, .delete 0, .close 0, .lockDone 1]

/-- **A follower returns its leader's cancellation.** On the package's test setting, with a proxy
that honours its context, call 1's context is never cancelled, yet call 1 returns the error of
call 0's cancelled context. -/
theorem follower_returns_leader_cancellation :
    ∃ s, runWith testHandler testCalls (honoursContext testCalls) init leaderCancelledRun =
        some s ∧
      s.ctxDone 1 = false ∧ s.pc 1 = .returned (.lockDone 0) ⟨none, some (.contextDone 0)⟩ :=
  ⟨_, rfl, rfl, rfl⟩

/-- **Whose cancellation a call returns.** In every interleaving of any calls on any channels
whose proxies honour their contexts, a call that returns the error of context `k` returns it
with `k` done, and `k` is its own context, or it was woken by `lock.done` on the lock of a
leader of context `k` that returned that same error. -/
theorem contextDone_error_own_or_leader {labels : List (Label P)}
    (hrun : runWith h calls (honoursContext calls) init labels = some s) :
    ∀ t call site out k, calls[t]? = some call → s.pc t = .returned site out →
      out.err = some (.contextDone k) → s.ctxDone k ∧
        (k = call.ctx ∨ ∃ l call', site = .lockDone l ∧ calls[l]? = some call' ∧
          k = call'.ctx ∧ s.pc l = .returned .leader out) := by
  obtain ⟨hinv, hctx⟩ := runWith_induction
    (fun hinv hQ ha hs => Step.contextErrors hinv hQ ha hs) (inv_init calls)
    (fun _ _ _ _ h => nomatch h) hrun
  -- a leader's context error is its own context's
  have hleader : ∀ l out k, s.pc l = .returned .leader out → out.err = some (.contextDone k) →
      ∃ call, calls[l]? = some call ∧ k = call.ctx ∧ s.ctxDone k := by
    intro l out k hpc herr
    obtain ⟨call, -, ⟨-, hmem⟩ | ⟨_, ⟨⟩, -⟩ | ⟨⟨⟩, -⟩⟩ := hinv.returned_cases hpc
    exact hctx l _ out k hmem herr
  intro t call site out k hcall hpc herr
  obtain ⟨call₀, hcall₀, ⟨-, hmem⟩ | ⟨l, rfl, hl | ⟨-, rfl⟩⟩ | ⟨rfl, rfl, hdone⟩⟩ :=
    hinv.returned_cases hpc
  · obtain ⟨call', hcall', rfl, hdone⟩ := hctx t _ out k hmem herr
    rw [hcall] at hcall'
    cases hcall'
    exact ⟨hdone, .inl rfl⟩
  · obtain ⟨call', hcall', rfl, hdone⟩ := hleader l out k hl herr
    exact ⟨hdone, .inr ⟨l, call', rfl, hcall', rfl, hl⟩⟩
  · simp at herr
  · rw [hcall] at hcall₀
    cases hcall₀
    simp only [Option.some.injEq, ProxyError.contextDone.injEq] at herr
    exact ⟨herr ▸ hdone, .inl herr.symm⟩

/-- The same on the run where call 0's context is cancelled: call 1's error is its leader's. -/
theorem contextDone_error_own_or_leader_test :
    ∃ s, runWith testHandler testCalls (honoursContext testCalls) init leaderCancelledRun =
        some s ∧
      ∀ t call site out k, testCalls[t]? = some call → s.pc t = .returned site out →
        out.err = some (.contextDone k) → s.ctxDone k ∧
          (k = call.ctx ∨ ∃ l call', site = .lockDone l ∧ testCalls[l]? = some call' ∧
            k = call'.ctx ∧ s.pc l = .returned .leader out) := by
  obtain ⟨s, hs⟩ : ∃ s, runWith testHandler testCalls (honoursContext testCalls) init
      leaderCancelledRun = some s := ⟨_, rfl⟩
  exact ⟨s, hs, contextDone_error_own_or_leader hs⟩

end CentrifugoProxy
