import CentrifugoProxy.Proof.Outcomes

/-!
# Every call can finish on its own

No call of `handle` ever waits for good. From every reachable state, each call that has not
returned or panicked has a step of its own enabled, whatever the other calls are doing and
whatever the proxies answer: a follower's timer may always fire, and a leader's dispatch, store,
`Delete` and `close` are never blocked. Each such step brings the call nearer its end, so at most
five of its own steps take it to a `return` or a panic, and then its lock, if it ever led, is out
of the map: no channel is left stuck behind a call that has finished.
-/

namespace CentrifugoProxy

variable {P : Type}

def Label.caller : Label P → Option Nat
  | .getOrCreateLock t | .dispatch t .. | .store t | .delete t | .close t | .lockDone t
  | .timerFired t | .ctxDone t => some t
  | .cancel _ => none

def Label.answer : Label P → Option Completion
  | .dispatch _ _ answer => some answer
  | _ => none

namespace Pc

def finished : Pc → Bool
  | .returned _ _ | .panicked _ => true
  | _ => false

/-- The most steps a call at this position takes before it returns or panics. -/
def stepsLeft : Pc → Nat
  | .start => 5
  | .dispatching => 4
  | .storing _ => 3
  | .deleting _ | .selecting _ => 2
  | .closing _ | .fallingBack => 1
  | .returned _ _ | .panicked _ => 0

/-- The step a call takes next on its own: its timer fires when it waits, and its proxy call is
made over the registry in its own order, answering `answer`. -/
def nextStep (t : Nat) (proxies : List (String × Option P)) (answer : Completion) :
    Pc → Option (Label P)
  | .start => some (.getOrCreateLock t)
  | .dispatching | .fallingBack => some (.dispatch t proxies answer)
  | .storing _ => some (.store t)
  | .deleting _ => some (.delete t)
  | .closing _ => some (.close t)
  | .selecting _ => some (.timerFired t)
  | .returned _ _ | .panicked _ => none

theorem nextStep_eq_none {pc : Pc} {t : Nat} {proxies : List (String × Option P)}
    {answer : Completion} : pc.nextStep t proxies answer = none ↔ pc.finished := by
  cases pc <;> simp [nextStep, finished]

theorem nextStep_label {pc : Pc} {t : Nat} {proxies : List (String × Option P)}
    {answer : Completion} {a : Label P} (ha : pc.nextStep t proxies answer = some a) :
    a.caller = some t ∧ a.answer.all (· == answer) := by
  cases pc <;> simp [nextStep] at ha <;> subst ha <;> simp [Label.caller, Label.answer]

end Pc

variable [DecidableEq P] {h : CacheEmptyHandler P} {calls : List HandleCall} {s : State}
  {t : Nat} {call : HandleCall}

theorem State.dispatch_stepsLeft (hpc : (s.pc t).awaitsDispatch) (req : NotifyCacheEmptyRequest)
    (ret : Completion) :
    ∃ s', s.dispatch t req ret = some s' ∧ (s'.pc t).stepsLeft < (s.pc t).stepsLeft := by
  unfold State.dispatch
  rcases hp : s.pc t with _ | _ | _ | _ | _ | _ | _ | _ | _ <;>
    simp [hp, Pc.awaitsDispatch] at hpc <;> cases ret <;> simp [hp, Pc.stepsLeft]

/-- **One own step.** A call that has not finished can take its next step, and that step lowers
the steps it has left. -/
theorem nextStep_enabled (hcall : calls[t]? = some call)
    {answer : Completion} {a : Label P} (hnext : (s.pc t).nextStep t h.proxies answer = some a) :
    ∃ s', step h calls s a = some s' ∧ (s'.pc t).stepsLeft < (s.pc t).stepsLeft := by
  rcases hp : s.pc t with _ | _ | out | ret | ret | lock | _ | ⟨site, out⟩ | site <;>
    rw [hp] at hnext <;> simp only [Pc.nextStep, Option.some.injEq, reduceCtorEq] at hnext <;>
    subst hnext
  case start =>
    refine ⟨s.getOrCreateLock t call, by simp [step, hcall, hp], ?_⟩
    rw [State.getOrCreateLock_pc_self]
    split <;> simp [Pc.stepsLeft]
  case dispatching | fallingBack =>
    simpa [step, hcall, hp] using
      State.dispatch_stepsLeft (show (s.pc t).awaitsDispatch by simp [hp, Pc.awaitsDispatch])
        ⟨call.channel⟩
        (handleCacheEmpty (fun _ _ _ => answer) call.ctx ⟨call.channel⟩ h.proxies).2
  case storing =>
    exact ⟨s.store t out, by simp [step, hcall, hp], by simp [State.store, Pc.stepsLeft]⟩
  case deleting =>
    exact ⟨s.delete t call.channel ret, by simp [step, hcall, hp],
      by simp [State.delete, Pc.stepsLeft]⟩
  case closing =>
    refine ⟨s.close t ret, by simp [step, hcall, hp], ?_⟩
    unfold State.close
    split
    · simp [Pc.stepsLeft]
    · cases ret <;> simp [Pc.stepsLeft]
  case selecting =>
    exact ⟨s.advance t .fallingBack (.timerFired t call.channel), by simp [step, hcall, hp],
      by simp [Pc.stepsLeft]⟩

theorem run_cons {a : Label P} {labels : List (Label P)} {s₁ s' : State}
    (hs : step h calls s a = some s₁) (hrun : run h calls s₁ labels = some s') :
    run h calls s (a :: labels) = some s' := by
  simpa [run, runWith, hs] using hrun

/-- From a position with at most `n` steps left, at most `n` own steps of a call finish it. -/
theorem finish_alone (hcall : calls[t]? = some call) (answer : Completion) :
    ∀ n s, Inv calls s → (s.pc t).stepsLeft ≤ n →
      ∃ labels s', labels.length ≤ n ∧
        (∀ a ∈ labels, a.caller = some t ∧ a.answer.all (· == answer)) ∧
        run h calls s labels = some s' ∧ Inv calls s' ∧ (s'.pc t).finished := by
  intro n
  induction n with
  | zero =>
      intro s hinv hleft
      refine ⟨[], s, le_rfl, by simp, rfl, hinv, ?_⟩
      revert hleft
      cases s.pc t <;> simp [Pc.stepsLeft, Pc.finished]
  | succ n ih =>
      intro s hinv hleft
      cases hnext : (s.pc t).nextStep t h.proxies answer with
      | none => exact ⟨[], s, by simp, by simp, rfl, hinv, Pc.nextStep_eq_none.1 hnext⟩
      | some a =>
          obtain ⟨s₁, hs₁, hlt⟩ := nextStep_enabled hcall hnext
          obtain ⟨labels, s', hlen, hown, hrun, hinv', hfin⟩ :=
            ih s₁ (hinv.of_step (Step.of_step hs₁)) (by omega)
          refine ⟨a :: labels, s', by simpa using hlen, ?_, run_cons hs₁ hrun, hinv', hfin⟩
          simpa [Pc.nextStep_label hnext] using hown

/-- **Progress.** From every state any interleaving of any calls on any channels reaches, and for
whatever the proxies answer, each call takes at most five steps of its own to return or panic,
with no step of another call and no cancellation; then no channel's entry is its lock. -/
theorem handle_finishes_alone {labels : List (Label P)}
    (hrun : run h calls init labels = some s) (hcall : calls[t]? = some call)
    (answer : Completion) :
    ∃ own s', own.length ≤ 5 ∧ (∀ a ∈ own, a.caller = some t ∧ a.answer.all (· == answer)) ∧
      run h calls s own = some s' ∧ (s'.pc t).finished ∧ ∀ c, s'.channelLocks c ≠ some t := by
  have hinv := inv_of_runWith hrun
  obtain ⟨own, s', hlen, hown, hrun', hinv', hfin⟩ :=
    @finish_alone P _ h calls t call hcall answer 5 s hinv (by cases s.pc t <;> simp [Pc.stepsLeft])
  refine ⟨own, s', hlen, hown, hrun', hfin, fun c hc => ?_⟩
  have hleading := (hinv'.leading_of_channelLocks hc).1
  revert hfin hleading
  cases s'.pc t <;> simp [Pc.finished, Pc.leading]

/-- Progress on the package's test setting: call 1 waits on call 0, and finishes alone. -/
theorem handle_finishes_alone_test :
    ∃ s, run testHandler testCalls init [.getOrCreateLock 0, .getOrCreateLock 1] = some s ∧
      ∃ own s', own.length ≤ 5 ∧
        (∀ a ∈ own, a.caller = some 1 ∧ a.answer.all (· == .panicked)) ∧
        run testHandler testCalls s own = some s' ∧ (s'.pc 1).finished ∧
        ∀ c, s'.channelLocks c ≠ some 1 := by
  obtain ⟨s, hs⟩ : ∃ s, run testHandler testCalls init
      [.getOrCreateLock 0, .getOrCreateLock 1] = some s := ⟨_, rfl⟩
  exact ⟨s, hs, handle_finishes_alone hs (by rfl) .panicked⟩

/-! ### Once every call has finished -/

theorem Pc.leading_of_drained {pc : Pc} (hpc : pc = .start ∨ pc.finished) :
    pc.leading = false := by
  rcases hpc with rfl | hfin
  · rfl
  · cases pc <;> simp_all [Pc.finished, Pc.leading]

theorem Pc.lock_done_of_drained {pc : Pc} (hpc : pc = .start ∨ pc.finished)
    (hel : pc.elected) : pc.lock.done := by
  rcases hpc with rfl | hfin
  · simp [Pc.elected] at hel
  · rcases pc with _ | _ | _ | _ | _ | _ | _ | ⟨(_ | _ | _ | _), _⟩ | (_ | _ | _ | _) <;>
      simp_all [Pc.finished, Pc.elected, Pc.lock]

/-- **No lock left behind.** In every interleaving of any calls on any channels, whatever the
proxies answer, panics included: once every call that started has returned or panicked, the map
holds no lock, and every lock a leader made is closed, so no later call can find one or wait on
it. -/
theorem drained_no_lock_left {labels : List (Label P)} (hrun : run h calls init labels = some s)
    (hdrained : ∀ t, s.pc t = .start ∨ (s.pc t).finished) :
    (∀ c, s.channelLocks c = none) ∧ ∀ l, (s.pc l).elected → (s.locks l).done := by
  have hinv := inv_of_runWith hrun
  refine ⟨fun c => Option.eq_none_iff_forall_not_mem.2 fun l hl => ?_, fun l hel => ?_⟩
  · simpa [Pc.leading_of_drained (hdrained l)] using (hinv.leading_of_channelLocks hl).1
  · rw [hinv.locks l]
    exact Pc.lock_done_of_drained (hdrained l) hel

/-- The package's two calls when call 0's proxy call panics: both finish, the map is empty, and
call 0's lock is closed. -/
theorem drained_no_lock_left_panic :
    ∃ s, run testHandler testCalls init (followerWokenRun .panicked) = some s ∧
      (∀ c, s.channelLocks c = none) ∧ (s.locks 0).done := by
  obtain ⟨s, hs, h0, h1⟩ : ∃ s, run testHandler testCalls init (followerWokenRun .panicked) =
      some s ∧ s.pc 0 = .panicked .leader ∧ s.pc 1 = .returned (.lockDone 0) ⟨none, none⟩ :=
    ⟨_, rfl, rfl, rfl⟩
  have hdrained : ∀ t, s.pc t = .start ∨ (s.pc t).finished := fun t => by
    rcases t with _ | _ | t
    · simp [h0, Pc.finished]
    · simp [h1, Pc.finished]
    · exact .inl ((inv_of_runWith hs).started _ (by simp [testCalls]))
  obtain ⟨hmap, hdone⟩ := drained_no_lock_left hs hdrained
  exact ⟨s, hs, hmap, hdone 0 (by simp [h0, Pc.elected])⟩

end CentrifugoProxy
