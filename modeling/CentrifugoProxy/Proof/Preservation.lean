import CentrifugoProxy.Proof.Invariant

/-!
# Every step keeps the invariant

One lemma per action of `handle`, each on the state that action makes, and then the run: from
the initial state, every interleaving of any number of calls on any channels, whatever the
proxies answer and whenever contexts are cancelled, reaches only states where `Inv` holds.

The two steps that change the map are the ones with content. A `LoadOrStore` that stores can do
so only because no call of that channel is leading, and a `Delete` removes exactly its caller's
lock because the map's entry for the channel is the lock of the one leading call, which is the
caller itself.
-/

namespace CentrifugoProxy

variable {P : Type} [DecidableEq P] {h : CacheEmptyHandler P} {calls : List HandleCall}
  {s : State} {t : Nat} {call : HandleCall}

theorem Inv.leading_of_channelLocks (hinv : Inv calls s) {c : String} {l : Nat}
    (h : s.channelLocks c = some l) : (s.pc l).leading ∧ chanOf calls l = some c :=
  (hinv.channelLocks c l).1 h

theorem chanOf_eq (hcall : calls[t]? = some call) : chanOf calls t = some call.channel := by
  simp [chanOf, hcall]

theorem Inv.channelLocks_self (hinv : Inv calls s) (hcall : calls[t]? = some call)
    (hleading : (s.pc t).leading) : s.channelLocks call.channel = some t :=
  (hinv.channelLocks _ t).2 ⟨hleading, chanOf_eq hcall⟩

theorem Inv.getOrCreateLock (hinv : Inv calls s) (hcall : calls[t]? = some call)
    (hpc : s.pc t = .start) : Inv calls (s.getOrCreateLock t call) := by
  unfold State.getOrCreateLock
  split
  · -- loaded: `t` follows the leading call whose lock is in the map
    rename_i lock hlock
    obtain ⟨hleading, hch⟩ := hinv.leading_of_channelLocks hlock
    have hne : lock ≠ t := by rintro rfl; simp [hpc, Pc.leading] at hleading
    refine hinv.advance_same hcall (by simp [hpc, Pc.elected]) (by simp [hpc, Pc.leading])
      (by simp [hpc, Pc.lock]) (by simp [hpc, Pc.lock, ChannelLock.new]) ?_ (by simp) (by simp)
      (by simp [hpc, Pc.history]) (by rfl)
    rintro l ⟨⟩
    exact ⟨hne, Pc.leading_elected hleading, by rw [hch, chanOf_eq hcall]⟩
  · -- stored: no call of the channel leads, and `t` starts to
    rename_i hnone
    refine hinv.advance hcall (by simp [hpc, Pc.elected]) (by simp [hpc, Pc.lock, ChannelLock.new])
      (by simp) (by simp) (by simp) (by simp [hpc, Pc.history]) (by rfl) (fun c l => ?_)
      (fun l => ?_)
    · rcases eq_or_ne l t with rfl | hne
      · rcases eq_or_ne c call.channel with rfl | hc
        · simp [chanOf_eq hcall, Pc.leading]
        · simp only [Function.update_noteq hc, Function.update_same, chanOf_eq hcall,
            Option.some.injEq, Ne.symm hc, and_false, iff_false]
          intro hsome
          simpa [hpc, Pc.leading] using (hinv.leading_of_channelLocks hsome).1
      · rw [Function.update_noteq hne]
        rcases eq_or_ne c call.channel with rfl | hc
        · simp only [Function.update_same, Option.some.injEq, Ne.symm hne, false_iff, not_and]
          intro hleading hch
          simp [(hinv.channelLocks _ l).2 ⟨hleading, hch⟩] at hnone
        · rw [Function.update_noteq hc]
          exact hinv.channelLocks c l
    · rcases eq_or_ne l t with rfl | hne
      · simpa [hpc, Pc.lock] using hinv.locks l
      · simpa [Function.update_noteq hne] using hinv.locks l

theorem Inv.dispatch (hinv : Inv calls s) (hcall : calls[t]? = some call)
    {req : NotifyCacheEmptyRequest} (hreq : req = ⟨call.channel⟩) {ret : Completion}
    {s' : State} (hs : s.dispatch t req ret = some s') : Inv calls s' := by
  subst hreq
  unfold State.dispatch at hs
  split at hs <;> cases hs <;> rename_i hpc <;>
    exact hinv.advance_same hcall (by simp [hpc, Pc.elected]) (by simp [hpc, Pc.leading])
      (by simp [hpc, Pc.lock]) (by simp [hpc, Pc.lock, ChannelLock.new]) (by simp) (by simp)
      (by simp) (by simp [hpc, Pc.history, Pc.wonHistory]) (by rfl)

theorem Inv.store (hinv : Inv calls s) (hcall : calls[t]? = some call) {out : Outcome}
    (hpc : s.pc t = .storing out) : Inv calls (s.store t out) := by
  refine hinv.advance hcall (by simp [hpc, Pc.elected]) (by simp [hpc, Pc.lock, ChannelLock.new])
    (by simp) (by simp) (by simp) (by simp [hpc, Pc.history, Pc.wonHistory, ChannelLock.outcome])
    (by rfl)
    (hinv.channelLocks_update (by simp [hpc, Pc.leading])) (fun l => ?_)
  rcases eq_or_ne l t with rfl | hne
  · simp [hinv.locks l, hpc, Pc.lock, ChannelLock.new, ChannelLock.outcome]
  · simpa [Function.update_noteq hne] using hinv.locks l

theorem Inv.delete (hinv : Inv calls s) (hcall : calls[t]? = some call) {ret : Option Outcome}
    (hpc : s.pc t = .deleting ret) : Inv calls (s.delete t call.channel ret) := by
  have hself := hinv.channelLocks_self hcall (by simp [hpc, Pc.leading])
  refine hinv.advance hcall (by simp [hpc, Pc.elected]) (by cases ret <;> simp [hpc, Pc.lock])
    (by simp) (by simp) (by simp) (by simp [hpc, Pc.history, hself]) (by rfl) (fun c l => ?_)
    (hinv.locks_update (by cases ret <;> simp [hpc, Pc.lock]))
  rcases eq_or_ne c call.channel with rfl | hc
  · -- the channel's entry was `t`'s own lock, and `t` leads no more
    simp only [Function.update_same, reduceCtorEq, false_iff, not_and]
    intro hleading hch
    rcases eq_or_ne l t with rfl | hne
    · simp [Pc.leading] at hleading
    · rw [Function.update_noteq hne] at hleading
      have := (hinv.channelLocks _ l).2 ⟨hleading, hch⟩
      exact hne (Option.some.inj (this.symm.trans hself))
  · rw [Function.update_noteq hc, hinv.channelLocks c l]
    rcases eq_or_ne l t with rfl | hne
    · simp [hpc, Pc.leading, chanOf_eq hcall, Ne.symm hc]
    · rw [Function.update_noteq hne]

theorem Inv.close (hinv : Inv calls s) (hcall : calls[t]? = some call) {ret : Option Outcome}
    (hpc : s.pc t = .closing ret) : Inv calls (s.close t ret) := by
  have hopen : (s.locks t).done = false := by
    rw [hinv.locks t, hpc]; cases ret <;> rfl
  simp only [State.close, hopen]
  refine hinv.advance hcall (by cases ret <;> simp [hpc, Pc.elected])
    (by cases ret <;> simp [hpc, Pc.lock, ChannelLock.new]) (by cases ret <;> simp)
    (by cases ret <;> simp) (by cases ret <;> simp) (by cases ret <;> simp [hpc, Pc.history])
    (by rfl)
    (hinv.channelLocks_update (by cases ret <;> simp [hpc, Pc.leading])) (fun l => ?_)
  rcases eq_or_ne l t with rfl | hne
  · cases ret <;> simp [hinv.locks l, hpc, Pc.lock, ChannelLock.new]
  · simpa [Function.update_noteq hne] using hinv.locks l

theorem Inv.lockDone (hinv : Inv calls s) (hcall : calls[t]? = some call) {lock : Nat}
    (hpc : s.pc t = .selecting lock) (hdone : (s.locks lock).done) :
    Inv calls (s.advance t (.returned (.lockDone lock) (s.locks lock).outcome)
      (.lockDone t lock (s.locks lock).outcome)) := by
  obtain ⟨helected, hch⟩ := hinv.selecting t lock hpc
  have hne : lock ≠ t := by rintro rfl; simp [hpc, Pc.elected] at helected
  rw [hinv.locks lock] at hdone ⊢
  exact hinv.advance_same hcall (by simp [hpc, Pc.elected]) (by simp [hpc, Pc.leading])
    (by simp [hpc, Pc.lock]) (by simp [hpc, Pc.lock, ChannelLock.new]) (by simp)
    (by rintro l out ⟨⟩; exact ⟨hne, hch, hdone, rfl⟩) (by simp) (by simp [hpc, Pc.history])
    (by rfl)

theorem Inv.timerFired (hinv : Inv calls s) (hcall : calls[t]? = some call) {lock : Nat}
    (hpc : s.pc t = .selecting lock) :
    Inv calls (s.advance t .fallingBack (.timerFired t call.channel)) :=
  hinv.advance_same hcall (by simp [hpc, Pc.elected]) (by simp [hpc, Pc.leading])
    (by simp [hpc, Pc.lock]) (by simp [hpc, Pc.lock, ChannelLock.new]) (by simp) (by simp)
    (by simp) (by simp [hpc, Pc.history]) (by rfl)

theorem Inv.ctxDone (hinv : Inv calls s) (hcall : calls[t]? = some call) {lock : Nat}
    (hpc : s.pc t = .selecting lock) (hctx : s.ctxDone call.ctx) :
    Inv calls (s.advance t (.returned .ctxDone ⟨none, some (.contextDone call.ctx)⟩)
      (.ctxDone t call.channel)) :=
  hinv.advance_same hcall (by simp [hpc, Pc.elected]) (by simp [hpc, Pc.leading])
    (by simp [hpc, Pc.lock]) (by simp [hpc, Pc.lock, ChannelLock.new]) (by simp) (by simp)
    (by rintro out ⟨⟩; exact ⟨rfl, hctx⟩) (by simp [hpc, Pc.history]) (by rfl)

theorem Inv.cancel (hinv : Inv calls s) (ctx : Nat) :
    Inv calls { s with ctxDone := Function.update s.ctxDone ctx true } :=
  { hinv with
    cancelled := fun t call out hcall hpc => by
      obtain ⟨hout, hdone⟩ := hinv.cancelled t call out hcall hpc
      refine ⟨hout, ?_⟩
      by_cases heq : call.ctx = ctx <;> simp [Function.update_apply, heq, hdone] }

variable (h calls)

/-- The steps of the handler as rules, one per action of `handle` and its guard: what
`step h calls s a = some s'` can mean. -/
inductive Step : State → Label P → State → Prop
  | getOrCreateLock {s t call} (hcall : calls[t]? = some call) (hpc : s.pc t = .start) :
      Step s (.getOrCreateLock t) (s.getOrCreateLock t call)
  | dispatch {s s' t call order answer} (hcall : calls[t]? = some call)
      (horder : order.Perm h.proxies)
      (hs : s.dispatch t ⟨call.channel⟩
        (handleCacheEmpty (fun _ _ _ => answer) call.ctx ⟨call.channel⟩ order).2 = some s') :
      Step s (.dispatch t order answer) s'
  | store {s t call out} (hcall : calls[t]? = some call) (hpc : s.pc t = .storing out) :
      Step s (.store t) (s.store t out)
  | delete {s t call ret} (hcall : calls[t]? = some call) (hpc : s.pc t = .deleting ret) :
      Step s (.delete t) (s.delete t call.channel ret)
  | close {s t call ret} (hcall : calls[t]? = some call) (hpc : s.pc t = .closing ret) :
      Step s (.close t) (s.close t ret)
  | lockDone {s t call lock} (hcall : calls[t]? = some call) (hpc : s.pc t = .selecting lock)
      (hdone : (s.locks lock).done) :
      Step s (.lockDone t) (s.advance t (.returned (.lockDone lock) (s.locks lock).outcome)
        (.lockDone t lock (s.locks lock).outcome))
  | timerFired {s t call lock} (hcall : calls[t]? = some call) (hpc : s.pc t = .selecting lock) :
      Step s (.timerFired t) (s.advance t .fallingBack (.timerFired t call.channel))
  | ctxDone {s t call lock} (hcall : calls[t]? = some call) (hpc : s.pc t = .selecting lock)
      (hctx : s.ctxDone call.ctx) :
      Step s (.ctxDone t) (s.advance t (.returned .ctxDone ⟨none, some (.contextDone call.ctx)⟩)
        (.ctxDone t call.channel))
  | cancel {s} (ctx : Nat) :
      Step s (.cancel ctx) { s with ctxDone := Function.update s.ctxDone ctx true }

variable {h calls}

/-- The executable step takes only the steps the rules allow. -/
theorem Step.of_step {a : Label P} {s' : State} (hs : step h calls s a = some s') :
    Step h calls s a s' := by
  cases a with
  | getOrCreateLock t =>
      simp only [step] at hs
      split at hs <;> cases hs
      exact .getOrCreateLock ‹_› ‹_›
  | dispatch t order answer =>
      simp only [step] at hs
      split at hs
      · split at hs
        · exact .dispatch ‹_› ‹_› hs
        · cases hs
      · cases hs
  | store t =>
      simp only [step] at hs
      split at hs <;> cases hs
      exact .store ‹_› ‹_›
  | delete t =>
      simp only [step] at hs
      split at hs <;> cases hs
      exact .delete ‹_› ‹_›
  | close t =>
      simp only [step] at hs
      split at hs <;> cases hs
      exact .close ‹_› ‹_›
  | lockDone t =>
      simp only [step] at hs
      split at hs
      · split at hs <;> cases hs
        exact .lockDone ‹_› ‹_› ‹_›
      · cases hs
  | timerFired t =>
      simp only [step] at hs
      split at hs <;> cases hs
      exact .timerFired ‹_› ‹_›
  | ctxDone t =>
      simp only [step] at hs
      split at hs
      · split at hs <;> cases hs
        exact .ctxDone ‹_› ‹_› ‹_›
      · cases hs
  | cancel ctx =>
      cases hs
      exact .cancel ctx

omit [DecidableEq P] in
/-- **Step.** Every step of the handler keeps the invariant. -/
theorem Inv.of_step (hinv : Inv calls s) {a : Label P} {s' : State} (hs : Step h calls s a s') :
    Inv calls s' := by
  cases hs with
  | getOrCreateLock hcall hpc => exact hinv.getOrCreateLock hcall hpc
  | dispatch hcall _ hs => exact hinv.dispatch hcall rfl hs
  | store hcall hpc => exact hinv.store hcall hpc
  | delete hcall hpc => exact hinv.delete hcall hpc
  | close hcall hpc => exact hinv.close hcall hpc
  | lockDone hcall hpc hdone => exact hinv.lockDone hcall hpc hdone
  | timerFired hcall hpc => exact hinv.timerFired hcall hpc
  | ctxDone hcall hpc hctx => exact hinv.ctxDone hcall hpc hctx
  | cancel ctx => exact hinv.cancel ctx

/-- **Runs.** A property that holds at `s` and that every allowed step keeps, in a state where
the invariant holds, holds after every run from `s`. -/
theorem runWith_induction {Q : State → Prop} {ok : State → Label P → Bool}
    (hstep : ∀ {s a s'}, Inv calls s → Q s → ok s a → Step h calls s a s' → Q s')
    (hinv : Inv calls s) (hQ : Q s) {labels : List (Label P)} {s' : State}
    (hrun : runWith h calls ok s labels = some s') : Inv calls s' ∧ Q s' := by
  induction labels generalizing s with
  | nil => cases hrun; exact ⟨hinv, hQ⟩
  | cons a labels ih =>
      simp only [runWith] at hrun
      split at hrun
      · obtain ⟨s₁, hs₁, hrun⟩ := Option.bind_eq_some.mp hrun
        have hstep₁ := Step.of_step hs₁
        exact ih (hinv.of_step hstep₁) (hstep hinv hQ ‹_› hstep₁) hrun
      · cases hrun

/-- Every state any interleaving reaches from the start satisfies the invariant. -/
theorem inv_of_runWith {ok : State → Label P → Bool} {labels : List (Label P)} {s : State}
    (hrun : runWith h calls ok init labels = some s) : Inv calls s :=
  (runWith_induction (fun _ _ _ _ => trivial) (inv_init calls) trivial hrun).1

theorem runWith_of_run {p : Label P → Bool} {labels : List (Label P)} {s s' : State}
    (hrun : run h calls s labels = some s') (hp : ∀ a ∈ labels, p a) :
    runWith h calls (fun _ a => p a) s labels = some s' := by
  induction labels generalizing s with
  | nil => exact hrun
  | cons a labels ih =>
      simp only [run, runWith, List.mem_cons] at hrun hp ⊢
      simp only [hp a (.inl rfl), if_true, ite_true] at hrun ⊢
      obtain ⟨s₁, hs₁, hrun⟩ := Option.bind_eq_some.mp hrun
      exact Option.bind_eq_some.mpr ⟨s₁, hs₁, ih hrun fun b hb => hp b (.inr hb)⟩

end CentrifugoProxy
