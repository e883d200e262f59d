import CentrifugoProxy.Proof.Progress

/-!
# Channels are independent

The handler has no lock across channels: a call touches only its own position, its own lock, the
map's entry for its channel, and, when it waits, the lock of a call of its channel. So what the
calls of one channel do does not depend on the calls of the others. Seen from channel `c`, a step
of a call of another channel changes nothing, and a step of a call of `c` does to the restricted
state what it does to the whole one. Hence every interleaving, with the steps of the other
channels' calls left out, is itself an interleaving, and it reaches the state of the whole run as
the calls of `c` see it. Cancellations are kept: contexts are shared.
-/

namespace CentrifugoProxy

variable {P : Type} {calls : List HandleCall} {c : String}

def Label.onChannel (calls : List HandleCall) (c : String) (a : Label P) : Bool :=
  match a.caller with
  | some t => chanOf calls t == some c
  | none => true

namespace State

/-- The state as the calls of channel `c` see it: the other calls have not started, the map holds
only `c`'s entry, and the log only the events of `c`'s calls. -/
def restrict (calls : List HandleCall) (c : String) (s : State) : State where
  channelLocks c' := if c' = c then s.channelLocks c else none
  locks l := if chanOf calls l = some c then s.locks l else ChannelLock.new
  pc t := if chanOf calls t = some c then s.pc t else .start
  ctxDone := s.ctxDone
  log := s.log.filter fun e => chanOf calls e.caller == some c

variable {s : State} {t : Nat}

@[simp] theorem restrict_channelLocks_self :
    (s.restrict calls c).channelLocks c = s.channelLocks c :=
  if_pos rfl

theorem restrict_locks_of (hl : chanOf calls t = some c) :
    (s.restrict calls c).locks t = s.locks t :=
  if_pos hl

theorem restrict_pc_of (ht : chanOf calls t = some c) : (s.restrict calls c).pc t = s.pc t :=
  if_pos ht

@[simp] theorem restrict_ctxDone : (s.restrict calls c).ctxDone = s.ctxDone := rfl

theorem restrict_init : init.restrict calls c = init := by
  ext <;> simp [restrict, init]

end State

/-! ### What a step touches -/

variable {h : CacheEmptyHandler P} {s s' : State} {a : Label P} {t : Nat} {call : HandleCall}

/-- **Frame.** A step of call `t` changes no other call's position or lock, no entry of the map
but its channel's, no context, and appends one event of `t`. -/
theorem Step.frame (hinv : Inv calls s) (hs : Step h calls s a s') (ha : a.caller = some t) :
    ∃ call, calls[t]? = some call ∧
      (∀ c, c ≠ call.channel → s'.channelLocks c = s.channelLocks c) ∧
      (∀ l, l ≠ t → s'.locks l = s.locks l) ∧ (∀ t', t' ≠ t → s'.pc t' = s.pc t') ∧
      s'.ctxDone = s.ctxDone ∧ ∃ e, s'.log = s.log ++ [e] ∧ e.caller = t := by
  cases hs with
  | getOrCreateLock hcall _ =>
      cases ha
      refine ⟨_, hcall, ?_⟩
      unfold State.getOrCreateLock
      split <;> exact ⟨fun c hc => by simp [Function.update_noteq hc],
        fun l _ => rfl, fun t' ht' => by simp [Function.update_noteq ht'], rfl, _, rfl, rfl⟩
  | dispatch hcall _ hs =>
      cases ha
      refine ⟨_, hcall, ?_⟩
      unfold State.dispatch at hs
      split at hs <;> cases hs <;> exact ⟨fun _ _ => rfl, fun _ _ => rfl,
        fun t' ht' => by simp [Function.update_noteq ht'], rfl, _, rfl, rfl⟩
  | store hcall _ =>
      cases ha
      exact ⟨_, hcall, fun _ _ => rfl, fun l hl => by simp [State.store, Function.update_noteq hl],
        fun t' ht' => by simp [State.store, Function.update_noteq ht'], rfl, _, rfl, rfl⟩
  | delete hcall _ =>
      cases ha
      exact ⟨_, hcall, fun c hc => by simp [State.delete, Function.update_noteq hc],
        fun _ _ => rfl, fun t' ht' => by simp [State.delete, Function.update_noteq ht'], rfl, _,
        rfl, rfl⟩
  | close hcall hpc =>
      cases ha
      simp only [State.close, hinv.open_of_closing hpc, Bool.false_eq_true, if_false]
      exact ⟨_, hcall, fun _ _ => rfl, fun l hl => by simp [Function.update_noteq hl],
        fun t' ht' => by simp [Function.update_noteq ht'], rfl, _, rfl, rfl⟩
  | lockDone hcall _ _ | timerFired hcall _ | ctxDone hcall _ _ =>
      cases ha
      exact ⟨_, hcall, fun _ _ => rfl, fun _ _ => rfl,
        fun t' ht' => by simp [Function.update_noteq ht'], rfl, _, rfl, rfl⟩
  | cancel => cases ha

/-! ### A step of another channel -/

theorem Step.restrict_other (hinv : Inv calls s) (hs : Step h calls s a s')
    (ha : a.onChannel calls c = false) : s'.restrict calls c = s.restrict calls c := by
  obtain ⟨t, hat⟩ : ∃ t, a.caller = some t := by
    cases a <;> simp_all [Label.onChannel, Label.caller]
  obtain ⟨call, hcall, hmap, hlocks, hpc, hctx, e, hlog, he⟩ := hs.frame hinv hat
  have ht : chanOf calls t ≠ some c := by simpa [Label.onChannel, hat] using ha
  have hc : c ≠ call.channel := fun hc => ht (hc ▸ chanOf_eq hcall)
  refine State.ext (funext fun x => ?_) (funext fun x => ?_) (funext fun x => ?_) hctx ?_
  · simp only [State.restrict]
    split_ifs with hx
    · exact hmap c hc
    · rfl
  · simp only [State.restrict]
    split_ifs with hx
    · exact hlocks x (by rintro rfl; exact ht hx)
    · rfl
  · simp only [State.restrict]
    split_ifs with hx
    · exact hpc x (by rintro rfl; exact ht hx)
    · rfl
  · simp [State.restrict, hlog, he, ht]

/-! ### A step of the channel's own calls -/

namespace State

variable {e : Event} {pc : Pc}

theorem update_restrict {β : Type} (ht : chanOf calls t = some c) (f : Nat → β) (v d : β) :
    (fun x => if chanOf calls x = some c then Function.update f t v x else d) =
      Function.update (fun x => if chanOf calls x = some c then f x else d) t v := by
  funext x
  by_cases hx : x = t
  · subst hx; simp [ht]
  · simp [Function.update_noteq hx]

theorem update_restrict_map (m : String → Option Nat) (v : Option Nat) :
    (fun x => if x = c then Function.update m c v c else none) =
      Function.update (fun x => if x = c then m c else none) c v := by
  funext x
  by_cases hx : x = c
  · subst hx; simp
  · simp [Function.update_noteq hx, hx]

theorem restrict_advance (ht : chanOf calls t = some c) (he : e.caller = t) :
    (s.advance t pc e).restrict calls c = (s.restrict calls c).advance t pc e :=
  State.ext rfl rfl (update_restrict ht _ _ _) rfl (by simp [restrict, he, ht])

theorem restrict_getOrCreateLock (hcall : calls[t]? = some call) (hc : call.channel = c) :
    (s.getOrCreateLock t call).restrict calls c = (s.restrict calls c).getOrCreateLock t call := by
  have ht : chanOf calls t = some c := hc ▸ chanOf_eq hcall
  subst hc
  unfold getOrCreateLock
  rw [restrict_channelLocks_self]
  split <;> simp only [restrict_advance ht, Event.caller]
  congr 1
  exact State.ext (update_restrict_map _ _) rfl rfl rfl rfl

theorem restrict_dispatch (ht : chanOf calls t = some c) (req : NotifyCacheEmptyRequest)
    (ret : Completion) :
    (s.restrict calls c).dispatch t req ret = (s.dispatch t req ret).map (restrict calls c) := by
  unfold dispatch
  rw [restrict_pc_of ht]
  split <;> simp [restrict_advance ht, Event.caller]

theorem restrict_store (ht : chanOf calls t = some c) (out : Outcome) :
    (s.store t out).restrict calls c = (s.restrict calls c).store t out := by
  unfold store
  simp only [restrict_advance ht, Event.caller, restrict_locks_of ht]
  congr 1
  exact State.ext rfl (update_restrict ht _ _ _) rfl rfl rfl

theorem restrict_delete (ht : chanOf calls t = some c) (ret : Option Outcome) :
    (s.delete t c ret).restrict calls c = (s.restrict calls c).delete t c ret := by
  unfold delete
  simp only [restrict_advance ht, Event.caller, restrict_channelLocks_self]
  congr 1
  exact State.ext (update_restrict_map _ _) rfl rfl rfl rfl

theorem restrict_close (ht : chanOf calls t = some c) (ret : Option Outcome) :
    (s.close t ret).restrict calls c = (s.restrict calls c).close t ret := by
  unfold close
  rw [restrict_locks_of ht]
  split
  · exact State.ext rfl rfl (update_restrict ht _ _ _) rfl rfl
  · simp only [restrict_advance ht, Event.caller]
    congr 1
    exact State.ext rfl (update_restrict ht _ _ _) rfl rfl rfl

end State

variable [DecidableEq P]

/-- A step of a call of `c`, or a cancellation, does to the state seen from `c` what it does to
the whole state. -/
theorem step_restrict (hinv : Inv calls s) (hs : step h calls s a = some s')
    (ha : a.onChannel calls c) :
    step h calls (s.restrict calls c) a = some (s'.restrict calls c) := by
  have hown : ∀ {t}, a.caller = some t → chanOf calls t = some c := fun hat => by
    simpa [Label.onChannel, hat] using ha
  cases Step.of_step hs with
  | getOrCreateLock hcall hpc =>
      have ht := hown rfl
      have hc : _ = c := Option.some.inj ((chanOf_eq hcall).symm.trans ht)
      simp only [step, hcall, State.restrict_pc_of ht, hpc]
      rw [State.restrict_getOrCreateLock hcall hc]
  | dispatch hcall horder hs =>
      simp only [step, hcall, horder, if_true]
      rw [State.restrict_dispatch (hown rfl), hs]
      rfl
  | store hcall hpc =>
      have ht := hown rfl
      simp only [step, hcall, State.restrict_pc_of ht, hpc]
      rw [State.restrict_store ht]
  | delete hcall hpc =>
      have ht := hown rfl
      have hc : _ = c := Option.some.inj ((chanOf_eq hcall).symm.trans ht)
      simp only [step, hcall, State.restrict_pc_of ht, hpc]
      rw [hc, State.restrict_delete ht]
  | close hcall hpc =>
      have ht := hown rfl
      simp only [step, hcall, State.restrict_pc_of ht, hpc]
      rw [State.restrict_close ht]
  | lockDone hcall hpc hdone =>
      have ht := hown rfl
      have hl : chanOf calls _ = some c := (hinv.selecting _ _ hpc).2.trans ht
      simp only [step, hcall, State.restrict_pc_of ht, hpc, State.restrict_locks_of hl, hdone,
        if_true]
      simp only [State.restrict_advance ht, Event.caller]
  | timerFired hcall hpc =>
      have ht := hown rfl
      simp only [step, hcall, State.restrict_pc_of ht, hpc]
      simp only [State.restrict_advance ht, Event.caller]
  | ctxDone hcall hpc hctx =>
      have ht := hown rfl
      simp only [step, hcall, State.restrict_pc_of ht, hpc, State.restrict_ctxDone, hctx, if_true]
      simp only [State.restrict_advance ht, Event.caller]
  | cancel ctx => rfl

/-! ### Runs -/

theorem run_cons_iff {labels : List (Label P)} :
    run h calls s (a :: labels) = some s' ↔
      ∃ s₁, step h calls s a = some s₁ ∧ run h calls s₁ labels = some s' := by
  simpa [run, runWith] using Option.bind_eq_some

theorem run_restrict_of {labels : List (Label P)} (hinv : Inv calls s)
    (hrun : run h calls s labels = some s') :
    run h calls (s.restrict calls c) (labels.filter (Label.onChannel calls c)) =
      some (s'.restrict calls c) := by
  induction labels generalizing s with
  | nil => cases hrun; rfl
  | cons a labels ih =>
      obtain ⟨s₁, hs₁, hrun₁⟩ := run_cons_iff.1 hrun
      have hinv₁ := hinv.of_step (Step.of_step hs₁)
      by_cases ha : a.onChannel calls c
      · rw [List.filter_cons_of_pos ha]
        exact run_cons (step_restrict hinv hs₁ ha) (ih hinv₁ hrun₁)
      · rw [List.filter_cons_of_neg ha,
          ← (Step.of_step hs₁).restrict_other hinv (by simpa using ha)]
        exact ih hinv₁ hrun₁

/-- **Independent channels.** Every interleaving of any calls on any channels, with the steps of
the calls of other channels than `c` left out, is itself an interleaving, and it reaches the state
of the whole run as the calls of `c` see it: their positions and locks, `c`'s entry in the map,
the contexts, and their events in order. -/
theorem run_restrict_channel {labels : List (Label P)} (hrun : run h calls init labels = some s)
    (c : String) :
    run h calls init (labels.filter (Label.onChannel calls c)) = some (s.restrict calls c) := by
  simpa [State.restrict_init] using run_restrict_of (inv_init calls) hrun

/-- Independence on the channels of `TestCacheEmptyHandlerDifferentChannels`: calls 0 and 1 of
two channels interleave, and call 0's steps alone reach the same state of `"channel1"`. -/
theorem run_restrict_channel_test :
    ∃ s, run testHandler differentChannelsCalls init differentChannelsRun = some s ∧
      run testHandler differentChannelsCalls init
          (differentChannelsRun.filter (Label.onChannel differentChannelsCalls "channel1")) =
        some (s.restrict differentChannelsCalls "channel1") := by
  obtain ⟨s, hs⟩ : ∃ s, run testHandler differentChannelsCalls init differentChannelsRun =
      some s := ⟨_, rfl⟩
  exact ⟨s, hs, run_restrict_channel hs "channel1"⟩

/-! ### Calls on distinct channels

When no two calls share a channel, no `LoadOrStore` ever finds a lock in the map: every call
leads, and makes exactly one proxy call, as `TestCacheEmptyHandlerDifferentChannels` counts. -/

/-- Reached through a `LoadOrStore` that found a lock in the map. -/
def Pc.followed : Pc → Bool
  | .selecting _ | .fallingBack => true
  | .returned site _ | .panicked site => site != .leader
  | _ => false

theorem Pc.followed_of_mem_history {pc : Pc} {t : Nat} {call : HandleCall}
    (hmem : Event.loadOrStore t c true ∈ pc.history t call) : pc.followed := by
  rcases pc with _ | _ | out | (_ | out) | (_ | out) | lock | _ | ⟨(_ | lock | _ | _), out⟩ |
    (_ | lock | _ | _) <;> simp_all [Pc.history, Pc.wonHistory, Pc.followed]

theorem Pc.followed_of_timedOut {pc : Pc} (htimed : pc.timedOut) : pc.followed := by
  rcases pc with _ | _ | _ | _ | _ | _ | _ | ⟨(_ | _ | _ | _), _⟩ | (_ | _ | _ | _) <;>
    simp_all [Pc.timedOut, Pc.followed]

theorem eq_of_chanOf_eq (hnodup : (calls.map (·.channel)).Nodup) {t u : Nat}
    (ht : chanOf calls t = some c) (hu : chanOf calls u = some c) : t = u := by
  have hmap : ∀ v, (calls.map (·.channel))[v]? = chanOf calls v := by simp [chanOf]
  obtain ⟨call, hcall, -⟩ := exists_call_of_chanOf ht
  exact List.getElem?_inj (by simpa using (List.getElem?_eq_some.1 hcall).1) hnodup
    (by rw [hmap, hmap, ht, hu])

omit [DecidableEq P] in
theorem Step.not_followed (hinv : Inv calls s) (hnodup : (calls.map (·.channel)).Nodup)
    (hQ : ∀ t, (s.pc t).followed = false) (hs : Step h calls s a s') :
    ∀ t, (s'.pc t).followed = false := by
  cases hs with
  | getOrCreateLock hcall hpc =>
      unfold State.getOrCreateLock
      split
      · -- the lock found is a leading call's of the same channel, hence the caller's own
        rename_i l hl
        obtain ⟨hlead, hch⟩ := hinv.leading_of_channelLocks hl
        obtain rfl := eq_of_chanOf_eq hnodup hch (chanOf_eq hcall)
        simp [hpc, Pc.leading] at hlead
      · exact update_pc_all hQ rfl
  | @dispatch _ t _ _ _ _ _ hd =>
      unfold State.dispatch at hd
      split at hd <;> cases hd <;> first
        | exact update_pc_all hQ rfl
        | exact absurd (hQ t) (by simp [*, Pc.followed])
  | close =>
      unfold State.close
      split <;> (try split) <;> exact update_pc_all hQ rfl
  | store | delete => exact update_pc_all hQ rfl
  | @lockDone t _ _ _ hpc _ | @timerFired t _ _ _ hpc | @ctxDone t _ _ _ hpc _ =>
      exact absurd (hQ t) (by simp [hpc, Pc.followed])
  | cancel => exact hQ

/-- **Calls on distinct channels never wait.** In every interleaving of calls on pairwise
distinct channels, no call's `LoadOrStore` finds a lock in the map, so every call leads; once all
calls returned, each of their channels had exactly one proxy call. -/
theorem distinct_channels_never_wait (hnodup : (calls.map (·.channel)).Nodup)
    {labels : List (Label P)} (hrun : run h calls init labels = some s) :
    (∀ t c, Event.loadOrStore t c true ∉ s.log) ∧
    ((∀ t < calls.length, ∃ site out, s.pc t = .returned site out) →
      ∀ call ∈ calls, s.log.countP (Event.dispatchesFor call.channel) = 1) := by
  obtain ⟨hinv, hQ⟩ := runWith_induction (fun hinv hQ _ hs => Step.not_followed hinv hnodup hQ hs)
    (inv_init calls) (fun _ => rfl) hrun
  refine ⟨fun t c hmem => ?_, fun hall call hmem => ?_⟩
  · obtain ⟨_, -, hpath⟩ := hinv.mem_history_of_mem_log hmem
    simpa [hQ] using Pc.followed_of_mem_history hpath
  obtain ⟨t, ht, rfl⟩ := List.getElem_of_mem hmem
  have hch : chanOf calls t = some calls[t].channel := chanOf_eq (List.getElem?_eq_getElem ht)
  have hall' : ∀ u, chanOf calls u = some calls[t].channel →
      ∃ site out, s.pc u = .returned site out := fun u hu => by
    obtain ⟨call, hcall, -⟩ := exists_call_of_chanOf hu
    exact hall u (List.getElem?_eq_some.1 hcall).1
  -- no call of the channel timed out, and its one call is its one election
  have htimer : s.log.countP (Event.timesOutFor calls[t].channel) = 0 := by
    rw [hinv.countP_channel fun _ _ _ => Pc.countP_timesOutFor _]
    refine Finset.sum_eq_zero fun u _ => if_neg fun ⟨htimed, _⟩ => ?_
    simpa [hQ] using Pc.followed_of_timedOut htimed
  have helect : s.log.countP (Event.electsFor calls[t].channel) = 1 := by
    rw [hinv.countP_channel fun _ _ _ => Pc.countP_electsFor _,
      Finset.sum_eq_single_of_mem t (Finset.mem_range.2 ht)
        fun u _ hu => if_neg fun ⟨_, hcu⟩ => hu (eq_of_chanOf_eq hnodup hcu hch)]
    obtain ⟨site, out, hpc⟩ := hall' t hch
    have hsite : site = .leader := by simpa [hpc, Pc.followed] using hQ t
    simp [hpc, hsite, hch, Pc.elected]
  exact hinv.one_dispatch_of_one_election helect htimer hall'

/-- `TestCacheEmptyHandlerDifferentChannels`: the calls on `"channel1"`, `"channel2"` and
`"channel3"`, all run to their end, made one proxy call each. -/
theorem distinct_channels_never_wait_test :
    (differentChannelsCalls.map (·.channel)).Nodup ∧
    ∃ s, run testHandler differentChannelsCalls init differentChannelsAllRun = some s ∧
      ∀ call ∈ differentChannelsCalls, s.log.countP (Event.dispatchesFor call.channel) = 1 := by
  have hnodup : (differentChannelsCalls.map (·.channel)).Nodup := by decide
  obtain ⟨s, hs, h0, h1, h2⟩ : ∃ s,
      run testHandler differentChannelsCalls init differentChannelsAllRun = some s ∧
        s.pc 0 = .returned .leader ⟨some ⟨some ⟨true⟩⟩, none⟩ ∧
        s.pc 1 = .returned .leader ⟨some ⟨some ⟨true⟩⟩, none⟩ ∧
        s.pc 2 = .returned .leader ⟨some ⟨some ⟨true⟩⟩, none⟩ := ⟨_, rfl, rfl, rfl, rfl⟩
  refine ⟨hnodup, s, hs, (distinct_channels_never_wait hnodup hs).2 fun t ht => ?_⟩
  rcases t with _ | _ | _ | t
  · exact ⟨_, _, h0⟩
  · exact ⟨_, _, h1⟩
  · exact ⟨_, _, h2⟩
  · exact absurd ht (by simp [differentChannelsCalls])

end CentrifugoProxy
