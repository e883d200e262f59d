import CentrifugoProxy.Proof.Election
import Mathlib.Algebra.BigOperators.Group.Finset

/-!
# One result for the waiting calls, one dispatch per leader or time-out

A follower woken by `lock.done` returns the pair its leader stored and returned, which is the
outcome of the leader's one `handleCacheEmpty` call. A `handleCacheEmpty` call is made only by a
leader, or by a follower whose timer fired, and by each of them once: so over a run the
dispatches for a channel are its leader elections plus its followers' time-outs, less the calls
that have been elected or timed out and not yet dispatched.

Counts over the log are sums over the calls: the log seen from one call is that call's path, so
a count of the log is the sum of the counts of the paths, and each path's count is read off its
position.
-/

namespace CentrifugoProxy

def Event.dispatchedBy (t : Nat) : Event → Bool
  | .dispatch t' _ _ => t' == t
  | _ => false

def Event.dispatchesFor (c : String) : Event → Bool
  | .dispatch _ req _ => req.channel == c
  | _ => false

/-- A `LoadOrStore` for channel `c` that made its caller a leader. -/
def Event.electsFor (c : String) : Event → Bool
  | .loadOrStore _ c' false => c' == c
  | _ => false

def Event.timesOutFor (c : String) : Event → Bool
  | .timerFired _ c' => c' == c
  | _ => false

def Event.cancelsFor (c : String) : Event → Bool
  | .ctxDone _ c' => c' == c
  | _ => false

namespace Pc

def dispatched : Pc → Bool
  | .storing _ | .deleting _ | .closing _ | .returned .leader _ | .panicked .leader
  | .returned .timerFired _ | .panicked .timerFired => true
  | _ => false

/-- Took the `timer.C` branch. -/
def timedOut : Pc → Bool
  | .fallingBack | .returned .timerFired _ | .panicked .timerFired => true
  | _ => false

/-- **Balance of one call.** A call has dispatched, or is about to, exactly when it has been
elected or has timed out; it is never both elected and timed out. -/
theorem dispatch_balance (pc : Pc) (p : Prop) [Decidable p] :
    (if pc.dispatched ∧ p then 1 else 0) + (if pc.awaitsDispatch ∧ p then 1 else 0) =
      (if pc.elected ∧ p then 1 else 0) + (if pc.timedOut ∧ p then 1 else 0) := by
  by_cases hp : p <;>
    rcases pc with _ | _ | out | (_ | out) | (_ | out) | lock | _ |
      ⟨(_ | lock | _ | _), out⟩ | (_ | lock | _ | _) <;>
    simp [hp, dispatched, awaitsDispatch, elected, timedOut]

variable {pc : Pc} {t : Nat} {call : HandleCall}

theorem countP_dispatchedBy :
    (pc.history t call).countP (Event.dispatchedBy t) = if pc.dispatched then 1 else 0 := by
  rcases pc with _ | _ | out | (_ | out) | (_ | out) | lock | _ |
    ⟨(_ | lock | _ | _), out⟩ | (_ | lock | _ | _) <;>
    simp [history, wonHistory, Event.dispatchedBy, List.countP_cons, dispatched]

theorem countP_dispatchesFor (c : String) :
    (pc.history t call).countP (Event.dispatchesFor c) =
      if pc.dispatched ∧ call.channel = c then 1 else 0 := by
  rcases pc with _ | _ | out | (_ | out) | (_ | out) | lock | _ |
    ⟨(_ | lock | _ | _), out⟩ | (_ | lock | _ | _) <;>
    simp [history, wonHistory, Event.dispatchesFor, List.countP_cons, dispatched]

theorem countP_electsFor (c : String) :
    (pc.history t call).countP (Event.electsFor c) =
      if pc.elected ∧ call.channel = c then 1 else 0 := by
  rcases pc with _ | _ | out | (_ | out) | (_ | out) | lock | _ |
    ⟨(_ | lock | _ | _), out⟩ | (_ | lock | _ | _) <;>
    simp [history, wonHistory, Event.electsFor, List.countP_cons, elected]

theorem countP_timesOutFor (c : String) :
    (pc.history t call).countP (Event.timesOutFor c) =
      if pc.timedOut ∧ call.channel = c then 1 else 0 := by
  rcases pc with _ | _ | out | (_ | out) | (_ | out) | lock | _ |
    ⟨(_ | lock | _ | _), out⟩ | (_ | lock | _ | _) <;>
    simp [history, wonHistory, Event.timesOutFor, List.countP_cons, timedOut]

theorem dispatch_mem {t' : Nat} {req : NotifyCacheEmptyRequest} {ret : Completion}
    (hmem : .dispatch t' req ret ∈ pc.history t call) :
    req.channel = call.channel ∧ (.loadOrStore t call.channel false ∈ pc.history t call ∨
      .timerFired t call.channel ∈ pc.history t call) := by
  rcases pc with _ | _ | out | (_ | out) | (_ | out) | lock | _ |
    ⟨(_ | lock | _ | _), out⟩ | (_ | lock | _ | _) <;>
    simp_all [history, wonHistory]

theorem not_dispatched_of_woken
    (hmem : (∃ l out, .lockDone t l out ∈ pc.history t call) ∨
      ∃ c, .ctxDone t c ∈ pc.history t call) :
    pc.dispatched = false := by
  rcases pc with _ | _ | out | (_ | out) | (_ | out) | lock | _ |
    ⟨(_ | lock | _ | _), out⟩ | (_ | lock | _ | _) <;>
    simp_all [history, wonHistory, dispatched]

/-- A closed lock belongs to a leader that returned what it holds, or that panicked. -/
theorem lock_done_cases (hdone : pc.lock.done) :
    pc = .returned .leader pc.lock.outcome ∨ pc = .panicked .leader := by
  rcases pc with _ | _ | out | (_ | out) | (_ | out) | lock | _ |
    ⟨(_ | lock | _ | _), out⟩ | (_ | lock | _ | _) <;>
    simp_all [Pc.lock, ChannelLock.outcome]

theorem elected_of_lock_done (hdone : pc.lock.done) : pc.elected := by
  rcases lock_done_cases hdone with h | h <;> rw [h] <;> rfl

theorem site_eq_leader {site : Site} {out : Outcome} (hel : (Pc.returned site out).elected) :
    site = .leader := by
  cases site <;> simp_all [elected]

end Pc

/-! ### Counting the log over the calls -/

theorem Event.caller_of_dispatchedBy {t : Nat} {e : Event} (hdis : e.dispatchedBy t) :
    e.caller = t := by
  rcases e with _ | ⟨t', _, _⟩ | _ | _ | _ | _ | _ | _ <;>
    simp_all [Event.dispatchedBy, Event.caller]

theorem countP_eq_sum_filter_caller {q : Event → Bool} {n : Nat} :
    ∀ {log : List Event}, (∀ e ∈ log, e.caller < n) →
      log.countP q = ∑ t ∈ Finset.range n, (log.filter (·.caller == t)).countP q
  | [], _ => by simp
  | e :: log, hlt => by
    have hsplit : ∀ t ∈ Finset.range n, ((e :: log).filter (·.caller == t)).countP q =
        (log.filter (·.caller == t)).countP q +
          if e.caller = t then (if q e then 1 else 0) else 0 := by
      intro t _
      by_cases he : e.caller = t <;> simp [List.filter_cons, he, List.countP_cons]
    rw [Finset.sum_congr rfl hsplit, Finset.sum_add_distrib, Finset.sum_ite_eq,
      if_pos (Finset.mem_range.2 (hlt e (List.mem_cons_self _ _))), List.countP_cons,
      countP_eq_sum_filter_caller fun e' he' => hlt e' (List.mem_cons_of_mem _ he')]

variable {P : Type} [DecidableEq P] {h : CacheEmptyHandler P} {calls : List HandleCall}
  {s : State}

theorem exists_call_of_chanOf {t : Nat} {c : String} (hch : chanOf calls t = some c) :
    ∃ call, calls[t]? = some call ∧ call.channel = c :=
  Option.map_eq_some'.1 hch

theorem Inv.caller_lt_length (hinv : Inv calls s) : ∀ e ∈ s.log, e.caller < calls.length := by
  intro e he
  obtain ⟨call, hcall, -⟩ := hinv.mem_history_of_mem_log he
  exact (List.getElem?_eq_some.1 hcall).1

theorem Inv.countP_eq_sum (hinv : Inv calls s) (q : Event → Bool) :
    s.log.countP q = ∑ t ∈ Finset.range calls.length, (historyOf calls t (s.pc t)).countP q := by
  rw [countP_eq_sum_filter_caller hinv.caller_lt_length]
  exact Finset.sum_congr rfl fun t _ => by rw [hinv.history t]

theorem Inv.countP_channel (hinv : Inv calls s) {q : Event → Bool} {f : Pc → Bool} {c : String}
    (hq : ∀ (pc : Pc) t call,
      (pc.history t call).countP q = if f pc ∧ call.channel = c then 1 else 0) :
    s.log.countP q = ∑ t ∈ Finset.range calls.length,
      if f (s.pc t) ∧ chanOf calls t = some c then 1 else 0 := by
  rw [hinv.countP_eq_sum]
  refine Finset.sum_congr rfl fun t ht => ?_
  simp [historyOf, chanOf, List.getElem?_eq_getElem (Finset.mem_range.1 ht), hq]

/-- The calls of channel `c` that are about to make their `handleCacheEmpty` call. -/
def awaitingDispatch (calls : List HandleCall) (s : State) (c : String) : Nat :=
  ((Finset.range calls.length).filter
    fun t => (s.pc t).awaitsDispatch ∧ chanOf calls t = some c).card

/-- **Dispatch accounting.** The dispatches for a channel, with its calls about to dispatch,
are its elections and its time-outs. -/
theorem Inv.dispatch_accounting (hinv : Inv calls s) (c : String) :
    s.log.countP (Event.dispatchesFor c) + awaitingDispatch calls s c =
      s.log.countP (Event.electsFor c) + s.log.countP (Event.timesOutFor c) := by
  rw [hinv.countP_channel fun _ _ _ => Pc.countP_dispatchesFor c,
    hinv.countP_channel fun _ _ _ => Pc.countP_electsFor c,
    hinv.countP_channel fun _ _ _ => Pc.countP_timesOutFor c, awaitingDispatch, Finset.card_filter,
    ← Finset.sum_add_distrib, ← Finset.sum_add_distrib]
  exact Finset.sum_congr rfl fun t _ => Pc.dispatch_balance _ _

theorem Inv.countP_dispatchedBy (hinv : Inv calls s) (t : Nat) :
    s.log.countP (Event.dispatchedBy t) = if (s.pc t).dispatched then 1 else 0 := by
  rw [hinv.countP_log fun _ _ => Event.caller_of_dispatchedBy]
  unfold historyOf
  split
  · exact Pc.countP_dispatchedBy
  · simp [hinv.started t ‹_›, Pc.dispatched]

/-- When a channel had one election, no time-out and no cancellation, and all its calls
returned, they all returned the same pair: its leader's. -/
theorem Inv.returned_same_of_one_election (hinv : Inv calls s) {c : String}
    (helect : s.log.countP (Event.electsFor c) = 1)
    (htimer : s.log.countP (Event.timesOutFor c) = 0)
    (hcancel : s.log.countP (Event.cancelsFor c) = 0)
    (hall : ∀ t, chanOf calls t = some c → ∃ site out, s.pc t = .returned site out) :
    ∃ out, ∀ t, chanOf calls t = some c → ∃ site, s.pc t = .returned site out := by
  rw [hinv.countP_channel fun _ _ _ => Pc.countP_electsFor c, ← Finset.card_filter] at helect
  obtain ⟨l, hl⟩ := Finset.card_eq_one.1 helect
  -- the one elected call of `c` is `l`
  have hmem : ∀ t, t < calls.length ∧ (s.pc t).elected ∧ chanOf calls t = some c ↔ t = l :=
    fun t => by simpa using Finset.ext_iff.1 hl t
  have hlead : ∀ {t}, (s.pc t).elected → chanOf calls t = some c → t = l := fun hel hch => by
    obtain ⟨call, hcall, -⟩ := exists_call_of_chanOf hch
    exact (hmem _).1 ⟨(List.getElem?_eq_some.1 hcall).1, hel, hch⟩
  have hlc := ((hmem l).2 rfl).2
  -- a call of `c` that returned is `l`, or was woken by `l`'s lock
  have hsite : ∀ t site out, chanOf calls t = some c → s.pc t = .returned site out →
      site = .leader ∧ t = l ∨ ∃ l', site = .lockDone l' ∧ l' = l ∧
        out = (s.pc l').lock.outcome := by
    intro t site out hch hpc
    obtain ⟨call, hcall, hcc⟩ := exists_call_of_chanOf hch
    have hlog : ∀ e, e.caller = t → e ∈ (s.pc t).history t call → e ∈ s.log :=
      fun e he hpath => (hinv.mem_log_iff hcall he).2 hpath
    rcases site with _ | l' | _ | _
    · exact .inl ⟨rfl, hlead (by simp [hpc, Pc.elected]) hch⟩
    · obtain ⟨hch', hdone, hout⟩ := hinv.woken t l' out hpc
      exact .inr ⟨l', rfl, hlead (Pc.elected_of_lock_done hdone) (hch'.trans hch), hout⟩
    · have := List.countP_pos_iff.2 ⟨_, hlog (.timerFired t call.channel) rfl
        (by simp [hpc, Pc.history]), show Event.timesOutFor c _ by simp [Event.timesOutFor, hcc]⟩
      omega
    · have := List.countP_pos_iff.2 ⟨_, hlog (.ctxDone t call.channel) rfl
        (by simp [hpc, Pc.history]), show Event.cancelsFor c _ by simp [Event.cancelsFor, hcc]⟩
      omega
  obtain ⟨site₀, out₀, hpc₀⟩ := hall l hlc.2
  obtain rfl : site₀ = .leader := Pc.site_eq_leader (hpc₀ ▸ hlc.1)
  refine ⟨out₀, fun t hch => ?_⟩
  obtain ⟨site, out, hpc⟩ := hall t hch
  rcases hsite t site out hch hpc with ⟨rfl, rfl⟩ | ⟨l', rfl, rfl, hout⟩
  · exact ⟨_, hpc₀⟩
  · exact ⟨_, by rw [hpc, hout, hpc₀]; rfl⟩

/-! ### The parts of the main theorem -/

theorem Inv.woken_pair (hinv : Inv calls s) {t l : Nat} {out : Outcome}
    (hmem : Event.lockDone t l out ∈ s.log)
    (hret : ∀ req, Event.dispatch l req .panicked ∉ s.log) :
    s.pc t = .returned (.lockDone l) out ∧ (s.locks l).outcome = out ∧
      Event.store l out ∈ s.log ∧ s.pc l = .returned .leader out ∧
      ∃ c, chanOf calls t = some c ∧
        s.log.filter (Event.dispatchedBy l) = [.dispatch l ⟨c⟩ (.returned out)] := by
  obtain ⟨_, -, hpath⟩ := hinv.mem_history_of_mem_log hmem
  have hpc : s.pc t = .returned (.lockDone l) out := Pc.lockDone_mem hpath
  obtain ⟨hch, hdone, hout⟩ := hinv.woken t l out hpc
  obtain ⟨call, hcall⟩ : ∃ call, calls[l]? = some call :=
    Option.ne_none_iff_exists'.1 fun hnone => by simp [hinv.started l hnone, Pc.lock] at hdone
  have hlog : ∀ e, e.caller = l → e ∈ (s.pc l).history l call → e ∈ s.log :=
    fun e he hpath => (hinv.mem_log_iff hcall he).2 hpath
  have hpcl := (Pc.lock_done_cases hdone).resolve_right fun hp => hret _
    (hlog (.dispatch l ⟨call.channel⟩ .panicked) rfl (by simp [hp, Pc.history, Pc.wonHistory]))
  rw [← hout] at hpcl
  refine ⟨hpc, by rw [hinv.locks l, hpcl]; rfl,
    hlog _ rfl (by simp [hpcl, Pc.history, Pc.wonHistory]), hpcl, call.channel,
    hch.symm.trans (chanOf_eq hcall), ?_⟩
  rw [hinv.filter_log fun _ => Event.caller_of_dispatchedBy]
  simp [historyOf, hcall, hpcl, Pc.history, Pc.wonHistory, Event.dispatchedBy, List.filter_cons]

theorem Inv.dispatch_of_mem (hinv : Inv calls s) {t : Nat} {req : NotifyCacheEmptyRequest}
    {ret : Completion} (hmem : Event.dispatch t req ret ∈ s.log) :
    chanOf calls t = some req.channel ∧
      (Event.loadOrStore t req.channel false ∈ s.log ∨ Event.timerFired t req.channel ∈ s.log) := by
  obtain ⟨call, hcall, hpath⟩ := hinv.mem_history_of_mem_log hmem
  simp only [Event.caller] at hcall hpath
  obtain ⟨hreq, hwon | htimer⟩ := Pc.dispatch_mem hpath <;> rw [hreq]
  · exact ⟨chanOf_eq hcall, .inl ((hinv.mem_log_iff hcall (by rfl)).2 hwon)⟩
  · exact ⟨chanOf_eq hcall, .inr ((hinv.mem_log_iff hcall (by rfl)).2 htimer)⟩

theorem Inv.countP_dispatchedBy_of_woken (hinv : Inv calls s) {t : Nat}
    (hwoken : (∃ l out, Event.lockDone t l out ∈ s.log) ∨ ∃ c, Event.ctxDone t c ∈ s.log) :
    s.log.countP (Event.dispatchedBy t) = 0 := by
  have hnot : (s.pc t).dispatched = false := by
    rcases hwoken with ⟨l, out, hmem⟩ | ⟨c, hmem⟩
    · obtain ⟨_, -, hpath⟩ := hinv.mem_history_of_mem_log hmem
      exact Pc.not_dispatched_of_woken (.inl ⟨l, out, hpath⟩)
    · obtain ⟨_, -, hpath⟩ := hinv.mem_history_of_mem_log hmem
      exact Pc.not_dispatched_of_woken (.inr ⟨c, hpath⟩)
  simp [hinv.countP_dispatchedBy, hnot]

theorem Inv.one_dispatch_of_one_election (hinv : Inv calls s) {c : String}
    (helect : s.log.countP (Event.electsFor c) = 1)
    (htimer : s.log.countP (Event.timesOutFor c) = 0)
    (hall : ∀ t, chanOf calls t = some c → ∃ site out, s.pc t = .returned site out) :
    s.log.countP (Event.dispatchesFor c) = 1 := by
  have hawait : awaitingDispatch calls s c = 0 := by
    rw [awaitingDispatch, Finset.card_eq_zero, Finset.filter_eq_empty_iff]
    rintro t - ⟨hawait, hch⟩
    obtain ⟨site, out, hpc⟩ := hall t hch
    simp [hpc, Pc.awaitsDispatch] at hawait
  have := hinv.dispatch_accounting c
  omega

/-- A channel whose other calls all ran their `LoadOrStore` while its first leader's lock was in
the map had that one election. -/
theorem Inv.one_election_of_arrivals (hinv : Inv calls s) (hord : Ordered WonWhenFree s.log)
    {c : String} {l : Nat} (hfirst : Event.loadOrStore l c false ∈ s.log)
    (harrive : ∀ t, chanOf calls t = some c → t ≠ l → ∃ pre b post,
      s.log = pre ++ Event.loadOrStore t c b :: post ∧ Event.loadOrStore l c false ∈ pre ∧
        ∀ c' r, Event.delete l c' r ∉ pre) :
    s.log.countP (Event.electsFor c) = 1 := by
  obtain ⟨hlc, hl⟩ := hinv.loadOrStore_of_mem hfirst
  -- any other elected call of `c` won a `LoadOrStore` while `l` had not deleted
  have hother : ∀ u ∈ Finset.range calls.length, u ≠ l →
      (if (s.pc u).elected ∧ chanOf calls u = some c then 1 else 0) = 0 := by
    refine fun u _ hu => if_neg fun ⟨hel, hcu⟩ => ?_
    obtain ⟨pre, b, post, hlog, hwon, hdel⟩ := harrive u hcu hu
    have hmem : Event.loadOrStore u c b ∈ s.log := by rw [hlog]; simp
    have hb := (hinv.loadOrStore_of_mem hmem).2
    obtain ⟨c', r, hd⟩ := hord pre _ post hlog u l c (by rw [hb.2 hel]) hwon
    exact hdel c' r hd
  obtain ⟨call, hcall, -⟩ := exists_call_of_chanOf hlc
  rw [hinv.countP_channel fun _ _ _ => Pc.countP_electsFor c,
    Finset.sum_eq_single_of_mem l (Finset.mem_range.2 (List.getElem?_eq_some.1 hcall).1) hother,
    if_pos ⟨hl.1 rfl, hlc⟩]

/-- **One result.** In every interleaving of any calls on any channels:

* a follower woken by `lock.done` on lock `l`, when `l`'s creator's own proxy call did not panic,
  returns the pair that the creator stored in the lock and itself returned, and that pair is what
  the creator's one `handleCacheEmpty` call, with a request for the follower's channel, returned;
* every call dispatches at most once, with a request for its own channel, and only after winning
  its `LoadOrStore` or after its timer fired; a call that left through `lock.done` or
  `ctx.Done()` made no dispatch;
* for each channel, the dispatches plus the calls about to dispatch are the elections plus the
  time-outs;
* when every other call of a channel ran its `LoadOrStore` after the first leader's winning one
  and before that leader's `Delete`, no call of the channel timed out or was cancelled, and all
  its calls returned, it had one dispatch and all its calls returned the same pair. -/
theorem handle_shares_one_dispatch {labels : List (Label P)}
    (hrun : run h calls init labels = some s) :
    (∀ t l out, Event.lockDone t l out ∈ s.log →
      (∀ req, Event.dispatch l req .panicked ∉ s.log) →
      s.pc t = .returned (.lockDone l) out ∧ (s.locks l).outcome = out ∧
        Event.store l out ∈ s.log ∧ s.pc l = .returned .leader out ∧
        ∃ c, chanOf calls t = some c ∧
          s.log.filter (Event.dispatchedBy l) = [.dispatch l ⟨c⟩ (.returned out)]) ∧
    (∀ t, s.log.countP (Event.dispatchedBy t) ≤ 1) ∧
    (∀ t req ret, Event.dispatch t req ret ∈ s.log → chanOf calls t = some req.channel ∧
      (Event.loadOrStore t req.channel false ∈ s.log ∨ Event.timerFired t req.channel ∈ s.log)) ∧
    (∀ t, ((∃ l out, Event.lockDone t l out ∈ s.log) ∨ ∃ c, Event.ctxDone t c ∈ s.log) →
      s.log.countP (Event.dispatchedBy t) = 0) ∧
    (∀ c, s.log.countP (Event.dispatchesFor c) + awaitingDispatch calls s c =
      s.log.countP (Event.electsFor c) + s.log.countP (Event.timesOutFor c)) ∧
    (∀ c l, Event.loadOrStore l c false ∈ s.log →
      (∀ t, chanOf calls t = some c → t ≠ l → ∃ pre b post,
        s.log = pre ++ Event.loadOrStore t c b :: post ∧ Event.loadOrStore l c false ∈ pre ∧
          ∀ c' r, Event.delete l c' r ∉ pre) →
      s.log.countP (Event.timesOutFor c) = 0 → s.log.countP (Event.cancelsFor c) = 0 →
      (∀ t, chanOf calls t = some c → ∃ site out, s.pc t = .returned site out) →
      s.log.countP (Event.dispatchesFor c) = 1 ∧
        ∃ out, ∀ t, chanOf calls t = some c → ∃ site, s.pc t = .returned site out) := by
  have hinv := inv_of_runWith hrun
  have hwon := (runWith_induction (fun hinv hord _ hs => Step.wonWhenFree hinv hord hs)
    (inv_init calls) (ordered_nil _) hrun).2
  refine ⟨fun _ _ _ => hinv.woken_pair, fun t => by rw [hinv.countP_dispatchedBy]; split <;> omega,
    fun _ _ _ => hinv.dispatch_of_mem, fun _ => hinv.countP_dispatchedBy_of_woken,
    hinv.dispatch_accounting, fun _ _ hfirst harrive htimer hcancel hall => ?_⟩
  have helect := hinv.one_election_of_arrivals hwon hfirst harrive
  exact ⟨hinv.one_dispatch_of_one_election helect htimer hall,
    hinv.returned_same_of_one_election helect htimer hcancel hall⟩

/-- On the package's test setting, call 1 runs its `LoadOrStore` while call 0's lock is in the
map: one dispatch, and both calls return the same pair. -/
theorem handle_shares_one_dispatch_test :
    ∃ s, run testHandler testCalls init
        (followerWokenRun (.returned ⟨some ⟨some ⟨true⟩⟩, none⟩)) = some s ∧
      s.log.countP (Event.dispatchesFor "test:channel") = 1 ∧
      ∃ out, ∀ t, chanOf testCalls t = some "test:channel" →
        ∃ site, s.pc t = .returned site out := by
  obtain ⟨s, hs, hlog, h0, h1⟩ : ∃ s, run testHandler testCalls init
      (followerWokenRun (.returned ⟨some ⟨some ⟨true⟩⟩, none⟩)) = some s ∧
      s.log = [.loadOrStore 0 "test:channel" false, .loadOrStore 1 "test:channel" true,
        .dispatch 0 ⟨"test:channel"⟩ (.returned ⟨some ⟨some ⟨true⟩⟩, none⟩),
        .store 0 ⟨some ⟨some ⟨true⟩⟩, none⟩, .delete 0 "test:channel" (some 0), .close 0 0,
        .lockDone 1 0 ⟨some ⟨some ⟨true⟩⟩, none⟩] ∧
      s.pc 0 = .returned .leader ⟨some ⟨some ⟨true⟩⟩, none⟩ ∧
      s.pc 1 = .returned (.lockDone 0) ⟨some ⟨some ⟨true⟩⟩, none⟩ := ⟨_, rfl, rfl, rfl, rfl⟩
  have harrive : ∀ t, chanOf testCalls t = some "test:channel" → t ≠ 0 → ∃ pre b post,
      s.log = pre ++ Event.loadOrStore t "test:channel" b :: post ∧
        Event.loadOrStore 0 "test:channel" false ∈ pre ∧
        ∀ c' r, Event.delete 0 c' r ∉ pre := fun t ht ht0 => by
    rcases t with _ | _ | t
    · exact absurd rfl ht0
    · exact ⟨[.loadOrStore 0 "test:channel" false], true, _, by rw [hlog]; rfl, by simp, by simp⟩
    · simp [chanOf, testCalls] at ht
  have hall : ∀ t, chanOf testCalls t = some "test:channel" →
      ∃ site out, s.pc t = .returned site out := fun t ht => by
    rcases t with _ | _ | t
    · exact ⟨_, _, h0⟩
    · exact ⟨_, _, h1⟩
    · simp [chanOf, testCalls] at ht
  exact ⟨s, hs, (handle_shares_one_dispatch hs).2.2.2.2.2 "test:channel" 0 (by simp [hlog])
    harrive (by rw [hlog]; rfl) (by rw [hlog]; rfl) hall⟩

end CentrifugoProxy
