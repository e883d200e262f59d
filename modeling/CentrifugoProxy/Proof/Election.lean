import CentrifugoProxy.Proof.Lifecycle

/-!
# Leader election

Which call leads is decided by the map alone. A call's `LoadOrStore` loads exactly when another
call of its channel has won its own and not yet run its `Delete`, and the lock it then waits on is
that call's. So a call never waits on, or wakes on, a lock of another channel, and a call whose
`LoadOrStore` comes after the last leader's `Delete` leads itself, with a fresh lock, instead of
reusing the old result.
-/

namespace CentrifugoProxy

theorem Pc.lockDone_mem {pc : Pc} {t : Nat} {call : HandleCall} {t' l : Nat} {out : Outcome}
    (hmem : .lockDone t' l out ∈ pc.history t call) : pc = .returned (.lockDone l) out := by
  rcases pc with _ | _ | out | (_ | out) | (_ | out) | lock | _ |
    ⟨(_ | lock | _ | _), out⟩ | (_ | lock | _ | _) <;>
    simp_all [Pc.history, Pc.wonHistory]

theorem State.getOrCreateLock_pc_self (s : State) (t : Nat) (call : HandleCall) :
    (s.getOrCreateLock t call).pc t =
      match s.channelLocks call.channel with
      | some l => .selecting l
      | none => .dispatching := by
  unfold State.getOrCreateLock; split <;> simp_all

variable {P : Type} [DecidableEq P] {h : CacheEmptyHandler P} {calls : List HandleCall}
  {s : State}

theorem Inv.lockDone_of_mem (hinv : Inv calls s) {t l : Nat} {out : Outcome}
    (hmem : .lockDone t l out ∈ s.log) :
    chanOf calls l = chanOf calls t ∧ (s.pc l).lock.done := by
  obtain ⟨call, -, hpath⟩ := hinv.mem_history_of_mem_log hmem
  obtain ⟨hch, hdone, -⟩ := hinv.woken _ _ _ (Pc.lockDone_mem hpath)
  exact ⟨hch, hdone⟩

/-- **Leader election.** In every reachable state, the `LoadOrStore` of a call `t` of channel
`c` makes it a follower of lock `l` exactly when `l` is another call that won its `LoadOrStore`
for `c` and has not run its `Delete`; it makes `t` a leader, with its own fresh lock now in the
map, exactly when no such call exists. Every waiting call waits on a lock of its own channel, and
every call woken by `lock.done` was woken by a closed lock of its own channel. -/
theorem getOrCreateLock_follows_leader_in_flight {labels : List (Label P)}
    (hrun : run h calls init labels = some s) :
    (∀ t call s', calls[t]? = some call → s.pc t = .start →
      step h calls s (.getOrCreateLock t) = some s' →
      (∀ l, s'.pc t = .selecting l ↔ l ≠ t ∧
        Event.loadOrStore l call.channel false ∈ s.log ∧ ∀ c r, Event.delete l c r ∉ s.log) ∧
      (s'.pc t = .dispatching ↔ ∀ l,
        ¬(Event.loadOrStore l call.channel false ∈ s.log ∧ ∀ c r, Event.delete l c r ∉ s.log)) ∧
      (s'.pc t = .dispatching →
        s'.locks t = ChannelLock.new ∧ s'.channelLocks call.channel = some t)) ∧
    (∀ t l, s.pc t = .selecting l → chanOf calls l = chanOf calls t) ∧
    (∀ t l out, Event.lockDone t l out ∈ s.log →
      chanOf calls l = chanOf calls t ∧ (s.locks l).done = true) := by
  have hinv := inv_of_runWith hrun
  refine ⟨fun t call s' hcall hstart hstep => ?_, fun t l hsel => (hinv.selecting t l hsel).2,
    fun t l out hmem => by rw [hinv.locks l]; exact hinv.lockDone_of_mem hmem⟩
  obtain rfl : s' = s.getOrCreateLock t call := by
    cases Step.of_step hstep with
    | getOrCreateLock hcall' _ => rw [hcall] at hcall'; cases hcall'; rfl
  have hwon : ∀ l, (Event.loadOrStore l call.channel false ∈ s.log ∧
      ∀ c r, Event.delete l c r ∉ s.log) ↔ s.channelLocks call.channel = some l :=
    fun l => hinv.won_iff.trans (hinv.channelLocks _ l).symm
  simp only [hwon, State.getOrCreateLock_pc_self]
  rcases hmap : s.channelLocks call.channel with _ | l
  · -- no call of the channel is in flight: `t` leads, with its own new lock
    refine ⟨fun l => by simp, by simp, fun _ => ⟨?_, ?_⟩⟩
    · simp [State.getOrCreateLock, hmap, hinv.locks t, hstart, Pc.lock]
    · simp [State.getOrCreateLock, hmap]
  · -- the lock in the map is that of the one call in flight, which is not `t`
    have hne : l ≠ t := by
      rintro rfl
      simpa [hstart, Pc.leading] using (hinv.leading_of_channelLocks hmap).1
    refine ⟨fun l' => ?_, by simp, by simp⟩
    constructor
    · rintro ⟨⟩; exact ⟨hne, rfl⟩
    · rintro ⟨-, ⟨⟩⟩; rfl

/-- Election on the package's test setting: after call 0 leads, call 1 follows its lock. -/
theorem getOrCreateLock_follows_leader_in_flight_test :
    ∃ s, run testHandler testCalls init [.getOrCreateLock 0, .getOrCreateLock 1] = some s ∧
      ∀ t l, s.pc t = .selecting l → chanOf testCalls l = chanOf testCalls t := by
  obtain ⟨s, hs⟩ : ∃ s, run testHandler testCalls init
      [.getOrCreateLock 0, .getOrCreateLock 1] = some s := ⟨_, rfl⟩
  exact ⟨s, hs, (getOrCreateLock_follows_leader_in_flight hs).2.1⟩

/-! ### Elections over a run

A `LoadOrStore` wins only when every earlier winner of its channel has run its `Delete`. On the
log this is an `Ordered` fact, and it is what makes a channel's calls that all arrive while its
first leader's lock is in the map elect that leader alone. -/

theorem Pc.loadOrStore_mem {pc : Pc} {t t' : Nat} {call : HandleCall} {c : String} {b : Bool}
    (hmem : .loadOrStore t' c b ∈ pc.history t call) :
    c = call.channel ∧ (b = false ↔ pc.elected) := by
  rcases pc with _ | _ | out | (_ | out) | (_ | out) | lock | _ |
    ⟨(_ | lock | _ | _), out⟩ | (_ | lock | _ | _) <;>
    simp_all [Pc.history, Pc.wonHistory, Pc.elected]

theorem Inv.loadOrStore_of_mem (hinv : Inv calls s) {t : Nat} {c : String} {b : Bool}
    (hmem : .loadOrStore t c b ∈ s.log) :
    chanOf calls t = some c ∧ (b = false ↔ (s.pc t).elected) := by
  obtain ⟨call, hcall, hpath⟩ := hinv.mem_history_of_mem_log hmem
  obtain ⟨rfl, hb⟩ := Pc.loadOrStore_mem hpath
  exact ⟨chanOf_eq hcall, hb⟩

/-- When a `LoadOrStore` wins, each earlier winner of its channel has run its `Delete`. -/
def WonWhenFree (pre : List Event) (e : Event) : Prop :=
  ∀ t l c, e = .loadOrStore t c false → .loadOrStore l c false ∈ pre →
    ∃ c' r, .delete l c' r ∈ pre

omit [DecidableEq P] in
theorem Step.wonWhenFree {a : Label P} {s' : State} (hinv : Inv calls s)
    (hord : Ordered WonWhenFree s.log) (hs : Step h calls s a s') : Ordered WonWhenFree s'.log := by
  cases hs with
  | getOrCreateLock =>
      rw [State.getOrCreateLock_log]
      refine ordered_append.2 ⟨hord, ?_⟩
      -- the map is empty under the channel, so no earlier winner of it is still in flight
      rintro t l c heq hwon
      obtain ⟨rfl, rfl, hnone⟩ := Event.loadOrStore.inj heq
      by_contra hdel
      push_neg at hdel
      simp [(hinv.channelLocks _ l).2 (hinv.won_iff.1 ⟨hwon, hdel⟩)] at hnone
  | dispatch _ _ hs =>
      rw [State.dispatch_log hs]
      exact ordered_append.2 ⟨hord, by simp [WonWhenFree]⟩
  | close _ hpc =>
      rw [State.close_log _ _ (hinv.open_of_closing hpc)]
      exact ordered_append.2 ⟨hord, by simp [WonWhenFree]⟩
  | cancel => exact hord
  | _ => exact ordered_append.2 ⟨hord, by simp [WonWhenFree]⟩

end CentrifugoProxy
