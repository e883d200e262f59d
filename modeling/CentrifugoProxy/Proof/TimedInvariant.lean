import CentrifugoProxy.Timed
import CentrifugoProxy.Proof.Progress

/-!
# The timed invariant

Two budgets carry the timing. A call that has run its `LoadOrStore` has a time left to it,
`Pc.remaining`, the most its position may still take: for a leader its proxy call and the three
statements after it, for a follower its `select` and, if the timer fires, its own proxy call. The
time a call reached its position plus what remains never passes its arrival plus
`lockTimeout + proxy + 3 · slack` (`TimedInv.budget`). A follower in the `select` also holds its
leader to the leader's budget, measured from the follower's own arrival: the leader was already in
its proxy call then, so its lock closes within `proxy + 3 · slack` of it
(`TimedInv.leaderBudget`).

A step moves one call out of a position whose bound it kept, to one that needs no more than what
was left (`Moves`); the budgets follow from that alone. The untimed invariant is a field of the
timed one, so what it says holds with the clock too.
-/

namespace CentrifugoProxy

variable {P : Type}

namespace Pc

variable (lockTimeout : Nat) (tm : Timing)

/-- How long a call may stay at a position, as `TimedState.onTime` bounds it. -/
def limit : Pc → Nat
  | .dispatching | .fallingBack => tm.proxy
  | .storing _ | .deleting _ | .closing _ => tm.slack
  | .selecting _ => lockTimeout + tm.slack
  | _ => 0

/-- The most a call at a position may still take before it returns or panics. -/
def remaining : Pc → Nat
  | .dispatching => tm.proxy + 3 * tm.slack
  | .storing _ => 3 * tm.slack
  | .deleting _ => 2 * tm.slack
  | .closing _ => tm.slack
  | .selecting _ => lockTimeout + tm.slack + tm.proxy
  | .fallingBack => tm.proxy
  | _ => 0

def bounded : Pc → Bool
  | .start | .returned _ _ | .panicked _ => false
  | _ => true

variable {lockTimeout tm}

theorem limit_le_remaining (pc : Pc) : pc.limit lockTimeout tm ≤ pc.remaining lockTimeout tm := by
  cases pc <;> simp only [limit, remaining] <;> omega

theorem remaining_le_of_elected {pc : Pc} (hel : pc.elected) :
    pc.remaining lockTimeout tm ≤ tm.proxy + 3 * tm.slack := by
  rcases pc with _ | _ | _ | _ | _ | _ | _ | ⟨(_ | _ | _ | _), _⟩ | (_ | _ | _ | _) <;>
    simp_all [elected, remaining] <;> omega

theorem bounded_of_elected {pc : Pc} (hel : pc.elected) (hopen : pc.lock.done = false) :
    pc.bounded := by
  rcases pc with _ | _ | _ | _ | _ | _ | _ | ⟨(_ | _ | _ | _), _⟩ | (_ | _ | _ | _) <;>
    simp_all [elected, lock, bounded]

theorem bounded_iff {pc : Pc} : pc.bounded ↔ pc ≠ .start ∧ pc.finished = false := by
  cases pc <;> simp [bounded, finished]

theorem remaining_of_finished {pc : Pc} (hfin : pc.finished) : pc.remaining lockTimeout tm = 0 := by
  cases pc <;> simp_all [remaining, finished]

end Pc

/-! ### The bounds at one instant -/

namespace TimedState

variable {h : CacheEmptyHandler P} {tm : Timing} {ts ts' : TimedState} {t : Nat}

theorem now_le_limit (hon : ts.onTime h tm t) (hb : (ts.state.pc t).bounded) :
    ts.now ≤ ts.since t + (ts.state.pc t).limit h.lockTimeout.toNat tm := by
  unfold onTime at hon
  rcases hpc : ts.state.pc t with _ | _ | _ | _ | _ | _ | _ | _ | _ <;>
    simp_all [Pc.bounded, Pc.limit, Nat.add_assoc]

theorem onTime_of_since_eq (hsince : ts.since t = ts.now)
    (hopen : ∀ l, ts.state.pc t = .selecting l → (ts.state.locks l).done = false) :
    ts.onTime h tm t := by
  unfold onTime
  rcases hpc : ts.state.pc t with _ | _ | _ | _ | _ | l | _ | _ | _ <;> simp [hsince]
  simp [hopen l hpc, Nat.add_assoc]

theorem onTime_frame (hon : ts.onTime h tm t) (hnow : ts'.now = ts.now)
    (hpc : ts'.state.pc t = ts.state.pc t) (hsince : ts'.since t = ts.since t)
    (hlock : ∀ l, ts.state.pc t = .selecting l →
      (ts'.state.locks l).done = (ts.state.locks l).done ∧ ts'.since l = ts.since l ∨
        ts'.since l = ts'.now) : ts'.onTime h tm t := by
  unfold onTime at hon ⊢
  rw [hpc, hnow, hsince]
  cases hp : ts.state.pc t
  case selecting l =>
    simp only [hp] at hon ⊢
    rcases hlock l hp with ⟨hdone, hl⟩ | hl
    · rwa [hdone, hl]
    · simp_all
  case start | returned | panicked => rfl
  all_goals simpa [hp] using hon

end TimedState

/-! ### What a step does to the clock -/

/-- A step from `s` to `s'` moves call `t` out of a position it has to leave in time, to one that
needs no more than what was left, and changes no other call's position and no other lock. -/
structure Moves (t : Nat) (s s' : State) : Prop where
  pc : ∀ u ≠ t, s'.pc u = s.pc u
  locks : ∀ l ≠ t, s'.locks l = s.locks l
  bounded : (s.pc t).bounded
  not_selecting : ∀ l, s'.pc t ≠ .selecting l
  remaining : ∀ lockTimeout tm,
    (s'.pc t).remaining lockTimeout tm + (s.pc t).limit lockTimeout tm ≤
      (s.pc t).remaining lockTimeout tm

variable {h : CacheEmptyHandler P} {calls : List HandleCall} {tm : Timing} {s s' : State}
  {t : Nat} {call : HandleCall}

theorem Moves.advance {s₀ : State} {pc : Pc} {e : Event} (hpc : s₀.pc = s.pc)
    (hlocks : ∀ l ≠ t, s₀.locks l = s.locks l) (hb : (s.pc t).bounded)
    (hsel : ∀ l, pc ≠ .selecting l)
    (hrem : ∀ lockTimeout tm, pc.remaining lockTimeout tm + (s.pc t).limit lockTimeout tm ≤
      (s.pc t).remaining lockTimeout tm) :
    Moves t s (s₀.advance t pc e) where
  pc u hu := by simp [Function.update_noteq hu, hpc]
  locks := hlocks
  bounded := hb
  not_selecting := by simpa using hsel
  remaining := by simpa using hrem

/-- **Moves.** Every step of a call other than its `LoadOrStore` moves it as `Moves` says. -/
theorem Step.moves (hinv : Inv calls s) {a : Label P} (hs : Step h calls s a s')
    (ht : a.caller = some t) (hload : a ≠ .getOrCreateLock t) : Moves t s s' := by
  cases hs with
  | getOrCreateLock => obtain rfl := Option.some.inj ht; exact absurd rfl hload
  | cancel => simp [Label.caller] at ht
  | dispatch _ _ hd =>
      obtain rfl := Option.some.inj ht
      unfold State.dispatch at hd
      split at hd <;> cases hd <;>
        exact Moves.advance rfl (fun _ _ => rfl) (by simp [*, Pc.bounded]) (by simp)
          fun _ _ => by simp only [*, Pc.remaining, Pc.limit]; omega
  | close hcall hpc =>
      rename_i ret
      obtain rfl := Option.some.inj ht
      simp only [State.close, hinv.open_of_closing hpc, Bool.false_eq_true, if_false]
      cases ret <;>
        exact Moves.advance rfl (fun _ hl => Function.update_noteq hl _ _)
          (by simp [hpc, Pc.bounded]) (by simp)
          fun _ _ => by simp only [hpc, Pc.remaining, Pc.limit]; omega
  | store _ hpc | delete _ hpc | lockDone _ hpc | timerFired _ hpc | ctxDone _ hpc =>
      obtain rfl := Option.some.inj ht
      exact Moves.advance rfl (fun _ hl => by simp [Function.update_noteq hl])
        (by simp [hpc, Pc.bounded]) (by simp)
        fun _ _ => by simp only [hpc, Pc.remaining, Pc.limit]; omega

theorem Inv.getOrCreateLock_moves (hinv : Inv calls s) (t : Nat) (call : HandleCall) :
    (∀ u ≠ t, (s.getOrCreateLock t call).pc u = s.pc u) ∧
      (s.getOrCreateLock t call).locks = s.locks ∧
      ((s.getOrCreateLock t call).pc t = .dispatching ∨
        ∃ l, (s.getOrCreateLock t call).pc t = .selecting l ∧ (s.pc l).leading) := by
  unfold State.getOrCreateLock
  split
  · rename_i l hl
    exact ⟨fun u hu => by simp [Function.update_noteq hu], rfl,
      .inr ⟨l, by simp, (hinv.leading_of_channelLocks hl).1⟩⟩
  · exact ⟨fun u hu => by simp [Function.update_noteq hu], rfl, .inl (by simp)⟩

/-! ### The timed invariant -/

variable (h calls tm) in
/-- The invariant of the timed runs: the untimed one, every call on time, and the two budgets. -/
structure TimedInv (ts : TimedState) : Prop where
  inv : Inv calls ts.state
  since_le : ∀ t, ts.since t ≤ ts.now
  onTime : ∀ t, ts.onTime h tm t
  /-- A follower in the `select` armed its timer at its `LoadOrStore`. -/
  armed : ∀ t l, ts.state.pc t = .selecting l → ts.since t = ts.arrived t
  /-- A call returns within `lockTimeout + proxy + 3 · slack` of its `LoadOrStore`. -/
  budget : ∀ t, ts.state.pc t ≠ .start →
    ts.since t + (ts.state.pc t).remaining h.lockTimeout.toNat tm ≤
      ts.arrived t + (h.lockTimeout.toNat + tm.proxy + 3 * tm.slack)
  /-- A follower's leader closes its lock within `proxy + 3 · slack` of the follower's
  `LoadOrStore`. -/
  leaderBudget : ∀ t l, ts.state.pc t = .selecting l →
    ts.since l + (ts.state.pc l).remaining h.lockTimeout.toNat tm ≤
      ts.since t + (tm.proxy + 3 * tm.slack)

variable {ts : TimedState}

theorem timedInv_init : TimedInv h calls tm TimedState.init where
  inv := inv_init calls
  since_le _ := le_rfl
  onTime _ := rfl
  armed _ _ h := by cases h
  budget _ h := absurd rfl h
  leaderBudget _ _ h := by cases h

theorem TimedInv.tick (hinv : TimedInv h calls tm ts) {d : Nat}
    (hon : ∀ t < calls.length, (ts.tick d).onTime h tm t) : TimedInv h calls tm (ts.tick d) where
  inv := hinv.inv
  since_le t := (hinv.since_le t).trans (Nat.le_add_right _ _)
  onTime t := by
    by_cases ht : t < calls.length
    · exact hon t ht
    · simp [TimedState.onTime, TimedState.tick,
        hinv.inv.started t (List.getElem?_eq_none (Nat.le_of_not_lt ht))]
  armed := hinv.armed
  budget := hinv.budget
  leaderBudget := hinv.leaderBudget

theorem TimedInv.cancel (hinv : TimedInv h calls tm ts) (ctx : Nat) :
    TimedInv h calls tm (ts.moved (.cancel ctx : Label P)
      { ts.state with ctxDone := Function.update ts.state.ctxDone ctx true }) :=
  { hinv with inv := hinv.inv.cancel ctx }

theorem TimedInv.now_add_remaining_le (hinv : TimedInv h calls tm ts) (hm : Moves t ts.state s') :
    ts.now + (s'.pc t).remaining h.lockTimeout.toNat tm ≤
      ts.since t + (ts.state.pc t).remaining h.lockTimeout.toNat tm := by
  have hlim := TimedState.now_le_limit (hinv.onTime t) hm.bounded
  have hrem := hm.remaining h.lockTimeout.toNat tm
  omega

theorem TimedInv.move (hinv : TimedInv h calls tm ts) (hs' : Inv calls s')
    (hm : Moves t ts.state s') :
    TimedInv h calls tm { ts with state := s', since := Function.update ts.since t ts.now } where
  inv := hs'
  since_le u := by
    rcases eq_or_ne u t with rfl | hu
    · simp
    · simpa [Function.update_noteq hu] using hinv.since_le u
  onTime u := by
    rcases eq_or_ne u t with rfl | hu
    · exact TimedState.onTime_of_since_eq (by simp) fun l hl => absurd hl (hm.not_selecting l)
    · refine TimedState.onTime_frame (hinv.onTime u) rfl (hm.pc u hu)
        (Function.update_noteq hu _ _) fun l _ => ?_
      rcases eq_or_ne l t with rfl | hl
      · exact .inr (by simp)
      · exact .inl ⟨by rw [hm.locks l hl], Function.update_noteq hl _ _⟩
  armed u l hu := by
    rcases eq_or_ne u t with rfl | hne
    · exact absurd hu (hm.not_selecting l)
    · rw [hm.pc u hne] at hu
      simpa [Function.update_noteq hne] using hinv.armed u l hu
  budget u hu := by
    rcases eq_or_ne u t with rfl | hne
    · have hstart : ts.state.pc u ≠ .start := fun h0 => by
        simpa [h0, Pc.bounded] using hm.bounded
      have := hinv.budget u hstart
      have := hinv.now_add_remaining_le hm
      simp only [Function.update_same]
      omega
    · simp only [hm.pc u hne, Function.update_noteq hne] at hu ⊢
      exact hinv.budget u hu
  leaderBudget u l hu := by
    have hne : u ≠ t := by rintro rfl; exact hm.not_selecting l hu
    rw [hm.pc u hne] at hu
    have hold := hinv.leaderBudget u l hu
    simp only [Function.update_noteq hne]
    rcases eq_or_ne l t with rfl | hl
    · have := hinv.now_add_remaining_le hm
      simp only [Function.update_same]
      omega
    · simpa [hm.pc l hl, Function.update_noteq hl] using hold

/-- A `LoadOrStore` keeps the invariant: the call arrives now, as a leader with its budget ahead,
or as a follower of a leader that was already in its proxy call. -/
theorem TimedInv.loadOrStore (hinv : TimedInv h calls tm ts) (hcall : calls[t]? = some call)
    (hpc : ts.state.pc t = .start) :
    TimedInv h calls tm
      { ts with state := ts.state.getOrCreateLock t call,
                since := Function.update ts.since t ts.now,
                arrived := Function.update ts.arrived t ts.now } :=
  have ⟨hother, hlocks, hnew⟩ := hinv.inv.getOrCreateLock_moves t call
  -- the lock a call waits on is never the arriving call's
  have hne : ∀ {u l}, ts.state.pc u = .selecting l → l ≠ t := fun hu hl => by
    simpa [hl, hpc, Pc.elected] using (hinv.inv.selecting _ _ hu).1
  -- the arriving call leads, or waits on the lock of a leading call
  have hsel : ∀ {l}, (ts.state.getOrCreateLock t call).pc t = .selecting l →
      (ts.state.pc l).leading := fun hl => by
    obtain ⟨l', hl', hlead⟩ := hnew.resolve_left (by simp [hl])
    obtain rfl := Pc.selecting.inj (hl.symm.trans hl')
    exact hlead
  { inv := hinv.inv.getOrCreateLock hcall hpc
    since_le := fun u => by
      rcases eq_or_ne u t with rfl | hu
      · simp
      · simpa [Function.update_noteq hu] using hinv.since_le u
    onTime := fun u => by
      rcases eq_or_ne u t with rfl | hu
      · exact TimedState.onTime_of_since_eq (by simp) fun l hl => by
          simp [hlocks, hinv.inv.locks, Pc.lock_done_of_leading (hsel hl)]
      · exact TimedState.onTime_frame (hinv.onTime u) rfl (hother u hu)
          (Function.update_noteq hu _ _) fun l hl =>
            .inl ⟨by simp [hlocks], Function.update_noteq (hne hl) _ _⟩
    armed := fun u l hu => by
      rcases eq_or_ne u t with rfl | hne'
      · simp
      · rw [hother u hne'] at hu
        simpa [Function.update_noteq hne'] using hinv.armed u l hu
    budget := fun u hu => by
      rcases eq_or_ne u t with rfl | hne'
      · rcases hnew with hd | ⟨l, hl, -⟩
        · simp only [Function.update_same, hd, Pc.remaining]; omega
        · simp only [Function.update_same, hl, Pc.remaining]; omega
      · simp only [hother u hne', Function.update_noteq hne'] at hu ⊢
        exact hinv.budget u hu
    leaderBudget := fun u l hu => by
      rcases eq_or_ne u t with rfl | hne'
      · have hlead := hsel hu
        have hlu : l ≠ u := fun h0 => by simp [h0, hpc, Pc.leading] at hlead
        have : (ts.state.pc l).remaining h.lockTimeout.toNat tm ≤ tm.proxy + 3 * tm.slack :=
          Pc.remaining_le_of_elected (Pc.leading_elected hlead)
        have := hinv.since_le l
        simp only [Function.update_same, Function.update_noteq hlu, hother l hlu]
        omega
      · rw [hother u hne'] at hu
        simpa [Function.update_noteq hne', Function.update_noteq (hne hu), hother l (hne hu)]
          using hinv.leaderBudget u l hu }

theorem TimedInv.act (hinv : TimedInv h calls tm ts) {a : Label P}
    (hs : Step h calls ts.state a s') : TimedInv h calls tm (ts.moved a s') := by
  have hinv' := hinv.inv.of_step hs
  cases a
  case getOrCreateLock t =>
    cases hs with
    | getOrCreateLock hcall hpc => exact hinv.loadOrStore hcall hpc
  case cancel ctx =>
    cases hs
    exact hinv.cancel ctx
  all_goals exact hinv.move hinv' (hs.moves hinv.inv rfl (by simp))

theorem TimedState.moved_state (ts : TimedState) (a : Label P) (s : State) :
    (ts.moved a s).state = s := by
  cases a <;> rfl

variable [DecidableEq P]

/-- What a timed step can do: a step of the handler that is ready now, with the clock of the call
it moves, or time passing while every call stays on time. -/
theorem timedStep_cases {x : TimedLabel P} {ts' : TimedState}
    (hs : timedStep h calls tm ts x = some ts') :
    (∃ a s', x = .act a ∧ ts.ready h a ∧ step h calls ts.state a = some s' ∧
      ts' = ts.moved a s') ∨
    ∃ d, x = .tick d ∧ (∀ t < calls.length, (ts.tick d).onTime h tm t) ∧
      ts' = ts.tick d := by
  cases x with
  | act a =>
      simp only [timedStep] at hs
      split at hs
      next hready =>
        obtain ⟨s', hs', rfl⟩ := Option.map_eq_some'.1 hs
        exact .inl ⟨a, s', rfl, hready, hs', rfl⟩
      next => cases hs
  | tick d =>
      simp only [timedStep] at hs
      split at hs
      next hall =>
        cases hs
        exact .inr ⟨d, rfl, fun t ht => List.all_eq_true.1 hall t (List.mem_range.2 ht),
          rfl⟩
      next => cases hs

/-- **Step.** Every timed step keeps the invariant. -/
theorem TimedInv.of_timedStep (hinv : TimedInv h calls tm ts) {x : TimedLabel P}
    {ts' : TimedState} (hs : timedStep h calls tm ts x = some ts') : TimedInv h calls tm ts' := by
  rcases timedStep_cases hs with ⟨a, s', -, -, hs', rfl⟩ | ⟨d, -, hon, rfl⟩
  · exact hinv.act (Step.of_step hs')
  · exact hinv.tick hon

/-- **Runs.** A property that holds at `ts` and that every timed step keeps, in a state where the
invariant holds, holds after every timed run from `ts`. -/
theorem timedRun_induction {Q : TimedState → Prop}
    (hstep : ∀ {ts x ts'}, TimedInv h calls tm ts → Q ts →
      timedStep h calls tm ts x = some ts' → Q ts')
    (hinv : TimedInv h calls tm ts) (hQ : Q ts) {labels : List (TimedLabel P)} {ts' : TimedState}
    (hrun : timedRun h calls tm ts labels = some ts') : TimedInv h calls tm ts' ∧ Q ts' := by
  induction labels generalizing ts with
  | nil => cases hrun; exact ⟨hinv, hQ⟩
  | cons x labels ih =>
      obtain ⟨ts₁, hs₁, hrun⟩ := Option.bind_eq_some.mp hrun
      exact ih (hinv.of_timedStep hs₁) (hstep hinv hQ hs₁) hrun

theorem timedInv_of_timedRun {labels : List (TimedLabel P)}
    (hrun : timedRun h calls tm TimedState.init labels = some ts) : TimedInv h calls tm ts :=
  (timedRun_induction (fun _ _ _ => trivial) timedInv_init trivial hrun).1

end CentrifugoProxy
