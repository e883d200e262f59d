import CentrifugoProxy.Handler

/-!
# The handler against a clock

The untimed model lets a waiting call's timer fire at any step. Here the same steps run against a
clock, so that what `LockTimeout` is for can be said: `time.NewTimer(h.lockTimeout)` fires no
earlier than `lockTimeout` after the follower armed it, at its `LoadOrStore`.

Time is not under the program's control, so what the code does not decide is a bound, `Timing`:

* a `handleCacheEmpty` call returns within `proxy` of the call reaching it (each proxy bounds its
  backend call by its configured `Timeout`);
* a goroutine whose next statement can run runs within `slack`: a leader between its proxy call
  and its `return`, and a follower whose lock is closed or whose timer has fired.

Time passes only as far as every call keeps these bounds (`TimedState.onTime`), so the timed runs
are those of an environment that keeps them. Each call carries the time it reached its position,
`since`, and the time of its `LoadOrStore`, `arrived`; all times are nanoseconds, as
`time.Duration` counts them.
-/

namespace CentrifugoProxy

/-- `time.Millisecond`. -/
def millisecond : Int := 1000000

/-- What the code does not decide about time. -/
structure Timing where
  /-- The longest a `handleCacheEmpty` call takes. -/
  proxy : Nat
  /-- The longest a goroutine that can go on waits to run. -/
  slack : Nat

/-- The calls of `handle` at one instant of the clock. -/
structure TimedState where
  state : State
  now : Nat
  /-- When each call reached its position; a leader that returned, when it closed its lock. -/
  since : Nat → Nat
  /-- When each call ran its `LoadOrStore`, which is when a follower arms its timer. -/
  arrived : Nat → Nat

inductive TimedLabel (P : Type) where
  | act (a : Label P)
  | tick (d : Nat)

variable {P : Type}

namespace TimedState

def init : TimedState := ⟨CentrifugoProxy.init, 0, fun _ => 0, fun _ => 0⟩

/-- Call `t` is within the bounds at `ts.now`: in `handleCacheEmpty` for at most `proxy`, at each
statement after it for at most `slack`, and in the `select` at most `slack` past its timer and
past the close of its lock. -/
def onTime (h : CacheEmptyHandler P) (tm : Timing) (ts : TimedState) (t : Nat) : Bool :=
  match ts.state.pc t with
  | .dispatching | .fallingBack => decide (ts.now ≤ ts.since t + tm.proxy)
  | .storing _ | .deleting _ | .closing _ => decide (ts.now ≤ ts.since t + tm.slack)
  | .selecting lock =>
      decide (ts.now ≤ ts.since t + h.lockTimeout.toNat + tm.slack) &&
        (!(ts.state.locks lock).done || decide (ts.now ≤ ts.since lock + tm.slack))
  | _ => true

/-- Whether a step may happen now: `timer.C` is ready only once `lockTimeout` has passed since the
timer was armed (at once for a duration that is not positive). -/
def ready (h : CacheEmptyHandler P) (ts : TimedState) : Label P → Bool
  | .timerFired t => decide (ts.since t + h.lockTimeout.toNat ≤ ts.now)
  | _ => true

/-- The clock after step `a` led to `s`: the call it moves reached its new position now, and a
`LoadOrStore` is that call's arrival. -/
def moved (ts : TimedState) (a : Label P) (s : State) : TimedState :=
  match a with
  | .getOrCreateLock t =>
      { ts with state := s, since := Function.update ts.since t ts.now,
                arrived := Function.update ts.arrived t ts.now }
  | .dispatch t .. | .store t | .delete t | .close t | .lockDone t | .timerFired t
  | .ctxDone t => { ts with state := s, since := Function.update ts.since t ts.now }
  | .cancel _ => { ts with state := s }

def tick (ts : TimedState) (d : Nat) : TimedState :=
  { ts with now := ts.now + d }

end TimedState

section Step

variable [DecidableEq P] (h : CacheEmptyHandler P) (calls : List HandleCall) (tm : Timing)

/-- One step of the timed model: a step of the handler that is ready now, or time passing while
every call stays within its bounds. -/
def timedStep (ts : TimedState) : TimedLabel P → Option TimedState
  | .act a => if ts.ready h a then (step h calls ts.state a).map (ts.moved a) else none
  | .tick d =>
      if (List.range calls.length).all ((ts.tick d).onTime h tm) then some (ts.tick d) else none

def timedRun (ts : TimedState) : List (TimedLabel P) → Option TimedState
  | [] => some ts
  | x :: labels => (timedStep h calls tm ts x).bind (timedRun · labels)

end Step

/-! ### The timing of the package's tests

The tests' proxy has a five-second `Timeout`, and goroutines are taken to run within a
millisecond. -/

/-- The proxy bound of the tests' `HTTPCacheEmptyProxy`, and a one-millisecond slack. -/
def testTiming : Timing := { proxy := 5000000000, slack := 1000000 }

/-- The handler of `TestCacheEmptyHandlerConcurrency`: a ten-second `LockTimeout`. -/
def concurrencyHandler : CacheEmptyHandler Unit :=
  newCacheEmptyHandler { proxies := [("test", some ())], lockTimeout := 10 * second }

/-- The handler of `TestCacheEmptyHandlerLockTimeout`: a 500 ms `LockTimeout`. -/
def lockTimeoutHandler : CacheEmptyHandler Unit :=
  newCacheEmptyHandler { proxies := [("test", some ())], lockTimeout := 500 * millisecond }

/-- Two calls of `TestCacheEmptyHandlerConcurrency`: both arrive at once, the backend answers
after 100 ms, and the follower is woken by its leader's lock. -/
def concurrencyRun : List (TimedLabel Unit) :=
  [.act (.getOrCreateLock 0), .act (.getOrCreateLock 1), .tick 100000000,
    .act (.dispatch 0 [("test", some ())] (.returned ⟨some ⟨some ⟨true⟩⟩, none⟩)),
    .act (.store 0), .act (.delete 0), .act (.close 0), .act (.lockDone 1)]

/-- `TestCacheEmptyHandlerLockTimeout`: call 0's backend takes three seconds; call 1 arrives
100 ms later, its timer fires 500 ms after that, and its own proxy call is answered at once. -/
def lockTimeoutRun : List (TimedLabel Unit) :=
  [.act (.getOrCreateLock 0), .tick 100000000, .act (.getOrCreateLock 1), .tick 500000000,
    .act (.timerFired 1),
    .act (.dispatch 1 [("test", some ())] (.returned ⟨some ⟨some ⟨true⟩⟩, none⟩)),
    .tick 2400000000,
    .act (.dispatch 0 [("test", some ())] (.returned ⟨some ⟨some ⟨true⟩⟩, none⟩)),
    .act (.store 0), .act (.delete 0), .act (.close 0)]

end CentrifugoProxy
