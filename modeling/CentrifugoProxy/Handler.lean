import CentrifugoProxy.Dispatch
import Mathlib.Logic.Function.Basic

/-!
# The cache-empty handler as a transition system

`CacheEmptyHandler.handle` lets the first call for a channel make the proxy call and the calls
that arrive while it runs wait for its result. The calls run concurrently and share two things:
the map `channelLocks`, changed only by `LoadOrStore` and `Delete`, and the `channelLock` records
it points to. The model is a state of all calls at once, and a step is one atomic action of one
call, chosen by the scheduler: the interleavings are the lists of steps.

A lock is named by the call whose `getOrCreateLock` allocated it. Every call allocates one, and
only the lock of a call that wins its `LoadOrStore` is ever shared, so the heap is a function from
calls to locks, each starting as `getOrCreateLock` makes it. Time is not modelled here: the timer
of a waiting call may fire at any step, as it may in some schedule, and a context may be cancelled
at any step; `CentrifugoProxy.Timed` runs the same steps against a clock. The environment also
picks how each `ProxyCacheEmpty` call ends and the order of each range over the registry. The
log is a history variable: the events of the steps, oldest first.
-/

namespace CentrifugoProxy

/-- One second as a `time.Duration`. -/
def second : Int := 1000000000

/-- `CacheEmptyHandlerConfig`. -/
structure CacheEmptyHandlerConfig (P : Type) where
  proxies : List (String × Option P)
  lockTimeout : Int

/-- The fields of `CacheEmptyHandler` other than `channelLocks`, which lives in `State`. -/
structure CacheEmptyHandler (P : Type) where
  proxies : List (String × Option P)
  lockTimeout : Int

variable {P : Type}

/-- `NewCacheEmptyHandler`: a zero `LockTimeout` means five seconds. -/
def newCacheEmptyHandler (config : CacheEmptyHandlerConfig P) : CacheEmptyHandler P :=
  { proxies := config.proxies
    lockTimeout := if config.lockTimeout = 0 then 5 * second else config.lockTimeout }

theorem newCacheEmptyHandler_lockTimeout_ne_zero (config : CacheEmptyHandlerConfig P) :
    (newCacheEmptyHandler config).lockTimeout ≠ 0 := by
  simp only [newCacheEmptyHandler, second]
  split_ifs with hzero
  · decide
  · exact hzero

/-- `channelLock`; `done` is whether the channel `done` is closed. -/
structure ChannelLock where
  result : Option NotifyCacheEmptyResponse
  err : Option ProxyError
  done : Bool
  deriving DecidableEq, Repr

/-- `&channelLock{done: make(chan struct{})}`. -/
def ChannelLock.new : ChannelLock :=
  { result := none, err := none, done := false }

/-- The pair `return lock.result, lock.err` reads. -/
def ChannelLock.outcome (lock : ChannelLock) : Outcome :=
  ⟨lock.result, lock.err⟩

@[simp] theorem ChannelLock.new_done : ChannelLock.new.done = false := rfl
@[simp] theorem ChannelLock.new_outcome : ChannelLock.new.outcome = ⟨none, none⟩ := rfl

/-- One call `handle(ctx, channel)`; contexts are named by number. -/
structure HandleCall where
  ctx : Nat
  channel : String
  deriving DecidableEq, Repr

/-- The `return` a call of `handle` ends at. -/
inductive Site where
  /-- `return lock.result, lock.err` after the call's own dispatch. -/
  | leader
  /-- `case <-lock.done`, waiting on the lock of call `lock`. -/
  | lockDone (lock : Nat)
  /-- `case <-timer.C` and the independent call. -/
  | timerFired
  /-- `case <-ctx.Done()`. -/
  | ctxDone
  deriving DecidableEq, Repr

/-- Where a call of `handle` is, with the locals it still needs. -/
inductive Pc where
  /-- Before `getOrCreateLock`. -/
  | start
  /-- A leader before its `handleCacheEmpty` call. -/
  | dispatching
  /-- A leader whose dispatch returned `out`, before `lock.result, lock.err = out`. -/
  | storing (out : Outcome)
  /-- A leader at its deferred `Delete`, returning `ret`, or panicking when `ret` is `none`. -/
  | deleting (ret : Option Outcome)
  /-- A leader at its deferred `close(lock.done)`. -/
  | closing (ret : Option Outcome)
  /-- A follower in the `select`, waiting on the lock of call `lock`. -/
  | selecting (lock : Nat)
  /-- A follower whose timer fired, before its own `handleCacheEmpty` call. -/
  | fallingBack
  /-- The call returned `out` at `site`. -/
  | returned (site : Site) (out : Outcome)
  /-- A panic left the call at `site`. -/
  | panicked (site : Site)
  deriving DecidableEq, Repr

/-- What one step of one call did. -/
inductive Event where
  | loadOrStore (t : Nat) (channel : String) (loaded : Bool)
  | dispatch (t : Nat) (req : NotifyCacheEmptyRequest) (ret : Completion)
  | store (t : Nat) (out : Outcome)
  | delete (t : Nat) (channel : String) (removed : Option Nat)
  | close (t : Nat) (lock : Nat)
  | lockDone (t : Nat) (lock : Nat) (out : Outcome)
  | timerFired (t : Nat) (channel : String)
  | ctxDone (t : Nat) (channel : String)
  deriving DecidableEq, Repr

def Event.caller : Event → Nat
  | .loadOrStore t .. | .dispatch t .. | .store t .. | .delete t .. | .close t ..
  | .lockDone t .. | .timerFired t .. | .ctxDone t .. => t

/-- A step the scheduler may pick. `dispatch` carries the order the range visits the registry in
and how the `ProxyCacheEmpty` call ends; `cancel` is the environment cancelling a context. -/
inductive Label (P : Type) where
  | getOrCreateLock (t : Nat)
  | dispatch (t : Nat) (order : List (String × Option P)) (answer : Completion)
  | store (t : Nat)
  | delete (t : Nat)
  | close (t : Nat)
  | lockDone (t : Nat)
  | timerFired (t : Nat)
  | ctxDone (t : Nat)
  | cancel (ctx : Nat)

/-- All calls of `handle` at one instant. -/
@[ext] structure State where
  /-- `h.channelLocks`, a lock named by the call that allocated it. -/
  channelLocks : String → Option Nat
  /-- The lock each call allocated. -/
  locks : Nat → ChannelLock
  pc : Nat → Pc
  /-- Whether each context is done. -/
  ctxDone : Nat → Bool
  log : List Event

def init : State where
  channelLocks := fun _ => none
  locks := fun _ => ChannelLock.new
  pc := fun _ => .start
  ctxDone := fun _ => false
  log := []

namespace State

def advance (s : State) (t : Nat) (pc : Pc) (e : Event) : State :=
  { s with pc := Function.update s.pc t pc, log := s.log ++ [e] }

/-- `getOrCreateLock(channel)`: the `LoadOrStore` of call `t`'s new lock. -/
def getOrCreateLock (s : State) (t : Nat) (call : HandleCall) : State :=
  match s.channelLocks call.channel with
  | some lock => s.advance t (.selecting lock) (.loadOrStore t call.channel true)
  | none =>
      { s with channelLocks := Function.update s.channelLocks call.channel (some t) }.advance t
        .dispatching (.loadOrStore t call.channel false)

/-- The `handleCacheEmpty` call of a leader (line 74) or of a follower whose timer fired
(line 95), ending as `ret`. -/
def dispatch (s : State) (t : Nat) (req : NotifyCacheEmptyRequest) (ret : Completion) :
    Option State :=
  match s.pc t, ret with
  | .dispatching, .returned out => some (s.advance t (.storing out) (.dispatch t req ret))
  | .dispatching, .panicked => some (s.advance t (.deleting none) (.dispatch t req ret))
  | .fallingBack, .returned out =>
      some (s.advance t (.returned .timerFired out) (.dispatch t req ret))
  | .fallingBack, .panicked => some (s.advance t (.panicked .timerFired) (.dispatch t req ret))
  | _, _ => none

/-- `lock.result, lock.err = ...`, then the operands of `return lock.result, lock.err`. -/
def store (s : State) (t : Nat) (out : Outcome) : State :=
  let lock := { s.locks t with result := out.resp, err := out.err }
  { s with locks := Function.update s.locks t lock }.advance t (.deleting (some lock.outcome))
    (.store t out)

/-- The deferred `h.channelLocks.Delete(channel)`. -/
def delete (s : State) (t : Nat) (channel : String) (ret : Option Outcome) : State :=
  { s with channelLocks := Function.update s.channelLocks channel none }.advance t (.closing ret)
    (.delete t channel (s.channelLocks channel))

/-- The deferred `close(lock.done)`, which panics on a closed channel. Then the call returns
what it stored, or its panic goes on. -/
def close (s : State) (t : Nat) (ret : Option Outcome) : State :=
  if (s.locks t).done then { s with pc := Function.update s.pc t (.panicked .leader) }
  else
    { s with locks := Function.update s.locks t { s.locks t with done := true } }.advance t
      (match ret with
        | some out => .returned .leader out
        | none => .panicked .leader)
      (.close t t)

end State

section Step

variable [DecidableEq P] (h : CacheEmptyHandler P) (calls : List HandleCall)

/-- One atomic step of the handler's calls `calls`; `none` when it is not enabled. -/
def step (s : State) : Label P → Option State
  | .getOrCreateLock t =>
      match calls[t]?, s.pc t with
      | some call, .start => some (s.getOrCreateLock t call)
      | _, _ => none
  | .dispatch t order answer =>
      match calls[t]? with
      | some call =>
          if order.Perm h.proxies then
            s.dispatch t ⟨call.channel⟩
              (handleCacheEmpty (fun _ _ _ => answer) call.ctx ⟨call.channel⟩ order).2
          else none
      | none => none
  | .store t =>
      match calls[t]?, s.pc t with
      | some _, .storing out => some (s.store t out)
      | _, _ => none
  | .delete t =>
      match calls[t]?, s.pc t with
      | some call, .deleting ret => some (s.delete t call.channel ret)
      | _, _ => none
  | .close t =>
      match calls[t]?, s.pc t with
      | some _, .closing ret => some (s.close t ret)
      | _, _ => none
  | .lockDone t =>
      match calls[t]?, s.pc t with
      | some _, .selecting lock =>
          if (s.locks lock).done then
            some (s.advance t (.returned (.lockDone lock) (s.locks lock).outcome)
              (.lockDone t lock (s.locks lock).outcome))
          else none
      | _, _ => none
  | .timerFired t =>
      match calls[t]?, s.pc t with
      | some call, .selecting _ => some (s.advance t .fallingBack (.timerFired t call.channel))
      | _, _ => none
  | .ctxDone t =>
      match calls[t]?, s.pc t with
      | some call, .selecting _ =>
          if s.ctxDone call.ctx then
            some (s.advance t (.returned .ctxDone ⟨none, some (.contextDone call.ctx)⟩)
              (.ctxDone t call.channel))
          else none
      | _, _ => none
  | .cancel ctx => some { s with ctxDone := Function.update s.ctxDone ctx true }

/-- The steps `labels` from `s`, each also checked against `ok` (an assumption on the
environment, such as a proxy contract); `none` when one is not enabled. -/
def runWith (ok : State → Label P → Bool) (s : State) : List (Label P) → Option State
  | [] => some s
  | a :: labels => if ok s a then (step h calls s a).bind (runWith ok · labels) else none

/-- Any interleaving: the steps `labels` from `s`, whatever the proxies answer. -/
def run (s : State) (labels : List (Label P)) : Option State :=
  runWith h calls (fun _ _ => true) s labels

end Step

/-! ### The setting of the package's tests

One proxy named `"test"` and calls of `handle` on `"test:channel"` with their own contexts, as in
`TestCacheEmptyHandlerConcurrency`; the runs below are schedules in that setting. -/

/-- `NewCacheEmptyHandler` with the single proxy `"test"` and the default timeout. -/
def testHandler : CacheEmptyHandler Unit :=
  newCacheEmptyHandler { proxies := [("test", some ())], lockTimeout := 0 }

def testCalls : List HandleCall :=
  [⟨0, "test:channel"⟩, ⟨1, "test:channel"⟩]

/-- Calls on `"channel1"`, `"channel2"` and `"channel3"`, as in
`TestCacheEmptyHandlerDifferentChannels`. -/
def differentChannelsCalls : List HandleCall :=
  [⟨0, "channel1"⟩, ⟨1, "channel2"⟩, ⟨2, "channel3"⟩]

/-- Calls 0 and 1 of two channels, both leaders, interleaved: both win their `LoadOrStore`,
call 1's proxy call returns first, and each then stores, deletes and closes. -/
def differentChannelsRun : List (Label Unit) :=
  [.getOrCreateLock 0, .getOrCreateLock 1,
    .dispatch 1 [("test", some ())] (.returned ⟨some ⟨some ⟨true⟩⟩, none⟩),
    .dispatch 0 [("test", some ())] (.returned ⟨some ⟨some ⟨true⟩⟩, none⟩),
    .store 0, .store 1, .delete 1, .delete 0, .close 0, .close 1]

/-- All three calls of `TestCacheEmptyHandlerDifferentChannels`: calls 0 and 1 as above, then
call 2 runs to its end. -/
def differentChannelsAllRun : List (Label Unit) :=
  differentChannelsRun ++
    [.getOrCreateLock 2, .dispatch 2 [("test", some ())] (.returned ⟨some ⟨some ⟨true⟩⟩, none⟩),
      .store 2, .delete 2, .close 2]

/-- Call 0 leads and call 1 follows it; the leader's proxy call ends as `answer`, the leader
cleans up, and the follower is woken by `lock.done`. -/
def followerWokenRun (answer : Completion) : List (Label Unit) :=
  [.getOrCreateLock 0, .getOrCreateLock 1, .dispatch 0 [("test", some ())] answer] ++
    (match answer with
      | .returned _ => [.store 0]
      | .panicked => []) ++
    [.delete 0, .close 0, .lockDone 1]

end CentrifugoProxy
