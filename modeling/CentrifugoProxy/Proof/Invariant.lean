import CentrifugoProxy.Handler

/-!
# The invariant of the handler

Everything later rests on one invariant, `Inv`, and its proof that every step keeps it. It says
that the shared state is a function of where the calls are:

* the map holds, for each channel, the lock of the one call that has won its `LoadOrStore` and
  not yet run its `Delete`, and nothing else;
* each lock holds what its creator's position says it stored and whether it closed it;
* a waiting call waits on a lock of its own channel, made by a call that won;
* a call that left through `lock.done` returned what that lock held once closed;
* the history restricted to one call is the fixed sequence of events that call's code path
  makes, up to its position;
* a call that left through `ctx.Done()` returned the error of its own context, which is done.

A step moves one call, so most of the proof is one lemma, `Inv.advance`, stated for any call
moving to a position whose lock, election and history extend the old ones.
-/

namespace CentrifugoProxy

namespace Pc

/-- Won its `LoadOrStore` and not yet run its `Delete`. -/
def leading : Pc → Bool
  | .dispatching | .storing _ | .deleting _ => true
  | _ => false

/-- Won its `LoadOrStore`. -/
def elected : Pc → Bool
  | .dispatching | .storing _ | .deleting _ | .closing _ | .returned .leader _
  | .panicked .leader => true
  | _ => false

def awaitsDispatch : Pc → Bool
  | .dispatching | .fallingBack => true
  | _ => false

/-- The lock a call allocated, as its position says it must be. -/
def lock : Pc → ChannelLock
  | .deleting (some out) | .closing (some out) => ⟨out.resp, out.err, false⟩
  | .returned .leader out => ⟨out.resp, out.err, true⟩
  | .panicked .leader => ⟨none, none, true⟩
  | _ => ChannelLock.new

def wonHistory (t : Nat) (call : HandleCall) : Option Outcome → List Event
  | some out =>
      [.loadOrStore t call.channel false, .dispatch t ⟨call.channel⟩ (.returned out), .store t out]
  | none => [.loadOrStore t call.channel false, .dispatch t ⟨call.channel⟩ .panicked]

/-- The events call `t` has made by the time it is at a position, oldest first. -/
def history (t : Nat) (call : HandleCall) : Pc → List Event
  | .start => []
  | .dispatching => [.loadOrStore t call.channel false]
  | .storing out =>
      [.loadOrStore t call.channel false, .dispatch t ⟨call.channel⟩ (.returned out)]
  | .deleting ret => wonHistory t call ret
  | .closing ret => wonHistory t call ret ++ [.delete t call.channel (some t)]
  | .returned .leader out =>
      wonHistory t call (some out) ++ [.delete t call.channel (some t), .close t t]
  | .panicked .leader => wonHistory t call none ++ [.delete t call.channel (some t), .close t t]
  | .selecting _ => [.loadOrStore t call.channel true]
  | .fallingBack => [.loadOrStore t call.channel true, .timerFired t call.channel]
  | .returned .timerFired out =>
      [.loadOrStore t call.channel true, .timerFired t call.channel,
        .dispatch t ⟨call.channel⟩ (.returned out)]
  | .panicked .timerFired =>
      [.loadOrStore t call.channel true, .timerFired t call.channel,
        .dispatch t ⟨call.channel⟩ .panicked]
  | .returned (.lockDone lock) out => [.loadOrStore t call.channel true, .lockDone t lock out]
  | .returned .ctxDone _ => [.loadOrStore t call.channel true, .ctxDone t call.channel]
  | .panicked _ => []

theorem leading_elected {pc : Pc} (h : pc.leading) : pc.elected := by
  cases pc <;> simp_all [leading, elected]

theorem lock_done_of_leading {pc : Pc} (h : pc.leading) : pc.lock.done = false := by
  cases pc with
  | deleting ret => cases ret <;> rfl
  | _ => first | rfl | simp [leading] at h

end Pc

def chanOf (calls : List HandleCall) (t : Nat) : Option String :=
  calls[t]?.map (·.channel)

def historyOf (calls : List HandleCall) (t : Nat) (pc : Pc) : List Event :=
  match calls[t]? with
  | some call => pc.history t call
  | none => []

namespace State

variable {s : State} {t : Nat} {pc : Pc} {e : Event}

@[simp] theorem advance_pc : (s.advance t pc e).pc = Function.update s.pc t pc := rfl
@[simp] theorem advance_log : (s.advance t pc e).log = s.log ++ [e] := rfl
@[simp] theorem advance_channelLocks : (s.advance t pc e).channelLocks = s.channelLocks := rfl
@[simp] theorem advance_locks : (s.advance t pc e).locks = s.locks := rfl
@[simp] theorem advance_ctxDone : (s.advance t pc e).ctxDone = s.ctxDone := rfl

end State

/-- The invariant of every reachable state of the calls `calls`. -/
structure Inv (calls : List HandleCall) (s : State) : Prop where
  /-- A number that is not a call never moves. -/
  started : ∀ t, calls[t]? = none → s.pc t = .start
  /-- The map holds exactly the locks of the calls between their winning `LoadOrStore` and
  their `Delete`, each under its own channel. -/
  channelLocks : ∀ c l, s.channelLocks c = some l ↔ (s.pc l).leading ∧ chanOf calls l = some c
  /-- Each lock holds what its creator's position says. -/
  locks : ∀ l, s.locks l = (s.pc l).lock
  /-- A follower waits on a lock of its channel, made by a call that won. -/
  selecting : ∀ t l, s.pc t = .selecting l → (s.pc l).elected ∧ chanOf calls l = chanOf calls t
  /-- A follower woken by `lock.done` returned what that lock holds, closed. -/
  woken : ∀ t l out, s.pc t = .returned (.lockDone l) out →
    chanOf calls l = chanOf calls t ∧ (s.pc l).lock.done ∧ out = (s.pc l).lock.outcome
  /-- The history of each call is the path of its code up to its position. -/
  history : ∀ t, s.log.filter (·.caller == t) = historyOf calls t (s.pc t)
  /-- A call that left through `ctx.Done()` returned its own context's error, and that context
  is done. -/
  cancelled : ∀ t call out, calls[t]? = some call → s.pc t = .returned .ctxDone out →
    out = ⟨none, some (.contextDone call.ctx)⟩ ∧ s.ctxDone call.ctx

theorem inv_init (calls : List HandleCall) : Inv calls init where
  started _ _ := rfl
  channelLocks c l := by simp [init, Pc.leading]
  locks _ := rfl
  selecting _ _ h := by cases h
  woken _ _ _ h := by cases h
  history t := by unfold historyOf; split <;> simp [init, Pc.history]
  cancelled _ _ _ _ h := by cases h

section Advance

variable {calls : List HandleCall} {s : State} {t : Nat} {call : HandleCall} {pc : Pc}
  {e : Event}

theorem update_elected (helected : (s.pc t).elected → pc.elected) {l : Nat}
    (hl : (s.pc l).elected) : (Function.update s.pc t pc l).elected := by
  rcases eq_or_ne l t with rfl | hne
  · simpa using helected hl
  · simpa [Function.update_noteq hne] using hl

/-- **One call moves.** Call `t` goes to `pc` and makes event `e`, the map becomes `m` and the
locks `k`: the invariant holds after, given that the new map and locks are what the new positions
say, that the move keeps `t`'s election and extends its history by `e`, that `t`'s lock was not
closed yet, and that a new wait or wake-up refers to another call's lock as the fields require. -/
theorem Inv.advance (hinv : Inv calls s) (hcall : calls[t]? = some call)
    (helected : (s.pc t).elected → pc.elected)
    (hlive : (s.pc t).lock.done = false)
    (hsel : ∀ l, pc = .selecting l →
      l ≠ t ∧ (s.pc l).elected ∧ chanOf calls l = chanOf calls t)
    (hwake : ∀ l out, pc = .returned (.lockDone l) out →
      l ≠ t ∧ chanOf calls l = chanOf calls t ∧ (s.pc l).lock.done ∧
        out = (s.pc l).lock.outcome)
    (hctx : ∀ out, pc = .returned .ctxDone out →
      out = ⟨none, some (.contextDone call.ctx)⟩ ∧ s.ctxDone call.ctx)
    (hhist : pc.history t call = (s.pc t).history t call ++ [e]) (hcaller : e.caller = t)
    {m : String → Option Nat} {k : Nat → ChannelLock}
    (hmap : ∀ c l, m c = some l ↔
      (Function.update s.pc t pc l).leading ∧ chanOf calls l = some c)
    (hlocks : ∀ l, k l = (Function.update s.pc t pc l).lock) :
    Inv calls ({ s with channelLocks := m, locks := k }.advance t pc e) where
  started t' ht' := by
    have hne : t' ≠ t := by rintro rfl; simp [hcall] at ht'
    simpa [Function.update_noteq hne] using hinv.started t' ht'
  channelLocks := hmap
  locks := hlocks
  selecting t' l ht' := by
    simp only [State.advance_pc] at ht' ⊢
    rcases eq_or_ne t' t with rfl | hne
    · obtain ⟨hlt, hl, hch⟩ := hsel l (by simpa using ht')
      simpa [Function.update_noteq hlt] using And.intro hl hch
    · rw [Function.update_noteq hne] at ht'
      obtain ⟨hl, hch⟩ := hinv.selecting t' l ht'
      exact ⟨update_elected helected hl, hch⟩
  woken t' l out ht' := by
    simp only [State.advance_pc] at ht' ⊢
    rcases eq_or_ne t' t with rfl | hne
    · obtain ⟨hlt, hch, hdone, hout⟩ := hwake l out (by simpa using ht')
      simpa [Function.update_noteq hlt] using And.intro hch (And.intro hdone hout)
    · rw [Function.update_noteq hne] at ht'
      obtain ⟨hch, hdone, hout⟩ := hinv.woken t' l out ht'
      have hlt : l ≠ t := by rintro rfl; simp [hlive] at hdone
      simpa [Function.update_noteq hlt] using And.intro hch (And.intro hdone hout)
  history t' := by
    simp only [State.advance_log, State.advance_pc, List.filter_append, hinv.history t']
    rcases eq_or_ne t' t with rfl | hne
    · simp [historyOf, hcall, hhist, hcaller]
    · simp [Function.update_noteq hne, hcaller, Ne.symm hne]
  cancelled t' call' out hcall' ht' := by
    simp only [State.advance_pc, State.advance_ctxDone] at ht' ⊢
    rcases eq_or_ne t' t with rfl | hne
    · rw [hcall] at hcall'
      cases hcall'
      exact hctx out (by simpa using ht')
    · rw [Function.update_noteq hne] at ht'
      exact hinv.cancelled t' call' out hcall' ht'

theorem Inv.channelLocks_update (hinv : Inv calls s) (hleading : pc.leading = (s.pc t).leading)
    (c : String) (l : Nat) :
    s.channelLocks c = some l ↔
      (Function.update s.pc t pc l).leading ∧ chanOf calls l = some c := by
  rcases eq_or_ne l t with rfl | hne
  · simpa [hleading] using hinv.channelLocks c l
  · simpa [Function.update_noteq hne] using hinv.channelLocks c l

theorem Inv.locks_update (hinv : Inv calls s) (hlock : pc.lock = (s.pc t).lock) (l : Nat) :
    s.locks l = (Function.update s.pc t pc l).lock := by
  rcases eq_or_ne l t with rfl | hne
  · simpa [hlock] using hinv.locks l
  · simpa [Function.update_noteq hne] using hinv.locks l

theorem Inv.advance_same (hinv : Inv calls s) (hcall : calls[t]? = some call)
    (helected : (s.pc t).elected → pc.elected)
    (hleading : pc.leading = (s.pc t).leading) (hlock : pc.lock = (s.pc t).lock)
    (hlive : (s.pc t).lock.done = false)
    (hsel : ∀ l, pc = .selecting l →
      l ≠ t ∧ (s.pc l).elected ∧ chanOf calls l = chanOf calls t)
    (hwake : ∀ l out, pc = .returned (.lockDone l) out →
      l ≠ t ∧ chanOf calls l = chanOf calls t ∧ (s.pc l).lock.done ∧
        out = (s.pc l).lock.outcome)
    (hctx : ∀ out, pc = .returned .ctxDone out →
      out = ⟨none, some (.contextDone call.ctx)⟩ ∧ s.ctxDone call.ctx)
    (hhist : pc.history t call = (s.pc t).history t call ++ [e]) (hcaller : e.caller = t) :
    Inv calls (s.advance t pc e) :=
  hinv.advance hcall helected hlive hsel hwake hctx hhist hcaller
    (hinv.channelLocks_update hleading) (hinv.locks_update hlock)

end Advance

end CentrifugoProxy
