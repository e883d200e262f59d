import CentrifugoProxy.Proof.History

/-!
# The life of a lock

A lock enters the map once, when its creator's `LoadOrStore` stores it, and leaves it once, by
its creator's deferred `Delete`. While it is in the map its channel `done` is open, and no other
call of that channel is between those two steps. Its `done` is closed once, by its creator, after
the creator removed the entry and, unless its proxy call panicked, stored the result.

The facts about one lock are facts about its creator's path, read off the history. The facts
about order are proved step by step with `Ordered`: when a lock is stored no `Delete` of it has
happened, and when it is closed its `Delete` already has, and so has its store unless the
creator's proxy call panicked.
-/

namespace CentrifugoProxy

/-- The `LoadOrStore` that stored lock `l`: only call `l` stores its own new lock. -/
def Event.inserts (l : Nat) : Event → Bool
  | .loadOrStore t _ false => t == l
  | _ => false

def Event.closes (l : Nat) : Event → Bool
  | .close _ lock => lock == l
  | _ => false

theorem Event.caller_of_inserts {l : Nat} {e : Event} (hins : e.inserts l) : e.caller = l := by
  rcases e with ⟨t, c, _ | _⟩ | _ | _ | _ | _ | _ | _ | _ <;> simp_all [Event.inserts, Event.caller]

/-! ### One lock on its creator's path -/

section Path

variable {pc : Pc} {t : Nat} {call : HandleCall}

theorem Pc.countP_inserts (l : Nat) :
    (pc.history t call).countP (Event.inserts l) = if pc.elected ∧ t = l then 1 else 0 := by
  rcases pc with _ | _ | out | (_ | out) | (_ | out) | lock | _ |
    ⟨(_ | lock | _ | _), out⟩ | (_ | lock | _ | _) <;>
    simp [Pc.history, Pc.wonHistory, Event.inserts, List.countP_cons, Pc.elected]

theorem Pc.countP_closes (l : Nat) :
    (pc.history t call).countP (Event.closes l) = if pc.lock.done ∧ t = l then 1 else 0 := by
  rcases pc with _ | _ | out | (_ | out) | (_ | out) | lock | _ |
    ⟨(_ | lock | _ | _), out⟩ | (_ | lock | _ | _) <;>
    simp [Pc.history, Pc.wonHistory, Event.closes, List.countP_cons, Pc.lock]

theorem Pc.won_iff {c : String} :
    (.loadOrStore t c false ∈ pc.history t call ∧ ∀ c' r, .delete t c' r ∉ pc.history t call) ↔
      pc.leading ∧ call.channel = c := by
  rcases pc with _ | _ | out | (_ | out) | (_ | out) | lock | _ |
    ⟨(_ | lock | _ | _), out⟩ | (_ | lock | _ | _) <;>
    simp [Pc.history, Pc.wonHistory, Pc.leading, eq_comm]

theorem Pc.delete_mem {t' : Nat} {c : String} {r : Option Nat}
    (hmem : .delete t' c r ∈ pc.history t call) : t' = t ∧ c = call.channel ∧ r = some t := by
  rcases pc with _ | _ | out | (_ | out) | (_ | out) | lock | _ |
    ⟨(_ | lock | _ | _), out⟩ | (_ | lock | _ | _) <;>
    simp_all [Pc.history, Pc.wonHistory]

theorem Pc.close_mem {t' l : Nat} (hmem : .close t' l ∈ pc.history t call) : t' = t ∧ l = t := by
  rcases pc with _ | _ | out | (_ | out) | (_ | out) | lock | _ |
    ⟨(_ | lock | _ | _), out⟩ | (_ | lock | _ | _) <;>
    simp_all [Pc.history, Pc.wonHistory]

end Path

/-! ### The same, in the log -/

section Log

variable {P : Type} {h : CacheEmptyHandler P} {calls : List HandleCall} {s : State}

theorem Inv.won_iff (hinv : Inv calls s) {t : Nat} {c : String} :
    (.loadOrStore t c false ∈ s.log ∧ ∀ c' r, .delete t c' r ∉ s.log) ↔
      (s.pc t).leading ∧ chanOf calls t = some c := by
  cases hcall : calls[t]? with
  | none =>
      simp only [hinv.started t hcall, Pc.leading, Bool.false_eq_true, false_and, iff_false,
        not_and]
      intro hmem
      obtain ⟨call, hcall', -⟩ := hinv.mem_history_of_mem_log hmem
      simp [Event.caller, hcall] at hcall'
  | some call =>
      have hins := hinv.mem_log_iff hcall (show (Event.loadOrStore t c false).caller = t from rfl)
      have hdel : ∀ c' r, Event.delete t c' r ∈ s.log ↔ _ := fun c' r =>
        hinv.mem_log_iff hcall (show (Event.delete t c' r).caller = t from rfl)
      simp only [hins, hdel, chanOf_eq hcall, Option.some.injEq, Pc.won_iff]

theorem Inv.delete_of_mem (hinv : Inv calls s) {t : Nat} {c : String} {r : Option Nat}
    (hmem : .delete t c r ∈ s.log) : r = some t ∧ chanOf calls t = some c := by
  obtain ⟨call, hcall, hpath⟩ := hinv.mem_history_of_mem_log hmem
  obtain ⟨-, hc, hr⟩ := Pc.delete_mem hpath
  simp only [Event.caller] at hcall hr
  exact ⟨hr, by simp [chanOf, hcall, hc]⟩

theorem Inv.countP_inserts (hinv : Inv calls s) (l : Nat) :
    s.log.countP (Event.inserts l) ≤ 1 := by
  rw [hinv.countP_log fun _ _ hins => Event.caller_of_inserts hins]
  unfold historyOf
  split
  · rw [Pc.countP_inserts]; split <;> omega
  · simp

theorem Inv.close_of_mem (hinv : Inv calls s) {t l : Nat} (hmem : .close t l ∈ s.log) :
    l = t := by
  obtain ⟨call, -, hpath⟩ := hinv.mem_history_of_mem_log hmem
  exact (Pc.close_mem hpath).2

theorem Inv.caller_of_closes (hinv : Inv calls s) {l : Nat} {e : Event} (he : e ∈ s.log)
    (hclose : e.closes l) : e.caller = l := by
  rcases e with _ | _ | _ | _ | ⟨t, lock⟩ | _ | _ | _ <;> simp [Event.closes] at hclose
  exact (hinv.close_of_mem he).symm.trans hclose

theorem Inv.countP_closes (hinv : Inv calls s) (l : Nat) :
    s.log.countP (Event.closes l) = if (s.locks l).done then 1 else 0 := by
  rw [hinv.countP_log fun _ he hclose => hinv.caller_of_closes he hclose, hinv.locks l]
  unfold historyOf
  split
  · simp [Pc.countP_closes]
  · simp [hinv.started l ‹_›, Pc.lock]

end Log

/-! ### Order -/

/-- When a lock is stored, no `Delete` has removed it. -/
def InsertedBeforeDeleted (pre : List Event) (e : Event) : Prop :=
  ∀ l c, e = .loadOrStore l c false → ∀ t c', .delete t c' (some l) ∉ pre

/-- When a lock is closed, its creator has removed the entry. -/
def ClosedAfterDelete (pre : List Event) (e : Event) : Prop :=
  ∀ t l, e = .close t l → l = t ∧ ∃ c, .delete t c (some t) ∈ pre

/-- When a lock is closed, its creator has stored the result, or its proxy call panicked. -/
def ClosedAfterStore (pre : List Event) (e : Event) : Prop :=
  ∀ t l, e = .close t l → (∃ out, .store t out ∈ pre) ∨ ∃ req, .dispatch t req .panicked ∈ pre

section Order

variable {P : Type} {h : CacheEmptyHandler P} {calls : List HandleCall} {s : State}
  {a : Label P} {s' : State}

theorem Step.insertedBeforeDeleted (hinv : Inv calls s)
    (hord : Ordered InsertedBeforeDeleted s.log) (hs : Step h calls s a s') :
    Ordered InsertedBeforeDeleted s'.log := by
  cases hs with
  | @getOrCreateLock t call hcall hpc =>
      rw [State.getOrCreateLock_log]
      refine ordered_append.2 ⟨hord, ?_⟩
      rintro l c heq t' c' hdel
      obtain ⟨rfl, -, -⟩ := Event.loadOrStore.inj heq
      obtain ⟨hr, -⟩ := hinv.delete_of_mem hdel
      cases Option.some.inj hr
      have := (hinv.mem_log_iff hcall (by rfl)).1 hdel
      simp [hpc, Pc.history] at this
  | dispatch _ _ hs =>
      rw [State.dispatch_log hs]
      exact ordered_append.2 ⟨hord, by simp [InsertedBeforeDeleted]⟩
  | close _ hpc =>
      rw [State.close_log _ _ (hinv.open_of_closing hpc)]
      exact ordered_append.2 ⟨hord, by simp [InsertedBeforeDeleted]⟩
  | cancel => exact hord
  | _ => exact ordered_append.2 ⟨hord, by simp [InsertedBeforeDeleted]⟩

theorem Step.closedAfterDelete (hinv : Inv calls s) (hord : Ordered ClosedAfterDelete s.log)
    (hs : Step h calls s a s') : Ordered ClosedAfterDelete s'.log := by
  cases hs with
  | @close t call ret hcall hpc =>
      rw [State.close_log _ _ (hinv.open_of_closing hpc)]
      refine ordered_append.2 ⟨hord, ?_⟩
      rintro t' l heq
      obtain ⟨rfl, rfl⟩ := Event.close.inj heq
      exact ⟨rfl, call.channel, (hinv.mem_log_iff hcall (by rfl)).2 (by simp [hpc, Pc.history])⟩
  | dispatch _ _ hs =>
      rw [State.dispatch_log hs]
      exact ordered_append.2 ⟨hord, by simp [ClosedAfterDelete]⟩
  | getOrCreateLock =>
      rw [State.getOrCreateLock_log]
      exact ordered_append.2 ⟨hord, by simp [ClosedAfterDelete]⟩
  | cancel => exact hord
  | _ => exact ordered_append.2 ⟨hord, by simp [ClosedAfterDelete]⟩

theorem Step.closedAfterStore (hinv : Inv calls s) (hord : Ordered ClosedAfterStore s.log)
    (hs : Step h calls s a s') : Ordered ClosedAfterStore s'.log := by
  cases hs with
  | @close t call ret hcall hpc =>
      rw [State.close_log _ _ (hinv.open_of_closing hpc)]
      refine ordered_append.2 ⟨hord, ?_⟩
      rintro t' l heq
      obtain ⟨rfl, rfl⟩ := Event.close.inj heq
      cases ret with
      | none => exact .inr ⟨⟨call.channel⟩, (hinv.mem_log_iff hcall (by rfl)).2
          (by simp [hpc, Pc.history, Pc.wonHistory])⟩
      | some out => exact .inl ⟨out, (hinv.mem_log_iff hcall (by rfl)).2
          (by simp [hpc, Pc.history, Pc.wonHistory])⟩
  | dispatch _ _ hs =>
      rw [State.dispatch_log hs]
      exact ordered_append.2 ⟨hord, by simp [ClosedAfterStore]⟩
  | getOrCreateLock =>
      rw [State.getOrCreateLock_log]
      exact ordered_append.2 ⟨hord, by simp [ClosedAfterStore]⟩
  | cancel => exact hord
  | _ => exact ordered_append.2 ⟨hord, by simp [ClosedAfterStore]⟩

end Order

variable {P : Type} [DecidableEq P] {h : CacheEmptyHandler P} {calls : List HandleCall}

/-- **Lock lifecycle.** In every interleaving of any calls on any channels, whatever the proxies
answer: (a) a lock in the map under `c` was stored by the `LoadOrStore` of its creator, a call
for `c`, which has not run its `Delete`, and its `done` is open; (b) at most one call per channel
is between its winning `LoadOrStore` and its `Delete`; (c) each lock is stored at most once and
never after a `Delete` removed it, each `Delete` removes its caller's own lock from its caller's
channel, and each lock's `done` is closed at most once, only by its creator, after the creator
ran its `Delete` and, unless the creator's own proxy call panicked, after it stored the result;
a leader that returned or panicked has closed its lock exactly once, and a lock is closed
exactly when one close of it happened. -/
theorem channelLocks_lock_lifecycle {labels : List (Label P)} {s : State}
    (hrun : run h calls init labels = some s) :
    (∀ c l, s.channelLocks c = some l →
      chanOf calls l = some c ∧ Event.loadOrStore l c false ∈ s.log ∧
        (∀ c' r, Event.delete l c' r ∉ s.log) ∧ (s.locks l).done = false) ∧
    (∀ c t₁ t₂, Event.loadOrStore t₁ c false ∈ s.log → (∀ c' r, Event.delete t₁ c' r ∉ s.log) →
      Event.loadOrStore t₂ c false ∈ s.log → (∀ c' r, Event.delete t₂ c' r ∉ s.log) →
        t₁ = t₂) ∧
    (∀ l, s.log.countP (Event.inserts l) ≤ 1) ∧
    (∀ pre t c l post, s.log = pre ++ Event.delete t c (some l) :: post →
      ∀ c', Event.loadOrStore l c' false ∉ post) ∧
    (∀ t c r, Event.delete t c r ∈ s.log → r = some t ∧ chanOf calls t = some c) ∧
    (∀ l, s.log.countP (Event.closes l) ≤ 1) ∧
    (∀ pre t l post, s.log = pre ++ Event.close t l :: post →
      l = t ∧ ∃ c, Event.delete t c (some t) ∈ pre) ∧
    (∀ pre t l post, s.log = pre ++ Event.close t l :: post →
      (∀ req, Event.dispatch t req .panicked ∉ s.log) → ∃ out, Event.store t out ∈ pre) ∧
    (∀ l, ((∃ out, s.pc l = .returned .leader out) ∨ s.pc l = .panicked .leader) →
      s.log.countP (Event.closes l) = 1) ∧
    (∀ l, (s.locks l).done = true ↔ s.log.countP (Event.closes l) = 1) := by
  have hinv := inv_of_runWith hrun
  have hins := (runWith_induction (fun hinv hord _ hs => Step.insertedBeforeDeleted hinv hord hs)
    (inv_init calls) (ordered_nil _) hrun).2
  have hdel := (runWith_induction (fun hinv hord _ hs => Step.closedAfterDelete hinv hord hs)
    (inv_init calls) (ordered_nil _) hrun).2
  have hstore := (runWith_induction (fun hinv hord _ hs => Step.closedAfterStore hinv hord hs)
    (inv_init calls) (ordered_nil _) hrun).2
  refine ⟨fun c l hl => ?_, fun c t₁ t₂ h₁ d₁ h₂ d₂ => ?_, hinv.countP_inserts,
    fun pre t c l post hlog c' hpost => ?_, fun t c r hmem => hinv.delete_of_mem hmem,
    fun l => ?_, fun pre t l post hlog => hdel pre _ post hlog t l rfl,
    fun pre t l post hlog hret => ?_, fun l hfin => ?_, fun l => ?_⟩
  · obtain ⟨hleading, hch⟩ := hinv.leading_of_channelLocks hl
    obtain ⟨hmem, hdel⟩ := hinv.won_iff.2 ⟨hleading, hch⟩
    exact ⟨hch, hmem, hdel, by rw [hinv.locks l]; exact Pc.lock_done_of_leading hleading⟩
  · obtain ⟨hl₁, hc₁⟩ := hinv.won_iff.1 ⟨h₁, d₁⟩
    obtain ⟨hl₂, hc₂⟩ := hinv.won_iff.1 ⟨h₂, d₂⟩
    exact Option.some.inj (((hinv.channelLocks c t₁).2 ⟨hl₁, hc₁⟩).symm.trans
      ((hinv.channelLocks c t₂).2 ⟨hl₂, hc₂⟩))
  · obtain ⟨pre', post', hsplit⟩ := List.append_of_mem hpost
    have := hins (pre ++ Event.delete t c (some l) :: pre') _ post' (by simp [hlog, hsplit]) l c'
      rfl t c
    simp at this
  · rw [hinv.countP_closes]; split <;> omega
  · -- the creator stored its result, or its own proxy call panicked, before the close
    exact (hstore pre _ post hlog t l rfl).resolve_right fun ⟨req, hpanic⟩ =>
      hret req (by rw [hlog]; exact List.mem_append_left _ hpanic)
  · rw [hinv.countP_closes, hinv.locks l]
    rcases hfin with ⟨out, hp⟩ | hp <;> simp [hp, Pc.lock]
  · rw [hinv.countP_closes]; split <;> simp_all

/-- The lifecycle on the package's test setting: call 0 leads and returns, having closed its lock
once. -/
theorem channelLocks_lock_lifecycle_test :
    ∃ s, run testHandler testCalls init (followerWokenRun (.returned ⟨some ⟨some ⟨true⟩⟩, none⟩)) =
      some s ∧ s.log.countP (Event.closes 0) = 1 := by
  obtain ⟨s, hs, h0⟩ : ∃ s, run testHandler testCalls init
      (followerWokenRun (.returned ⟨some ⟨some ⟨true⟩⟩, none⟩)) = some s ∧
      s.pc 0 = .returned .leader ⟨some ⟨some ⟨true⟩⟩, none⟩ := ⟨_, rfl, rfl⟩
  exact ⟨s, hs, (channelLocks_lock_lifecycle hs).2.2.2.2.2.2.2.2.1 0 (.inl ⟨_, h0⟩)⟩

end CentrifugoProxy
