import CentrifugoProxy.Proof.Preservation

/-!
# Reading the history

The invariant's `history` field says that the log, seen from one call, is the path of that call's
code up to where it is. This turns it into what the main theorems are stated with: whether an
event is in the log, how many of a kind it holds, and what comes before what.

Order is a property of the whole log, so it is proved step by step: `Ordered p log` says that
each event of `log` satisfies `p` with the events before it, and a step keeps it when its one new
event satisfies `p` with the whole old log.
-/

namespace CentrifugoProxy

variable {P : Type} {h : CacheEmptyHandler P} {calls : List HandleCall} {s : State} {t : Nat}
  {call : HandleCall}

/-! ### The log through each call's path -/

theorem Pc.caller_of_mem_history {pc : Pc} {e : Event} (he : e ∈ pc.history t call) :
    e.caller = t := by
  cases pc with
  | deleting ret => cases ret <;> simp [Pc.history, Pc.wonHistory] at he <;>
      rcases he with rfl | rfl | rfl <;> rfl
  | closing ret => cases ret <;> simp [Pc.history, Pc.wonHistory] at he <;>
      rcases he with rfl | rfl | rfl | rfl <;> rfl
  | returned site out => cases site <;> simp [Pc.history, Pc.wonHistory] at he <;>
      rcases he with rfl | rfl | rfl | rfl | rfl <;> rfl
  | panicked site => cases site <;> simp [Pc.history, Pc.wonHistory] at he <;>
      rcases he with rfl | rfl | rfl | rfl | rfl <;> rfl
  | _ => simp [Pc.history] at he <;> rcases he with rfl | rfl <;> rfl

theorem Inv.mem_log_iff (hinv : Inv calls s) (hcall : calls[t]? = some call) {e : Event}
    (he : e.caller = t) : e ∈ s.log ↔ e ∈ (s.pc t).history t call := by
  have hmem := congrArg (e ∈ ·) (hinv.history t)
  simp only [historyOf, hcall, List.mem_filter, he, beq_self_eq_true, and_true] at hmem
  exact Iff.of_eq hmem

theorem Inv.mem_history_of_mem_log (hinv : Inv calls s) {e : Event} (he : e ∈ s.log) :
    ∃ call, calls[e.caller]? = some call ∧ e ∈ (s.pc e.caller).history e.caller call := by
  have hmem := congrArg (e ∈ ·) (hinv.history e.caller)
  simp only [List.mem_filter, he, beq_self_eq_true, and_self, eq_iff_iff, true_iff] at hmem
  unfold historyOf at hmem
  split at hmem
  · exact ⟨_, ‹_›, hmem⟩
  · simp at hmem

theorem Inv.countP_log (hinv : Inv calls s) {q : Event → Bool}
    (hq : ∀ e ∈ s.log, q e → e.caller = t) :
    s.log.countP q = (historyOf calls t (s.pc t)).countP q := by
  rw [← hinv.history t, List.countP_filter]
  refine List.countP_congr fun e he => ?_
  constructor
  · intro hqe; simp [hqe, hq e he hqe]
  · intro hqe; simp_all

theorem Inv.filter_log (hinv : Inv calls s) {q : Event → Bool} (hq : ∀ e, q e → e.caller = t) :
    s.log.filter q = (historyOf calls t (s.pc t)).filter q := by
  rw [← hinv.history t, List.filter_filter]
  refine List.filter_congr fun e _ => ?_
  cases hqe : q e
  · simp
  · simp [hq e hqe]

/-! ### What a step appends -/

namespace State

variable {t : Nat} {call : HandleCall}

theorem getOrCreateLock_log (s : State) :
    (s.getOrCreateLock t call).log =
      s.log ++ [.loadOrStore t call.channel (s.channelLocks call.channel).isSome] := by
  unfold getOrCreateLock; split <;> simp_all

theorem dispatch_log {s s' : State} {req : NotifyCacheEmptyRequest} {ret : Completion}
    (hs : s.dispatch t req ret = some s') : s'.log = s.log ++ [.dispatch t req ret] := by
  unfold dispatch at hs; split at hs <;> cases hs <;> rfl

@[simp] theorem store_log (s : State) (out : Outcome) :
    (s.store t out).log = s.log ++ [.store t out] := rfl

@[simp] theorem delete_log (s : State) (c : String) (ret : Option Outcome) :
    (s.delete t c ret).log = s.log ++ [.delete t c (s.channelLocks c)] := rfl

theorem close_log (s : State) (ret : Option Outcome) (hopen : (s.locks t).done = false) :
    (s.close t ret).log = s.log ++ [.close t t] := by
  simp [close, hopen]

end State

theorem Inv.open_of_closing (hinv : Inv calls s) {ret : Option Outcome}
    (hpc : s.pc t = .closing ret) : (s.locks t).done = false := by
  rw [hinv.locks t, hpc]; cases ret <;> rfl

/-! ### Order in the log -/

/-- Each event of `log` satisfies `p` with the events before it. -/
def Ordered (p : List Event → Event → Prop) (log : List Event) : Prop :=
  ∀ pre e post, log = pre ++ e :: post → p pre e

theorem ordered_nil (p : List Event → Event → Prop) : Ordered p [] := by
  intro pre e post h
  simp at h

theorem ordered_append {p : List Event → Event → Prop} {log : List Event} {e : Event} :
    Ordered p (log ++ [e]) ↔ Ordered p log ∧ p log e := by
  constructor
  · intro hord
    exact ⟨fun pre e' post h => hord pre e' (post ++ [e]) (by simp [h]),
      hord log e [] rfl⟩
  · rintro ⟨hord, hlast⟩ pre e' post h
    rcases List.eq_nil_or_concat post with rfl | ⟨post, e'', rfl⟩
    · obtain ⟨rfl, he⟩ := List.append_inj' h rfl
      obtain rfl : e = e' := by simpa using he
      exact hlast
    · rw [List.concat_eq_append, ← List.cons_append, ← List.append_assoc] at h
      exact hord pre e' post (List.append_inj' h rfl).1

/-! ### Positions after one call moves -/

theorem update_pc_all {f : Nat → Pc} {q : Pc → Bool} {b : Bool} (hf : ∀ t, q (f t) = b)
    {t : Nat} {pc : Pc} (hpc : q pc = b) : ∀ u, q (Function.update f t pc u) = b := by
  intro u
  rcases eq_or_ne u t with rfl | hne
  · simpa using hpc
  · simpa [Function.update_noteq hne] using hf u

end CentrifugoProxy
