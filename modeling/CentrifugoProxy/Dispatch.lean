import Mathlib.Data.List.Perm.Basic

/-!
# Dispatching a cache-empty notification

`handleCacheEmpty` ranges over the registry of cache-empty proxies and calls `ProxyCacheEmpty` on
the first entry that is not nil. An error ends the dispatch with no fallback to a later entry,
and a registry with no usable entry yields a default response rather than an error.

Go ranges over a map in no fixed order, and each range may see another one. The model therefore
takes the entries in the order the range visits them, and proves that what a dispatch does is
decided by the first non-nil entry of that order alone. The proxies themselves are outside the
code: `proxyCacheEmpty p ctx req` says how the call `p.ProxyCacheEmpty(ctx, req)` ends.
-/

namespace CentrifugoProxy

/-- `proxyproto.NotifyCacheEmptyRequest`. -/
structure NotifyCacheEmptyRequest where
  channel : String
  deriving DecidableEq, Repr

/-- `proxyproto.NotifyCacheEmptyResult`. -/
structure NotifyCacheEmptyResult where
  populated : Bool
  deriving DecidableEq, Repr

/-- `proxyproto.NotifyCacheEmptyResponse`; its `Result` is a pointer, `none` when nil. -/
structure NotifyCacheEmptyResponse where
  result : Option NotifyCacheEmptyResult
  deriving DecidableEq, Repr

/-- A Go `error`. The model keeps where an error came from: a failure a proxy reported, or
`ctx.Err()` of the context numbered `ctx`, which is not nil once that context is done. -/
inductive ProxyError where
  | backend (code : Nat)
  | contextDone (ctx : Nat)
  deriving DecidableEq, Repr

/-- The pair `(*proxyproto.NotifyCacheEmptyResponse, error)`; `none` is nil. -/
structure Outcome where
  resp : Option NotifyCacheEmptyResponse
  err : Option ProxyError
  deriving DecidableEq, Repr

/-- How a Go call that yields such a pair ends: it returns the pair, or it panics. -/
inductive Completion where
  | returned (out : Outcome)
  | panicked
  deriving DecidableEq, Repr

/-- The response `handleCacheEmpty` makes up when no proxy is configured. -/
def emptyResponse : Outcome :=
  { resp := some { result := some { populated := false } }, err := none }

variable {P : Type}

/-- `handleCacheEmpty(ctx, req, proxies)`, the registry's entries listed in the order the range
visits them. The first component lists the `ProxyCacheEmpty` calls made, with their request. -/
def handleCacheEmpty (proxyCacheEmpty : P → Nat → NotifyCacheEmptyRequest → Completion)
    (ctx : Nat) (req : NotifyCacheEmptyRequest) :
    List (String × Option P) → List (P × NotifyCacheEmptyRequest) × Completion
  | [] => ([], .returned emptyResponse)
  | (_, none) :: proxies => handleCacheEmpty proxyCacheEmpty ctx req proxies
  | (_, some cacheEmptyProxy) :: _ =>
    ([(cacheEmptyProxy, req)],
      match proxyCacheEmpty cacheEmptyProxy ctx req with
      | .returned ⟨_, some err⟩ => .returned ⟨none, some err⟩
      | .returned ⟨resp, none⟩ => .returned ⟨resp, none⟩
      | .panicked => .panicked)

def firstProxy (proxies : List (String × Option P)) : Option P :=
  (proxies.filterMap Prod.snd).head?

/-- What one `ProxyCacheEmpty` answer makes of the dispatch: a non-nil error drops the response. -/
def Completion.keepErrorOrResponse : Completion → Completion
  | .returned out => .returned (if out.err.isSome then ⟨none, out.err⟩ else ⟨out.resp, none⟩)
  | .panicked => .panicked

/-- The range calls the first non-nil entry, once, with the request, and nothing else. -/
theorem handleCacheEmpty_eq_firstProxy
    (proxyCacheEmpty : P → Nat → NotifyCacheEmptyRequest → Completion)
    (ctx : Nat) (req : NotifyCacheEmptyRequest) (proxies : List (String × Option P)) :
    handleCacheEmpty proxyCacheEmpty ctx req proxies =
      match firstProxy proxies with
      | none => ([], .returned emptyResponse)
      | some p => ([(p, req)], (proxyCacheEmpty p ctx req).keepErrorOrResponse) := by
  induction proxies with
  | nil => rfl
  | cons entry proxies ih =>
      obtain ⟨name, _ | p⟩ := entry
      · simpa [handleCacheEmpty, firstProxy] using ih
      · simp only [handleCacheEmpty, firstProxy, List.filterMap_cons, List.head?_cons]
        rcases proxyCacheEmpty p ctx req with ⟨resp, _ | err⟩ | _ <;> rfl

theorem firstProxy_perm {proxies order : List (String × Option P)}
    (hone : (proxies.filterMap Prod.snd).length ≤ 1) (horder : order.Perm proxies) :
    firstProxy order = firstProxy proxies := by
  have hperm := horder.filterMap Prod.snd
  unfold firstProxy
  rcases hnil : proxies.filterMap Prod.snd with _ | ⟨p, _ | ⟨q, rest⟩⟩
  · rw [hnil] at hperm
    rw [List.Perm.nil_eq hperm.symm]
  · rw [hnil] at hperm
    rw [hperm.eq_singleton]
  · simp [hnil] at hone

/-- **Dispatch.** For every registry and every order a range may visit it in, `handleCacheEmpty`
calls exactly the first non-nil entry, once, with the given request and context, and keeps its
error or else its response; with no usable entry it calls nothing and returns the empty result.
A registry with at most one usable entry is dispatched alike in every order. -/
theorem handleCacheEmpty_first_usable_entry
    (proxyCacheEmpty : P → Nat → NotifyCacheEmptyRequest → Completion)
    (ctx : Nat) (req : NotifyCacheEmptyRequest) (proxies : List (String × Option P)) :
    (∀ order : List (String × Option P), order.Perm proxies →
      handleCacheEmpty proxyCacheEmpty ctx req order =
        match (order.filterMap Prod.snd).head? with
        | none => ([], .returned ⟨some { result := some { populated := false } }, none⟩)
        | some p => ([(p, req)],
            match proxyCacheEmpty p ctx req with
            | .returned out =>
                .returned (if out.err.isSome then ⟨none, out.err⟩ else ⟨out.resp, none⟩)
            | .panicked => .panicked)) ∧
    ((proxies.filterMap Prod.snd).length ≤ 1 →
      ∀ order₁ order₂ : List (String × Option P), order₁.Perm proxies → order₂.Perm proxies →
        handleCacheEmpty proxyCacheEmpty ctx req order₁ =
          handleCacheEmpty proxyCacheEmpty ctx req order₂) := by
  refine ⟨fun order _ => ?_, fun hone order₁ order₂ h₁ h₂ => ?_⟩
  · rw [handleCacheEmpty_eq_firstProxy]
    unfold firstProxy
    rcases (order.filterMap Prod.snd).head? with _ | p
    · rfl
    · rcases proxyCacheEmpty p ctx req <;> rfl
  · rw [handleCacheEmpty_eq_firstProxy, handleCacheEmpty_eq_firstProxy,
      firstProxy_perm hone h₁, firstProxy_perm hone h₂]

/-- Two orders of a registry with one usable entry and a nil one dispatch alike. -/
theorem handleCacheEmpty_nil_entry_either_order :
    (([("a", some ()), ("b", none)] : List (String × Option Unit)).filterMap Prod.snd).length ≤ 1 ∧
      handleCacheEmpty (fun _ _ _ => .panicked) 0 ⟨"c"⟩ [("b", none), ("a", some ())] =
        handleCacheEmpty (fun _ _ _ => .panicked) 0 ⟨"c"⟩ [("a", some ()), ("b", none)] :=
  ⟨by decide, (handleCacheEmpty_first_usable_entry (fun _ _ _ => .panicked) 0 ⟨"c"⟩
    [("a", some ()), ("b", none)]).2 (by decide) _ _ (by decide) (by decide)⟩

end CentrifugoProxy
