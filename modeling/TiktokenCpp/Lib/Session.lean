import Mathlib.Data.List.Basic

/-!
# Sessions

A machine takes one request at a time, replies to it and may change its state.
A session is its run over a list of requests. What one call preserves, a whole
session does (`session_invariant`), and a machine whose replies do not depend
on which of its invariant states it is in answers every request of a session
like the first one (`session_replies`).
-/

namespace Session

variable {σ ι ρ : Type}

/-- The replies to a list of requests, and the state after the last of them. -/
def session (call : σ → ι → ρ × σ) : σ → List ι → List ρ × σ
  | s, [] => ([], s)
  | s, op :: ops =>
    ((call s op).1 :: (session call (call s op).2 ops).1, (session call (call s op).2 ops).2)

variable {call : σ → ι → ρ × σ} {Inv : σ → Prop}

/-- An invariant of every call is one of every session. -/
theorem session_invariant (hcall : ∀ s op, Inv s → Inv (call s op).2) {s : σ} (h : Inv s)
    (ops : List ι) : Inv (session call s ops).2 := by
  induction ops generalizing s with
  | nil => exact h
  | cons op ops ih => exact ih (hcall s op h)

/-- When every invariant state replies like the state `fresh`, so does every
state of a session. -/
theorem session_replies {fresh : σ} (hcall : ∀ s op, Inv s → Inv (call s op).2)
    (hreply : ∀ s op, Inv s → (call s op).1 = (call fresh op).1) {s : σ} (h : Inv s)
    (ops : List ι) : (session call s ops).1 = ops.map fun op => (call fresh op).1 := by
  induction ops generalizing s with
  | nil => rfl
  | cons op ops ih =>
    rw [session, List.map_cons, ih (hcall s op h)]
    show (call s op).1 :: _ = _
    rw [hreply s op h]

end Session
