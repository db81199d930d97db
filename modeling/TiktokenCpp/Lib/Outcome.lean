import Mathlib.Logic.Basic
import Mathlib.Tactic.Cases

/-!
# Outcomes of a C++ call

What a call of a C++ function can end in: a returned value, a thrown
exception, a failed `assert` (the process aborts), undefined behaviour (an
access out of bounds), or no end at all. Loops are run on fuel, and running
out of fuel is the `loop` outcome, so "terminates" is stated as "is not
`loop`", never assumed.

The monad sequences calls: the first outcome that is not a returned value is
the outcome of the whole.
-/

/-- Outcome of a call that returns an `α` and may throw an `ε`. -/
inductive Outcome (ε α : Type) where
  | ret (a : α)
  | throw (e : ε)
  | abort
  | ub
  | loop
  deriving DecidableEq, Repr

namespace Outcome

variable {ε α β γ : Type}

/-- Run `f` on a returned value; any other outcome ends the sequence. -/
def bind (x : Outcome ε α) (f : α → Outcome ε β) : Outcome ε β :=
  match x with
  | ret a => f a
  | throw e => throw e
  | abort => abort
  | ub => ub
  | loop => loop

instance : Monad (Outcome ε) where
  pure := ret
  bind := bind

@[simp] theorem pure_eq (a : α) : (pure a : Outcome ε α) = ret a := rfl
@[simp] theorem ret_bind (a : α) (f : α → Outcome ε β) : (ret a >>= f) = f a := rfl
@[simp] theorem throw_bind (e : ε) (f : α → Outcome ε β) : (throw e >>= f) = throw e := rfl
@[simp] theorem abort_bind (f : α → Outcome ε β) : ((abort : Outcome ε α) >>= f) = abort := rfl
@[simp] theorem ub_bind (f : α → Outcome ε β) : ((ub : Outcome ε α) >>= f) = ub := rfl
@[simp] theorem loop_bind (f : α → Outcome ε β) : ((loop : Outcome ε α) >>= f) = loop := rfl

/-- A sequence returns exactly when both of its parts do. -/
theorem bind_eq_ret {x : Outcome ε α} {f : α → Outcome ε β} {b : β} :
    (x >>= f) = ret b ↔ ∃ a, x = ret a ∧ f a = ret b := by
  cases x <;> simp

theorem bind_assoc (x : Outcome ε α) (f : α → Outcome ε β) (g : β → Outcome ε γ) :
    ((x >>= f) >>= g) = (x >>= fun a => f a >>= g) := by
  cases x <;> rfl

theorem bind_congr {x : Outcome ε α} {f g : α → Outcome ε β} (h : ∀ a, x = ret a → f a = g a) :
    (x >>= f) = (x >>= g) := by
  cases x with
  | ret a => exact h a rfl
  | _ => rfl

/-- Go on from a returned value with a call that also changes a state `s`; any
other outcome ends the sequence and leaves the state as it is. -/
def bindState {σ : Type} (x : Outcome ε α) (s : σ) (f : α → Outcome ε β × σ) : Outcome ε β × σ :=
  match x with
  | ret a => f a
  | throw e => (throw e, s)
  | abort => (abort, s)
  | ub => (ub, s)
  | loop => (loop, s)

@[simp] theorem ret_bindState {σ : Type} (a : α) (s : σ) (f : α → Outcome ε β × σ) :
    (ret a : Outcome ε α).bindState s f = f a := rfl

/-- A failed `assert` ends the run; a passed one changes nothing. -/
def assert (cond : Bool) : Outcome ε Unit :=
  if cond then ret () else abort

@[simp] theorem assert_true : (assert true : Outcome ε Unit) = ret () := rfl
@[simp] theorem assert_false : (assert false : Outcome ε Unit) = abort := rfl

theorem assert_eq_ret {cond : Bool} : (assert cond : Outcome ε Unit) = ret () ↔ cond = true := by
  cases cond <;> simp

theorem assert_bind_eq_ret {cond : Bool} {x : Outcome ε α} {a : α} :
    (assert cond >>= fun _ => x) = ret a ↔ cond = true ∧ x = ret a := by
  cases cond <;> simp

/-- The call comes to an end: it returns or throws. -/
def Finishes : Outcome ε α → Prop
  | ret _ | throw _ => True
  | _ => False

@[simp] theorem finishes_ret (a : α) : (ret a : Outcome ε α).Finishes := trivial
@[simp] theorem finishes_throw (e : ε) : (throw e : Outcome ε α).Finishes := trivial

theorem finishes_iff {x : Outcome ε α} : x.Finishes ↔ (∃ a, x = ret a) ∨ ∃ e, x = throw e := by
  cases x <;> simp [Finishes]

theorem Finishes.bind {x : Outcome ε α} {f : α → Outcome ε β} (hx : x.Finishes)
    (hf : ∀ a, x = ret a → (f a).Finishes) : (x >>= f).Finishes := by
  cases x with
  | ret a => exact hf a rfl
  | throw e => trivial
  | _ => exact hx

/-- The call throws nothing but what `P` holds of. -/
def ThrowsOnly (P : ε → Prop) : Outcome ε α → Prop
  | throw e => P e
  | _ => True

section

variable {P Q : ε → Prop}

theorem throwsOnly_iff {x : Outcome ε α} : x.ThrowsOnly P ↔ ∀ e, x = throw e → P e := by
  cases x <;> simp [ThrowsOnly]

theorem ThrowsOnly.ne_throw {x : Outcome ε α} (h : x.ThrowsOnly P) {e : ε} (he : ¬ P e) :
    x ≠ throw e := by
  rintro rfl
  exact he h

theorem ThrowsOnly.mono {x : Outcome ε α} (h : x.ThrowsOnly P) (hPQ : ∀ e, P e → Q e) :
    x.ThrowsOnly Q := by
  cases x with
  | throw e => exact hPQ e h
  | _ => trivial

theorem ThrowsOnly.bind {x : Outcome ε α} {f : α → Outcome ε β} (hx : x.ThrowsOnly P)
    (hf : ∀ a, (f a).ThrowsOnly P) : (x >>= f).ThrowsOnly P := by
  cases x with
  | ret a => exact hf a
  | throw e => exact hx
  | _ => trivial

theorem ThrowsOnly.bindState {σ : Type} {x : Outcome ε α} {s : σ} {f : α → Outcome ε β × σ}
    (hx : x.ThrowsOnly P) (hf : ∀ a, (f a).1.ThrowsOnly P) : (x.bindState s f).1.ThrowsOnly P := by
  cases x with
  | ret a => exact hf a
  | throw e => exact hx
  | _ => trivial

end

/-- The call returns, or throws something that `P` holds of. -/
def ReturnsOr (P : ε → Prop) : Outcome ε α → Prop
  | ret _ => True
  | throw e => P e
  | _ => False

section

variable {P : ε → Prop}

theorem ReturnsOr.finishes {x : Outcome ε α} (h : x.ReturnsOr P) : x.Finishes := by
  cases x with
  | ret a => trivial
  | throw e => trivial
  | _ => exact h

theorem ReturnsOr.throwsOnly {x : Outcome ε α} (h : x.ReturnsOr P) : x.ThrowsOnly P := by
  cases x with
  | throw e => exact h
  | _ => trivial

theorem ReturnsOr.bind {x : Outcome ε α} {f : α → Outcome ε β} (hx : x.ReturnsOr P)
    (hf : ∀ a, (f a).ReturnsOr P) : (x >>= f).ReturnsOr P := by
  cases x with
  | ret a => exact hf a
  | _ => exact hx

end

/-- Two calls end in the same way, and what they return is related by `R`. -/
inductive Agree (R : α → β → Prop) : Outcome ε α → Outcome ε β → Prop where
  | ret {a : α} {b : β} (h : R a b) : Agree R (ret a) (ret b)
  | throw (e : ε) : Agree R (throw e) (throw e)
  | abort : Agree R abort abort
  | ub : Agree R ub ub
  | loop : Agree R loop loop

theorem Agree.mono {R S : α → β → Prop} {x : Outcome ε α} {y : Outcome ε β} (h : Agree R x y)
    (hRS : ∀ a b, R a b → S a b) : Agree S x y := by
  cases h with
  | ret h => exact .ret (hRS _ _ h)
  | throw e => exact .throw e
  | abort => exact .abort
  | ub => exact .ub
  | loop => exact .loop

/-- Calls that go on alike from related values go on alike. -/
theorem Agree.bind {γ δ : Type} {R : α → β → Prop} {S : γ → δ → Prop} {x : Outcome ε α}
    {y : Outcome ε β} {f : α → Outcome ε γ} {g : β → Outcome ε δ} (h : Agree R x y)
    (hf : ∀ a b, R a b → Agree S (f a) (g b)) : Agree S (x >>= f) (y >>= g) := by
  cases h with
  | ret h => exact hf _ _ h
  | throw e => exact .throw e
  | abort => exact .abort
  | ub => exact .ub
  | loop => exact .loop

theorem Agree.bind_self {γ δ : Type} {S : γ → δ → Prop} {x : Outcome ε α} {f : α → Outcome ε γ}
    {g : α → Outcome ε δ} (hf : ∀ a, x = .ret a → Agree S (f a) (g a)) :
    Agree S (x >>= f) (x >>= g) := by
  cases x with
  | ret a => exact hf a rfl
  | throw e => exact .throw e
  | abort => exact .abort
  | ub => exact .ub
  | loop => exact .loop

end Outcome
