import Mathlib.Data.Nat.ModEq
import Mathlib.Algebra.Ring.Parity
import Mathlib.Data.Nat.Prime.Basic

/-!
# The steps of a hash function

Multiplication by an odd number, and adding or `xor`ing a shifted copy, lose
nothing of a machine word: each of them is injective, for every word length. A
fold of injective steps is injective in its start.
-/

namespace BitMixing

open Function

variable {w : Nat}

theorem injective_of_toNat {f : BitVec w → BitVec w} {c : Nat} (hc : Odd c)
    (hf : ∀ x, (f x).toNat = x.toNat * c % 2 ^ w) : Injective f := by
  intro x y h
  have hmod : x.toNat * c ≡ y.toNat * c [MOD 2 ^ w] := by
    rw [Nat.ModEq, ← hf, ← hf, h]
  have hcoprime : Nat.gcd (2 ^ w) c = 1 := (Nat.coprime_two_left.mpr hc).pow_left w
  have hcancel := hmod.cancel_right_of_coprime hcoprime
  rw [Nat.ModEq, Nat.mod_eq_of_lt x.isLt, Nat.mod_eq_of_lt y.isLt] at hcancel
  exact BitVec.eq_of_toNat_eq hcancel

/-- Multiplication by an odd number loses nothing. -/
theorem mul_injective {c : BitVec w} (hc : Odd c.toNat) : Injective (· * c) :=
  injective_of_toNat hc fun _ => BitVec.toNat_mul ..

/-- Adding a copy that is shifted up loses nothing. -/
theorem add_shiftLeft_injective {k : Nat} (hk : 0 < k) :
    Injective fun x : BitVec w => x + (x <<< k) := by
  have hodd : Odd (1 + 2 ^ k) := by
    rw [add_comm]
    exact (Nat.even_pow.mpr ⟨even_two, hk.ne'⟩).add_one
  refine injective_of_toNat hodd ?_
  intro x
  rw [BitVec.toNat_add, BitVec.toNat_shiftLeft, Nat.shiftLeft_eq, Nat.add_mod_mod, Nat.mul_add,
    Nat.mul_one]

/-- `xor` with a copy that is shifted down loses nothing: the bits come back one
by one from the top. -/
theorem xor_ushiftRight_injective {k : Nat} (hk : 0 < k) :
    Injective fun x : BitVec w => x ^^^ (x >>> k) := by
  intro x y h
  have hbit (i : Nat) : (x.getLsbD i ^^ x.getLsbD (k + i)) = (y.getLsbD i ^^ y.getLsbD (k + i)) := by
    have hi := congrArg (BitVec.getLsbD · i) h
    simpa only [BitVec.getLsbD_xor, BitVec.getLsbD_ushiftRight] using hi
  -- induction on the distance from the top
  have htop (d : Nat) : ∀ i, w ≤ i + d → x.getLsbD i = y.getLsbD i := by
    induction d with
    | zero =>
      intro i hi
      rw [BitVec.getLsbD_of_ge x i hi, BitVec.getLsbD_of_ge y i hi]
    | succ d ih =>
      intro i hi
      have h := hbit i
      rw [ih (k + i) (by omega)] at h
      simpa using h
  exact BitVec.eq_of_getLsbD_eq fun i _ => htop w i (Nat.le_add_left w i)

theorem xor_injective (c : BitVec w) : Injective (· ^^^ c) := by
  intro x y h
  exact (BitVec.xor_left_inj c).mp h

/-- A fold whose steps are injective is injective in its start. -/
theorem foldl_injective {σ β : Type} {step : σ → β → σ} (hstep : ∀ b, Injective (step · b))
    (bs : List β) : Injective fun s => bs.foldl step s := by
  induction bs with
  | nil => exact injective_id
  | cons b bs ih => exact ih.comp (hstep b)

end BitMixing
