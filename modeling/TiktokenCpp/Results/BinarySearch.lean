import TiktokenCpp.Model.Utils

/-!
# Binary search

`BinarySearch` finds an element with the target value whenever there is one.
When there is none it still gives back an optional that holds a token, the
default one, so a caller cannot tell the miss from a hit.

Main results:

* `binarySearchLoop_spec` -- how the loop ends, from the interval invariant;
* `looksUp_iff` -- the search is a correct lookup exactly for the values that
  are there.
-/

namespace TiktokenCpp

section

variable {τ σ : Type} [Inhabited σ] {value : τ → Int} {token : τ → σ} {container : List τ}
  {target : Int} {left right : Nat}

/-- The elements in increasing order of their values, equal ones allowed. -/
def SortedByValue (value : τ → Int) (container : List τ) : Prop :=
  container.Pairwise fun x y => value x ≤ value y

instance : Decidable (SortedByValue value container) := List.instDecidablePairwise ..

theorem SortedByValue.le (h : SortedByValue value container) {i j : Nat} {x y : τ}
    (hij : i ≤ j) (hx : container[i]? = some x) (hy : container[j]? = some y) :
    value x ≤ value y := by
  obtain ⟨hi, rfl⟩ := List.getElem?_eq_some_iff.mp hx
  obtain ⟨hj, rfl⟩ := List.getElem?_eq_some_iff.mp hy
  rcases Nat.lt_or_eq_of_le hij with hlt | rfl
  · exact List.pairwise_iff_getElem.mp h i j hi hj hlt
  · exact le_refl _

/-- The invariant of the loop: an element with the target value stands in the
half-open interval from `left` to `right`. -/
structure Interval (value : τ → Int) (container : List τ) (target : Int) (left right : Nat) :
    Prop where
  bound : right ≤ container.length
  below : ∀ i x, container[i]? = some x → i < left → value x < target
  above : ∀ i x, container[i]? = some x → right ≤ i → target < value x

theorem Interval.whole : Interval value container target 0 container.length where
  bound := Nat.le_refl _
  below := by
    intro i x _ hi
    omega
  above := by
    intro i x hx hi
    have := (List.getElem?_eq_some_iff.mp hx).1
    omega

/-- An element above the target cuts off what follows it. -/
theorem Interval.cutRight (h : Interval value container target left right)
    (hsorted : SortedByValue value container) {mid : Nat} {x : τ}
    (hx : container[mid]? = some x) (hgt : target < value x) :
    Interval value container target left mid where
  bound := Nat.le_of_lt (List.getElem?_eq_some_iff.mp hx).1
  below := h.below
  above := by
    intro i y hy hi
    have hle := hsorted.le hi hx hy
    omega

/-- An element below the target cuts off what precedes it. -/
theorem Interval.cutLeft (h : Interval value container target left right)
    (hsorted : SortedByValue value container) {mid : Nat} {x : τ}
    (hx : container[mid]? = some x) (hlt : value x < target) :
    Interval value container target (mid + 1) right where
  bound := h.bound
  below := by
    intro i y hy hi
    have hle := hsorted.le (show i ≤ mid by omega) hy hx
    omega
  above := h.above

/-- An empty interval leaves no place for the target value. -/
theorem Interval.miss (h : Interval value container target left right) (hle : right ≤ left) :
    ∀ x ∈ container, value x ≠ target := by
  intro x hx heq
  obtain ⟨i, hi⟩ := List.mem_iff_getElem?.mp hx
  have hleft := mt (h.below i x hi)
  have hright := mt (h.above i x hi)
  omega

/-- **How the loop ends**: on an element with the target value, or with the
default token when there is none. The interval gets shorter in every round. -/
theorem binarySearchLoop_spec (token : τ → σ) (hsorted : SortedByValue value container) {fuel : Nat}
    (h : Interval value container target left right) (hfuel : right - left ≤ fuel) :
    (∃ x ∈ container, value x = target ∧
      binarySearchLoop value token container target fuel left right = .ret (some (token x))) ∨
    ((∀ x ∈ container, value x ≠ target) ∧
      binarySearchLoop value token container target fuel left right = .ret (some default)) := by
  induction fuel generalizing left right with
  | zero =>
    exact Or.inr ⟨h.miss (by omega), by rw [binarySearchLoop, if_neg (by omega)]⟩
  | succ fuel ih =>
    rw [binarySearchLoop]
    by_cases hlt : left < right
    · have hbound := h.bound
      have hmid : left + (right - left) / 2 < container.length := by omega
      obtain ⟨x, hx⟩ : ∃ x, container[left + (right - left) / 2]? = some x :=
        ⟨_, List.getElem?_eq_getElem hmid⟩
      rw [if_pos hlt]
      dsimp only
      rw [hx]
      dsimp only
      rcases lt_trichotomy (value x) target with hless | heq | hgreater
      · rw [if_neg (by omega), if_neg (by omega), if_pos hless]
        exact ih (h.cutLeft hsorted hx hless) (by omega)
      · rw [if_pos heq]
        exact Or.inl ⟨x, List.mem_of_getElem? hx, heq, rfl⟩
      · rw [if_neg (by omega), if_pos hgreater]
        exact ih (h.cutRight hsorted hx hgreater) (by omega)
    · rw [if_neg hlt]
      exact Or.inr ⟨h.miss (by omega), rfl⟩

/-- The outcome of a correct lookup: the token of some element with the target
value, and an empty optional when there is none. -/
structure LooksUp (value : τ → Int) (token : τ → σ) (container : List τ) (target : Int)
    (out : Run (Option σ)) : Prop where
  hit : (∃ x ∈ container, value x = target) →
    ∃ x ∈ container, value x = target ∧ out = .ret (some (token x))
  miss : (∀ x ∈ container, value x ≠ target) → out = .ret none

/-- **`BinarySearch` comes to an end within bounds, and it is a correct lookup
exactly when the value is there.** -/
theorem looksUp_iff (hsorted : SortedByValue value container) (token : τ → σ) (target : Int)
    {fuel : Nat} (hfuel : container.length ≤ fuel) :
    (∃ r, binarySearch value token container target fuel = .ret r) ∧
      (LooksUp value token container target (binarySearch value token container target fuel) ↔
        ∃ x ∈ container, value x = target) := by
  unfold binarySearch
  rcases binarySearchLoop_spec token hsorted
      (show Interval value container target 0 container.length from Interval.whole) hfuel with
    ⟨x, hx, hvalue, hret⟩ | ⟨hmiss, hret⟩
  · refine ⟨⟨_, hret⟩, iff_of_true ⟨fun _ => ⟨x, hx, hvalue, hret⟩, ?_⟩ ⟨x, hx, hvalue⟩⟩
    intro hno
    exact absurd hvalue (hno x hx)
  · refine ⟨⟨_, hret⟩, iff_of_false ?_ ?_⟩
    · intro hlooksUp
      have hnone := hlooksUp.miss hmiss
      rw [hret] at hnone
      simp at hnone
    · rintro ⟨x, hx, hvalue⟩
      exact hmiss x hx hvalue

theorem looksUp_iff_three :
    LooksUp Prod.fst Prod.snd [((1 : Int), 10), (2, 20), (3, 30)] 3
      (binarySearch Prod.fst Prod.snd [((1 : Int), 10), (2, 20), (3, 30)] 3 3) :=
  (looksUp_iff (by decide : SortedByValue Prod.fst [((1 : Int), 10), (2, 20), (3, 30)])
    Prod.snd 3 (Nat.le_refl 3)).2.mpr ⟨(3, 30), by decide, rfl⟩

/-- A value that is not there is answered with the token `0`, not with nothing. -/
theorem binarySearch_miss :
    binarySearch Prod.fst Prod.snd [((1 : Int), 10), (3, 30)] 2 2 = .ret (some 0) ∧
      ¬ LooksUp Prod.fst Prod.snd [((1 : Int), 10), (3, 30)] 2
        (binarySearch Prod.fst Prod.snd [((1 : Int), 10), (3, 30)] 2 2) := by
  have hret : binarySearch Prod.fst Prod.snd [((1 : Int), 10), (3, 30)] 2 2 = .ret (some 0) := by
    decide
  refine ⟨hret, ?_⟩
  intro hlooksUp
  have hnone := hlooksUp.miss (by decide)
  rw [hret] at hnone
  simp at hnone

end

end TiktokenCpp
