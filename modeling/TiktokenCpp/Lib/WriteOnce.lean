import Mathlib.Data.List.Basic

/-!
# Write-once stores

A store from keys to values takes what it is offered at the keys that hold
nothing, and never changes a value it holds. After a run of offers a key holds
what it held at first, or else the first value that was offered for it
(`run_apply`).
-/

namespace WriteOnce

variable {K V : Type}

/-- What is offered is taken where nothing is held. -/
def fill (s offer : K → Option V) : K → Option V := fun k => (s k).or (offer k)

/-- The store after a list of offers. -/
def run (s : K → Option V) (offers : List (K → Option V)) : K → Option V := offers.foldl fill s

/-- An offer for a single key. -/
def single [DecidableEq K] (key : K) (v : Option V) : K → Option V :=
  fun k => if k = key then v else none

theorem run_cons (s offer : K → Option V) (offers : List (K → Option V)) :
    run s (offer :: offers) = run (fill s offer) offers := rfl

theorem run_append (s : K → Option V) (offers offers' : List (K → Option V)) :
    run s (offers ++ offers') = run (run s offers) offers' :=
  List.foldl_append ..

theorem fill_single_self [DecidableEq K] (s : K → Option V) (key : K) (v : Option V) :
    fill s (single key v) key = (s key).or v := by
  rw [fill, single, if_pos rfl]

theorem fill_single_of_ne [DecidableEq K] (s : K → Option V) {key k : K} (hk : k ≠ key)
    (v : Option V) : fill s (single key v) k = s k := by
  rw [fill, single, if_neg hk, Option.or_none]

theorem fill_single_none [DecidableEq K] (s : K → Option V) (key : K) :
    fill s (single key none) = s := by
  funext k
  by_cases hk : k = key
  · rw [hk, fill_single_self, Option.or_none]
  · rw [fill_single_of_ne s hk]

theorem fill_single_of_some [DecidableEq K] {s : K → Option V} {key : K} {v : V}
    (h : s key = some v) (o : Option V) : fill s (single key o) = s := by
  funext k
  by_cases hk : k = key
  · rw [hk, fill_single_self, h, Option.some_or]
  · rw [fill_single_of_ne s hk]

/-- **The first value wins.** -/
theorem run_apply (s : K → Option V) (offers : List (K → Option V)) (k : K) :
    run s offers k = (s k).or (offers.findSome? fun offer => offer k) := by
  induction offers generalizing s with
  | nil =>
    rw [List.findSome?_nil, Option.or_none]
    rfl
  | cons offer offers ih =>
    rw [run_cons, ih, fill, List.findSome?_cons, Option.or_assoc]
    cases offer k <;> rfl

/-- A key that no offer is for holds what it held. -/
theorem run_of_forall_none (s : K → Option V) {offers : List (K → Option V)} {k : K}
    (h : ∀ offer ∈ offers, offer k = none) : run s offers k = s k := by
  rw [run_apply, List.findSome?_eq_none_iff.mpr h, Option.or_none]

/-- The same with the offers in groups. -/
theorem run_flatMap_apply {ι : Type} (s : K → Option V) (is : List ι)
    (offers : ι → List (K → Option V)) (k : K) :
    run s (is.flatMap offers) k =
      (s k).or (is.findSome? fun i => (offers i).findSome? fun offer => offer k) := by
  rw [run_apply]
  congr 1
  induction is with
  | nil => rfl
  | cons i is ih =>
    rw [List.flatMap_cons, List.findSome?_append, ih, List.findSome?_cons]
    cases (offers i).findSome? fun offer => offer k <;> rfl

/-- When all that is found is the one value, it is the first. -/
theorem findSome?_eq {ι : Type} {is : List ι} {f : ι → Option V} {v : Option V}
    (hf : ∀ i ∈ is, f i = none ∨ f i = v) (hv : ∃ i ∈ is, f i = v) : is.findSome? f = v := by
  rcases v with _ | v
  · rw [List.findSome?_eq_none_iff]
    exact fun i hi => (hf i hi).elim id id
  · induction is with
    | nil =>
      obtain ⟨i, hi, -⟩ := hv
      cases hi
    | cons j is ih =>
      obtain ⟨hj, hf⟩ := List.forall_mem_cons.mp hf
      rw [List.findSome?_cons]
      rcases hj with hj | hj
      · obtain ⟨i, hi, hfi⟩ := hv
        have hne : i ≠ j := by
          rintro rfl
          rw [hj] at hfi
          cases hfi
        rw [hj]
        exact ih hf ⟨i, (List.mem_cons.mp hi).resolve_left hne, hfi⟩
      · rw [hj]

/-- With one offer for each key, nothing but that offer matters. -/
theorem run_singles {ι : Type} [DecidableEq K] (s : K → Option V) {key : ι → K} (v : ι → Option V)
    {is : List ι} (hinj : ∀ i ∈ is, ∀ j ∈ is, key i = key j → i = j) {i : ι} (hi : i ∈ is) :
    run s (is.map fun i => single (key i) (v i)) (key i) = (s (key i)).or (v i) := by
  rw [run_apply, List.findSome?_map]
  congr 1
  refine findSome?_eq ?_ ⟨i, hi, if_pos rfl⟩
  intro j hj
  by_cases hkey : key i = key j
  · obtain rfl := hinj i hi j hj hkey
    exact Or.inr (if_pos rfl)
  · exact Or.inl (if_neg hkey)

end WriteOnce
