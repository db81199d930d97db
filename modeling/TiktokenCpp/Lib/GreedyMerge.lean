import Mathlib.Data.List.Basic

/-!
# Greedy merging of adjacent segments

The naive form of byte-pair merging, over any alphabet and any partial ranking
of words. A segmentation is a list of segments; one round ranks every pair of
adjacent segments by their concatenation, takes the lowest rank (the leftmost
pair on a tie) and merges that pair; the rounds stop when no pair has a rank.

* `bestPair_spec`, `bestPair_none` -- the round picks the pair it should;
* `merge_flatten`, `merge_segments`, `merge_terminal` -- a whole run keeps the
  concatenation of the segments, builds segments that are ranked or were there
  before, and ends where no adjacent pair has a rank.
-/

namespace GreedyMerge

variable {α : Type}

/-- The rank of every pair of adjacent segments, from the left. -/
def pairRanks (rank : List α → Option Nat) : List (List α) → List (Option Nat)
  | a :: b :: rest => rank (a ++ b) :: pairRanks rank (b :: rest)
  | _ => []

/-- Position and value of the lowest rank, leftmost on a tie. -/
def lowest : List (Option Nat) → Option (Nat × Nat)
  | [] => none
  | none :: rs => (lowest rs).map fun (i, r) => (i + 1, r)
  | some r :: rs =>
    match lowest rs with
    | some (i, r') => if r ≤ r' then some (0, r) else some (i + 1, r')
    | none => some (0, r)

/-- The pair to merge in this round. -/
def bestPair (rank : List α → Option Nat) (segs : List (List α)) : Option Nat :=
  (lowest (pairRanks rank segs)).map Prod.fst

/-- Merge segment `i` with the next one. -/
def mergeAt : Nat → List (List α) → List (List α)
  | 0, a :: b :: rest => (a ++ b) :: rest
  | i + 1, a :: rest => a :: mergeAt i rest
  | _, segs => segs

/-- Rounds until no pair has a rank, at most `n` of them. -/
def merge (rank : List α → Option Nat) : Nat → List (List α) → List (List α)
  | 0, segs => segs
  | n + 1, segs =>
    match bestPair rank segs with
    | none => segs
    | some i => merge rank n (mergeAt i segs)

variable {rank : List α → Option Nat}

-- ---------------------------------------------------------------------------
-- The choice of a round
-- ---------------------------------------------------------------------------

theorem lowest_none {rs : List (Option Nat)} : lowest rs = none ↔ ∀ o ∈ rs, o = none := by
  induction rs with
  | nil => simp [lowest]
  | cons o rs ih =>
    cases o with
    | none => simp [lowest, ih]
    | some r =>
      simp only [lowest]
      cases lowest rs with
      | none => simp
      | some p =>
        simp only
        split <;> simp

/-- The chosen rank is at its position, no rank is lower, and no position
before it has the same rank. -/
theorem lowest_spec {rs : List (Option Nat)} {i r : Nat} (h : lowest rs = some (i, r)) :
    rs[i]? = some (some r) ∧
      ∀ (j r' : Nat), rs[j]? = some (some r') → r ≤ r' ∧ (r' = r → i ≤ j) := by
  induction rs generalizing i r with
  | nil => simp [lowest] at h
  | cons o rs ih =>
    cases o with
    | none =>
      rw [lowest, Option.map_eq_some_iff] at h
      obtain ⟨⟨i', r₀⟩, hlow, heq⟩ := h
      cases heq
      obtain ⟨hget, hmin⟩ := ih hlow
      refine ⟨by simpa using hget, ?_⟩
      intro j r' hj
      cases j with
      | zero => simp at hj
      | succ j =>
        obtain ⟨hle, heq⟩ := hmin j r' (by simpa using hj)
        exact ⟨hle, fun h => Nat.succ_le_succ (heq h)⟩
    | some r₀ =>
      simp only [lowest] at h
      cases hlow : lowest rs with
      | none =>
        rw [hlow] at h
        cases h
        refine ⟨rfl, ?_⟩
        intro j r' hj
        cases j with
        | zero => simp_all
        | succ j =>
          have hmem : some r' ∈ rs := List.mem_of_getElem? (by simpa using hj)
          exact absurd (lowest_none.mp hlow _ hmem) (by simp)
      | some p =>
        obtain ⟨i', r₁⟩ := p
        obtain ⟨hget, hmin⟩ := ih hlow
        rw [hlow] at h
        simp only at h
        split at h
        · next hle =>
          cases h
          refine ⟨rfl, ?_⟩
          intro j r' hj
          cases j with
          | zero => simp_all
          | succ j =>
            have := (hmin j r' (by simpa using hj)).1
            exact ⟨by omega, by omega⟩
        · next hlt =>
          cases h
          refine ⟨by simpa using hget, ?_⟩
          intro j r' hj
          cases j with
          | zero =>
            have hr : r₀ = r' := by simpa using hj
            exact ⟨by omega, by omega⟩
          | succ j =>
            obtain ⟨hle, heq⟩ := hmin j r' (by simpa using hj)
            exact ⟨hle, fun h => Nat.succ_le_succ (heq h)⟩

/-- The lowest rank of a list with one more at its end. -/
theorem lowest_concat (rs : List (Option Nat)) (o : Option Nat) :
    lowest (rs ++ [o]) =
      match lowest rs, o with
      | some (i, r), some r' => if r' < r then some (rs.length, r') else some (i, r)
      | none, some r' => some (rs.length, r')
      | best, none => best := by
  induction rs with
  | nil => cases o <;> rfl
  | cons o' rs ih =>
    rw [List.cons_append]
    cases o' with
    | none =>
      rw [lowest, lowest, ih]
      cases hlow : lowest rs with
      | none => cases o <;> simp
      | some p =>
        cases o with
        | none => simp
        | some r' =>
          simp only [Option.map_some, List.length_cons]
          split <;> rfl
    | some r₀ =>
      rw [lowest, lowest, ih]
      cases hlow : lowest rs with
      | none =>
        cases o with
        | none => simp
        | some r' =>
          simp only [List.length_cons]
          rcases Nat.lt_or_ge r' r₀ with h | h
          · rw [if_neg (by omega), if_pos h]
          · rw [if_pos h, if_neg (by omega)]
      | some p =>
        obtain ⟨i, r⟩ := p
        cases o with
        | none => simp
        | some r' =>
          simp only [List.length_cons]
          by_cases h1 : r' < r <;> by_cases h2 : r₀ ≤ r
          · by_cases h3 : r' < r₀
            · simp [h1, h2, h3, Nat.not_le.mpr h3]
            · simp [h1, h2, h3, Nat.not_lt.mp h3]
          · have h3 : ¬ r₀ ≤ r' := by omega
            simp [h1, h2, h3]
          · have h3 : ¬ r' < r₀ := by omega
            simp [h1, h2, h3]
          · simp [h1, h2]

theorem length_pairRanks (segs : List (List α)) :
    (pairRanks rank segs).length = segs.length - 1 := by
  induction segs with
  | nil => rfl
  | cons a segs ih =>
    cases segs with
    | nil => rfl
    | cons b rest =>
      rw [pairRanks, List.length_cons, ih]
      simp

theorem getElem?_pairRanks {segs : List (List α)} {i : Nat} {o : Option Nat} :
    (pairRanks rank segs)[i]? = some o ↔
      ∃ a b, segs[i]? = some a ∧ segs[i + 1]? = some b ∧ o = rank (a ++ b) := by
  induction segs generalizing i with
  | nil => simp [pairRanks]
  | cons a segs ih =>
    cases segs with
    | nil => simp [pairRanks]
    | cons b rest =>
      rw [pairRanks]
      cases i with
      | zero => simp [eq_comm]
      | succ i => simpa using ih

/-- The pair a round merges is adjacent and ranked, no adjacent pair has a
lower rank, and none further left has the same. -/
theorem bestPair_spec {segs : List (List α)} {i : Nat} (h : bestPair rank segs = some i) :
    ∃ a b r, segs[i]? = some a ∧ segs[i + 1]? = some b ∧ rank (a ++ b) = some r ∧
      ∀ (j : Nat) (c d : List α) (r' : Nat), segs[j]? = some c → segs[j + 1]? = some d →
        rank (c ++ d) = some r' → r ≤ r' ∧ (r' = r → i ≤ j) := by
  rw [bestPair, Option.map_eq_some_iff] at h
  obtain ⟨⟨i', r⟩, hlow, hi⟩ := h
  cases hi
  obtain ⟨hget, hmin⟩ := lowest_spec hlow
  obtain ⟨a, b, ha, hb, hr⟩ := getElem?_pairRanks.mp hget
  refine ⟨a, b, r, ha, hb, hr.symm, ?_⟩
  intro j c d r' hc hd hr'
  exact hmin j r' (getElem?_pairRanks.mpr ⟨c, d, hc, hd, hr'.symm⟩)

/-- No adjacent pair of segments has a rank. -/
def Terminal (rank : List α → Option Nat) (segs : List (List α)) : Prop :=
  ∀ (i : Nat) (a b : List α), segs[i]? = some a → segs[i + 1]? = some b → rank (a ++ b) = none

theorem bestPair_none {segs : List (List α)} : bestPair rank segs = none ↔ Terminal rank segs := by
  rw [bestPair, Option.map_eq_none_iff, lowest_none]
  constructor
  · intro h i a b ha hb
    exact h _ (List.mem_of_getElem? (getElem?_pairRanks.mpr ⟨a, b, ha, hb, rfl⟩))
  · intro h o ho
    obtain ⟨i, hi⟩ := List.mem_iff_getElem?.mp ho
    obtain ⟨a, b, ha, hb, rfl⟩ := getElem?_pairRanks.mp hi
    exact h i a b ha hb

-- ---------------------------------------------------------------------------
-- One merge
-- ---------------------------------------------------------------------------

theorem flatten_mergeAt (i : Nat) (segs : List (List α)) :
    (mergeAt i segs).flatten = segs.flatten := by
  induction segs generalizing i with
  | nil => cases i <;> rfl
  | cons a segs ih =>
    cases i with
    | zero => cases segs <;> simp [mergeAt]
    | succ i => simp [mergeAt, ih]

theorem length_mergeAt {i : Nat} {segs : List (List α)} (h : i + 1 < segs.length) :
    (mergeAt i segs).length + 1 = segs.length := by
  induction segs generalizing i with
  | nil => simp at h
  | cons a segs ih =>
    cases i with
    | zero =>
      cases segs with
      | nil => simp at h
      | cons b rest => simp [mergeAt]
    | succ i =>
      rw [mergeAt, List.length_cons, List.length_cons, ih (by simpa using h)]

/-- Every segment after a merge is the merged pair or was there before. -/
theorem mem_mergeAt {i : Nat} {segs : List (List α)} {s a b : List α} (ha : segs[i]? = some a)
    (hb : segs[i + 1]? = some b) (hs : s ∈ mergeAt i segs) : s = a ++ b ∨ s ∈ segs := by
  induction segs generalizing i with
  | nil => simp at ha
  | cons c segs ih =>
    cases i with
    | zero =>
      cases segs with
      | nil => simp at hb
      | cons d rest =>
        simp only [mergeAt, List.mem_cons] at hs
        have hac : c = a := by simpa using ha
        have hbd : d = b := by simpa using hb
        rcases hs with rfl | hs
        · exact Or.inl (by rw [hac, hbd])
        · exact Or.inr (by simp [hs])
    | succ i =>
      simp only [mergeAt, List.mem_cons] at hs
      rcases hs with rfl | hs
      · exact Or.inr (List.mem_cons_self ..)
      · rcases ih (by simpa using ha) (by simpa using hb) hs with h | h
        · exact Or.inl h
        · exact Or.inr (List.mem_cons_of_mem _ h)

theorem bestPair_lt {segs : List (List α)} {i : Nat} (h : bestPair rank segs = some i) :
    i + 1 < segs.length := by
  obtain ⟨a, b, r, -, hb, -⟩ := bestPair_spec h
  exact (List.getElem?_eq_some_iff.mp hb).1

-- ---------------------------------------------------------------------------
-- Whole runs
-- ---------------------------------------------------------------------------

/-- Merging moves boundaries only. -/
theorem merge_flatten (n : Nat) (segs : List (List α)) :
    (merge rank n segs).flatten = segs.flatten := by
  induction n generalizing segs with
  | zero => rfl
  | succ n ih =>
    rw [merge]
    split
    · rfl
    · rw [ih, flatten_mergeAt]

/-- Every segment of a run is ranked, or one of those it started from. -/
theorem merge_segments {n : Nat} {segs : List (List α)} {s : List α}
    (hs : s ∈ merge rank n segs) : (rank s).isSome ∨ s ∈ segs := by
  induction n generalizing segs with
  | zero => exact Or.inr hs
  | succ n ih =>
    rw [merge] at hs
    split at hs
    · exact Or.inr hs
    · next i hi =>
      obtain ⟨a, b, r, ha, hb, hr, -⟩ := bestPair_spec hi
      rcases ih hs with h | h
      · exact Or.inl h
      · rcases mem_mergeAt ha hb h with rfl | h
        · exact Or.inl (by rw [hr]; rfl)
        · exact Or.inr h

/-- With as many rounds as segments a run ends where nothing can be merged. -/
theorem merge_terminal {n : Nat} {segs : List (List α)} (hn : segs.length ≤ n + 1) :
    Terminal rank (merge rank n segs) := by
  induction n generalizing segs with
  | zero =>
    intro i a b _ hb
    have := (List.getElem?_eq_some_iff.mp hb).1
    rw [merge] at this
    omega
  | succ n ih =>
    rw [merge]
    split
    · next h => exact bestPair_none.mp h
    · next i hi =>
      apply ih
      have := length_mergeAt (bestPair_lt hi)
      omega

end GreedyMerge
