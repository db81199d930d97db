import TiktokenCpp.Lib.MergeLocality

/-!
# Greedy merging and its ranking

What a run does with the low ranks it does first: a run of the whole ranking is
a run of its low part, and then a run from where that one ends. So a ranking
that grows at its upper end merges further what was merged before, and the words
that training puts into a ranking are merged to themselves.

* `run_below` -- the low ranks come first;
* `run_groups` -- a run puts segments together and does nothing else;
* `Trained.segments_self` -- a word of a trained ranking is one segment.
-/

namespace GreedyMerge

variable {α : Type} {rank : List α → Option Nat}

-- ---------------------------------------------------------------------------
-- The low ranks
-- ---------------------------------------------------------------------------

/-- The part of a ranking below a bound. -/
def below (bound : Nat) (rank : List α → Option Nat) (w : List α) : Option Nat :=
  (rank w).filter (· < bound)

theorem below_eq_some_iff {bound : Nat} {w : List α} {r : Nat} :
    below bound rank w = some r ↔ rank w = some r ∧ r < bound := by
  rw [below, Option.filter_eq_some_iff, decide_eq_true_eq]

/-- The best pair of the low part is the best pair. -/
theorem bestPair_below {bound : Nat} {segs : List (List α)} {i : Nat}
    (h : bestPair (below bound rank) segs = some i) : bestPair rank segs = some i := by
  rw [bestPair_eq_some_iff] at h ⊢
  obtain ⟨a, b, r, ha, hb, hr, hmin⟩ := h
  obtain ⟨hrank, hlow⟩ := below_eq_some_iff.mp hr
  refine ⟨a, b, r, ha, hb, hrank, ?_⟩
  intro j c d r' hc hd hr'
  rcases Nat.lt_or_ge r' bound with hlow' | hhigh
  · exact hmin j c d r' hc hd (below_eq_some_iff.mpr ⟨hr', hlow'⟩)
  · exact ⟨by omega, fun heq => by omega⟩

/-- **The low ranks are merged first.** -/
theorem run_below (bound : Nat) (segs : List (List α)) :
    run rank (run (below bound rank) segs) = run rank segs := by
  induction segs using run_induction (below bound rank) with
  | none segs hbest => rw [run_none hbest]
  | some segs i hbest ih => rw [run_some hbest, ih, run_some (bestPair_below hbest)]

theorem run_segments_below (bound : Nat) (w : List α) :
    run rank (segments (below bound rank) w) = segments rank w :=
  run_below bound (atoms w)

theorem run_singleton (a : List α) : run rank [a] = [a] := run_none rfl

theorem run_pair {a b : List α} {r : Nat} (h : rank (a ++ b) = some r) : run rank [a, b] = [a ++ b] := by
  have hbest : bestPair rank [a, b] = some 0 := by
    rw [bestPair, pairRanks, h]
    rfl
  rw [run_some hbest]
  exact run_singleton (a ++ b)

-- ---------------------------------------------------------------------------
-- Groups
-- ---------------------------------------------------------------------------

/-- `Groups ys xs`: every segment of `ys` is a group of adjacent segments of
`xs`, put together. -/
inductive Groups : List (List α) → List (List α) → Prop where
  | nil : Groups [] []
  | single {x : List α} {ys xs : List (List α)} (rest : Groups ys xs) : Groups (x :: ys) (x :: xs)
  | join {x y : List α} {ys xs : List (List α)} (rest : Groups (y :: ys) xs) :
      Groups ((x ++ y) :: ys) (x :: xs)

theorem Groups.refl (xs : List (List α)) : Groups xs xs := by
  induction xs with
  | nil => exact .nil
  | cons x xs ih => exact .single ih

/-- All segments are one group. -/
theorem Groups.whole {xs : List (List α)} (hne : xs ≠ []) : Groups [xs.flatten] xs := by
  induction xs with
  | nil => exact absurd rfl hne
  | cons x xs ih =>
    cases xs with
    | nil =>
      rw [List.flatten_singleton]
      exact .single .nil
    | cons y xs => exact .join (ih (List.cons_ne_nil y xs))

/-- Groups of segments after a merge are groups of the segments before it. -/
theorem Groups.of_mergeAt {ys segs : List (List α)} {i : Nat} (h : Groups ys (mergeAt i segs)) :
    Groups ys segs := by
  induction segs generalizing i ys with
  | nil => cases i <;> exact h
  | cons a segs ih =>
    cases i with
    | zero =>
      cases segs with
      | nil => exact h
      | cons b rest =>
        cases h with
        | single hrest => exact .join (.single hrest)
        | join hrest =>
          rw [List.append_assoc]
          exact .join (.join hrest)
    | succ i =>
      cases h with
      | single hrest => exact .single (ih hrest)
      | join hrest => exact .join (ih hrest)

/-- **A run puts adjacent segments together**, and does nothing else. -/
theorem run_groups (segs : List (List α)) : Groups (run rank segs) segs := by
  induction segs using run_induction rank with
  | none segs hbest =>
    rw [run_none hbest]
    exact .refl segs
  | some segs i hbest ih =>
    rw [run_some hbest]
    exact ih.of_mergeAt

/-- The groups themselves. -/
theorem Groups.exists_groups {ys xs : List (List α)} (h : Groups ys xs) :
    ∃ groups : List (List (List α)), groups.flatten = xs ∧ groups.map List.flatten = ys ∧
      [] ∉ groups := by
  induction h with
  | nil => exact ⟨[], rfl, rfl, List.not_mem_nil⟩
  | @single x ys xs _ ih =>
    obtain ⟨groups, rfl, rfl, hne⟩ := ih
    refine ⟨[x] :: groups, rfl, by simp, ?_⟩
    simpa using hne
  | @join x y ys xs _ ih =>
    obtain ⟨groups, rfl, hmap, hne⟩ := ih
    cases groups with
    | nil => cases hmap
    | cons g groups =>
      rw [List.map_cons, List.cons.injEq] at hmap
      obtain ⟨rfl, rfl⟩ := hmap
      refine ⟨(x :: g) :: groups, rfl, rfl, ?_⟩
      rw [List.mem_cons, not_or] at hne ⊢
      exact ⟨by simp, hne.2⟩

-- ---------------------------------------------------------------------------
-- Training
-- ---------------------------------------------------------------------------

/-- The ranking comes from training: whenever a word of two letters or more was
added, two segments that spell it stood side by side in some word, as merged by
the ranks that there were by then. -/
def Trained (rank : List α → Option Nat) : Prop :=
  ∀ w r, rank w = some r → 2 ≤ w.length →
    ∃ word pre a b post, segments (below r rank) word = pre ++ ([a, b] ++ post) ∧ w = a ++ b

/-- **A word of a trained ranking is merged to one segment.** -/
theorem Trained.segments_self (htrained : Trained rank) {w : List α} {r : Nat}
    (hrank : rank w = some r) (hne : w ≠ []) : segments rank w = [w] := by
  rcases Nat.lt_or_ge w.length 2 with hshort | hlong
  · have hpos := List.length_pos_iff.mpr hne
    obtain ⟨x, rfl⟩ := List.length_eq_one_iff.mp (show w.length = 1 by omega)
    exact run_singleton [x]
  · obtain ⟨word, pre, a, b, post, hword, rfl⟩ := htrained w r hrank hlong
    -- what stood side by side then is what the two are merged to alone
    have hpair : segments (below r rank) (a ++ b) = [a, b] := by
      simpa using (segments_slice hword).2.1
    rw [← run_segments_below r, hpair, run_pair hrank]

end GreedyMerge
