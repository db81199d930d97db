import TiktokenCpp.Lib.GreedyMerge

/-!
# Greedy merging is local

A run of greedy merging never restores a boundary that it has merged away, and
what it does between two boundaries that stay is what it does to the text
between them alone.

* `run_append` -- a boundary that the run keeps splits the run in two;
* `run_append_append` -- two boundaries that are kept when one looks at the
  text left and right of them are kept in the whole text;
* `segments_slice` -- adjacent segments of a word are the segments of the text
  they spell;
* `segments_eq_iff` -- whether a list of segments is that of a word is decided
  by every segment and every pair of adjacent ones.
-/

namespace GreedyMerge

variable {α : Type} {rank : List α → Option Nat}

-- ---------------------------------------------------------------------------
-- Runs to the end
-- ---------------------------------------------------------------------------

/-- Rounds until no pair has a rank. -/
def run (rank : List α → Option Nat) (segs : List (List α)) : List (List α) :=
  merge rank segs.length segs

theorem merge_of_none {segs : List (List α)} (h : bestPair rank segs = none) (n : Nat) :
    merge rank n segs = segs := by
  cases n with
  | zero => rfl
  | succ n => rw [merge, h]

theorem run_none {segs : List (List α)} (h : bestPair rank segs = none) : run rank segs = segs :=
  merge_of_none h _

theorem run_some {segs : List (List α)} {i : Nat} (h : bestPair rank segs = some i) :
    run rank segs = run rank (mergeAt i segs) := by
  have hlen := length_mergeAt (bestPair_lt h)
  rw [run, ← hlen, merge, h]
  rfl

theorem flatten_run (segs : List (List α)) : (run rank segs).flatten = segs.flatten :=
  merge_flatten _ _

variable (rank) in
/-- Induction on the rounds of a run. -/
theorem run_induction {motive : List (List α) → Prop}
    (none : ∀ segs, bestPair rank segs = none → motive segs)
    (some : ∀ segs i, bestPair rank segs = some i → motive (mergeAt i segs) → motive segs)
    (segs : List (List α)) : motive segs := by
  induction hlen : segs.length generalizing segs with
  | zero =>
    refine none segs ?_
    rw [List.length_eq_zero_iff] at hlen
    subst hlen
    rfl
  | succ n ih =>
    cases h : bestPair rank segs with
    | none => exact none segs h
    | some i =>
      refine some segs i h (ih _ ?_)
      have := length_mergeAt (bestPair_lt h)
      omega

-- ---------------------------------------------------------------------------
-- The round of a part
-- ---------------------------------------------------------------------------

/-- The pair at `i` is ranked, none has a lower rank, and none further left has
the same. -/
def IsBest (rank : List α → Option Nat) (segs : List (List α)) (i : Nat) : Prop :=
  ∃ a b r, segs[i]? = some a ∧ segs[i + 1]? = some b ∧ rank (a ++ b) = some r ∧
    ∀ (j : Nat) (c d : List α) (r' : Nat), segs[j]? = some c → segs[j + 1]? = some d →
      rank (c ++ d) = some r' → r ≤ r' ∧ (r' = r → i ≤ j)

theorem bestPair_eq_some_iff {segs : List (List α)} {i : Nat} :
    bestPair rank segs = some i ↔ IsBest rank segs i := by
  constructor
  · exact bestPair_spec
  · rintro ⟨a, b, r, ha, hb, hr, hmin⟩
    cases h : bestPair rank segs with
    | none =>
      have hno := bestPair_none.mp h i a b ha hb
      rw [hr] at hno
      cases hno
    | some j =>
      obtain ⟨c, d, r', hc, hd, hr', hmin'⟩ := bestPair_spec h
      obtain ⟨hle, heq⟩ := hmin j c d r' hc hd hr'
      obtain ⟨hle', heq'⟩ := hmin' i a b r ha hb hr
      have hrank : r = r' := Nat.le_antisymm hle hle'
      rw [Nat.le_antisymm (heq hrank.symm) (heq' hrank)]

theorem IsBest.left {xs ys : List (List α)} {i : Nat} (h : IsBest rank (xs ++ ys) i)
    (hi : i + 1 < xs.length) : IsBest rank xs i := by
  obtain ⟨a, b, r, ha, hb, hr, hmin⟩ := h
  rw [List.getElem?_append_left (by omega)] at ha hb
  refine ⟨a, b, r, ha, hb, hr, ?_⟩
  intro j c d r' hc hd hr'
  have hj := (List.getElem?_eq_some_iff.mp hd).1
  refine hmin j c d r' ?_ ?_ hr'
  · rw [List.getElem?_append_left (by omega), hc]
  · rw [List.getElem?_append_left hj, hd]

theorem IsBest.right {xs ys : List (List α)} {i : Nat} (h : IsBest rank (xs ++ ys) (xs.length + i)) :
    IsBest rank ys i := by
  obtain ⟨a, b, r, ha, hb, hr, hmin⟩ := h
  have hget (j : Nat) : (xs ++ ys)[xs.length + j]? = ys[j]? := by
    rw [List.getElem?_append_right (by omega), Nat.add_sub_cancel_left]
  rw [hget] at ha
  rw [Nat.add_assoc, hget] at hb
  refine ⟨a, b, r, ha, hb, hr, ?_⟩
  intro j c d r' hc hd hr'
  obtain ⟨hle, heq⟩ := hmin (xs.length + j) c d r' (by rw [hget, hc])
    (by rw [Nat.add_assoc, hget, hd]) hr'
  exact ⟨hle, fun h => Nat.le_of_add_le_add_left (heq h)⟩

theorem Terminal.left {xs ys : List (List α)} (h : Terminal rank (xs ++ ys)) : Terminal rank xs := by
  intro i a b ha hb
  have hi := (List.getElem?_eq_some_iff.mp hb).1
  refine h i a b ?_ ?_
  · rw [List.getElem?_append_left (by omega), ha]
  · rw [List.getElem?_append_left hi, hb]

theorem Terminal.right {xs ys : List (List α)} (h : Terminal rank (xs ++ ys)) :
    Terminal rank ys := by
  intro i a b ha hb
  refine h (xs.length + i) a b ?_ ?_
  · rw [List.getElem?_append_right (by omega), Nat.add_sub_cancel_left, ha]
  · rw [List.getElem?_append_right (by omega), ← hb]
    congr 1
    omega

theorem mergeAt_append_left {xs ys : List (List α)} {i : Nat} (hi : i + 1 < xs.length) :
    mergeAt i (xs ++ ys) = mergeAt i xs ++ ys := by
  induction xs generalizing i with
  | nil => simp at hi
  | cons a xs ih =>
    cases i with
    | zero =>
      cases xs with
      | nil => simp at hi
      | cons b xs => rfl
    | succ i =>
      rw [List.cons_append, mergeAt, mergeAt, ih (by simpa using hi), List.cons_append]

theorem mergeAt_append_right (xs ys : List (List α)) (i : Nat) :
    mergeAt (xs.length + i) (xs ++ ys) = xs ++ mergeAt i ys := by
  induction xs with
  | nil => rw [List.length_nil, Nat.zero_add, List.nil_append, List.nil_append]
  | cons a xs ih =>
    rw [List.length_cons, Nat.add_right_comm, List.cons_append, mergeAt, ih, List.cons_append]

-- ---------------------------------------------------------------------------
-- Boundaries
-- ---------------------------------------------------------------------------

/-- The segments have a boundary after the text `p`. -/
def CutAfter (p : List α) (segs : List (List α)) : Prop :=
  ∃ as bs, segs = as ++ bs ∧ as.flatten = p

theorem CutAfter.nil (segs : List (List α)) : CutAfter [] segs := ⟨[], segs, rfl, rfl⟩

theorem CutAfter.cons {p : List α} {segs : List (List α)} (h : CutAfter p segs) (a : List α) :
    CutAfter (a ++ p) (a :: segs) := by
  obtain ⟨as, bs, rfl, rfl⟩ := h
  exact ⟨a :: as, bs, rfl, rfl⟩

theorem CutAfter.append (as bs : List (List α)) : CutAfter as.flatten (as ++ bs) :=
  ⟨as, bs, rfl, rfl⟩

/-- A merge makes no new boundary. -/
theorem CutAfter.of_mergeAt {p : List α} {segs : List (List α)} {i : Nat}
    (h : CutAfter p (mergeAt i segs)) : CutAfter p segs := by
  induction segs generalizing i p with
  | nil => cases i <;> exact h
  | cons a segs ih =>
    cases i with
    | zero =>
      cases segs with
      | nil => exact h
      | cons b rest =>
        obtain ⟨as, bs, hsegs, rfl⟩ := h
        cases as with
        | nil => exact CutAfter.nil _
        | cons c as =>
          rw [mergeAt, List.cons_append, List.cons.injEq] at hsegs
          obtain ⟨rfl, rfl⟩ := hsegs
          rw [List.flatten_cons, List.append_assoc]
          exact ((CutAfter.append as bs).cons b).cons a
    | succ i =>
      obtain ⟨as, bs, hsegs, rfl⟩ := h
      cases as with
      | nil => exact CutAfter.nil _
      | cons c as =>
        rw [mergeAt, List.cons_append, List.cons.injEq] at hsegs
        obtain ⟨rfl, hrest⟩ := hsegs
        exact (ih (i := i) ⟨as, bs, hrest, rfl⟩).cons a

/-- A run makes no new boundary. -/
theorem CutAfter.of_run {p : List α} {segs : List (List α)} (h : CutAfter p (run rank segs)) :
    CutAfter p segs := by
  induction segs using run_induction rank with
  | none segs hbest => rwa [run_none hbest] at h
  | some segs i hbest ih =>
    rw [run_some hbest] at h
    exact (ih h).of_mergeAt

/-- Two segments that are merged have no boundary between them. -/
theorem not_cutAfter_merged {a b : List α} (ha : a ≠ []) (hb : b ≠ []) (xs ys : List (List α)) :
    ¬ CutAfter (xs.flatten ++ a) (xs ++ (a ++ b) :: ys) := by
  rintro ⟨as, bs, hsegs, has⟩
  have hpos := List.length_pos_iff.mpr ha
  have hpos' := List.length_pos_iff.mpr hb
  have hlen := congrArg List.length has
  rcases List.append_eq_append_iff.mp hsegs with ⟨cs, rfl, hcs⟩ | ⟨cs, rfl, hcs⟩
  · -- the boundary is not inside `xs`
    cases cs with
    | nil =>
      rw [List.append_nil, List.length_append] at hlen
      omega
    | cons c cs =>
      rw [List.cons_append, List.cons.injEq] at hcs
      obtain ⟨rfl, -⟩ := hcs
      simp only [List.flatten_append, List.flatten_cons, List.length_append] at hlen
      omega
  · simp only [List.flatten_append, List.length_append] at hlen
    omega

theorem nil_notMem_mergeAt {segs : List (List α)} (h : [] ∉ segs) (i : Nat) :
    [] ∉ mergeAt i segs := by
  induction segs generalizing i with
  | nil => cases i <;> exact h
  | cons a segs ih =>
    cases i with
    | zero =>
      cases segs with
      | nil => exact h
      | cons b rest => simp_all [mergeAt]
    | succ i =>
      rw [List.mem_cons, not_or] at h
      rw [mergeAt, List.mem_cons, not_or]
      exact ⟨h.1, ih h.2 i⟩

/-- A round that merges the two segments at a boundary removes it for good. -/
theorem not_cutAfter_run {xs ys : List (List α)} {i : Nat} (hne : [] ∉ xs ++ ys)
    (h : bestPair rank (xs ++ ys) = some i) (hi : i + 1 = xs.length) :
    ¬ CutAfter xs.flatten (run rank (xs ++ ys)) := by
  intro hcut
  rw [run_some h] at hcut
  have hmerged := hcut.of_run
  have hlt := bestPair_lt h
  rcases List.eq_nil_or_concat xs with rfl | ⟨xs, a, rfl⟩
  · simp at hi
  · cases ys with
    | nil =>
      rw [List.append_nil] at hlt
      omega
    | cons b ys =>
      have hi : i = xs.length + 0 := by simpa using hi
      rw [hi, List.concat_eq_append, List.append_assoc, mergeAt_append_right, List.flatten_append,
        List.flatten_singleton] at hmerged
      simp only [List.concat_eq_append, List.mem_append, List.mem_cons, not_or] at hne
      exact not_cutAfter_merged (Ne.symm hne.1.2.1) (Ne.symm hne.2.1) xs ys hmerged

-- ---------------------------------------------------------------------------
-- Runs over parts
-- ---------------------------------------------------------------------------

/-- **A boundary that a run keeps splits the run**: left and right of it the
run does what it does to the two parts alone. -/
theorem run_append {xs ys : List (List α)} (hne : [] ∉ xs ++ ys)
    (hcut : CutAfter xs.flatten (run rank (xs ++ ys))) :
    run rank (xs ++ ys) = run rank xs ++ run rank ys := by
  induction hsegs : xs ++ ys using run_induction rank generalizing xs ys with
  | none segs hbest =>
    subst hsegs
    have hterminal := bestPair_none.mp hbest
    rw [run_none hbest, run_none (bestPair_none.mpr hterminal.left),
      run_none (bestPair_none.mpr hterminal.right)]
  | some segs i hbest ih =>
    subst hsegs
    have hspec := bestPair_eq_some_iff.mp hbest
    have hne' := nil_notMem_mergeAt hne i
    rcases Nat.lt_trichotomy (i + 1) xs.length with hi | hi | hi
    · have hleft := bestPair_eq_some_iff.mpr (hspec.left hi)
      rw [run_some hbest, mergeAt_append_left hi, ← flatten_mergeAt i xs] at hcut
      rw [mergeAt_append_left hi] at hne'
      rw [run_some hbest, run_some hleft]
      exact ih hne' hcut (mergeAt_append_left hi).symm
    · exact absurd hcut (not_cutAfter_run hne hbest hi)
    · obtain ⟨j, rfl⟩ := Nat.exists_eq_add_of_le (show xs.length ≤ i by omega)
      have hright := bestPair_eq_some_iff.mpr hspec.right
      rw [run_some hbest, mergeAt_append_right] at hcut
      rw [mergeAt_append_right] at hne'
      rw [run_some hbest, run_some hright]
      exact ih hne' hcut (mergeAt_append_right xs ys j).symm

/-- **Two boundaries are kept together**, if each is kept in the text up to the
other and the text between them is not empty. -/
theorem run_append_append {xs ys zs : List (List α)} (hne : [] ∉ xs ++ (ys ++ zs)) (hys : ys ≠ [])
    (hleft : CutAfter xs.flatten (run rank (xs ++ ys)))
    (hright : CutAfter ys.flatten (run rank (ys ++ zs))) :
    run rank (xs ++ (ys ++ zs)) = run rank xs ++ (run rank ys ++ run rank zs) := by
  induction hsegs : xs ++ (ys ++ zs) using run_induction rank generalizing xs ys zs with
  | none segs hbest =>
    subst hsegs
    have hterminal := bestPair_none.mp hbest
    rw [run_none hbest, run_none (bestPair_none.mpr hterminal.left),
      run_none (bestPair_none.mpr hterminal.right.left),
      run_none (bestPair_none.mpr hterminal.right.right)]
  | some segs i hbest ih =>
    subst hsegs
    have hspec := bestPair_eq_some_iff.mp hbest
    have hspec' : IsBest rank ((xs ++ ys) ++ zs) i := by rwa [List.append_assoc]
    have hpos := List.length_pos_iff.mpr hys
    have hne' := nil_notMem_mergeAt hne i
    have hneLeft : [] ∉ xs ++ ys := by simp_all
    have hneRight : [] ∉ ys ++ zs := by simp_all
    rw [run_some hbest]
    rcases Nat.lt_or_ge i xs.length with hi | hi
    · -- the round begins in `xs`; the text left of the second boundary sees it
      have hpair := bestPair_eq_some_iff.mpr (hspec'.left (by rw [List.length_append]; omega))
      rcases Nat.lt_or_ge (i + 1) xs.length with hi | hi
      · rw [mergeAt_append_left hi] at hne'
        rw [run_some hpair, mergeAt_append_left hi, ← flatten_mergeAt i xs] at hleft
        rw [run_some (bestPair_eq_some_iff.mpr (hspec.left hi))]
        exact ih hne' hys hleft hright (mergeAt_append_left hi).symm
      · exact absurd hleft (not_cutAfter_run hneLeft hpair (by omega))
    · obtain ⟨j, rfl⟩ := Nat.exists_eq_add_of_le hi
      rw [mergeAt_append_right] at hne'
      have hspecRight := hspec.right
      have hpair := bestPair_eq_some_iff.mpr hspecRight
      rcases Nat.lt_trichotomy (j + 1) ys.length with hj | hj | hj
      · -- inside `ys` both sides see it
        have hpairLeft := bestPair_eq_some_iff.mpr (hspec'.left (by rw [List.length_append]; omega))
        rw [mergeAt_append_left hj] at hne'
        rw [run_some hpairLeft, mergeAt_append_right] at hleft
        rw [run_some hpair, mergeAt_append_left hj, ← flatten_mergeAt j ys] at hright
        rw [run_some (bestPair_eq_some_iff.mpr (hspecRight.left hj))]
        refine ih hne' ?_ hleft hright ?_
        · have hlen := length_mergeAt hj
          exact List.ne_nil_of_length_pos (by omega)
        · rw [mergeAt_append_right, mergeAt_append_left hj]
      · exact absurd hright (not_cutAfter_run hneRight hpair hj)
      · obtain ⟨k, rfl⟩ := Nat.exists_eq_add_of_le (show ys.length ≤ j by omega)
        rw [mergeAt_append_right] at hne'
        rw [run_some hpair, mergeAt_append_right] at hright
        rw [run_some (bestPair_eq_some_iff.mpr hspecRight.right)]
        refine ih hne' hys hleft hright ?_
        rw [mergeAt_append_right, mergeAt_append_right]

-- ---------------------------------------------------------------------------
-- Words
-- ---------------------------------------------------------------------------

/-- Every letter of a word as a segment of its own. -/
def atoms (w : List α) : List (List α) := w.map fun x => [x]

/-- The segments that a word is merged into. -/
def segments (rank : List α → Option Nat) (w : List α) : List (List α) := run rank (atoms w)

theorem atoms_append (u v : List α) : atoms (u ++ v) = atoms u ++ atoms v :=
  List.map_append

@[simp] theorem flatten_atoms (w : List α) : (atoms w).flatten = w := by
  induction w with
  | nil => rfl
  | cons x w ih =>
    show x :: (atoms w).flatten = x :: w
    rw [ih]

theorem nil_notMem_atoms (w : List α) : [] ∉ atoms w := by
  simp [atoms]

@[simp] theorem flatten_segments (w : List α) : (segments rank w).flatten = w := by
  rw [segments, flatten_run, flatten_atoms]

theorem nil_notMem_run {segs : List (List α)} (h : [] ∉ segs) : [] ∉ run rank segs := by
  induction segs using run_induction rank with
  | none segs hbest => rwa [run_none hbest]
  | some segs i hbest ih =>
    rw [run_some hbest]
    exact ih (nil_notMem_mergeAt h i)

theorem nil_notMem_segments (w : List α) : [] ∉ segments rank w :=
  nil_notMem_run (nil_notMem_atoms w)

/-- A boundary between segments is that of the two parts of the word. -/
theorem segments_append {u v : List α} (hcut : CutAfter u (segments rank (u ++ v))) :
    segments rank (u ++ v) = segments rank u ++ segments rank v := by
  rw [segments, atoms_append] at hcut ⊢
  refine run_append ?_ ?_
  · rw [← atoms_append]
    exact nil_notMem_atoms _
  · rwa [flatten_atoms]

/-- Two lists of segments that begin with the same text, up to the same place,
begin with the same segments. -/
theorem append_inj_of_flatten {as bs as' bs' : List (List α)} (hne : [] ∉ as ++ bs)
    (h : as ++ bs = as' ++ bs') (hflat : as.flatten = as'.flatten) : as = as' ∧ bs = bs' := by
  have hnil (cs : List (List α)) (hcs : [] ∉ cs) (hflat : cs.flatten = []) : cs = [] := by
    rw [List.flatten_eq_nil_iff] at hflat
    rw [List.eq_nil_iff_forall_not_mem]
    intro c hc
    exact hcs (hflat c hc ▸ hc)
  rcases List.append_eq_append_iff.mp h with ⟨cs, rfl, rfl⟩ | ⟨cs, rfl, rfl⟩
  · have hcs := hnil cs (fun h => hne (by simp [h])) (by simpa using hflat)
    subst hcs
    simp
  · have hcs := hnil cs (fun h => hne (by simp [h])) (by simpa using hflat.symm)
    subst hcs
    simp

/-- **Adjacent segments of a word are the segments of the text they spell.** -/
theorem segments_slice {w : List α} {as bs cs : List (List α)}
    (h : segments rank w = as ++ (bs ++ cs)) :
    segments rank as.flatten = as ∧ segments rank bs.flatten = bs ∧
      segments rank cs.flatten = cs := by
  have hsplit {w : List α} {as bs : List (List α)} (h : segments rank w = as ++ bs) :
      segments rank as.flatten = as ∧ segments rank bs.flatten = bs := by
    have hw := congrArg List.flatten h
    rw [flatten_segments, List.flatten_append] at hw
    subst hw
    have happend := segments_append (h ▸ CutAfter.append as bs)
    have hne : [] ∉ segments rank (as.flatten ++ bs.flatten) := nil_notMem_segments _
    rw [happend] at h hne
    exact append_inj_of_flatten hne h (flatten_segments _)
  obtain ⟨has, hrest⟩ := hsplit h
  exact ⟨has, hsplit hrest⟩

/-- **Segments are recognised locally**: the segments of a word are the lists
in which every segment, and every two adjacent ones, are those of their text. -/
theorem segments_eq_iff {ts : List (List α)} (hne : [] ∉ ts) :
    segments rank ts.flatten = ts ↔
      (∀ t ∈ ts, segments rank t = [t]) ∧
        ts.IsChain fun a b => segments rank (a ++ b) = [a, b] := by
  induction ts with
  | nil => simp [segments, atoms, run, merge]
  | cons t ts ih =>
    cases ts with
    | nil => simp
    | cons u rest =>
      have hne' : [] ∉ u :: rest := by simp_all
      rw [List.isChain_cons_cons, List.forall_mem_cons]
      constructor
      · intro h
        have hfirst : segments rank (t :: u :: rest).flatten = [t] ++ (u :: rest ++ []) := by
          simpa using h
        have hboth : segments rank (t :: u :: rest).flatten = [] ++ ([t, u] ++ rest) := h
        obtain ⟨hhead, htail, -⟩ := segments_slice hfirst
        obtain ⟨-, hpair, -⟩ := segments_slice hboth
        obtain ⟨hsegs, hchain⟩ := (ih hne').mp htail
        exact ⟨⟨by simpa using hhead, hsegs⟩, by simpa using hpair, hchain⟩
      · rintro ⟨⟨ht, hsegs⟩, hpair, hchain⟩
        have htail := (ih hne').mpr ⟨hsegs, hchain⟩
        have hu : u ≠ [] := fun h => hne' (h ▸ List.mem_cons_self ..)
        have hcut : CutAfter u (segments rank (u ++ rest.flatten)) :=
          ⟨[u], rest, htail, List.flatten_singleton⟩
        have hrest := segments_append hcut
        have hglue : segments rank (t ++ (u ++ rest.flatten)) =
            segments rank t ++ (segments rank u ++ segments rank rest.flatten) := by
          rw [segments, atoms_append, atoms_append]
          refine run_append_append ?_ ?_ ?_ ?_
          · rw [← atoms_append, ← atoms_append]
            exact nil_notMem_atoms _
          · simpa [atoms] using hu
          · rw [← atoms_append, flatten_atoms]
            exact ⟨[t], [u], hpair, List.flatten_singleton⟩
          · rwa [← atoms_append, flatten_atoms]
        rw [List.flatten_cons, List.flatten_cons, hglue, ht, ← hrest, ← List.flatten_cons, htail]
        rfl

end GreedyMerge
