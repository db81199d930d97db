import Mathlib.Data.List.Basic
import Mathlib.Data.List.Infix

/-!
# Backtracking regular expressions

The matching discipline of Perl-style engines: alternatives are tried in
order, quantifiers are greedy and give back one repetition at a time, and a
search takes the first success at the leftmost position that has one.

`Regex.ends` lists, in the order a backtracking matcher would reach them, the
rests of the input left by the ways to match its front; the first entry is the
match the engine reports. Classes of characters are abstract: `κ` names them
and `I : κ → α → Bool` says which characters a class contains.

Main results:

* `search_spec`, `search_none` -- what the leftmost search guarantees;
* `mem_ends_lit` -- an expression that spells a word matches that word only;
* `words_of_covers` -- an expression that matches something at every position
  and never the empty string cuts every input into its words.
-/

namespace Backtrack

/-- Regular expressions over classes `κ`. Quantifiers apply to a class. -/
inductive Regex (κ : Type) where
  | eps
  | cls (k : κ)
  | rep (k : κ) (min : Nat) (max : Option Nat)
  | seq (r s : Regex κ)
  | alt (r s : Regex κ)
  | notAhead (r : Regex κ)
  | group (r : Regex κ)
  deriving DecidableEq, Repr

variable {κ α : Type}

/-- Greedy repetition of one class: take one more if possible, then fall back
to stopping here. -/
def repEnds (p : α → Bool) : Nat → Option Nat → List α → List (List α)
  | min, _, [] => if min = 0 then [[]] else []
  | min, max, c :: s =>
    (if p c ∧ max ≠ some 0 then repEnds p (min - 1) (max.map (· - 1)) s else []) ++
      (if min = 0 then [c :: s] else [])

namespace Regex

/-- The rests of the input after each way to match its front, in the order
backtracking reaches them. -/
def ends (I : κ → α → Bool) : Regex κ → List α → List (List α)
  | eps, s => [s]
  | cls k, s =>
    match s with
    | [] => []
    | c :: t => if I k c then [t] else []
  | rep k min max, s => repEnds (I k) min max s
  | seq r q, s => (r.ends I s).flatMap (q.ends I)
  | alt r q, s => r.ends I s ++ q.ends I s
  | notAhead r, s => if r.ends I s = [] then [s] else []
  | group r, s => r.ends I s

/-- The number of capturing groups. -/
def groups : Regex κ → Nat
  | seq r q | alt r q => r.groups + q.groups
  | notAhead r => r.groups
  | group r => r.groups + 1
  | _ => 0

/-- A lower bound on the length of every match. -/
def minLen : Regex κ → Nat
  | cls _ => 1
  | rep _ min _ => min
  | seq r q => r.minLen + q.minLen
  | alt r q => min r.minLen q.minLen
  | group r => r.minLen
  | _ => 0

end Regex

open Regex

variable {I : κ → α → Bool}

-- ---------------------------------------------------------------------------
-- Every end is a shorter rest
-- ---------------------------------------------------------------------------

theorem repEnds_suffix {p : α → Bool} {min : Nat} {max : Option Nat} {s t : List α}
    (h : t ∈ repEnds p min max s) : t <:+ s ∧ t.length + min ≤ s.length := by
  induction s generalizing min max with
  | nil =>
    rw [repEnds] at h
    split at h
    · next hmin => simp_all
    · simp at h
  | cons c s ih =>
    rw [repEnds, List.mem_append] at h
    rcases h with h | h
    · split at h
      · obtain ⟨hsuf, hlen⟩ := ih h
        refine ⟨hsuf.trans (List.suffix_cons c s), ?_⟩
        rw [List.length_cons]
        omega
      · simp at h
    · split at h
      · next hmin =>
        rw [List.mem_singleton] at h
        subst h
        exact ⟨List.suffix_refl _, by omega⟩
      · simp at h

/-- A match leaves a suffix of the input, shorter by at least `minLen`. -/
theorem ends_suffix {r : Regex κ} {s t : List α} (h : t ∈ r.ends I s) :
    t <:+ s ∧ t.length + r.minLen ≤ s.length := by
  induction r generalizing s t with
  | eps =>
    rw [ends, List.mem_singleton] at h
    subst h
    exact ⟨List.suffix_refl _, Nat.le_refl _⟩
  | cls k =>
    cases s with
    | nil => simp [ends] at h
    | cons c s =>
      simp only [ends] at h
      split at h
      · rw [List.mem_singleton] at h
        subst h
        exact ⟨List.suffix_cons c t, Nat.le_refl _⟩
      · simp at h
  | rep k min max => exact repEnds_suffix h
  | seq r q ihr ihq =>
    rw [ends, List.mem_flatMap] at h
    obtain ⟨u, hu, ht⟩ := h
    obtain ⟨hsu, hlu⟩ := ihr hu
    obtain ⟨hst, hlt⟩ := ihq ht
    refine ⟨hst.trans hsu, ?_⟩
    rw [minLen]
    omega
  | alt r q ihr ihq =>
    rw [ends, List.mem_append] at h
    rw [minLen]
    rcases h with h | h
    · obtain ⟨hs, hl⟩ := ihr h
      exact ⟨hs, by omega⟩
    · obtain ⟨hs, hl⟩ := ihq h
      exact ⟨hs, by omega⟩
  | notAhead r _ =>
    rw [ends] at h
    split at h
    · rw [List.mem_singleton] at h
      subst h
      exact ⟨List.suffix_refl _, Nat.le_refl _⟩
    · simp at h
  | group r ih => exact ih h

-- ---------------------------------------------------------------------------
-- Leftmost search
-- ---------------------------------------------------------------------------

/-- A match found by a search: what was skipped, what matched, what is left. -/
structure Found (α : Type) where
  skipped : List α
  matched : List α
  rest : List α
  deriving DecidableEq, Repr

/-- The match at the front of the input that backtracking reaches first. -/
def matchHere (I : κ → α → Bool) (r : Regex κ) (s : List α) : Option (Found α) :=
  (r.ends I s).head?.map fun t => ⟨[], s.take (s.length - t.length), t⟩

/-- The first match at the leftmost position that has one. -/
def search (I : κ → α → Bool) (r : Regex κ) : List α → Option (Found α)
  | [] => matchHere I r []
  | c :: s =>
    match matchHere I r (c :: s) with
    | some f => some f
    | none => (search I r s).map fun f => { f with skipped := c :: f.skipped }

theorem matchHere_spec {r : Regex κ} {s : List α} {f : Found α} (h : matchHere I r s = some f) :
    f.skipped = [] ∧ s = f.matched ++ f.rest ∧ f.rest ∈ r.ends I s ∧
      r.minLen ≤ f.matched.length := by
  rw [matchHere, Option.map_eq_some_iff] at h
  obtain ⟨t, ht, rfl⟩ := h
  have hmem : t ∈ r.ends I s := List.mem_of_head? ht
  obtain ⟨⟨m, hm⟩, hlen⟩ := ends_suffix hmem
  have htake : s.take (s.length - t.length) = m := by
    rw [← hm, List.length_append, Nat.add_sub_cancel, List.take_left]
  refine ⟨rfl, ?_, hmem, ?_⟩
  · show s = s.take (s.length - t.length) ++ t
    rw [htake, hm]
  · show r.minLen ≤ (s.take (s.length - t.length)).length
    rw [List.length_take]
    omega

theorem matchHere_eq_none {r : Regex κ} {s : List α} :
    matchHere I r s = none ↔ r.ends I s = [] := by
  rw [matchHere, Option.map_eq_none_iff, List.head?_eq_none_iff]

/-- A search splits the input at its match, and no earlier position has one. -/
theorem search_spec {r : Regex κ} {s : List α} {f : Found α} (h : search I r s = some f) :
    s = f.skipped ++ f.matched ++ f.rest ∧
      f.rest ∈ r.ends I (f.matched ++ f.rest) ∧
      (∀ a b, f.skipped = a ++ b → b ≠ [] → r.ends I (b ++ f.matched ++ f.rest) = []) := by
  induction s generalizing f with
  | nil =>
    obtain ⟨hskip, hs, hmem, -⟩ := matchHere_spec h
    rw [hskip]
    refine ⟨by simpa using hs, hs ▸ hmem, ?_⟩
    intro a b hab hb
    simp_all
  | cons c s ih =>
    rw [search] at h
    split at h
    · next f' hf' =>
      cases h
      obtain ⟨hskip, hs, hmem, -⟩ := matchHere_spec hf'
      rw [hskip]
      refine ⟨by simpa using hs, hs ▸ hmem, ?_⟩
      intro a b hab hb
      simp_all
    · next hnone =>
      rw [Option.map_eq_some_iff] at h
      obtain ⟨f', hf', rfl⟩ := h
      obtain ⟨hs, hmem, hearlier⟩ := ih hf'
      refine ⟨by simp [hs], hmem, ?_⟩
      intro a b hab hb
      cases a with
      | nil =>
        rw [List.nil_append] at hab
        rw [← hab]
        show r.ends I (c :: f'.skipped ++ f'.matched ++ f'.rest) = []
        rw [List.cons_append, List.cons_append, ← hs]
        exact matchHere_eq_none.mp hnone
      | cons d a =>
        rw [List.cons_append, List.cons.injEq] at hab
        exact hearlier a b hab.2 hb

/-- A search fails when no position has a match. -/
theorem search_none {r : Regex κ} {s : List α} (h : search I r s = none) :
    ∀ a b, s = a ++ b → r.ends I b = [] := by
  induction s with
  | nil =>
    intro a b hab
    have hb : b = [] := (List.append_eq_nil_iff.mp hab.symm).2
    exact hb ▸ matchHere_eq_none.mp h
  | cons c s ih =>
    rw [search] at h
    split at h
    · simp at h
    · next hnone =>
      rw [Option.map_eq_none_iff] at h
      intro a b hab
      cases a with
      | nil =>
        rw [List.nil_append] at hab
        exact hab ▸ matchHere_eq_none.mp hnone
      | cons d a =>
        rw [List.cons_append, List.cons.injEq] at hab
        exact ih h a b hab.2

/-- A search succeeds when some position has a match. -/
theorem search_isSome_iff {r : Regex κ} {s : List α} :
    (search I r s).isSome = true ↔ ∃ a b, s = a ++ b ∧ r.ends I b ≠ [] := by
  constructor
  · intro h
    obtain ⟨f, hf⟩ := Option.isSome_iff_exists.mp h
    obtain ⟨hs, hmem, -⟩ := search_spec hf
    exact ⟨f.skipped, f.matched ++ f.rest, by rw [hs, List.append_assoc], List.ne_nil_of_mem hmem⟩
  · rintro ⟨a, b, hs, hne⟩
    rw [Option.isSome_iff_ne_none]
    intro hnone
    exact hne (search_none hnone a b hs)

-- ---------------------------------------------------------------------------
-- Words
-- ---------------------------------------------------------------------------

/-- The expression that spells a word, one class for each character. -/
def lit : List κ → Regex κ
  | [] => eps
  | k :: ks => seq (cls k) (lit ks)

/-- The alternation of a list of expressions, in order. -/
def anyOf : List (Regex κ) → Regex κ
  | [] => eps
  | [r] => r
  | r :: q :: rs => alt r (anyOf (q :: rs))

theorem mem_ends_anyOf {rs : List (Regex κ)} (hrs : rs ≠ []) {s t : List α} :
    t ∈ (anyOf rs).ends I s ↔ ∃ q ∈ rs, t ∈ q.ends I s := by
  induction rs with
  | nil => exact absurd rfl hrs
  | cons r rs ih =>
    match rs with
    | [] => simp [anyOf]
    | q :: rs =>
      rw [anyOf, ends, List.mem_append, ih (List.cons_ne_nil _ _)]
      simp

/-- A spelled word matches exactly that word, where `f` gives each character
a class of its own. -/
theorem mem_ends_lit {f : α → κ} (hf : ∀ a b, I (f a) b = true ↔ b = a) {w s t : List α} :
    t ∈ (lit (w.map f)).ends I s ↔ s = w ++ t := by
  induction w generalizing s with
  | nil => simp [lit, ends, eq_comm]
  | cons a w ih =>
    rw [List.map_cons, lit, ends, List.mem_flatMap]
    cases s with
    | nil => simp [ends]
    | cons c s =>
      simp only [ends, List.cons_append, List.cons.injEq]
      by_cases hc : c = a
      · simp [hc, (hf a a).mpr rfl, ih]
      · have hno : ¬ I (f a) c = true := fun h => hc ((hf a c).mp h)
        simp [hno, hc]

-- ---------------------------------------------------------------------------
-- Cutting an input into words
-- ---------------------------------------------------------------------------

/-- The expression matches something at every position before the end. -/
def Covers (I : κ → α → Bool) (r : Regex κ) : Prop := ∀ c s, r.ends I (c :: s) ≠ []

/-- The successive matches of an expression, at most `n` of them. -/
def words (I : κ → α → Bool) (r : Regex κ) : Nat → List α → List (List α)
  | 0, _ => []
  | n + 1, s =>
    match search I r s with
    | none => []
    | some f => f.matched :: words I r n f.rest

/-- Where something matches at every position, the search matches at once. -/
theorem search_of_covers {r : Regex κ} (hcov : Covers I r) (hmin : 1 ≤ r.minLen) (c : α)
    (s : List α) :
    ∃ m t, search I r (c :: s) = some ⟨[], m, t⟩ ∧ m ≠ [] ∧ c :: s = m ++ t := by
  cases hhere : matchHere I r (c :: s) with
  | none => exact absurd (matchHere_eq_none.mp hhere) (hcov c s)
  | some f =>
    obtain ⟨skipped, m, t⟩ := f
    obtain ⟨hskip, hs, -, hlen⟩ := matchHere_spec hhere
    cases hskip
    refine ⟨m, t, by rw [search, hhere], ?_, hs⟩
    intro hm
    rw [hm, List.length_nil] at hlen
    omega

theorem search_nil {r : Regex κ} (hmin : 1 ≤ r.minLen) : search I r [] = none := by
  rw [search, matchHere_eq_none, List.eq_nil_iff_forall_not_mem]
  intro t ht
  have := (ends_suffix ht).2
  rw [List.length_nil] at this
  omega

/-- The words of an input are its pieces, none of them empty. -/
theorem words_of_covers {r : Regex κ} (hcov : Covers I r) (hmin : 1 ≤ r.minLen) {n : Nat}
    {s : List α} (hn : s.length ≤ n) :
    (words I r n s).flatten = s ∧ ∀ w ∈ words I r n s, w ≠ [] := by
  induction n generalizing s with
  | zero =>
    have hs : s = [] := List.length_eq_zero_iff.mp (by omega)
    subst hs
    exact ⟨rfl, by simp [words]⟩
  | succ n ih =>
    cases s with
    | nil => simp [words, search_nil hmin]
    | cons c s =>
      obtain ⟨m, t, hsearch, hm, hs⟩ := search_of_covers hcov hmin c s
      have hlen : t.length ≤ n := by
        have := congrArg List.length hs
        have := List.length_pos_iff.mpr hm
        simp only [List.length_append, List.length_cons] at *
        omega
      obtain ⟨hflat, hne⟩ := ih hlen
      simp only [words, hsearch, List.flatten_cons, hflat]
      exact ⟨hs.symm, List.forall_mem_cons.mpr ⟨hm, hne⟩⟩

/-- Pieces that are not empty are no more than there are characters. -/
theorem length_le_flatten {ws : List (List α)} (h : ∀ w ∈ ws, w ≠ []) :
    ws.length ≤ ws.flatten.length := by
  induction ws with
  | nil => exact Nat.le_refl 0
  | cons w ws ih =>
    obtain ⟨hw, hws⟩ := List.forall_mem_cons.mp h
    have hpos := List.length_pos_iff.mpr hw
    have := ih hws
    rw [List.length_cons, List.flatten_cons, List.length_append]
    omega

end Backtrack
