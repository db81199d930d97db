import Mathlib.Data.List.TakeWhile
import TiktokenCpp.Lib.MatchLocality

/-!
# Matching a text that grows

What a backtracking matcher finds at the front of a text when more text is put
behind it. An expression that tells the two texts apart has read the shorter one
to its end; for the expressions that lexers are made of this means that it
matches the whole of it first, or that little is left of it. So the words of a
text are settled but for the last ones.

* `keeps_or_reads`, `keeps_or_short`, `run_grows`, `lookahead_grows` -- one
  expression;
* `anyOf_grows` -- an alternation;
* `words_grow` -- all words but the last `k` are those of the longer text.
-/

namespace Backtrack

open Regex

variable {κ α : Type} {I : κ → α → Bool} {front more : List α}

-- ---------------------------------------------------------------------------
-- One expression
-- ---------------------------------------------------------------------------

/-- More text behind the front does not change how the expression matches. -/
def Keeps (I : κ → α → Bool) (r : Regex κ) (front more : List α) : Prop :=
  r.ends I (front ++ more) = (r.ends I front).map (· ++ more)

/-- A match that tells the two texts apart reaches beyond the shorter one. -/
theorem keeps_or_reaches {r : Regex κ} (hblind : r.Blind I more) (front : List α) :
    Keeps I r front more ∨ ∃ t ∈ r.ends I (front ++ more), t.length < more.length := by
  by_cases h : ∀ t ∈ r.ends I (front ++ more), more.length ≤ t.length
  · refine Or.inl ?_
    rw [Keeps, ← ends_append hblind, endsBefore, List.filter_eq_self.mpr]
    intro t ht
    exact decide_eq_true (h t ht)
  · refine Or.inr ?_
    push Not at h
    exact h

/-- What a match that reaches beyond the front has taken of it. -/
theorem mem_of_reaches {m t : List α} (h : front ++ more = m ++ t) (hlt : t.length < more.length) :
    ∃ x, m = front ++ x := by
  rcases List.append_eq_append_iff.mp h with ⟨x, hm, -⟩ | ⟨x, -, rfl⟩
  · exact ⟨x, hm⟩
  · rw [List.length_append] at hlt
    omega

/-- An expression notices more text only if it reads the whole front. -/
theorem keeps_or_reads {r : Regex κ} (hblind : r.Blind I more) (front : List α) :
    Keeps I r front more ∨ ∀ c ∈ front, r.reads I c = true := by
  refine (keeps_or_reaches hblind front).imp_right ?_
  rintro ⟨t, ht, hlt⟩ c hc
  obtain ⟨m, hm, hreads⟩ := mem_ends_reads ht
  obtain ⟨x, rfl⟩ := mem_of_reaches hm hlt
  exact hreads c (List.mem_append_left x hc)

/-- An upper bound on the length of every match, if there is one. -/
def Regex.maxLen : Regex κ → Option Nat
  | cls _ => some 1
  | rep _ _ max => max
  | seq r q => r.maxLen.bind fun a => q.maxLen.map (a + ·)
  | alt r q => r.maxLen.bind fun a => q.maxLen.map (max a ·)
  | group r => r.maxLen
  | _ => some 0

theorem maxLen_lit (ks : List κ) : (lit ks).maxLen = some ks.length := by
  induction ks with
  | nil => rfl
  | cons k ks ih =>
    rw [lit, maxLen, ih, List.length_cons, Nat.add_comm]
    rfl

theorem ends_maxLen {r : Regex κ} {s t : List α} (h : t ∈ r.ends I s) {n : Nat}
    (hn : r.maxLen = some n) : s.length ≤ t.length + n := by
  induction r generalizing s t n with
  | eps =>
    obtain rfl : t = s := by simpa [ends] using h
    exact Nat.le_add_right _ _
  | cls k =>
    obtain rfl : 1 = n := by simpa [maxLen] using hn
    cases s with
    | nil => simp [ends] at h
    | cons c s =>
      simp only [ends] at h
      split at h
      · obtain rfl : t = s := by simpa using h
        exact Nat.le_refl _
      · simp at h
  | rep k min max =>
    obtain ⟨m, rfl, -, hm⟩ := mem_repEnds_reads h
    have := hm n hn
    rw [List.length_append]
    omega
  | seq r q ihr ihq =>
    rw [maxLen, Option.bind_eq_some_iff] at hn
    obtain ⟨a, ha, hn⟩ := hn
    obtain ⟨b, hb, rfl⟩ := Option.map_eq_some_iff.mp hn
    rw [ends, List.mem_flatMap] at h
    obtain ⟨u, hu, ht⟩ := h
    have := ihr hu ha
    have := ihq ht hb
    omega
  | alt r q ihr ihq =>
    rw [maxLen, Option.bind_eq_some_iff] at hn
    obtain ⟨a, ha, hn⟩ := hn
    obtain ⟨b, hb, rfl⟩ := Option.map_eq_some_iff.mp hn
    rw [ends, List.mem_append] at h
    rcases h with h | h
    · have := ihr h ha
      omega
    · have := ihq h hb
      omega
  | notAhead r _ =>
    rw [ends] at h
    split at h
    · obtain rfl : t = s := by simpa using h
      exact Nat.le_add_right _ _
    · simp at h
  | group r ih => exact ih h hn

/-- A bounded expression notices more text only behind a short front. -/
theorem keeps_or_short {r : Regex κ} (hblind : r.Blind I more) {n : Nat} (hn : r.maxLen = some n)
    (front : List α) : Keeps I r front more ∨ front.length < n := by
  refine (keeps_or_reaches hblind front).imp_right ?_
  rintro ⟨t, ht, hlt⟩
  have := ends_maxLen ht hn
  rw [List.length_append] at this
  omega

-- ---------------------------------------------------------------------------
-- Greedy runs
-- ---------------------------------------------------------------------------

/-- A greedy repetition takes all it can first. -/
theorem head?_repEnds (p : α → Bool) (s : List α) :
    (repEnds p 0 none s).head? = some (s.dropWhile p) := by
  induction s with
  | nil => rfl
  | cons c s ih =>
    rw [repEnds, List.dropWhile_cons]
    by_cases hc : p c = true
    · rw [if_pos ⟨hc, by simp⟩, if_pos hc, List.head?_append]
      show (repEnds p 0 none s).head?.or _ = _
      rw [ih]
      rfl
    · rw [if_neg (fun h => hc h.1), if_neg hc]
      rfl

theorem head?_flatMap_of_head? {β : Type} {l : List α} {x : α} (hx : l.head? = some x)
    {f : α → List β} {y : β} (hy : (f x).head? = some y) : (l.flatMap f).head? = some y := by
  cases l with
  | nil => cases hx
  | cons x' l =>
    obtain rfl : x' = x := by simpa using hx
    rw [List.flatMap_cons, List.head?_append, hy]
    rfl

/-- A run of one class, and what the expression `q` reads behind it. -/
theorem head?_run {k : κ} {q : Regex κ}
    (hq : ∀ v, (q.ends I v).head? = some (v.dropWhile (q.reads I))) {c : α} (hc : I k c = true)
    (s : List α) :
    ((seq (rep k 1 none) q).ends I (c :: s)).head? =
      some (((c :: s).dropWhile (I k)).dropWhile (q.reads I)) := by
  refine head?_flatMap_of_head? ?_ (hq _)
  show (repEnds (I k) 1 none (c :: s)).head? = _
  rw [repEnds, if_pos ⟨hc, by simp⟩, if_neg Nat.one_ne_zero, List.append_nil,
    List.dropWhile_cons_of_pos hc]
  exact head?_repEnds (I k) s

theorem run_ends_of_neg {k : κ} {q : Regex κ} {c : α} (hc : ¬ I k c = true) (s : List α) :
    (seq (rep k 1 none) q).ends I (c :: s) = [] := by
  show (repEnds (I k) 1 none (c :: s)).flatMap (q.ends I) = []
  rw [repEnds, if_neg (fun h => hc h.1), if_neg Nat.one_ne_zero]
  rfl

theorem dropWhile_dropWhile_append {p t : α → Bool} {a b : List α} (ha : ∀ c ∈ a, p c = true)
    (hb : ∀ c ∈ b, t c = true) : ((a ++ b).dropWhile p).dropWhile t = [] := by
  rw [List.dropWhile_append_of_pos ha, List.dropWhile_eq_nil_iff]
  intro c hc
  exact hb c ((List.dropWhile_suffix p).subset hc)

/-- A text that begins with such a run, and goes on with what `q` reads, is
matched to its end first. -/
theorem head?_run_append {k : κ} {q : Regex κ}
    (hq : ∀ v, (q.ends I v).head? = some (v.dropWhile (q.reads I))) {c : α} {a b : List α}
    (ha : ∀ x ∈ c :: a, I k x = true) (hb : ∀ x ∈ b, q.reads I x = true) :
    ((seq (rep k 1 none) q).ends I (c :: a ++ b)).head? = some [] := by
  rw [List.cons_append, head?_run hq (ha c (List.mem_cons_self ..)), ← List.cons_append,
    dropWhile_dropWhile_append ha hb]

theorem optional_ends (k : κ) (q : Regex κ) (c : α) (s : List α) :
    (seq (rep k 0 (some 1)) q).ends I (c :: s) =
      (if I k c = true then q.ends I s else []) ++ q.ends I (c :: s) := by
  have hstop (s : List α) : repEnds (I k) 0 (some 0) s = [s] := by
    cases s <;> simp [repEnds]
  show (repEnds (I k) 0 (some 1) (c :: s)).flatMap (q.ends I) = _
  rw [repEnds, if_pos rfl, List.flatMap_append, List.flatMap_singleton]
  congr 1
  by_cases hc : I k c = true
  · rw [if_pos ⟨hc, by simp⟩, if_pos hc]
    show (repEnds (I k) 0 (some 0) s).flatMap _ = _
    rw [hstop, List.flatMap_singleton]
  · rw [if_neg (fun h => hc h.1), if_neg hc]
    rfl

/-- A front that is a run behind an optional character is matched to its end
first. -/
theorem head?_optional_run {k k' : κ} {q : Regex κ}
    (hq : ∀ v, (q.ends I v).head? = some (v.dropWhile (q.reads I))) {m : List α}
    (hm : ∀ x ∈ m, I k x = true) (hlen : m.length ≤ 1) {c : α} {a b : List α}
    (ha : ∀ x ∈ c :: a, I k' x = true) (hb : ∀ x ∈ b, q.reads I x = true) :
    ((seq (rep k 0 (some 1)) (seq (rep k' 1 none) q)).ends I (m ++ (c :: a ++ b))).head? = some [] := by
  have hrun := head?_run_append hq ha hb
  match m, hlen with
  | [d], _ =>
    rw [List.singleton_append, optional_ends, if_pos (hm d (List.mem_singleton_self d)),
      List.head?_append, hrun]
    rfl
  | [], _ =>
    rw [List.nil_append, List.cons_append, optional_ends]
    rw [List.cons_append] at hrun
    by_cases hc : I k c = true
    · rw [if_pos hc, List.head?_append]
      -- the run may go on without its first character
      obtain ⟨-, ha⟩ := List.forall_mem_cons.mp ha
      cases hrest : a ++ b with
      | nil =>
        rw [hrest] at hrun
        rw [show (seq (rep k' 1 none) q).ends I ([] : List α) = [] from rfl, hrun]
        rfl
      | cons d s =>
        by_cases hd : I k' d = true
        · rw [head?_run hq hd, ← hrest, dropWhile_dropWhile_append ha hb]
          rfl
        · rw [run_ends_of_neg hd, ← hrest, hrun]
          rfl
    · rw [if_neg hc, List.nil_append, hrun]

/-- **An optional character and a run**: if more text is noticed, then the front
is at most one character, or all of it is matched first. -/
theorem run_grows {k k' : κ} {q : Regex κ}
    (hq : ∀ v, (q.ends I v).head? = some (v.dropWhile (q.reads I))) (hblind : q.Blind I more)
    (front : List α) :
    Keeps I (seq (rep k 0 (some 1)) (seq (rep k' 1 none) q)) front more ∨
      ((seq (rep k 0 (some 1)) (seq (rep k' 1 none) q)).ends I front).head? = some [] ∨
      front.length ≤ 1 := by
  have hparts : (seq (rep k 0 (some 1)) (seq (rep k' 1 none) q)).Blind I more :=
    ⟨trivial, trivial, hblind⟩
  refine (keeps_or_reaches hparts front).imp_right ?_
  rintro ⟨t, ht, hlt⟩
  rcases Nat.lt_or_ge 1 front.length with hlong | hshort
  swap
  · exact Or.inr hshort
  refine Or.inl ?_
  rw [ends, List.mem_flatMap] at ht
  obtain ⟨u, hu, ht⟩ := ht
  rw [ends, List.mem_flatMap] at ht
  obtain ⟨v, hv, ht⟩ := ht
  -- what the three parts take: the front is within it
  obtain ⟨m, hfront, hm, hlen⟩ := mem_repEnds_reads hu
  have hlen := hlen 1 rfl
  have hsome := (repEnds_suffix hv).2
  obtain ⟨a, rfl, ha, -⟩ := mem_repEnds_reads hv
  obtain ⟨b, rfl, hb⟩ := mem_ends_reads ht
  obtain ⟨x, hx⟩ : ∃ x, m ++ (a ++ b) = front ++ x := by
    refine mem_of_reaches (t := t) ?_ hlt
    rw [hfront]
    simp only [List.append_assoc]
  obtain ⟨front, rfl, hrest⟩ : ∃ front', front = m ++ front' ∧ a ++ b = front' ++ x := by
    rcases List.append_eq_append_iff.mp hx with h | ⟨y, rfl, rfl⟩
    · exact h
    · cases y with
      | nil => exact ⟨[], by simp, by simp⟩
      | cons d y =>
        simp only [List.length_append, List.length_cons] at hlen hlong
        omega
  have hpos : front ≠ [] := by
    rintro rfl
    rw [List.append_nil] at hlong
    omega
  rcases List.append_eq_append_iff.mp hrest with ⟨y, rfl, rfl⟩ | ⟨y, rfl, -⟩
  · cases a with
    | nil =>
      rw [List.nil_append] at hsome
      omega
    | cons c a =>
      exact head?_optional_run hq hm hlen ha fun z hz => hb z (List.mem_append_left x hz)
  · cases front with
    | nil => exact absurd rfl hpos
    | cons c a =>
      have hwhole := head?_optional_run hq hm hlen (fun z hz => ha z (List.mem_append_left y hz))
        (List.forall_mem_nil _)
      rwa [List.append_nil] at hwhole

/-- **A run that must not be followed by another character**: if more text is
noticed, then the front is a run to its end. -/
theorem lookahead_grows {k k' : κ} (front : List α) :
    Keeps I (seq (rep k 1 none) (seq (notAhead (seq (cls k') eps)) eps)) front more ∨
      ∀ c ∈ front, I k c = true := by
  by_cases hall : ∀ c ∈ front, I k c = true
  · exact Or.inr hall
  refine Or.inl ?_
  have hrun : Keeps I (rep k 1 none) front more :=
    (keeps_or_reads (r := rep k 1 none) trivial front).resolve_right hall
  rw [Keeps, ends, hrun, List.flatMap_map]
  show _ = (((rep k 1 none).ends I front).flatMap _).map _
  rw [List.map_flatMap]
  refine List.flatMap_congr ?_
  intro u hu
  -- what is left of the front tells what follows, whatever comes behind it
  obtain ⟨m, hm, hreads⟩ := mem_ends_reads (r := rep k 1 none) hu
  cases u with
  | nil =>
    rw [List.append_nil] at hm
    exact absurd (hm ▸ hreads) hall
  | cons c u =>
    simp only [ends, List.cons_append]
    by_cases hc : I k' c = true <;> simp [hc]

-- ---------------------------------------------------------------------------
-- Runs of other classes
-- ---------------------------------------------------------------------------

theorem rep_ends_eq_nil {k : κ} {max : Option Nat} {s : List α} (h : ∀ c ∈ s, I k c = false) :
    (rep k 1 max).ends I s = [] := by
  show repEnds (I k) 1 max s = []
  cases s with
  | nil => rfl
  | cons c s =>
    have hc : ¬ I k c = true := by
      rw [h c (List.mem_cons_self ..)]
      exact Bool.false_ne_true
    rw [repEnds, if_neg fun h => hc h.1]
    rfl

/-- Without a character of its class in the text, a run finds nothing. -/
theorem seq_rep_ends_eq_nil {r q : Regex κ} {k : κ} {max : Option Nat} {s : List α}
    (h : ∀ c ∈ s, I k c = false) : (seq r (seq (rep k 1 max) q)).ends I s = [] := by
  rw [ends, List.flatMap_eq_nil_iff]
  intro u hu
  have hrep : (rep k 1 max).ends I u = [] :=
    rep_ends_eq_nil fun c hc => h c ((ends_suffix hu).1.subset hc)
  rw [ends, hrep, List.flatMap_nil]

theorem lit_ends_eq_nil {k : κ} {ks : List κ} {c : α} (h : I k c = false) (s : List α) :
    (lit (k :: ks)).ends I (c :: s) = [] := by
  simp [lit, ends, h]

theorem head?_eps (v : List α) :
    ((eps : Regex κ).ends I v).head? = some (v.dropWhile ((eps : Regex κ).reads I)) := by
  cases v <;> rfl

theorem head?_rep_eps (k : κ) (v : List α) :
    ((seq (rep k 0 none) eps).ends I v).head? =
      some (v.dropWhile ((seq (rep k 0 none) eps).reads I)) := by
  have hreads : (seq (rep k 0 none) eps).reads I = I k := by
    funext c
    exact Bool.or_false _
  rw [hreads]
  exact head?_flatMap_of_head? (head?_repEnds (I k) v) rfl

/-- On a text of one class, a run of it and then of another one is given back
up to the last place of the other, if there is one. -/
theorem head?_give_back {k k' : κ} {s : List α} (hs : ∀ c ∈ s, I k c = true) :
    ((∀ c ∈ s, I k' c = false) ∧ (seq (rep k 0 none) (seq (rep k' 1 none) eps)).ends I s = []) ∨
      ∃ v, ((seq (rep k 0 none) (seq (rep k' 1 none) eps)).ends I s).head? = some v ∧ v <:+ s ∧
        ∀ c ∈ v, I k' c = false := by
  induction s with
  | nil => exact Or.inl ⟨List.forall_mem_nil _, rfl⟩
  | cons c s ih =>
    obtain ⟨hc, hs⟩ := List.forall_mem_cons.mp hs
    have hends : (seq (rep k 0 none) (seq (rep k' 1 none) eps)).ends I (c :: s) =
        (seq (rep k 0 none) (seq (rep k' 1 none) eps)).ends I s ++
          (seq (rep k' 1 none) eps).ends I (c :: s) := by
      show (repEnds (I k) 0 none (c :: s)).flatMap _ = _
      rw [repEnds, if_pos ⟨hc, by simp⟩, if_pos rfl, List.flatMap_append, List.flatMap_singleton]
      rfl
    rw [hends]
    rcases ih hs with ⟨hno, hnil⟩ | ⟨v, hv, hsuffix, hno⟩
    · rw [hnil, List.nil_append]
      by_cases hc' : I k' c = true
      · refine Or.inr ⟨_, head?_run head?_eps hc' s, ?_⟩
        rw [List.dropWhile_cons_of_pos hc']
        have hsuffix : (s.dropWhile (I k')).dropWhile ((eps : Regex κ).reads I) <:+ s :=
          (List.dropWhile_suffix _).trans (List.dropWhile_suffix _)
        exact ⟨hsuffix.trans (List.suffix_cons c s), fun d hd => hno d (hsuffix.subset hd)⟩
      · exact Or.inl ⟨List.forall_mem_cons.mpr ⟨by simpa using hc', hno⟩, run_ends_of_neg hc' s⟩
    · rw [List.head?_append, hv]
      exact Or.inr ⟨v, rfl, hsuffix.trans (List.suffix_cons c s), hno⟩

-- ---------------------------------------------------------------------------
-- Alternations
-- ---------------------------------------------------------------------------

/-- **An alternation**: if each of its parts, when it notices more text, matches
the whole front first or shows that `P`, then the alternation does so. -/
theorem anyOf_grows {P : Prop} {rs : List (Regex κ)}
    (h : ∀ r ∈ rs, Keeps I r front more ∨ (r.ends I front).head? = some [] ∨ P) :
    ((anyOf rs).ends I (front ++ more)).head? =
        ((anyOf rs).ends I front).head?.map (· ++ more) ∨
      ((anyOf rs).ends I front).head? = some [] ∨ P := by
  have hkeeps {r : Regex κ} (h : Keeps I r front more) :
      (r.ends I (front ++ more)).head? = (r.ends I front).head?.map (· ++ more) := by
    rw [h, List.head?_map]
  induction rs with
  | nil => exact Or.inl rfl
  | cons r rs ih =>
    obtain ⟨hr, hrs⟩ := List.forall_mem_cons.mp h
    match rs with
    | [] => exact hr.imp_left hkeeps
    | q :: rs =>
      rw [anyOf, ends, ends, List.head?_append, List.head?_append]
      rcases hr with hr | hr | hP
      · rw [hkeeps hr]
        cases (r.ends I front).head? with
        | some t => exact Or.inl rfl
        | none => exact ih hrs
      · rw [hr]
        exact Or.inr (Or.inl rfl)
      · exact Or.inr (Or.inr hP)

/-- Parts that find nothing can be left out. -/
theorem anyOf_append_ends {as bs : List (Regex κ)} {s : List α} (has : ∀ r ∈ as, r.ends I s = [])
    (hbs : bs ≠ []) : (anyOf (as ++ bs)).ends I s = (anyOf bs).ends I s := by
  induction as with
  | nil => rfl
  | cons r as ih =>
    obtain ⟨hr, has⟩ := List.forall_mem_cons.mp has
    obtain ⟨q, rest, hrest⟩ := List.exists_cons_of_ne_nil (List.append_ne_nil_of_right_ne_nil as hbs)
    rw [List.cons_append, hrest, anyOf, ends, hr, List.nil_append, ← hrest, ih has]

-- ---------------------------------------------------------------------------
-- Words
-- ---------------------------------------------------------------------------

theorem search_of_head? {r : Regex κ} {c : α} {s t : List α}
    (h : (r.ends I (c :: s)).head? = some t) :
    search I r (c :: s) = some ⟨[], (c :: s).take ((c :: s).length - t.length), t⟩ := by
  rw [search, matchHere, h]
  rfl

/-- There are no more words than characters. -/
theorem length_words_le {r : Regex κ} (hcov : Covers I r) (hmin : 1 ≤ r.minLen) {n : Nat} {s : List α}
    (hn : s.length ≤ n) : (words I r n s).length ≤ s.length := by
  obtain ⟨hflat, hne⟩ := words_of_covers hcov hmin hn
  have hle := length_le_flatten hne
  rwa [hflat] at hle

/-- **All words but the last `k` are settled**: where a match is the same with
more text behind it as long as more than `k` words begin with it, they are words
of the longer text. -/
theorem words_grow {r : Regex κ} (hcov : Covers I r) (hmin : 1 ≤ r.minLen) {k : Nat}
    (h : ∀ front : List α, k < (words I r front.length front).length →
      (r.ends I (front ++ more)).head? = (r.ends I front).head?.map (· ++ more)) {n m : Nat}
    {front : List α} (hn : front.length ≤ n) (hm : (front ++ more).length ≤ m) :
    ∃ ws, words I r m (front ++ more) =
      (words I r n front).take ((words I r n front).length - k) ++ ws := by
  induction n generalizing front m with
  | zero => exact ⟨words I r m (front ++ more), by simp [words]⟩
  | succ n ih =>
    rcases Nat.lt_or_ge k (words I r (n + 1) front).length with hlong | hshort
    swap
    · rw [Nat.sub_eq_zero_of_le hshort]
      exact ⟨words I r m (front ++ more), rfl⟩
    cases front with
    | nil =>
      rw [words_nil hmin] at hlong
      simp at hlong
    | cons c front =>
      obtain ⟨t, ht⟩ : ∃ t, (r.ends I (c :: front)).head? = some t := by
        rw [← Option.ne_none_iff_exists', ne_eq, List.head?_eq_none_iff]
        exact hcov c front
      have hsame := h (c :: front) (by rwa [words_of_le hcov hmin (Nat.le_refl _) hn])
      rw [ht, Option.map_some, List.cons_append] at hsame
      have hshorter := (ends_suffix (List.mem_of_head? ht)).2
      rw [List.length_cons] at hshorter hn
      rw [List.length_append, List.length_cons] at hm
      obtain ⟨m, rfl⟩ : ∃ m', m = m' + 1 := ⟨m - 1, by omega⟩
      have hrest : t.length ≤ n := by omega
      obtain ⟨ws, hws⟩ := ih hrest (show (t ++ more).length ≤ m by rw [List.length_append]; omega)
      refine ⟨ws, ?_⟩
      have htake : ((c :: front) ++ more).take (((c :: front) ++ more).length - (t ++ more).length) =
          (c :: front).take ((c :: front).length - t.length) := by
        have hlen : ((c :: front) ++ more).length - (t ++ more).length =
            (c :: front).length - t.length := by
          simp only [List.length_append]
          omega
        rw [hlen, List.take_append_of_le_length (Nat.sub_le _ _)]
      have hwords : words I r (n + 1) (c :: front) =
          (c :: front).take ((c :: front).length - t.length) :: words I r n t := by
        rw [words, search_of_head? ht]
      rw [List.cons_append] at htake ⊢
      rw [hwords, List.length_cons] at hlong ⊢
      rw [words, search_of_head? hsame]
      dsimp only
      rw [htake, hws, Nat.succ_sub (by omega), List.take_succ_cons, List.cons_append]

end Backtrack
