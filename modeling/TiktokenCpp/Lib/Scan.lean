import Mathlib.Data.List.Basic
import Mathlib.Data.List.Infix

/-!
# Scanning a text for words

Leftmost, non-overlapping search for the words of a set: `nextHit` is the first
place where one of them occurs, and `cut` takes a text apart at its successive
hits.

Main results:

* `nextHit_isFirst`, `nextHit_none` -- what the search guarantees;
* `nextHit_append` -- a part where no word begins can be skipped;
* `nextHit_of_isFirst` -- where no word is a prefix of another, the first hit
  is unique;
* `cut_congr` -- only the words that occur in the text matter;
* `cut_append_word` -- where words do not overlap, a word separates what stands
  left of it from what stands right of it.
-/

namespace Scan

variable {α : Type} [DecidableEq α]

/-- A set of words to look for, none of them empty. -/
structure WordSet (α : Type) where
  words : List (List α)
  ne_nil : ∀ w ∈ words, w ≠ []

instance : Membership (List α) (WordSet α) where
  mem ws w := w ∈ ws.words

/-- The words with a property. -/
def WordSet.filter (ws : WordSet α) (p : List α → Bool) : WordSet α :=
  ⟨ws.words.filter p, fun w hw => ws.ne_nil w (List.mem_of_mem_filter hw)⟩

omit [DecidableEq α] in
@[simp] theorem WordSet.mem_filter {ws : WordSet α} {p : List α → Bool} {w : List α} :
    w ∈ ws.filter p ↔ w ∈ ws ∧ p w = true :=
  List.mem_filter

/-- No word is the beginning of another. -/
def WordSet.PrefixFree (ws : WordSet α) : Prop := ∀ w ∈ ws, ∀ v ∈ ws, w <+: v → w = v

omit [DecidableEq α] in
theorem WordSet.PrefixFree.filter {ws : WordSet α} (h : ws.PrefixFree) (p : List α → Bool) :
    (ws.filter p).PrefixFree := by
  intro w hw v hv
  exact h w (WordSet.mem_filter.mp hw).1 v (WordSet.mem_filter.mp hv).1

/-- A place where a word occurs: what stands before it, the word, the rest. -/
structure Hit (α : Type) where
  before : List α
  word : List α
  after : List α
  deriving DecidableEq, Repr

/-- The hit seen from `p` further left. -/
def Hit.prepend (p : List α) (h : Hit α) : Hit α := { h with before := p ++ h.before }

/-- No word begins inside `p`, when `t` follows it. -/
def Clear (ws : WordSet α) (p t : List α) : Prop :=
  ∀ a b, p = a ++ b → b ≠ [] → ∀ w ∈ ws, ¬ w <+: b ++ t

/-- A hit with no word beginning before it. -/
structure IsFirst (ws : WordSet α) (text : List α) (h : Hit α) : Prop where
  split : text = h.before ++ (h.word ++ h.after)
  mem : h.word ∈ ws
  first : Clear ws h.before (h.word ++ h.after)

/-- The first hit in a text. -/
def nextHit (ws : WordSet α) : List α → Option (Hit α)
  | [] => none
  | c :: t =>
    match ws.words.find? fun w => w.isPrefixOf (c :: t) with
    | some w => some ⟨[], w, (c :: t).drop w.length⟩
    | none => (nextHit ws t).map (Hit.prepend [c])

section

variable {ws : WordSet α}

omit [DecidableEq α] in
theorem Clear.nil (t : List α) : Clear ws [] t := by
  intro a b hab hb
  exact absurd (List.append_eq_nil_iff.mp hab.symm).2 hb

omit [DecidableEq α] in
/-- One more character in front. -/
theorem Clear.cons {c : α} {p t : List α} (hc : ∀ w ∈ ws, ¬ w <+: c :: (p ++ t))
    (h : Clear ws p t) : Clear ws (c :: p) t := by
  intro a b hab hb
  cases a with
  | nil =>
    rw [List.nil_append] at hab
    rw [← hab]
    exact hc
  | cons d a =>
    rw [List.cons_append, List.cons.injEq] at hab
    exact h a b hab.2 hb

omit [DecidableEq α] in
theorem Clear.of_cons {c : α} {p t : List α} (h : Clear ws (c :: p) t) :
    (∀ w ∈ ws, ¬ w <+: c :: (p ++ t)) ∧ Clear ws p t := by
  refine ⟨h [] (c :: p) rfl (List.cons_ne_nil c p), ?_⟩
  intro a b hab hb
  exact h (c :: a) b (by rw [hab, List.cons_append]) hb

omit [DecidableEq α] in
theorem Clear.append {p q t : List α} (hp : Clear ws p (q ++ t)) (hq : Clear ws q t) :
    Clear ws (p ++ q) t := by
  induction p with
  | nil => exact hq
  | cons c p ih =>
    obtain ⟨hc, hrest⟩ := hp.of_cons
    rw [List.cons_append]
    exact Clear.cons (by rwa [List.append_assoc]) (ih hrest)

omit [DecidableEq α] in
/-- Fewer words, fewer places. -/
theorem Clear.filter {p t : List α} (h : Clear ws p t) (q : List α → Bool) :
    Clear (ws.filter q) p t :=
  fun a b hab hb w hw => h a b hab hb w (WordSet.mem_filter.mp hw).1

omit [DecidableEq α] in
/-- A text is clear when no word occurs in it. -/
theorem clear_iff {text : List α} : Clear ws text [] ↔ ∀ w ∈ ws, ¬ w <:+: text := by
  constructor
  · rintro h w hw ⟨a, b, hab⟩
    refine h a (w ++ b) (by rw [← hab, List.append_assoc]) ?_ w hw ⟨b, by rw [List.append_nil]⟩
    intro hnil
    exact ws.ne_nil w hw (List.append_eq_nil_iff.mp hnil).1
  · rintro h a b rfl _ w hw ⟨c, hc⟩
    rw [List.append_nil] at hc
    exact h w hw ⟨a, c, by rw [← hc, List.append_assoc]⟩

private theorem find?_none {text : List α}
    (h : ws.words.find? (fun w => w.isPrefixOf text) = none) : ∀ w ∈ ws, ¬ w <+: text := by
  intro w hw hpre
  have := List.find?_eq_none.mp h w hw
  rw [List.isPrefixOf_iff_prefix] at this
  exact this hpre

theorem nextHit_isFirst {text : List α} {h : Hit α} (hhit : nextHit ws text = some h) :
    IsFirst ws text h := by
  induction text generalizing h with
  | nil => simp [nextHit] at hhit
  | cons c t ih =>
    rw [nextHit] at hhit
    split at hhit
    · next w hw =>
      cases hhit
      have hpre : w <+: c :: t := by
        have := List.find?_some hw
        rwa [List.isPrefixOf_iff_prefix] at this
      obtain ⟨rest, hrest⟩ := hpre
      refine ⟨?_, List.mem_of_find?_eq_some hw, Clear.nil _⟩
      rw [← hrest, List.drop_left, List.nil_append]
    · next hnone =>
      rw [Option.map_eq_some_iff] at hhit
      obtain ⟨h', hh', rfl⟩ := hhit
      obtain ⟨hsplit, hmem, hfirst⟩ := ih hh'
      refine ⟨?_, hmem, ?_⟩
      · show c :: t = [c] ++ h'.before ++ (h'.word ++ h'.after)
        rw [hsplit]
        rfl
      · refine Clear.cons ?_ hfirst
        show ∀ w ∈ ws, ¬ w <+: c :: (h'.before ++ (h'.word ++ h'.after))
        rw [← hsplit]
        exact find?_none hnone

theorem nextHit_none {text : List α} (h : nextHit ws text = none) : Clear ws text [] := by
  induction text with
  | nil => exact Clear.nil []
  | cons c t ih =>
    rw [nextHit] at h
    split at h
    · simp at h
    · next hnone =>
      rw [Option.map_eq_none_iff] at h
      exact Clear.cons (by rw [List.append_nil]; exact find?_none hnone) (ih h)

/-- A part where no word begins is skipped. -/
theorem nextHit_append {p t : List α} (h : Clear ws p t) :
    nextHit ws (p ++ t) = (nextHit ws t).map (Hit.prepend p) := by
  induction p with
  | nil =>
    rw [List.nil_append]
    cases nextHit ws t <;> rfl
  | cons c p ih =>
    obtain ⟨hc, hp⟩ := h.of_cons
    have hnone : ws.words.find? (fun w => w.isPrefixOf (c :: (p ++ t))) = none := by
      rw [List.find?_eq_none]
      intro w hw
      rw [List.isPrefixOf_iff_prefix]
      exact hc w hw
    rw [List.cons_append, nextHit, hnone, ih hp]
    cases nextHit ws t <;> rfl

theorem nextHit_of_clear {text : List α} (h : Clear ws text []) : nextHit ws text = none := by
  have := nextHit_append h
  rwa [List.append_nil] at this

/-- Where no word begins another, the first hit is the only one. -/
theorem nextHit_of_isFirst (hpf : ws.PrefixFree) {text : List α} {h : Hit α}
    (hfirst : IsFirst ws text h) : nextHit ws text = some h := by
  obtain ⟨hsplit, hmem, hclear⟩ := hfirst
  have hne := ws.ne_nil _ hmem
  have hhere : nextHit ws (h.word ++ h.after) = some ⟨[], h.word, h.after⟩ := by
    obtain ⟨c, w, hw⟩ := List.exists_cons_of_ne_nil hne
    have hpre : h.word <+: c :: (w ++ h.after) := ⟨h.after, by rw [hw]; rfl⟩
    have hfind : ws.words.find? (fun v => v.isPrefixOf (c :: (w ++ h.after))) = some h.word := by
      cases hf : ws.words.find? (fun v => v.isPrefixOf (c :: (w ++ h.after))) with
      | none => exact absurd hpre (find?_none hf h.word hmem)
      | some v =>
        have hv : v <+: c :: (w ++ h.after) := by
          have := List.find?_some hf
          rwa [List.isPrefixOf_iff_prefix] at this
        have hvmem := List.mem_of_find?_eq_some hf
        rcases List.prefix_or_prefix_of_prefix hv hpre with hvw | hwv
        · rw [hpf v hvmem h.word hmem hvw]
        · rw [hpf h.word hmem v hvmem hwv]
    have htext : h.word ++ h.after = c :: (w ++ h.after) := by rw [hw]; rfl
    rw [htext, nextHit, hfind, ← htext]
    show some (Hit.mk [] h.word ((h.word ++ h.after).drop h.word.length)) = _
    rw [List.drop_left]
  rw [hsplit, nextHit_append hclear, hhere]
  show some (Hit.mk (h.before ++ []) h.word h.after) = some h
  rw [List.append_nil]

theorem nextHit_eq_none_iff {text : List α} :
    nextHit ws text = none ↔ ∀ w ∈ ws, ¬ w <:+: text :=
  ⟨fun h => clear_iff.mp (nextHit_none h), fun h => nextHit_of_clear (clear_iff.mpr h)⟩

theorem after_lt_of_nextHit {text : List α} {h : Hit α} (hhit : nextHit ws text = some h) :
    h.after.length < text.length := by
  obtain ⟨hsplit, hmem, -⟩ := nextHit_isFirst hhit
  have hpos := List.length_pos_iff.mpr (ws.ne_nil _ hmem)
  have hlen := congrArg List.length hsplit
  rw [List.length_append, List.length_append] at hlen
  omega

/-- Only the words that occur in the text matter. -/
theorem nextHit_congr {vs : WordSet α} (hws : ws.PrefixFree) (hvs : vs.PrefixFree) {text : List α}
    (h : ∀ w, w <:+: text → (w ∈ ws ↔ w ∈ vs)) : nextHit ws text = nextHit vs text := by
  have key {us ts : WordSet α} (hts : ts.PrefixFree)
      (huts : ∀ w, w <:+: text → (w ∈ us ↔ w ∈ ts)) {hit : Hit α}
      (hhit : nextHit us text = some hit) : nextHit ts text = some hit := by
    obtain ⟨hsplit, hmem, hclear⟩ := nextHit_isFirst hhit
    refine nextHit_of_isFirst hts ⟨hsplit, ?_, ?_⟩
    · refine (huts hit.word ⟨hit.before, hit.after, ?_⟩).mp hmem
      rw [hsplit, List.append_assoc]
    · intro a b hab hb w hw hpre
      obtain ⟨c, hc⟩ := hpre
      refine hclear a b hab hb w ((huts w ⟨a, c, ?_⟩).mpr hw) ⟨c, hc⟩
      rw [hsplit, hab, List.append_assoc, List.append_assoc, hc]
  apply Option.ext
  intro hit
  exact ⟨key hvs h, key hws fun w hw => (h w hw).symm⟩

end

-- ---------------------------------------------------------------------------
-- Cutting at every hit
-- ---------------------------------------------------------------------------

/-- A text taken apart at its successive hits: each hit with what stands
between it and the one before, and the end of the text. -/
def cut (ws : WordSet α) (text : List α) : List (List α × List α) × List α :=
  match _h : nextHit ws text with
  | none => ([], text)
  | some hit => ((hit.before, hit.word) :: (cut ws hit.after).1, (cut ws hit.after).2)
termination_by text.length
decreasing_by all_goals exact after_lt_of_nextHit ‹_›

variable {ws : WordSet α}

theorem cut_of_none {text : List α} (h : nextHit ws text = none) : cut ws text = ([], text) := by
  rw [cut]
  split
  · rfl
  · simp_all

theorem cut_of_some {text : List α} {hit : Hit α} (h : nextHit ws text = some hit) :
    cut ws text = ((hit.before, hit.word) :: (cut ws hit.after).1, (cut ws hit.after).2) := by
  rw [cut]
  split
  · simp_all
  · next hit' h' =>
    have : hit' = hit := by simpa [h'] using h
    rw [this]

/-- Every hit of a cut is one of the words. -/
theorem mem_of_mem_cut {text : List α} {p : List α × List α} (hp : p ∈ (cut ws text).1) :
    p.2 ∈ ws := by
  induction hn : text.length using Nat.strong_induction_on generalizing text with
  | _ n ih =>
    cases hhit : nextHit ws text with
    | none =>
      rw [cut_of_none hhit] at hp
      simp at hp
    | some hit =>
      rw [cut_of_some hhit] at hp
      rcases List.mem_cons.mp hp with rfl | hp
      · exact (nextHit_isFirst hhit).mem
      · exact ih _ (hn ▸ after_lt_of_nextHit hhit) hp rfl

/-- The pieces of a cut are the text. -/
theorem cut_flatten (ws : WordSet α) (text : List α) :
    ((cut ws text).1.flatMap fun p => p.1 ++ p.2) ++ (cut ws text).2 = text := by
  induction hn : text.length using Nat.strong_induction_on generalizing text with
  | _ n ih =>
    cases hhit : nextHit ws text with
    | none =>
      rw [cut_of_none hhit]
      rfl
    | some hit =>
      have hrest := ih _ (hn ▸ after_lt_of_nextHit hhit) hit.after rfl
      rw [cut_of_some hhit, List.flatMap_cons, List.append_assoc, hrest, List.append_assoc]
      exact (nextHit_isFirst hhit).split.symm

theorem cut_congr {vs : WordSet α} (hws : ws.PrefixFree) (hvs : vs.PrefixFree) {text : List α}
    (h : ∀ w, w <:+: text → (w ∈ ws ↔ w ∈ vs)) : cut ws text = cut vs text := by
  induction hn : text.length using Nat.strong_induction_on generalizing text with
  | _ n ih =>
    have hnext := nextHit_congr hws hvs h
    cases hhit : nextHit ws text with
    | none => rw [cut_of_none hhit, cut_of_none (hnext.symm.trans hhit)]
    | some hit =>
      have hsplit := (nextHit_isFirst hhit).split
      have hafter : cut ws hit.after = cut vs hit.after := by
        refine ih _ (hn ▸ after_lt_of_nextHit hhit) (fun w hw => h w ?_) rfl
        refine hw.trans ⟨hit.before ++ hit.word, [], ?_⟩
        rw [hsplit, List.append_nil, List.append_assoc]
      rw [cut_of_some hhit, cut_of_some (hnext.symm.trans hhit), hafter]

-- ---------------------------------------------------------------------------
-- Words as separators
-- ---------------------------------------------------------------------------

/-- No word ends like another one begins, or has another one inside that does
not begin it. -/
def WordSet.NoOverlap (ws : WordSet α) : Prop :=
  ∀ w ∈ ws, ∀ v ∈ ws, ∀ a x, w = a ++ x → a ≠ [] → x ≠ [] → ¬ x <+: v ∧ ¬ v <+: x

omit [DecidableEq α] in
theorem WordSet.NoOverlap.filter (h : ws.NoOverlap) (p : List α → Bool) : (ws.filter p).NoOverlap :=
  fun w hw v hv => h w (WordSet.mem_filter.mp hw).1 v (WordSet.mem_filter.mp hv).1

omit [DecidableEq α] in
/-- A part stays clear when the text goes on with a word. -/
theorem Clear.extend (hno : ws.NoOverlap) {p q s v : List α} (h : Clear ws p q) (hv : v ∈ ws)
    (hpre : v <+: q ++ s) : Clear ws p (q ++ s) := by
  intro a b hab hb w hw hwpre
  rw [← List.append_assoc] at hwpre
  rcases List.prefix_or_prefix_of_prefix hwpre (List.prefix_append (b ++ q) s) with hin | hout
  · exact h a b hab hb w hw hin
  · -- a word that begins in `p` would overlap the one that follows
    obtain ⟨y, rfl⟩ := hout
    rw [List.append_assoc] at hw hwpre
    rw [List.append_assoc, List.prefix_append_right_inj] at hwpre
    have hsuffix := hno _ hw v hv b (q ++ y) rfl hb
    by_cases hnil : q ++ y = []
    · rw [hnil, List.append_nil] at hw
      exact h a b hab hb b hw (List.prefix_append b q)
    · obtain ⟨hxv, hvx⟩ := hsuffix hnil
      exact (List.prefix_or_prefix_of_prefix hwpre hpre).elim hxv hvx

/-- **A word separates the text**: left and right of it the cut is that of the
two parts. -/
theorem cut_append_word (hpf : ws.PrefixFree) (hno : ws.NoOverlap) {n : List α} (hn : n ∈ ws)
    (text rest : List α) :
    cut ws (text ++ (n ++ rest)) =
      ((cut ws text).1 ++ ((cut ws text).2, n) :: (cut ws rest).1, (cut ws rest).2) := by
  induction hlen : text.length using Nat.strong_induction_on generalizing text with
  | _ k ih =>
    cases hhit : nextHit ws text with
    | none =>
      have hclear := (nextHit_none hhit).extend hno (s := n ++ rest) hn (List.prefix_append n rest)
      have hnext : nextHit ws (text ++ (n ++ rest)) = some ⟨text, n, rest⟩ :=
        nextHit_of_isFirst hpf ⟨rfl, hn, hclear⟩
      rw [cut_of_some hnext, cut_of_none hhit]
      rfl
    | some hit =>
      obtain ⟨hsplit, hmem, hclear⟩ := nextHit_isFirst hhit
      have hword : hit.word <+: hit.word ++ hit.after ++ (n ++ rest) :=
        (List.prefix_append _ _).trans (List.prefix_append _ _)
      have hnext : nextHit ws (text ++ (n ++ rest)) =
          some ⟨hit.before, hit.word, hit.after ++ (n ++ rest)⟩ := by
        refine nextHit_of_isFirst hpf ⟨?_, hmem, ?_⟩
        · rw [hsplit]
          simp only [List.append_assoc]
        · show Clear ws hit.before (hit.word ++ (hit.after ++ (n ++ rest)))
          rw [← List.append_assoc]
          exact hclear.extend hno hmem hword
      rw [cut_of_some hnext, cut_of_some hhit,
        ih _ (hlen ▸ after_lt_of_nextHit hhit) hit.after rfl]
      rfl

omit [DecidableEq α] in
/-- A word in a text with another one in its middle is that one, or stands left
or right of it. -/
theorem infix_append_word (hpf : ws.PrefixFree) (hno : ws.NoOverlap) {n w : List α} (hn : n ∈ ws)
    (hw : w ∈ ws) {text rest : List α} (h : w <:+: text ++ (n ++ rest)) :
    w <:+: text ∨ w = n ∨ w <:+: rest := by
  -- two words that begin at the same place are the same
  have hsame {u v x y : List α} (hu : u ∈ ws) (hv : v ∈ ws) (h : u ++ x = v ++ y) : u = v := by
    rcases List.prefix_or_prefix_of_prefix ⟨x, rfl⟩ ⟨y, h.symm⟩ with huv | hvu
    · exact hpf u hu v hv huv
    · exact (hpf v hv u hu hvu).symm
  -- and one that begins inside another stands right of it
  have hright {u v c d x y : List α} (hu : u ∈ ws) (hv : v ∈ ws) (hsplit : u = c ++ d)
      (h : d ++ x = v ++ y) : u = v ∨ d = [] := by
    by_cases hc : c = []
    · rw [hc, List.nil_append] at hsplit
      exact Or.inl (hsame hu hv (hsplit ▸ h))
    · by_contra hno'
      rw [not_or] at hno'
      obtain ⟨hdv, hvd⟩ := hno u hu v hv c d hsplit hc hno'.2
      exact (List.prefix_or_prefix_of_prefix ⟨x, rfl⟩ ⟨y, h.symm⟩).elim hdv hvd
  obtain ⟨a, b, hab⟩ := h
  rw [List.append_assoc] at hab
  rcases List.append_eq_append_iff.mp hab with ⟨c, rfl, hc⟩ | ⟨c, rfl, hc⟩
  · rcases List.append_eq_append_iff.mp hc with ⟨d, rfl, -⟩ | ⟨d, hd, hrest⟩
    · exact Or.inl ⟨a, d, by simp⟩
    · rcases hright hw hn hd hrest.symm with heq | hnil
      · exact Or.inr (Or.inl heq)
      · rw [hnil, List.append_nil] at hd
        exact Or.inl ⟨a, [], by simp [hd]⟩
  · rcases List.append_eq_append_iff.mp hc with ⟨d, rfl, rfl⟩ | ⟨d, hd, hrest⟩
    · exact Or.inr (Or.inr ⟨d, b, by simp⟩)
    · rcases hright hn hw hd hrest.symm with heq | hnil
      · exact Or.inr (Or.inl heq.symm)
      · rw [hnil, List.nil_append] at hrest
        exact Or.inr (Or.inr ⟨[], b, by simpa using hrest⟩)

end Scan
