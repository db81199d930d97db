import TiktokenCpp.Lib.Backtrack

/-!
# Matching a text in parts

What a backtracking matcher does on the front of a longer text. The ways to
match that end inside the front are those of the front alone, in the same
order, as long as no lookahead can tell the end of the front from what follows.
Where no match reaches beyond the front, the words of the whole text are those
of the two parts.

* `ends_append` -- the ends inside the front;
* `mem_ends_reads` -- a match consists of characters that the expression reads;
* `words_append` -- the words of two parts.
-/

namespace Backtrack

open Regex

variable {κ α : Type} {I : κ → α → Bool}

-- ---------------------------------------------------------------------------
-- Ends inside the front
-- ---------------------------------------------------------------------------

/-- No lookahead of the expression can tell the end of a text from `s`. -/
def Regex.Blind (I : κ → α → Bool) (s : List α) : Regex κ → Prop
  | seq r q | alt r q => r.Blind I s ∧ q.Blind I s
  | notAhead r => ∀ p, r.ends I (p ++ s) = [] ↔ r.ends I p = []
  | group r => r.Blind I s
  | _ => True

/-- The ends that leave `s` untouched. -/
def endsBefore (s : List α) (ts : List (List α)) : List (List α) :=
  ts.filter fun t => s.length ≤ t.length

@[simp] theorem endsBefore_nil (s : List α) : endsBefore s [] = [] := rfl

@[simp] theorem endsBefore_append (s : List α) (ts us : List (List α)) :
    endsBefore s (ts ++ us) = endsBefore s ts ++ endsBefore s us := by
  rw [endsBefore, List.filter_append]
  rfl

theorem endsBefore_cons (s t : List α) (ts : List (List α)) :
    endsBefore s (t :: ts) =
      if s.length ≤ t.length then t :: endsBefore s ts else endsBefore s ts := by
  rw [endsBefore, List.filter_cons]
  simp only [decide_eq_true_eq]
  rfl

theorem endsBefore_flatMap (s : List α) (ts : List (List α)) (f : List α → List (List α)) :
    endsBefore s (ts.flatMap f) = ts.flatMap fun t => endsBefore s (f t) :=
  List.filter_flatMap

theorem endsBefore_eq_nil {s : List α} {ts : List (List α)} (h : ∀ t ∈ ts, t.length < s.length) :
    endsBefore s ts = [] := by
  rw [endsBefore, List.filter_eq_nil_iff]
  intro t ht
  simpa using h t ht

theorem endsBefore_singleton (p s : List α) : endsBefore s [p ++ s] = [p ++ s] := by
  simp [endsBefore]

theorem repEnds_append (p : α → Bool) (min : Nat) (max : Option Nat) (front s : List α) :
    endsBefore s (repEnds p min max (front ++ s)) =
      (repEnds p min max front).map (· ++ s) := by
  induction front generalizing min max with
  | nil =>
    cases s with
    | nil =>
      rw [List.nil_append, repEnds]
      split <;> simp [endsBefore]
    | cons c s =>
      have hshort : endsBefore (c :: s) (if p c ∧ max ≠ some 0 then
          repEnds p (min - 1) (max.map (· - 1)) s else []) = [] := by
        refine endsBefore_eq_nil ?_
        intro t ht
        split at ht
        · have := (repEnds_suffix ht).1.length_le
          rw [List.length_cons]
          omega
        · simp at ht
      rw [List.nil_append, repEnds, repEnds, endsBefore_append, hshort]
      split <;> simp [endsBefore]
  | cons c front ih =>
    rw [List.cons_append, repEnds, repEnds, endsBefore_append, List.map_append]
    congr 1
    · split
      · exact ih _ _
      · rfl
    · split
      · exact endsBefore_singleton (c :: front) s
      · rfl

/-- **The ends inside the front of a text are those of the front alone.** -/
theorem ends_append {r : Regex κ} {s : List α} (h : r.Blind I s) (front : List α) :
    endsBefore s (r.ends I (front ++ s)) = (r.ends I front).map (· ++ s) := by
  induction r generalizing front with
  | eps => exact endsBefore_singleton front s
  | cls k =>
    cases front with
    | nil =>
      refine endsBefore_eq_nil ?_
      intro t ht
      have := (ends_suffix ht).2
      rw [minLen, List.nil_append] at this
      omega
    | cons c front =>
      rw [List.cons_append]
      simp only [ends]
      split
      · exact endsBefore_singleton front s
      · rfl
  | rep k min max => exact repEnds_append _ _ _ _ _
  | seq r q ihr ihq =>
    rw [ends, ends, endsBefore_flatMap, List.map_flatMap]
    -- a part that ends beyond the front leaves nothing to the next one
    have hskip (ts : List (List α)) : (ts.flatMap fun t => endsBefore s (q.ends I t)) =
        (endsBefore s ts).flatMap fun t => endsBefore s (q.ends I t) := by
      induction ts with
      | nil => rfl
      | cons t ts ih =>
        rw [List.flatMap_cons, ih, endsBefore_cons]
        split
        · rw [List.flatMap_cons]
        · next hlong =>
          have hnil : endsBefore s (q.ends I t) = [] := by
            refine endsBefore_eq_nil ?_
            intro u hu
            have := (ends_suffix hu).1.length_le
            omega
          rw [hnil, List.nil_append]
    rw [hskip, ihr h.1, List.flatMap_map]
    refine List.flatMap_congr ?_
    intro t _
    exact ihq h.2 t
  | alt r q ihr ihq =>
    rw [ends, ends, endsBefore_append, ihr h.1, ihq h.2, List.map_append]
  | notAhead r _ =>
    have hblind : r.ends I (front ++ s) = [] ↔ r.ends I front = [] := h front
    rw [ends, ends]
    by_cases hfront : r.ends I front = []
    · rw [if_pos hfront, if_pos (hblind.mpr hfront)]
      exact endsBefore_singleton front s
    · rw [if_neg hfront, if_neg fun hs => hfront (hblind.mp hs)]
      rfl
  | group r ih => exact ih h front

theorem blind_lit (s : List α) (ks : List κ) : (lit ks).Blind I s := by
  induction ks with
  | nil => trivial
  | cons k ks ih => exact ⟨trivial, ih⟩

theorem blind_anyOf {s : List α} {rs : List (Regex κ)} (h : ∀ r ∈ rs, r.Blind I s) :
    (anyOf rs).Blind I s := by
  induction rs with
  | nil => trivial
  | cons r rs ih =>
    obtain ⟨hr, hrs⟩ := List.forall_mem_cons.mp h
    match rs with
    | [] => exact hr
    | q :: rs => exact ⟨hr, ih hrs⟩

-- ---------------------------------------------------------------------------
-- What a match consists of
-- ---------------------------------------------------------------------------

/-- Some class that the expression consumes has the character. -/
def Regex.reads (I : κ → α → Bool) : Regex κ → α → Bool
  | cls k, c | rep k _ _, c => I k c
  | seq r q, c | alt r q, c => r.reads I c || q.reads I c
  | group r, c => r.reads I c
  | _, _ => false

theorem mem_repEnds_reads {p : α → Bool} {min : Nat} {max : Option Nat} {s t : List α}
    (h : t ∈ repEnds p min max s) :
    ∃ m, s = m ++ t ∧ (∀ c ∈ m, p c = true) ∧ ∀ n, max = some n → m.length ≤ n := by
  induction s generalizing min max with
  | nil =>
    rw [repEnds] at h
    split at h
    · obtain rfl : t = [] := by simpa using h
      exact ⟨[], rfl, by simp, by simp⟩
    · simp at h
  | cons c s ih =>
    rw [repEnds, List.mem_append] at h
    rcases h with h | h
    · split at h
      · next hc =>
        obtain ⟨m, rfl, hm, hlen⟩ := ih h
        refine ⟨c :: m, rfl, List.forall_mem_cons.mpr ⟨hc.1, hm⟩, ?_⟩
        intro n hn
        have hpos : n ≠ 0 := fun h0 => hc.2 (by rw [hn, h0])
        have := hlen (n - 1) (by rw [hn]; rfl)
        rw [List.length_cons]
        omega
      · simp at h
    · split at h
      · obtain rfl : t = c :: s := by simpa using h
        exact ⟨[], rfl, by simp, by simp⟩
      · simp at h

/-- A match consists of characters that the expression reads. -/
theorem mem_ends_reads {r : Regex κ} {s t : List α} (h : t ∈ r.ends I s) :
    ∃ m, s = m ++ t ∧ ∀ c ∈ m, r.reads I c = true := by
  induction r generalizing s t with
  | eps =>
    obtain rfl : t = s := by simpa [ends] using h
    exact ⟨[], rfl, by simp⟩
  | cls k =>
    cases s with
    | nil => simp [ends] at h
    | cons c s =>
      simp only [ends] at h
      split at h
      · next hc =>
        obtain rfl : t = s := by simpa using h
        exact ⟨[c], rfl, by simpa [reads] using hc⟩
      · simp at h
  | rep k min max =>
    obtain ⟨m, hs, hm, -⟩ := mem_repEnds_reads h
    exact ⟨m, hs, hm⟩
  | seq r q ihr ihq =>
    rw [ends, List.mem_flatMap] at h
    obtain ⟨u, hu, ht⟩ := h
    obtain ⟨m, rfl, hm⟩ := ihr hu
    obtain ⟨m', rfl, hm'⟩ := ihq ht
    refine ⟨m ++ m', by rw [List.append_assoc], ?_⟩
    intro c hc
    rw [reads, Bool.or_eq_true]
    exact (List.mem_append.mp hc).imp (hm c) (hm' c)
  | alt r q ihr ihq =>
    rw [ends, List.mem_append] at h
    rcases h with h | h
    · obtain ⟨m, hs, hm⟩ := ihr h
      exact ⟨m, hs, fun c hc => by rw [reads, hm c hc, Bool.true_or]⟩
    · obtain ⟨m, hs, hm⟩ := ihq h
      exact ⟨m, hs, fun c hc => by rw [reads, hm c hc, Bool.or_true]⟩
  | notAhead r _ =>
    rw [ends] at h
    split at h
    · obtain rfl : t = s := by simpa using h
      exact ⟨[], rfl, by simp⟩
    · simp at h
  | group r ih => exact ih h

theorem reads_anyOf {rs : List (Regex κ)} {c : α} (h : ∀ r ∈ rs, r.reads I c = false) :
    (anyOf rs).reads I c = false := by
  induction rs with
  | nil => rfl
  | cons r rs ih =>
    obtain ⟨hr, hrs⟩ := List.forall_mem_cons.mp h
    match rs with
    | [] => exact hr
    | q :: rs =>
      rw [anyOf, reads, hr, ih hrs]
      rfl

theorem reads_lit {ks : List κ} {c : α} (h : ∀ k ∈ ks, I k c = false) :
    (lit ks).reads I c = false := by
  induction ks with
  | nil => rfl
  | cons k ks ih =>
    obtain ⟨hk, hks⟩ := List.forall_mem_cons.mp h
    rw [lit, reads, reads, hk, ih hks]
    rfl

-- ---------------------------------------------------------------------------
-- Words of two parts
-- ---------------------------------------------------------------------------

/-- No match that begins in the front reaches into `s`. -/
def Stays (I : κ → α → Bool) (r : Regex κ) (front s : List α) : Prop :=
  ∀ a b, front = a ++ b → b ≠ [] → ∀ t ∈ r.ends I (b ++ s), s.length ≤ t.length

theorem Stays.of_append {r : Regex κ} {a b s : List α} (h : Stays I r (a ++ b) s) :
    Stays I r b s := by
  intro a' b' hb
  exact h (a ++ a') b' (by rw [hb, List.append_assoc])

theorem stays_anyOf {rs : List (Regex κ)} (hrs : rs ≠ []) {front s : List α}
    (h : ∀ r ∈ rs, Stays I r front s) : Stays I (anyOf rs) front s := by
  intro a b hab hb t ht
  obtain ⟨r, hr, ht⟩ := (mem_ends_anyOf hrs).mp ht
  exact h r hr a b hab hb t ht

/-- An expression does not reach into what begins with a character it does not
read. -/
theorem stays_of_first {r : Regex κ} {c : α} (h : r.reads I c = false) (front s : List α) :
    Stays I r front (c :: s) := by
  intro a b _ _ t ht
  obtain ⟨m, hm, hreads⟩ := mem_ends_reads ht
  rcases List.append_eq_append_iff.mp hm with ⟨x, rfl, hx⟩ | ⟨x, rfl, rfl⟩
  · cases x with
    | nil => exact hx ▸ Nat.le_refl _
    | cons d x =>
      rw [List.cons_append, List.cons.injEq] at hx
      have hd := hreads d (by simp)
      rw [← hx.1, h] at hd
      cases hd
  · rw [List.length_append]
    omega

/-- The same with an optional character in front. -/
theorem stays_of_optional {k : κ} {q : Regex κ} {c : α} (h : q.reads I c = false)
    (front s : List α) : Stays I (seq (rep k 0 (some 1)) q) front (c :: s) := by
  intro a b hab hb t ht
  rw [ends, List.mem_flatMap] at ht
  obtain ⟨u, hu, ht⟩ := ht
  obtain ⟨m, hm, -, hlen⟩ := mem_repEnds_reads hu
  obtain ⟨d, b, rfl⟩ := List.exists_cons_of_ne_nil hb
  have hone := hlen 1 rfl
  -- the rest of the front is left to `q`
  have hu : ∃ b', u = b' ++ c :: s := by
    rcases m with _ | ⟨x, m⟩
    · exact ⟨d :: b, hm.symm⟩
    · have hnil : m = [] := List.length_eq_zero_iff.mp (by rw [List.length_cons] at hone; omega)
      rw [hnil, List.singleton_append, List.cons_append, List.cons.injEq] at hm
      exact ⟨b, hm.2.symm⟩
  obtain ⟨b', rfl⟩ := hu
  cases b' with
  | nil =>
    obtain ⟨m', hm', hreads⟩ := mem_ends_reads ht
    cases m' with
    | nil =>
      obtain rfl : c :: s = t := hm'
      exact Nat.le_refl _
    | cons x m' =>
      rw [List.nil_append, List.cons_append, List.cons.injEq] at hm'
      have hx := hreads x (List.mem_cons_self ..)
      rw [← hm'.1, h] at hx
      cases hx
  | cons x b' => exact stays_of_first h (x :: b') s [] _ rfl (List.cons_ne_nil x b') t ht

/-- An expression that does not read the last character of the front does not
reach beyond it. -/
theorem stays_of_last {r : Regex κ} {c : α} (h : r.reads I c = false) (front s : List α) :
    Stays I r (front ++ [c]) s := by
  intro a b hab hb t ht
  obtain ⟨m, hm, hreads⟩ := mem_ends_reads ht
  rcases List.append_eq_append_iff.mp hm with ⟨x, rfl, -⟩ | ⟨x, rfl, rfl⟩
  · have hlast : c ∈ b := by
      have hget := congrArg List.getLast? hab
      rw [List.getLast?_concat, List.getLast?_append_of_ne_nil _ hb] at hget
      exact List.mem_of_getLast? hget.symm
    have hc := hreads c (List.mem_append_left x hlast)
    rw [h] at hc
    cases hc
  · rw [List.length_append]
    omega

theorem matchHere_append {r : Regex κ} {front s : List α} (hblind : r.Blind I s)
    (hstays : Stays I r front s) (hne : front ≠ []) :
    matchHere I r (front ++ s) =
      (matchHere I r front).map fun f => ⟨f.skipped, f.matched, f.rest ++ s⟩ := by
  have hends : r.ends I (front ++ s) = (r.ends I front).map (· ++ s) := by
    rw [← ends_append hblind, endsBefore, List.filter_eq_self.mpr]
    intro t ht
    exact decide_eq_true (hstays [] front rfl hne t ht)
  rw [matchHere, matchHere, hends, List.head?_map]
  cases hhead : (r.ends I front).head? with
  | none => rfl
  | some t =>
    have hsuffix := (ends_suffix (List.mem_of_head? hhead)).1.length_le
    have hlen : (front ++ s).length - (t ++ s).length = front.length - t.length := by
      simp only [List.length_append]
      omega
    simp only [Option.map_some, hlen]
    rw [List.take_append_of_le_length (Nat.sub_le _ _)]

theorem words_nil {r : Regex κ} (hmin : 1 ≤ r.minLen) (n : Nat) : words I r n [] = [] := by
  cases n with
  | zero => rfl
  | succ n => rw [words, search_nil hmin]

/-- More rounds than an input has characters find nothing more. -/
theorem words_of_le {r : Regex κ} (hcov : Covers I r) (hmin : 1 ≤ r.minLen) {n m : Nat}
    {s : List α} (hn : s.length ≤ n) (hm : s.length ≤ m) : words I r n s = words I r m s := by
  induction n generalizing m s with
  | zero =>
    obtain rfl : s = [] := List.length_eq_zero_iff.mp (by omega)
    rw [words_nil hmin, words_nil hmin]
  | succ n ih =>
    cases s with
    | nil => rw [words_nil hmin, words_nil hmin]
    | cons c s =>
      cases m with
      | zero => simp at hm
      | succ m =>
        obtain ⟨f, t, hsearch, hf, hs⟩ := search_of_covers hcov hmin c s
        have hlen := congrArg List.length hs
        have hpos := List.length_pos_iff.mpr hf
        simp only [List.length_append, List.length_cons] at hlen hn hm
        rw [words, words, hsearch]
        simp only
        rw [ih (m := m) (by omega) (by omega)]

/-- **Where no match reaches beyond the front, the words of a text are those of
its parts.** -/
theorem words_append {r : Regex κ} (hcov : Covers I r) (hmin : 1 ≤ r.minLen) {front s : List α}
    (hblind : r.Blind I s) (hstays : Stays I r front s) {n : Nat}
    (hn : (front ++ s).length ≤ n) :
    words I r n (front ++ s) = words I r n front ++ words I r n s := by
  induction n generalizing front with
  | zero => rfl
  | succ n ih =>
    cases front with
    | nil => rw [words_nil hmin, List.nil_append, List.nil_append]
    | cons c front =>
      obtain ⟨f, hf⟩ : ∃ f, matchHere I r (c :: front) = some f :=
        Option.ne_none_iff_exists'.mp (mt matchHere_eq_none.mp (hcov c front))
      obtain ⟨hskip, hs, -, hlen⟩ := matchHere_spec hf
      have happend := matchHere_append hblind hstays (List.cons_ne_nil c front)
      rw [hf, List.cons_append] at happend
      have hlength := congrArg List.length hs
      simp only [List.length_append, List.length_cons] at hlength hn
      have hrec : words I r n (f.rest ++ s) = words I r n f.rest ++ words I r n s :=
        ih (hs ▸ hstays).of_append (by rw [List.length_append]; omega)
      have hsuffix : words I r (n + 1) s = words I r n s :=
        words_of_le hcov hmin (by omega) (by omega)
      rw [hsuffix, List.cons_append, words, search, happend, words, search, hf]
      simp only [Option.map_some]
      rw [hrec, List.cons_append]

end Backtrack
