import TiktokenCpp.Model.TokenEncoding

/-!
# The word splitter cuts a text into words

Both split patterns of the registry match something, and never the empty
string, at every position of every text: a letter, a number, white space and
everything else each have an alternative of their own, whatever the character
database says. So the loop of `Utf8WordsSpliter` visits the whole text and its
words are a partition of it (`utf8WordsSpliter_encode`).
-/

namespace TiktokenCpp

open Utf8 Backtrack Pcre2

-- ---------------------------------------------------------------------------
-- The patterns of the registry
-- ---------------------------------------------------------------------------

/-- A sequence of expressions. -/
def concat (rs : List (Regex CharClass)) : Regex CharClass := rs.foldr .seq .eps

def letters : CharClass := ⟨false, [.letter]⟩
def numbers : CharClass := ⟨false, [.number]⟩
def spaces : CharClass := ⟨false, [.space]⟩
/-- `[^\s\p{L}\p{N}]` -/
def others : CharClass := ⟨true, [.space, .letter, .number]⟩
def lineEnds : CharClass := ⟨false, [.char '\r', .char '\n']⟩

/-- The endings of English contractions. -/
def contractions : List (List Char) := ["'s", "'t", "'re", "'ve", "'m", "'ll", "'d"].map (·.toList)

/-- `\s+(?!\S)|\s+` -/
def spaceRuns : List (Regex CharClass) :=
  [ concat [.rep spaces 1 none, .notAhead (concat [.cls ⟨false, [.notSpace]⟩])],
    concat [.rep spaces 1 none] ]

/-- What `r50kPat` stands for. -/
def r50kRegex : Regex CharClass :=
  anyOf (contractions.map (fun w => lit (w.map .lit)) ++
    [ concat [.rep (.lit ' ') 0 (some 1), .rep letters 1 none],
      concat [.rep (.lit ' ') 0 (some 1), .rep numbers 1 none],
      concat [.rep (.lit ' ') 0 (some 1), .rep others 1 none] ] ++ spaceRuns)

/-- What `cl100kPat` stands for. -/
def cl100kRegex : Regex CharClass :=
  anyOf (
    [ concat [anyOf (contractions.map fun w => lit (w.map fun c => ⟨false, [.caseless c]⟩))],
      concat [.rep ⟨true, [.char '\r', .char '\n', .letter, .number]⟩ 0 (some 1),
        .rep letters 1 none],
      concat [.rep numbers 1 (some 3)],
      concat [.rep (.lit ' ') 0 (some 1), .rep others 1 none, .rep lineEnds 0 none],
      concat [.rep spaces 0 none, .rep lineEnds 1 none] ] ++ spaceRuns)

theorem parse_r50kPat : parse r50kPat.toList = some r50kRegex := by decide +kernel

theorem parse_cl100kPat : parse cl100kPat.toList = some cl100kRegex := by decide +kernel

/-- The pattern is one of the registry's. -/
def RegistryPattern (pat : Bytes) : Prop :=
  ∃ order, ∃ param ∈ (sEncodingParam order).dropLast, pat = param.patStr

theorem registryPattern_cases {pat : Bytes} (h : RegistryPattern pat) :
    pat = str r50kPat ∨ pat = str cl100kPat := by
  obtain ⟨order, param, hmem, rfl⟩ := h
  simp only [sEncodingParam, List.dropLast, List.mem_cons, List.not_mem_nil, or_false] at hmem
  rcases hmem with rfl | rfl | rfl | rfl <;> dsimp only
  · exact Or.inl rfl
  · exact Or.inl rfl
  · exact Or.inl rfl
  · exact Or.inr rfl

-- ---------------------------------------------------------------------------
-- Something matches everywhere
-- ---------------------------------------------------------------------------

section

variable {κ α : Type} {I : κ → α → Bool}

/-- A repetition that needs nothing may stop at once. -/
theorem self_mem_repEnds (p : α → Bool) (max : Option Nat) (s : List α) :
    s ∈ repEnds p 0 max s := by
  cases s <;> simp [repEnds]

/-- A repetition that needs one may stop after one. -/
theorem tail_mem_repEnds {p : α → Bool} {max : Option Nat} (hmax : max ≠ some 0) {c : α}
    (hc : p c = true) (s : List α) : s ∈ repEnds p 1 max (c :: s) := by
  rw [repEnds, if_pos ⟨hc, hmax⟩]
  exact List.mem_append_left _ (self_mem_repEnds p _ s)

end

/-- What the loop of the splitter relies on. -/
structure Splits (U : UnicodeProps) (re : Regex CharClass) : Prop where
  covers : Covers (CharClass.mem U) re
  minLen : 1 ≤ re.minLen
  groups : re.groups = 0

section

variable {U : UnicodeProps}

theorem mem_ends_concat_cons {r : Regex CharClass} {rs : List (Regex CharClass)}
    {s t u : List Char} (hr : t ∈ r.ends (CharClass.mem U) s)
    (hrs : u ∈ (concat rs).ends (CharClass.mem U) t) :
    u ∈ (concat (r :: rs)).ends (CharClass.mem U) s :=
  List.mem_flatMap.mpr ⟨t, hr, hrs⟩

/-- An alternative that needs one character of a class matches where one stands. -/
theorem mem_ends_run {k : CharClass} {max : Option Nat} (hmax : max ≠ some 0) {c : Char}
    (hc : k.mem U c = true) (s : List Char) : s ∈ (Regex.rep k 1 max).ends (CharClass.mem U) (c :: s) :=
  tail_mem_repEnds hmax hc s

theorem self_mem_ends_optional (k : CharClass) (max : Option Nat) (s : List Char) :
    s ∈ (Regex.rep k 0 max).ends (CharClass.mem U) s :=
  self_mem_repEnds _ max s

theorem mem_ends_concat_nil (s : List Char) : s ∈ (concat []).ends (CharClass.mem U) s :=
  List.mem_singleton_self s

theorem ends_anyOf_ne_nil {rs : List (Regex CharClass)} {r : Regex CharClass} (hr : r ∈ rs)
    {s t : List Char} (ht : t ∈ r.ends (CharClass.mem U) s) :
    (anyOf rs).ends (CharClass.mem U) s ≠ [] := by
  have hmem := (mem_ends_anyOf (List.ne_nil_of_mem hr)).mpr ⟨r, hr, ht⟩
  exact List.ne_nil_of_mem hmem

/-- Every character is a letter, a number, white space or something else. -/
theorem class_cases (U : UnicodeProps) (c : Char) :
    letters.mem U c = true ∨ numbers.mem U c = true ∨ spaces.mem U c = true ∨
      others.mem U c = true := by
  unfold letters numbers spaces others
  cases hl : U.letter c <;> cases hn : U.number c <;> cases hs : U.space c <;>
    simp [CharClass.mem, ClassItem.mem, hl, hn, hs]

/-- An optional character in front of a run: ` ?\p{L}+` and the like. -/
theorem mem_ends_optional_run {k k' : CharClass} {c : Char} (hc : k'.mem U c = true)
    (s : List Char) :
    s ∈ (concat [.rep k 0 (some 1), .rep k' 1 none]).ends (CharClass.mem U) (c :: s) :=
  mem_ends_concat_cons (self_mem_ends_optional k (some 1) (c :: s))
    (mem_ends_concat_cons (mem_ends_run (by simp) hc s) (mem_ends_concat_nil s))

theorem mem_ends_spaces {c : Char} (hc : spaces.mem U c = true) (s : List Char) :
    s ∈ (concat [.rep spaces 1 none]).ends (CharClass.mem U) (c :: s) :=
  mem_ends_concat_cons (mem_ends_run (by simp) hc s) (mem_ends_concat_nil s)

theorem splits_r50k (U : UnicodeProps) : Splits U r50kRegex where
  covers := by
    intro c s
    unfold r50kRegex
    rcases class_cases U c with hc | hc | hc | hc
    · exact ends_anyOf_ne_nil (r := concat [.rep (.lit ' ') 0 (some 1), .rep letters 1 none])
        (by simp) (mem_ends_optional_run hc s)
    · exact ends_anyOf_ne_nil (r := concat [.rep (.lit ' ') 0 (some 1), .rep numbers 1 none])
        (by simp) (mem_ends_optional_run hc s)
    · exact ends_anyOf_ne_nil (r := concat [.rep spaces 1 none]) (by simp [spaceRuns])
        (mem_ends_spaces hc s)
    · exact ends_anyOf_ne_nil (r := concat [.rep (.lit ' ') 0 (some 1), .rep others 1 none])
        (by simp) (mem_ends_optional_run hc s)
  minLen := by decide
  groups := by decide

theorem splits_cl100k (U : UnicodeProps) : Splits U cl100kRegex where
  covers := by
    intro c s
    unfold cl100kRegex
    rcases class_cases U c with hc | hc | hc | hc
    · exact ends_anyOf_ne_nil
        (r := concat [.rep ⟨true, [.char '\r', .char '\n', .letter, .number]⟩ 0 (some 1),
          .rep letters 1 none]) (by simp) (mem_ends_optional_run hc s)
    · exact ends_anyOf_ne_nil (r := concat [.rep numbers 1 (some 3)]) (by simp)
        (mem_ends_concat_cons (mem_ends_run (by simp) hc s) (mem_ends_concat_nil s))
    · exact ends_anyOf_ne_nil (r := concat [.rep spaces 1 none]) (by simp [spaceRuns])
        (mem_ends_spaces hc s)
    · -- the line ends after the run are optional
      exact ends_anyOf_ne_nil
        (r := concat [.rep (.lit ' ') 0 (some 1), .rep others 1 none, .rep lineEnds 0 none])
        (by simp)
        (mem_ends_concat_cons (self_mem_ends_optional _ _ (c :: s))
          (mem_ends_concat_cons (mem_ends_run (by simp) hc s)
            (mem_ends_concat_cons (self_mem_ends_optional _ _ s) (mem_ends_concat_nil s))))
  minLen := by decide
  groups := by decide

end

-- ---------------------------------------------------------------------------
-- The loop
-- ---------------------------------------------------------------------------

section

variable {E : Platform} {U : UnicodeProps} {self : CoreBpe E} {re : Regex CharClass}

/-- The bytes between two character boundaries. -/
theorem substr_encode (a b c : List Char) :
    substr (encode (a ++ b ++ c)) (encode a).length
      (subSize (encode (a ++ b)).length (encode a).length) = .ret (encode b) := by
  rw [encode_append, encode_append, substr_of_le (by simp only [List.length_append]; omega),
    subSize_of_le (by rw [List.length_append]; omega), List.append_assoc, List.drop_left,
    List.length_append, Nat.add_sub_cancel_left, List.take_left]

theorem spliterLoop_of_error {text : Bytes} {startOffset : Nat} {rc : Int}
    (h : E.pcre2.pcre2_match self.regex text startOffset = .error rc) (fuel : Nat)
    (tokens : List Bytes) : spliterLoop self text fuel startOffset tokens = .ret tokens := by
  cases fuel with
  | zero => rw [spliterLoop, h]
  | succ fuel => rw [spliterLoop, h]

/-- A match without groups is one more word. -/
theorem spliterLoop_of_matched {a m t : List Char}
    (h : E.pcre2.pcre2_match self.regex (encode (a ++ m ++ t)) (encode a).length =
      .matched ⟨(encode a).length, (encode (a ++ m)).length⟩ []) (fuel : Nat)
    (tokens : List Bytes) :
    spliterLoop self (encode (a ++ m ++ t)) (fuel + 1) (encode a).length tokens =
      spliterLoop self (encode (a ++ m ++ t)) fuel (encode (a ++ m)).length
        (tokens ++ [encode m]) := by
  rw [spliterLoop, h]
  show (pushMatches _ _ tokens >>= _) = _
  rw [overtor, pushMatches, substr_encode]
  rfl

/-- Before the end of a text, the match begins where the search does and is not
empty; it has no groups. -/
theorem match_at_start {code : E.pcre2.Code} (himpl : E.pcre2.Implements U code re)
    (hsplits : Splits U re) (pre : List Char) (c : Char) (cs : List Char) :
    ∃ m t, search (CharClass.mem U) re (c :: cs) = some ⟨[], m, t⟩ ∧ m ≠ [] ∧ c :: cs = m ++ t ∧
      E.pcre2.pcre2_match code (encode (pre ++ c :: cs)) (encode pre).length =
        .matched ⟨(encode pre).length, (encode (pre ++ m)).length⟩ [] := by
  obtain ⟨m, t, hsearch, hm, hs⟩ := search_of_covers hsplits.covers hsplits.minLen c cs
  obtain ⟨groups, hlen, hmatch⟩ := himpl.of_search_some hsearch pre
  have hgroups : groups = [] := List.length_eq_zero_iff.mp (hlen.trans hsplits.groups)
  rw [hgroups, List.append_nil] at hmatch
  exact ⟨m, t, hsearch, hm, hs, hmatch⟩

/-- What is left after a match is shorter. -/
theorem length_rest_lt {s m t : List Char} (hs : s = m ++ t) (hm : m ≠ []) : t.length < s.length := by
  have hpos := List.length_pos_iff.mpr hm
  rw [hs, List.length_append]
  omega

/-- From a character boundary on, the loop pushes the words of the rest. -/
theorem spliterLoop_encode (himpl : E.pcre2.Implements U self.regex re) (hsplits : Splits U re)
    (pre cs : List Char) {fuel : Nat} (hfuel : cs.length ≤ fuel) (tokens : List Bytes) :
    spliterLoop self (encode (pre ++ cs)) fuel (encode pre).length tokens =
      .ret (tokens ++ (words (CharClass.mem U) re fuel cs).map encode) := by
  induction fuel generalizing pre cs tokens with
  | zero =>
    have hcs : cs = [] := List.length_eq_zero_iff.mp (by omega)
    subst hcs
    rw [spliterLoop_of_error (himpl.of_search_none (search_nil hsplits.minLen)), words,
      List.map_nil, List.append_nil]
  | succ fuel ih =>
    cases cs with
    | nil =>
      rw [spliterLoop_of_error (himpl.of_search_none (search_nil hsplits.minLen)), words,
        search_nil hsplits.minLen, List.map_nil, List.append_nil]
    | cons c cs =>
      obtain ⟨m, t, hsearch, hm, hs, hmatch⟩ := match_at_start himpl hsplits pre c cs
      have hshorter : t.length ≤ fuel := Nat.le_of_lt_succ ((length_rest_lt hs hm).trans_le hfuel)
      rw [hs, ← List.append_assoc] at hmatch
      rw [words, hsearch, hs, ← List.append_assoc, spliterLoop_of_matched hmatch,
        ih (pre ++ m) t hshorter, List.append_assoc]
      rfl

/-- **The words of a well-formed text**: none is empty, and together they are
the text. The loop needs no more rounds than the text has characters. -/
theorem utf8WordsSpliter_encode (himpl : E.pcre2.Implements U self.regex re)
    (hsplits : Splits U re) {cs : List Char} {fuel : Nat} (hfuel : cs.length ≤ fuel) :
    ∃ ws : List Bytes, utf8WordsSpliter self fuel (encode cs) = .ret ws ∧
      ws.flatten = encode cs ∧ ∀ w ∈ ws, w ≠ [] := by
  have hloop := spliterLoop_encode himpl hsplits [] cs hfuel []
  obtain ⟨hflat, hne⟩ := words_of_covers hsplits.covers hsplits.minLen hfuel
  refine ⟨_, hloop, ?_, ?_⟩
  · rw [List.nil_append, flatten_map_encode, hflat]
  · intro w hw
    obtain ⟨m, hm, rfl⟩ := List.mem_map.mp hw
    exact fun h => hne m hm (encode_eq_nil.mp h)

/-- Each word is the match from the end of the words before it. -/
theorem words_matched {code : E.pcre2.Code} (himpl : E.pcre2.Implements U code re)
    (hsplits : Splits U re) (pre cs : List Char) {fuel : Nat} (hfuel : cs.length ≤ fuel)
    {before after : List Bytes} {w : Bytes}
    (h : (words (CharClass.mem U) re fuel cs).map encode = before ++ w :: after) :
    E.pcre2.pcre2_match code (encode (pre ++ cs)) (encode pre ++ before.flatten).length =
      .matched ⟨(encode pre ++ before.flatten).length, (encode pre ++ before.flatten ++ w).length⟩
        [] := by
  induction fuel generalizing pre cs before with
  | zero =>
    rw [words, List.map_nil] at h
    simp at h
  | succ fuel ih =>
    cases cs with
    | nil =>
      rw [words, search_nil hsplits.minLen, List.map_nil] at h
      simp at h
    | cons c cs =>
      obtain ⟨m, t, hsearch, hm, hs, hmatch⟩ := match_at_start himpl hsplits pre c cs
      have hshorter : t.length ≤ fuel := Nat.le_of_lt_succ ((length_rest_lt hs hm).trans_le hfuel)
      have hwords : encode m :: (words (CharClass.mem U) re fuel t).map encode =
          before ++ w :: after := by
        rw [← h, words, hsearch, List.map_cons]
      cases before with
      | nil =>
        obtain ⟨rfl, -⟩ := List.cons.inj hwords
        rw [List.flatten_nil, List.append_nil, ← encode_append]
        exact hmatch
      | cons b before =>
        obtain ⟨rfl, hrest⟩ := List.cons.inj hwords
        have hend : encode pre ++ (encode m :: before).flatten =
            encode (pre ++ m) ++ before.flatten := by
          rw [List.flatten_cons, encode_append, List.append_assoc]
        rw [hs, ← List.append_assoc, hend]
        exact ih (pre ++ m) t hshorter hrest

/-- So is each word that the splitter gives. -/
theorem utf8WordsSpliter_matched (himpl : E.pcre2.Implements U self.regex re)
    (hsplits : Splits U re) {cs : List Char} {fuel : Nat} (hfuel : cs.length ≤ fuel)
    {before after : List Bytes} {w : Bytes}
    (h : utf8WordsSpliter self fuel (encode cs) = .ret (before ++ w :: after)) :
    E.pcre2.pcre2_match self.regex (encode cs) before.flatten.length =
      .matched ⟨before.flatten.length, (before.flatten ++ w).length⟩ [] := by
  have hloop := spliterLoop_encode himpl hsplits [] cs hfuel []
  have hwords := Outcome.ret.inj (hloop.symm.trans h)
  exact words_matched himpl hsplits [] cs hfuel hwords

/-- On a text that is not UTF-8 there are no words. -/
theorem utf8WordsSpliter_illFormed (hP : E.pcre2.Refuses) {text : Bytes} (hbad : ¬ WellFormed text)
    (fuel : Nat) : utf8WordsSpliter self fuel text = .ret [] := by
  obtain ⟨rc, -, hrc⟩ := hP self.regex hbad
  exact spliterLoop_of_error hrc fuel []

end

end TiktokenCpp
