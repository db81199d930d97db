import TiktokenCpp.Results.Arguments

/-!
# The search for disallowed names

`SpecialTokenRegex` escapes the strings of a set and joins them, and `Encode`
refuses the texts in which the pattern matches. Read as characters, an escaped
string is spelled character by character (`escapeSpelling`), and every spelling
but one is right: a backslash is left alone, so it changes the meaning of what
comes after it.

Main results:

* `searches_words` -- without a backslash the search is literal;
* `encode_refuses_iff` -- `Encode` throws where the pattern matches;
* `disallowedCheck_iff` -- over an alphabet, the check is a literal search
  exactly when backslash is not a letter of it.
-/

namespace TiktokenCpp

open Utf8 Backtrack Pcre2

-- ---------------------------------------------------------------------------
-- Spelling
-- ---------------------------------------------------------------------------

/-- `EscapeRegex` on any character: those above ASCII are as they are. -/
def escapeSpelling (c : Char) : List Char :=
  if c.val.toNat < 128 then escapeChars c else [c]

/-- A byte above ASCII is not in the class of `EscapeRegex`. -/
theorem escapeChar_high {b : UInt8} (hb : 128 ≤ b.toNat) : escapeChar b = [b] := by
  have hclass : (escapedChars.all fun x => x.toNat < 128) = true := by decide
  unfold escapeChar
  refine if_neg ?_
  rintro (hmem | hspace)
  · have hlow : b.toNat < 128 := of_decide_eq_true (List.all_eq_true.mp hclass b hmem)
    omega
  · simp only [isSpace, Bool.or_eq_true, Bool.and_eq_true, decide_eq_true_eq,
      UInt8.le_iff_toNat_le] at hspace
    rcases hspace with rfl | ⟨-, hle⟩
    · exact absurd hb (by decide)
    · exact absurd (hb.trans hle) (by decide)

theorem escapeRegex_utf8EncodeChar (c : Char) :
    escapeRegex (String.utf8EncodeChar c) = encode (escapeSpelling c) := by
  unfold escapeSpelling
  by_cases hc : c.val.toNat < 128
  · have hb : (UInt8.ofNat c.val.toNat).toNat < 128 := by
      rw [UInt8.toNat_ofNat']
      omega
    have hbyte := utf8EncodeChar_ofUInt8 hb
    rw [ofUInt8_ofNat hc] at hbyte
    rw [if_pos hc, escapeChars, encode_asciiChars (isAscii_escapeChar hb), hbyte, escapeRegex,
      List.flatMap_singleton]
  · have hbytes : ∀ b ∈ String.utf8EncodeChar c, escapeChar b = [b] := fun b hb =>
      escapeChar_high (le_of_mem_utf8EncodeChar (Nat.le_of_not_lt hc) b hb)
    rw [if_neg hc, encode_cons, encode_nil, List.append_nil, escapeRegex,
      List.flatMap_congr hbytes, List.flatMap_singleton']

/-- Escaping a string is spelling its characters. -/
theorem escapeRegex_encode (w : List Char) :
    escapeRegex (encode w) = encode (w.flatMap escapeSpelling) := by
  induction w with
  | nil => rfl
  | cons c w ih =>
    rw [List.flatMap_cons, encode_append, ← ih, ← escapeRegex_utf8EncodeChar, encode_cons]
    exact List.flatMap_append

/-- Only a backslash is misspelled. -/
theorem spells_escapeSpelling {c : Char} (hc : c ≠ '\\') : Spells (escapeSpelling c) c := by
  unfold escapeSpelling
  split
  · next hascii =>
    have hne : c.val.toNat ≠ 92 := by
      intro h92
      have hchar := ofUInt8_ofNat hascii
      rw [h92] at hchar
      exact hc hchar.symm
    have hspells := spells_escapeChar c.val.toNat hascii hne
    rwa [ofUInt8_ofNat hascii] at hspells
  · next hhigh =>
    have hmeta : (metachars.all fun m => m.val.toNat < 128) = true := by decide
    exact Or.inl ⟨rfl, fun hmem => hhigh (of_decide_eq_true (List.all_eq_true.mp hmeta c hmem))⟩

-- ---------------------------------------------------------------------------
-- The pattern of a set
-- ---------------------------------------------------------------------------

/-- The pattern as characters, for a set of encoded words. -/
theorem specialTokenRegex_words {set : StringSet} {ws : List (List Char)}
    (hws : set.elems = ws.map encode) :
    specialTokenRegex set =
      encode ('(' :: join '|' (ws.map fun w => w.flatMap escapeSpelling) ++ [')']) := by
  have hescaped : set.elems.map escapeRegex =
      (ws.map fun w => w.flatMap escapeSpelling).map encode := by
    rw [hws, List.map_map, List.map_map]
    exact List.map_congr_left fun w _ => escapeRegex_encode w
  unfold specialTokenRegex
  rw [hescaped, ← encode_join, encode_append, encode_cons]
  rfl

section

variable {E : Platform} {U : UnicodeProps}

/-- `Match` reports whether the search finds something. -/
theorem hasMatch_eq {code : E.pcre2.Code} {re : Regex CharClass}
    (himpl : E.pcre2.Implements U code re) (cs : List Char) :
    hasMatch code (encode cs) = (search (CharClass.mem U) re cs).isSome := by
  unfold hasMatch
  cases hsearch : search (CharClass.mem U) re cs with
  | none =>
    have hmatch : E.pcre2.pcre2_match code (encode cs) 0 = .error errorNoMatch :=
      @Implements.of_search_none E.pcre2 U code re himpl [] cs hsearch
    rw [hmatch]
    rfl
  | some f =>
    obtain ⟨groups, -, hmatch⟩ := himpl.of_search_some hsearch []
    rw [List.nil_append, encode_nil, List.length_nil] at hmatch
    rw [hmatch]
    rfl

theorem hasMatch_iff {code : E.pcre2.Code} {re : Regex CharClass}
    (himpl : E.pcre2.Implements U code re) (cs : List Char) :
    hasMatch code (encode cs) = true ↔ ∃ a b, cs = a ++ b ∧ re.ends (CharClass.mem U) b ≠ [] := by
  rw [hasMatch_eq himpl, search_isSome_iff]

/-- The pattern of the set compiles, and it matches in the texts in which a
string of the set occurs. -/
def SearchesLiterally (E : Platform) (set : StringSet) : Prop :=
  ∃ code, compile E (specialTokenRegex set) = .ret code ∧
    ∀ text, WellFormed text → (hasMatch code text = true ↔ ∃ d ∈ set.elems, d <:+: text)

/-- **The search for words without a backslash is literal.** -/
theorem searches_words (hE : E.Documented U) {set : StringSet} {ws : List (List Char)}
    (hws : set.elems = ws.map encode) (hne : set.elems ≠ [])
    (hbackslash : ∀ w ∈ ws, '\\' ∉ w) : SearchesLiterally E set := by
  have hwords : ws ≠ [] := by
    rintro rfl
    exact hne hws
  have hspells : ∀ w ∈ ws, ∀ c ∈ w, Spells (escapeSpelling c) c := by
    intro w hw c hc
    refine spells_escapeSpelling ?_
    rintro rfl
    exact hbackslash w hw hc
  obtain ⟨code, hcode, himpl⟩ := compile_of_parse hE (parse_bracketed ws hwords hspells)
  refine ⟨code, by rw [specialTokenRegex_words hws, hcode], ?_⟩
  rintro text ⟨cs, rfl⟩
  rw [hasMatch_iff himpl cs]
  refine (exists_ends_bracketed_words hwords cs).trans ?_
  simp only [hws, List.mem_map, exists_exists_and_eq_and, encode_infix_iff]

/-- A pattern that matches a text without any string of the set. -/
theorem not_searchesLiterally (hE : E.Documented U) {set : StringSet} {pat : List Char}
    {re : Regex CharClass} (hpat : specialTokenRegex set = encode pat) (hparse : parse pat = some re)
    (cs : List Char) (hends : re.ends (CharClass.mem U) cs ≠ [])
    (hno : ∀ d ∈ set.elems, ¬ d <:+: encode cs) : ¬ SearchesLiterally E set := by
  rintro ⟨code, hcode, hsearch⟩
  obtain ⟨code', hcode', himpl⟩ := compile_of_parse hE hparse
  rw [hpat, hcode'] at hcode
  obtain rfl : code' = code := Outcome.ret.inj hcode
  have hmatch : hasMatch code' (encode cs) = true := (hasMatch_iff himpl cs).mpr ⟨[], cs, rfl, hends⟩
  obtain ⟨d, hd, hinfix⟩ := (hsearch (encode cs) ⟨cs, rfl⟩).mp hmatch
  exact hno d hd hinfix

/-- The pattern of the empty set is `()`, which matches everywhere. -/
theorem not_searchesLiterally_empty (hE : E.Documented U) {set : StringSet} (hset : set.elems = []) :
    ¬ SearchesLiterally E set := by
  have hpat : specialTokenRegex set = encode ['(', ')'] := by
    unfold specialTokenRegex
    rw [hset]
    rfl
  have hparse : parse ['(', ')'] = some (.seq (.group .eps) .eps) := by decide
  refine not_searchesLiterally hE hpat hparse [] ?_ ?_
  · simp [Regex.ends]
  · rw [hset]
    simp

/-- The set of one string, two backslashes. -/
def backslashes : StringSet := OrderedSet.empty.insert (str "\\\\")

/-- Its pattern is an escaped backslash, which matches a single one. -/
theorem backslashes_pattern : specialTokenRegex backslashes = encode ['(', '\\', '\\', ')'] ∧
    parse ['(', '\\', '\\', ')'] = some (.seq (.group (.seq (.cls (.lit '\\')) .eps)) .eps) :=
  ⟨by decide, by decide⟩

theorem compile_backslashes (hE : E.Documented U) :
    ∃ code, compile E (specialTokenRegex backslashes) = .ret code := by
  obtain ⟨hpat, hparse⟩ := backslashes_pattern
  obtain ⟨code, hcode, -⟩ := compile_of_parse hE hparse
  exact ⟨code, by rw [hpat, hcode]⟩

theorem not_searchesLiterally_backslashes (hE : E.Documented U) :
    ¬ SearchesLiterally E backslashes := by
  obtain ⟨hpat, hparse⟩ := backslashes_pattern
  refine not_searchesLiterally hE hpat hparse ['\\'] ?_ ?_
  · simp [Regex.ends, CharClass.mem_lit]
  · decide

-- ---------------------------------------------------------------------------
-- The check in `Encode`
-- ---------------------------------------------------------------------------

variable {tok : TikToken E} {fuel : Nat} {allowed : StringSetUnion} {set : StringSet}

/-- `Encode` throws the error for a disallowed token where the pattern matches,
and nowhere else: what comes after the check throws other exceptions. -/
theorem encode_refuses_iff (hallowed : allowed.Documented) (hne : set.elems ≠ [])
    {code : E.pcre2.Code} (hcode : compile E (specialTokenRegex set) = .ret code) (text : Bytes) :
    (tok.encode fuel text allowed (.set set)).1 = .throw (.runtimeError valueError) ↔
      hasMatch code text = true := by
  have hset : tok.disallowedSet allowed (.set set) = set := rfl
  have hdisallowed : (StringSetUnion.set set).Documented := trivial
  unfold TikToken.encode TikToken.encodeSetup
  rw [argumentSets_documented hallowed hdisallowed, Outcome.ret_bind, hset]
  unfold checkDisallowed
  rw [if_pos (List.length_pos_iff.mpr hne), hcode, Outcome.ret_bind]
  by_cases hmatch : hasMatch code text = true
  · rw [if_pos hmatch]
    exact iff_of_true rfl hmatch
  · rw [if_neg hmatch, Outcome.ret_bind]
    have hother : Exn.runtimeError valueError ≠ .outOfRange := Exn.noConfusion
    refine iff_of_false (Outcome.ThrowsOnly.ne_throw (P := (· = .outOfRange)) ?_ hother) hmatch
    refine Outcome.ThrowsOnly.bindState ?_ ?_
    · exact utf8StrsetFromStrSet_throwsOnly _ E.iconv fuel _
    · intro converted
      exact encodeNative_catch_throwsOnly tok.corebpe text converted fuel

/-- `Encode` with this set throws the error for a disallowed token on the texts
in which a string of the set occurs. -/
def RefusesLiterally (tok : TikToken E) (fuel : Nat) (allowed : StringSetUnion) (set : StringSet) :
    Prop :=
  ∀ text, WellFormed text →
    ((tok.encode fuel text allowed (.set set)).1 = .throw (.runtimeError valueError) ↔
      ∃ d ∈ set.elems, d <:+: text)

/-- The check is literal when the search is. -/
theorem refusesLiterally_iff (hallowed : allowed.Documented) (hne : set.elems ≠ [])
    {code : E.pcre2.Code} (hcode : compile E (specialTokenRegex set) = .ret code) :
    RefusesLiterally tok fuel allowed set ↔ SearchesLiterally E set := by
  unfold RefusesLiterally SearchesLiterally
  simp only [encode_refuses_iff hallowed hne hcode]
  constructor
  · intro hsearch
    exact ⟨code, hcode, hsearch⟩
  · rintro ⟨code', hcode', hsearch⟩
    rw [hcode] at hcode'
    obtain rfl : code = code' := Outcome.ret.inj hcode'
    exact hsearch

/-- A string other than `"all"` for the allowed tokens ends the call before the
check, also on a text that is an element of the set. -/
theorem not_refusesLiterally (hallowed : ¬ allowed.Documented) {d : Bytes} (hd : d ∈ set.elems)
    (hutf8 : WellFormed d) : ¬ RefusesLiterally tok fuel allowed set := by
  intro hrefuses
  have hthrow := (hrefuses d hutf8).mpr ⟨d, hd, List.infix_rfl⟩
  rw [encode_not_documented fun h => hallowed h.1] at hthrow
  cases hthrow

-- ---------------------------------------------------------------------------
-- Over an alphabet
-- ---------------------------------------------------------------------------

/-- The strings of the set are words of the alphabet, in UTF-8. -/
def Over (alphabet : Char → Prop) (set : StringSet) : Prop :=
  ∀ d ∈ set.elems, ∃ w, d = encode w ∧ ∀ c ∈ w, alphabet c

theorem exists_words {P : List Char → Prop} (ds : List Bytes) (h : ∀ d ∈ ds, ∃ w, d = encode w ∧ P w) :
    ∃ ws : List (List Char), ds = ws.map encode ∧ ∀ w ∈ ws, P w := by
  induction ds with
  | nil => exact ⟨[], rfl, by simp⟩
  | cons d ds ih =>
    obtain ⟨⟨w, rfl, hw⟩, hds⟩ := List.forall_mem_cons.mp h
    obtain ⟨ws, rfl, hws⟩ := ih hds
    exact ⟨w :: ws, rfl, List.forall_mem_cons.mpr ⟨hw, hws⟩⟩

theorem Over.searchesLiterally {alphabet : Char → Prop} (hover : Over alphabet set)
    (hE : E.Documented U) (hbackslash : ¬ alphabet '\\') (hne : set.elems ≠ []) :
    SearchesLiterally E set := by
  obtain ⟨ws, hws, hletters⟩ := exists_words set.elems hover
  exact searches_words hE hws hne fun w hw hmem => hbackslash (hletters w hw _ hmem)

theorem over_backslashes {alphabet : Char → Prop} (hbackslash : alphabet '\\') :
    Over alphabet backslashes := by
  intro d hd
  refine ⟨['\\', '\\'], List.mem_singleton.mp hd, ?_⟩
  intro c hc
  obtain rfl : c = '\\' := by simpa using hc
  exact hbackslash

/-- **The check for disallowed tokens is a literal search when no string has a
backslash**: with an alphabet without backslash, `SpecialTokenRegex` searches
for every set but the empty one, and `Encode` refuses the texts with an element
of the set if the argument for the allowed tokens is `"all"` or a set. With a
backslash in the alphabet neither holds of all sets. -/
theorem disallowedCheck_iff (hE : E.Documented U) (tok : TikToken E) (fuel : Nat)
    (alphabet : Char → Prop) :
    ((∀ set, Over alphabet set → (SearchesLiterally E set ↔ set.elems ≠ [])) ↔
      ¬ alphabet '\\') ∧
    ((∀ set, Over alphabet set → set.elems ≠ [] → ∀ allowed,
        (RefusesLiterally tok fuel allowed set ↔ allowed.Documented)) ↔
      ¬ alphabet '\\') := by
  have hne : backslashes.elems ≠ [] := List.cons_ne_nil _ _
  refine ⟨⟨?_, ?_⟩, ⟨?_, ?_⟩⟩
  · intro hall hbackslash
    exact not_searchesLiterally_backslashes hE
      ((hall backslashes (over_backslashes hbackslash)).mpr hne)
  · intro hbackslash set hover
    constructor
    · intro hsearch hempty
      exact not_searchesLiterally_empty hE hempty hsearch
    · exact hover.searchesLiterally hE hbackslash
  · intro hall hbackslash
    have hdocumented : (StringSetUnion.view (str "all")).Documented := rfl
    have hrefuses := (hall backslashes (over_backslashes hbackslash) hne _).mpr hdocumented
    obtain ⟨code, hcode⟩ := compile_backslashes hE
    exact not_searchesLiterally_backslashes hE
      ((refusesLiterally_iff hdocumented hne hcode).mp hrefuses)
  · intro hbackslash set hover hset allowed
    constructor
    · intro hrefuses
      by_contra hallowed
      obtain ⟨d, hd⟩ := List.exists_mem_of_ne_nil _ hset
      obtain ⟨w, hw, -⟩ := hover d hd
      exact not_refusesLiterally hallowed hd ⟨w, hw⟩ hrefuses
    · intro hallowed
      obtain ⟨code, hcode, hmatch⟩ := hover.searchesLiterally hE hbackslash hset
      exact (refusesLiterally_iff hallowed hset hcode).mpr ⟨code, hcode, hmatch⟩

end

theorem disallowedCheck_iff_dot :
    ∃ tok : TikToken plainPlatform, TikToken.fromEncoder plainPlatform 1 r50kParam byteDict = .ret tok ∧
      SearchesLiterally plainPlatform (OrderedSet.empty.insert (str "a.b")) ∧
      RefusesLiterally tok 1 (.view (str "all")) (OrderedSet.empty.insert (str "a.b")) := by
  obtain ⟨tok, htok⟩ := fromEncoder_byteDict
  have hover : Over (· ≠ '\\') (OrderedSet.empty.insert (str "a.b")) := by
    intro d hd
    exact ⟨['a', '.', 'b'], List.mem_singleton.mp hd, by simp⟩
  have hne : (OrderedSet.empty.insert (str "a.b")).elems ≠ [] := List.cons_ne_nil _ _
  obtain ⟨hsearches, hrefuses⟩ :=
    disallowedCheck_iff plainPlatform_documented tok 1 (· ≠ '\\')
  exact ⟨tok, htok, (hsearches.mpr (by decide) _ hover).mpr hne,
    (hrefuses.mpr (by decide) _ hover hne _).mpr rfl⟩

/-- The set of one string, a backslash and the letter `s`. -/
def backslashS : StringSet := OrderedSet.empty.insert (str "\\s")

/-- Its pattern is `(\s)`: `Encode` refuses a blank, and lets the string pass. -/
theorem encode_backslashS :
    ∃ tok : TikToken plainPlatform, TikToken.fromEncoder plainPlatform 1 r50kParam byteDict = .ret tok ∧
      (tok.encode 1 (str " ") (.view (str "all")) (.set backslashS)).1 =
        .throw (.runtimeError valueError) ∧
      (¬ ∃ d ∈ backslashS.elems, d <:+: str " ") ∧
      (tok.encode 1 (str "\\s") (.view (str "all")) (.set backslashS)).1 ≠
        .throw (.runtimeError valueError) ∧
      ∃ d ∈ backslashS.elems, d <:+: str "\\s" := by
  obtain ⟨tok, htok⟩ := fromEncoder_byteDict
  have hne : backslashS.elems ≠ [] := List.cons_ne_nil _ _
  have hpat : specialTokenRegex backslashS = encode ['(', '\\', 's', ')'] := by decide
  have hparse : parse ['(', '\\', 's', ')'] =
      some (.seq (.group (.seq (.cls ⟨false, [.space]⟩) .eps)) .eps) := by decide
  obtain ⟨code, hcode, himpl⟩ := compile_of_parse plainPlatform_documented hparse
  rw [← hpat] at hcode
  have hall : (StringSetUnion.view (str "all")).Documented := rfl
  have hrefuses (text : Bytes) :
      (tok.encode 1 text (.view (str "all")) (.set backslashS)).1 =
          .throw (.runtimeError valueError) ↔ hasMatch code text = true :=
    encode_refuses_iff hall hne hcode text
  refine ⟨tok, htok, ?_, by decide, ?_, by decide⟩
  · rw [hrefuses]
    exact (hasMatch_eq himpl [' ']).trans (by decide)
  · rw [ne_eq, hrefuses, Bool.not_eq_true]
    exact (hasMatch_eq himpl ['\\', 's']).trans (by decide)

end TiktokenCpp
