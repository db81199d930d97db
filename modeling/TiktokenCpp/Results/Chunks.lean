import Mathlib.Data.List.Chain
import TiktokenCpp.Lib.MatchLocality
import TiktokenCpp.Results.Construction
import TiktokenCpp.Results.Exceptions
import TiktokenCpp.Results.RoundTrip

/-!
# Ordinary text in chunks

A long text can be encoded piece by piece, if it is cut in front of blanks that
follow something else than white space: with both split patterns of the
registry no word reaches across such a place, and the lookahead of
`\s+(?!\S)` cannot tell the end of a text from a blank.

Main results:

* `words_cut` -- the words of a text are those of its two parts;
* `encodeOrdinary_chunks` -- `EncodeOrdinary` of a text in chunks.
-/

namespace TiktokenCpp

open Utf8 Backtrack Pcre2

/-! ## The patterns -/

/-- What the character database says of the blank: it is no letter and no
number, and no character is another case of it. -/
structure PlainBlank (U : UnicodeProps) : Prop where
  letter : U.letter ' ' = false
  number : U.number ' ' = false
  caseEq : ∀ c, c ≠ ' ' → U.caseEq c ' ' = false

section

variable {U : UnicodeProps}

/-- At the end of a text and in front of a blank the lookahead `(?!\S)` holds. -/
theorem blind_spaceRuns (s : List Char) :
    ∀ r ∈ spaceRuns, r.Blind (CharClass.mem U) (' ' :: s) := by
  have hahead : (Regex.notAhead (concat [.cls ⟨false, [.notSpace]⟩])).Blind (CharClass.mem U)
      (' ' :: s) := by
    intro p
    cases p with
    | nil => simp [concat, Regex.ends, CharClass.mem, ClassItem.mem, U.space_blank]
    | cons c p =>
      simp only [concat, List.foldr, Regex.ends, List.cons_append]
      split <;> simp
  unfold spaceRuns
  rw [List.forall_mem_cons, List.forall_mem_singleton]
  exact ⟨⟨trivial, hahead, trivial⟩, trivial, trivial⟩

theorem reads_spaceRuns {c : Char} (hc : U.space c = false) :
    ∀ r ∈ spaceRuns, r.reads (CharClass.mem U) c = false := by
  unfold spaceRuns
  rw [List.forall_mem_cons, List.forall_mem_singleton]
  simp [concat, Regex.reads, spaces, CharClass.mem, ClassItem.mem, hc]

theorem blank_notMem_contractions : ∀ w ∈ contractions, ' ' ∉ w := by decide

/-- The front of a text that ends in something else than white space, and a
text that begins with a blank, are matched one after the other. -/
structure Separable (U : UnicodeProps) (re : Regex CharClass) : Prop where
  blind : ∀ s, re.Blind (CharClass.mem U) (' ' :: s)
  stays : ∀ front c s, U.space c = false → Stays (CharClass.mem U) re (front ++ [c]) (' ' :: s)

theorem separable_anyOf {rs : List (Regex CharClass)} (hrs : rs ≠ [])
    (h : ∀ r ∈ rs, Separable U r) : Separable U (anyOf rs) where
  blind s := blind_anyOf fun r hr => (h r hr).blind s
  stays _ _ _ hc := stays_anyOf hrs fun r hr => (h r hr).stays _ _ _ hc

/-- An expression without lookahead that does not read the blank. -/
theorem separable_of_reads {re : Regex CharClass} (hblind : ∀ s, re.Blind (CharClass.mem U) s)
    (hreads : re.reads (CharClass.mem U) ' ' = false) : Separable U re :=
  ⟨fun _ => hblind _, fun _ _ s _ => stays_of_first hreads _ s⟩

/-- An optional character and an expression that does not read the blank. -/
theorem separable_optional {k : CharClass} {re : Regex CharClass}
    (hblind : ∀ s, re.Blind (CharClass.mem U) s)
    (hreads : re.reads (CharClass.mem U) ' ' = false) :
    Separable U (.seq (.rep k 0 (some 1)) re) :=
  ⟨fun _ => ⟨trivial, hblind _⟩, fun _ _ s _ => stays_of_optional hreads _ s⟩

/-- An expression that reads white space only. -/
theorem separable_spaces {re : Regex CharClass} (hblind : ∀ s, re.Blind (CharClass.mem U) (' ' :: s))
    (hreads : ∀ c, U.space c = false → re.reads (CharClass.mem U) c = false) : Separable U re :=
  ⟨hblind, fun front c _ hc => stays_of_last (hreads c hc) front _⟩

theorem separable_spaceRuns : ∀ r ∈ spaceRuns, Separable U r :=
  fun r hr => separable_spaces (fun _ => blind_spaceRuns _ r hr) fun _ hc => reads_spaceRuns hc r hr

theorem separable_r50k (hU : PlainBlank U) : Separable U r50kRegex := by
  refine separable_anyOf (by simp) ?_
  intro r hr
  rw [List.mem_append, List.mem_append] at hr
  rcases hr with (hr | hr) | hr
  · obtain ⟨w, hw, rfl⟩ := List.mem_map.mp hr
    refine separable_of_reads (fun _ => blind_lit _ _) (reads_lit ?_)
    intro k hk
    obtain ⟨c, hc, rfl⟩ := List.mem_map.mp hk
    rw [← Bool.not_eq_true, CharClass.mem_lit]
    rintro rfl
    exact blank_notMem_contractions w hw hc
  · simp only [List.mem_cons, List.not_mem_nil, or_false] at hr
    rcases hr with rfl | rfl | rfl <;>
      refine separable_optional (fun _ => ⟨trivial, trivial⟩) ?_ <;>
      simp [Regex.reads, letters, numbers, others, CharClass.mem, ClassItem.mem, hU.letter,
        hU.number, U.space_blank]
  · exact separable_spaceRuns r hr

theorem separable_cl100k (hU : PlainBlank U) : Separable U cl100kRegex := by
  refine separable_anyOf (by simp) ?_
  intro r hr
  rw [List.mem_append] at hr
  rcases hr with hr | hr
  · simp only [List.mem_cons, List.not_mem_nil, or_false] at hr
    rcases hr with rfl | rfl | rfl | rfl | rfl
    · -- the contractions, in any case
      refine separable_of_reads (fun _ => ⟨blind_anyOf ?_, trivial⟩) ?_
      · intro r hr
        obtain ⟨w, -, rfl⟩ := List.mem_map.mp hr
        exact blind_lit _ _
      · show (_ || false) = false
        rw [Bool.or_false]
        refine reads_anyOf ?_
        intro r hr
        obtain ⟨w, hw, rfl⟩ := List.mem_map.mp hr
        refine reads_lit ?_
        intro k hk
        obtain ⟨c, hc, rfl⟩ := List.mem_map.mp hk
        have hne : c ≠ ' ' := by
          rintro rfl
          exact blank_notMem_contractions w hw hc
        simp [CharClass.mem, ClassItem.mem, hU.caseEq c hne, hne.symm]
    · refine separable_optional (fun _ => ⟨trivial, trivial⟩) ?_
      simp [Regex.reads, letters, CharClass.mem, ClassItem.mem, hU.letter]
    · refine separable_of_reads (fun _ => ⟨trivial, trivial⟩) ?_
      simp [concat, Regex.reads, numbers, CharClass.mem, ClassItem.mem, hU.number]
    · refine separable_optional (fun _ => ⟨trivial, trivial, trivial⟩) ?_
      simp [Regex.reads, others, lineEnds, CharClass.mem, ClassItem.mem, U.space_blank]
    · refine separable_spaces (fun _ => ⟨trivial, trivial, trivial⟩) ?_
      intro c hc
      have hcr : c ≠ '\r' := by
        rintro rfl
        rw [U.space_cr] at hc
        cases hc
      have hlf : c ≠ '\n' := by
        rintro rfl
        rw [U.space_lf] at hc
        cases hc
      simp [concat, Regex.reads, spaces, lineEnds, CharClass.mem, ClassItem.mem, hc, hcr, hlf]
  · exact separable_spaceRuns r hr

/-- A pattern of the registry is one of the two expressions. -/
theorem implements_of_compile {E : Platform} (hE : E.Documented U) {pattern : Bytes}
    (hpattern : RegistryPattern pattern) {code : E.pcre2.Code}
    (h : compile E (cstr pattern) = .ret code) :
    E.pcre2.Implements U code r50kRegex ∨ E.pcre2.Implements U code cl100kRegex := by
  have hcompiled {pat : List Char} {re : Regex CharClass} (hpat : pattern = encode pat)
      (hnoNul : 0 ∉ pattern) (hparse : parse pat = some re) : E.pcre2.Implements U code re := by
    obtain ⟨code', hcode', himpl⟩ := compile_of_parse hE hparse
    rw [cstr_of_noNul hnoNul, hpat, hcode', Outcome.ret.injEq] at h
    exact h ▸ himpl
  rcases registryPattern_cases hpattern with hpat | hpat
  · refine Or.inl (hcompiled hpat ?_ parse_r50kPat)
    rw [hpat]
    exact noNul_str (by decide +kernel)
  · refine Or.inr (hcompiled hpat ?_ parse_cl100kPat)
    rw [hpat]
    exact noNul_str (by decide +kernel)

/-- Both patterns of the registry split texts, and keep such parts separate. -/
theorem separable_of_compile {E : Platform} (hE : E.Documented U) (hU : PlainBlank U)
    {pattern : Bytes} (hpattern : RegistryPattern pattern) {code : E.pcre2.Code}
    (h : compile E (cstr pattern) = .ret code) :
    ∃ re, E.pcre2.Implements U code re ∧ Splits U re ∧ Separable U re := by
  rcases implements_of_compile hE hpattern h with himpl | himpl
  · exact ⟨_, himpl, splits_r50k U, separable_r50k hU⟩
  · exact ⟨_, himpl, splits_cl100k U, separable_cl100k hU⟩

/-! ## Two parts -/

/-- `a` ends in something else than white space and `b` begins with a blank. -/
def CutOk (U : UnicodeProps) (a b : List Char) : Prop :=
  (∃ front c, a = front ++ [c] ∧ U.space c = false) ∧ ∃ s, b = ' ' :: s

/-- **The words of a text are those of its two parts.** -/
theorem words_cut {re : Regex CharClass} (hsplits : Splits U re) (hsep : Separable U re)
    {a b : List Char} (hcut : CutOk U a b) {n : Nat} (hn : (a ++ b).length ≤ n) :
    words (CharClass.mem U) re n (a ++ b) =
      words (CharClass.mem U) re n a ++ words (CharClass.mem U) re n b := by
  obtain ⟨⟨front, c, rfl, hc⟩, s, rfl⟩ := hcut
  exact words_append hsplits.covers hsplits.minLen (hsep.blind s) (hsep.stays front c s hc) hn

variable {E : Platform}

theorem encodeWords_append {self : CoreBpe E} (ws vs : List Bytes) :
    encodeWords self (ws ++ vs) =
      (encodeWords self ws >>= fun a => encodeWords self vs >>= fun b => .ret (a ++ b)) := by
  induction ws with
  | nil =>
    show encodeWords self vs = (encodeWords self vs >>= fun b => .ret ([] ++ b))
    cases encodeWords self vs <;> rfl
  | cons w ws ih =>
    rw [List.cons_append, encodeWords, encodeWords, ih, Outcome.bind_assoc]
    refine Outcome.bind_congr ?_
    intro tokens _
    rw [Outcome.bind_assoc, Outcome.bind_assoc]
    refine Outcome.bind_congr ?_
    intro a _
    rw [Outcome.bind_assoc, Outcome.pure_eq, Outcome.ret_bind]
    refine Outcome.bind_congr ?_
    intro b _
    rw [Outcome.ret_bind, Outcome.pure_eq, List.append_assoc]

theorem encodeOrdinaryNative_words {self : CoreBpe E} {re : Regex CharClass}
    (himpl : E.pcre2.Implements U self.regex re) (hsplits : Splits U re) {cs : List Char}
    {fuel : Nat} (hfuel : cs.length ≤ fuel) :
    encodeOrdinaryNative self fuel (encode cs) =
      encodeWords self ((words (CharClass.mem U) re fuel cs).map encode) := by
  have hloop := spliterLoop_encode himpl hsplits [] cs hfuel []
  rw [List.nil_append, List.nil_append, encode_nil, List.length_nil] at hloop
  rw [encodeOrdinaryNative, utf8WordsSpliter, hloop, Outcome.ret_bind]

theorem encodeOrdinary_cut {tok : TikToken E} {re : Regex CharClass}
    (himpl : E.pcre2.Implements U tok.corebpe.regex re) (hsplits : Splits U re)
    (hsep : Separable U re) {a b : List Char} (hcut : CutOk U a b) {fuel : Nat}
    (hfuel : (a ++ b).length ≤ fuel) :
    tok.encodeOrdinary fuel (encode (a ++ b)) =
      (tok.encodeOrdinary fuel (encode a) >>= fun x =>
        tok.encodeOrdinary fuel (encode b) >>= fun y => .ret (x ++ y)) := by
  have ha : a.length ≤ fuel := by rw [List.length_append] at hfuel; omega
  have hb : b.length ≤ fuel := by rw [List.length_append] at hfuel; omega
  rw [encodeOrdinary_eq, encodeOrdinary_eq, encodeOrdinary_eq,
    encodeOrdinaryNative_words himpl hsplits hfuel, encodeOrdinaryNative_words himpl hsplits ha,
    encodeOrdinaryNative_words himpl hsplits hb, words_cut hsplits hsep hcut hfuel,
    List.map_append, encodeWords_append]

end

/-! ## Any number of chunks -/

/-- One call after the other, their tokens put together. -/
def encodeEach (f : Bytes → Run (List UInt32)) : List Bytes → Run (List UInt32)
  | [] => .ret []
  | text :: texts => do
    let tokens ← f text
    let rest ← encodeEach f texts
    return tokens ++ rest

theorem encodeEach_singleton (f : Bytes → Run (List UInt32)) (text : Bytes) :
    encodeEach f [text] = f text := by
  rw [encodeEach]
  cases f text with
  | ret tokens =>
    show Outcome.ret (tokens ++ []) = _
    rw [List.append_nil]
  | _ => rfl

/-- **A text can be encoded in chunks**: where every chunk but the last ends in
something else than white space and every one but the first begins with a
blank, `EncodeOrdinary` of the text does what the calls on the chunks do, one
after the other. -/
theorem encodeOrdinary_chunks {E : Platform} {U : UnicodeProps} (hE : E.Documented U)
    (hU : PlainBlank U) (encoder : EncodeDict) (param : EncodingParam)
    (hkind : SpecialKind param.specialTokens) (hpattern : RegistryPattern param.patStr)
    (hcheck : checkVocab param.vocabN encoder param.specialTokens = .ret ()) {newFuel : Nat}
    (hnew : 0 < newFuel) :
    ∃ tok : TikToken E, TikToken.fromEncoder E newFuel param encoder = .ret tok ∧
      ∀ chunks : List (List Char), chunks.IsChain (CutOk U) →
        ∀ fuel, chunks.flatten.length ≤ fuel →
          tok.encodeOrdinary fuel (encode chunks.flatten) =
            encodeEach (tok.encodeOrdinary fuel) (chunks.map encode) := by
  obtain ⟨tok, htok⟩ := fromEncoder_ret hE param encoder hkind hpattern hcheck hnew
  obtain ⟨-, hcompiled, -⟩ := built_of_fromEncoder hE hkind hnew htok
  obtain ⟨re, himpl, hsplits, hsep⟩ := separable_of_compile hE hU hpattern hcompiled
  refine ⟨tok, htok, ?_⟩
  intro chunks hchain fuel hfuel
  induction chunks with
  | nil =>
    rw [encodeOrdinary_eq, List.flatten_nil, encodeOrdinaryNative_words himpl hsplits (Nat.zero_le fuel),
      words_nil hsplits.minLen]
    rfl
  | cons a chunks ih =>
    match chunks with
    | [] =>
      rw [List.flatten_singleton, List.map_singleton, encodeEach_singleton]
    | b :: chunks =>
      rw [List.isChain_cons_cons] at hchain
      obtain ⟨hcut, hrest⟩ := hchain
      rw [List.flatten_cons] at hfuel ⊢
      have hcut' : CutOk U a (b :: chunks).flatten := by
        obtain ⟨ha, s, rfl⟩ := hcut
        exact ⟨ha, s ++ chunks.flatten, rfl⟩
      have hrec := ih hrest (by rw [List.length_append] at hfuel; omega)
      rw [encodeOrdinary_cut himpl hsplits hsep hcut' hfuel, hrec, List.map_cons]
      rfl

theorem asciiProps_plainBlank : PlainBlank asciiProps where
  letter := by decide
  number := by decide
  caseEq := by
    intro c hne
    show decide (c.toLower = ' '.toLower) = false
    rw [decide_eq_false_iff_not]
    intro h
    have hblank : ' '.toLower = ' ' := by decide
    rw [hblank] at h
    by_cases hupper : c.val ≥ 'A'.val ∧ c.val ≤ 'Z'.val
    · have hlower : c.toLower.val = c.val + 32 := congrArg Char.val (dif_pos hupper)
      have hle : 65 ≤ c.val.toNat := UInt32.le_iff_toNat_le.mp hupper.1
      have hge : c.val.toNat ≤ 90 := UInt32.le_iff_toNat_le.mp hupper.2
      have hsum : (c.val.toNat + 32) % 2 ^ 32 = 32 := by
        rw [h] at hlower
        exact (congrArg UInt32.toNat hlower).symm
      omega
    · have hlower : c.toLower = c := dif_neg hupper
      exact hne (hlower.symm.trans h)

theorem encodeOrdinary_chunks_three :
    ∃ tok : TikToken plainPlatform, TikToken.fromEncoder plainPlatform 1 r50kParam byteDict = .ret tok ∧
      tok.encodeOrdinary 32 (encode ["It's".toList, " a\nnew".toList, " line ".toList].flatten) =
        encodeEach (tok.encodeOrdinary 32)
          (["It's".toList, " a\nnew".toList, " line ".toList].map encode) := by
  obtain ⟨tok, htok, hall⟩ := encodeOrdinary_chunks plainPlatform_documented asciiProps_plainBlank
    byteDict r50kParam endoftextTable_kind r50kPat_registered rfl Nat.one_pos
  refine ⟨tok, htok, hall _ ?_ 32 (by decide)⟩
  have hcut (front : List Char) (c : Char) (s : List Char) (hc : asciiProps.space c = false) :
      CutOk asciiProps (front ++ [c]) (' ' :: s) := ⟨⟨front, c, rfl, hc⟩, s, rfl⟩
  exact .cons_cons (hcut ['I', 't', '\''] 's' _ (by decide))
    (.cons_cons (hcut [' ', 'a', '\n', 'n', 'e'] 'w' _ (by decide)) (.singleton _))

end TiktokenCpp
