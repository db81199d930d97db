import TiktokenCpp.Results.Arguments

/-!
# Text that is not UTF-8

PCRE2 refuses a subject that is not well-formed UTF-8 with a negative code. The
program takes any such code for the end of its search, at each of its three
searches, so the word splitter finds no words, the scan no special tokens and
the check no disallowed ones. The handlers for `UnicodeEncoderException` in
`EncodeOrdinary` and `Encode` would read the text in another way, but nothing
throws that exception.

Main results:

* `encodeNative_illFormed` -- the tokens of such a text are none;
* `keepsText_iff` -- so its well-formed parts are lost, and the calls do without
  a loss only what the theorem says.
-/

namespace TiktokenCpp

open Utf8 Pcre2

/-! ## Refused texts -/

section

variable {E : Platform} {text : Bytes}

theorem encodeOrdinaryNative_illFormed (hP : E.pcre2.Refuses) (self : CoreBpe E)
    (hbad : ¬ WellFormed text) (fuel : Nat) : encodeOrdinaryNative self fuel text = .ret [] := by
  rw [encodeOrdinaryNative, utf8WordsSpliter_illFormed hP hbad fuel]
  rfl

theorem findSpecial_illFormed (hP : E.pcre2.Refuses) (self : CoreBpe E) (hbad : ¬ WellFormed text)
    (allowed : Utf8StringSet) (fuel : Nat) : findSpecial self text allowed fuel 0 = .ret none := by
  obtain ⟨rc, -, hrc⟩ := hP self.specialRegex hbad
  exact findSpecial_of_error hrc fuel

/-- **A text that is not UTF-8 has no tokens.** The object stays as it is. -/
theorem encodeNative_illFormed (hP : E.pcre2.Refuses) (self : CoreBpe E) (hbad : ¬ WellFormed text)
    (allowed : Utf8StringSet) {fuel : Nat} (hfuel : 0 < fuel) :
    encodeNative self text allowed fuel = (.ret [], self) := by
  obtain ⟨n, rfl⟩ : ∃ n, fuel = n + 1 := ⟨fuel - 1, by omega⟩
  have hround : encodeRound self text allowed (n + 1) 0 = .ret (none, []) := by
    rw [encodeRound, findSpecial_illFormed hP self hbad, Outcome.ret_bind]
    dsimp only
    rw [substr_of_le (Nat.zero_le _), subSize_of_le (Nat.zero_le _), Nat.sub_zero, List.drop_zero,
      List.take_length, Outcome.ret_bind, encodeOrdinaryNative_illFormed hP self hbad]
    rfl
  rw [encodeNative, encodeNativeLoop, hround]
  rfl

theorem hasMatch_illFormed (hP : E.pcre2.Refuses) (code : E.pcre2.Code) (hbad : ¬ WellFormed text) :
    hasMatch code text = false := by
  obtain ⟨rc, -, hrc⟩ := hP code hbad
  rw [hasMatch, hrc]

/-- The check finds nothing, so it refuses only what does not compile. -/
theorem checkDisallowed_illFormed (hP : E.pcre2.Refuses) (hbad : ¬ WellFormed text)
    (set : StringSet) :
    checkDisallowed E text set =
      if 0 < set.elems.length then compile E (specialTokenRegex set) >>= fun _ => .ret ()
      else .ret () := by
  unfold checkDisallowed
  congr 1
  refine Outcome.bind_congr ?_
  intro code _
  rw [hasMatch_illFormed hP code hbad]
  rfl

/-! ## Whole calls -/

/-- The pattern for a set of disallowed names that is not empty does not compile. -/
def DoesNotCompile (E : Platform) (set : StringSet) : Prop :=
  0 < set.elems.length ∧ ∃ err, E.pcre2.pcre2_compile (specialTokenRegex set) = .error err

/-- What `Encode` does with such a text. -/
theorem encode_illFormed (hP : E.pcre2.Refuses) (hI : E.iconv.TakesAll) (tok : TikToken E)
    (hbad : ¬ WellFormed text)
    (allowed disallowed : StringSetUnion) {fuel : Nat} (hfuel : 0 < fuel) :
    ((∃ e, (tok.encode fuel text allowed disallowed).1 = .throw e) ∧
      (¬ allowed.Documented ∨ ¬ disallowed.Documented ∨
        DoesNotCompile E (tok.disallowedSet allowed disallowed))) ∨
    (tok.encode fuel text allowed disallowed = (.ret [], tok) ∧ allowed.Documented ∧
      disallowed.Documented ∧ ¬ DoesNotCompile E (tok.disallowedSet allowed disallowed)) := by
  by_cases hdocumented : allowed.Documented ∧ disallowed.Documented
  · obtain ⟨hallowed, hdisallowed⟩ := hdocumented
    obtain ⟨set, hset⟩ :=
      utf8StrsetFromStrSet_ret hI hfuel (allowed.elements tok.specialTokensSet)
    have hencode (h : checkDisallowed E text (tok.disallowedSet allowed disallowed) = .ret ()) :
        tok.encode fuel text allowed disallowed = (.ret [], tok) := by
      unfold TikToken.encode TikToken.encodeSetup
      rw [argumentSets_documented hallowed hdisallowed, Outcome.ret_bind, h, Outcome.ret_bind, hset,
        Outcome.ret_bindState, encodeNative_illFormed hP tok.corebpe hbad set hfuel]
      rfl
    have hcheck := checkDisallowed_illFormed hP hbad (tok.disallowedSet allowed disallowed)
    by_cases hpos : 0 < (tok.disallowedSet allowed disallowed).elems.length
    · rw [if_pos hpos, compile] at hcheck
      cases hcompile : E.pcre2.pcre2_compile
          (specialTokenRegex (tok.disallowedSet allowed disallowed)) with
      | ok code =>
        rw [hcompile] at hcheck
        refine Or.inr ⟨hencode hcheck, hallowed, hdisallowed, ?_⟩
        rintro ⟨-, err, herr⟩
        rw [hcompile] at herr
        simp at herr
      | error err =>
        rw [hcompile] at hcheck
        refine Or.inl ⟨⟨.pcre2Exception (UInt32.ofInt err.1) err.2, ?_⟩,
          Or.inr (Or.inr ⟨hpos, err, hcompile⟩)⟩
        unfold TikToken.encode TikToken.encodeSetup
        rw [argumentSets_documented hallowed hdisallowed, Outcome.ret_bind, hcheck]
        rfl
    · rw [if_neg hpos] at hcheck
      exact Or.inr ⟨hencode hcheck, hallowed, hdisallowed, fun h => hpos h.1⟩
  · refine Or.inl ⟨⟨.badVariantAccess, ?_⟩, ?_⟩
    · rw [encode_not_documented hdocumented]
    · rcases not_and_or.mp hdocumented with h | h
      · exact Or.inl h
      · exact Or.inr (Or.inl h)

/-- The text is not lost: the call throws, or its tokens decode to a text that
agrees with `text` outside the bytes that are not UTF-8. -/
def KeepsText (text : Bytes) (call : Run (List UInt32) × TikToken E) : Prop :=
  (∃ e, call.1 = .throw e) ∨
    ∃ tokens, call.1 = .ret tokens ∧ AgreesOutside (scan text) (call.2.decode tokens).1

theorem keepsText_ret_nil (tok : TikToken E) :
    KeepsText text (.ret [], tok) ↔ ∀ c, Piece.char c ∉ scan text := by
  have hdecode : (tok.decode []).1 = [] := by
    unfold TikToken.decode CoreBpe.decodeNative
    rfl
  rw [← agreesOutside_nil]
  constructor
  · rintro (⟨e, he⟩ | ⟨tokens, htokens, hagrees⟩)
    · simp at he
    · obtain rfl : [] = tokens := Outcome.ret.inj htokens
      rwa [hdecode] at hagrees
  · intro hagrees
    exact Or.inr ⟨[], rfl, hdecode ▸ hagrees⟩

/-- **Which texts that are not UTF-8 are kept.** `EncodeOrdinary` keeps a text
only if no part of it is UTF-8. So does `Encode`, when it does not throw for
reasons that have nothing to do with the text: an argument that it cannot read,
or a disallowed set whose pattern does not compile. Of the libraries this needs
only that PCRE2 refuses the text and that iconv comes to an end. -/
theorem keepsText_iff (hP : E.pcre2.Refuses) (hI : E.iconv.TakesAll) (tok : TikToken E)
    {text : Bytes} (hbad : ¬ WellFormed text) {fuel : Nat} (hfuel : 0 < fuel) :
    (KeepsText text (tok.encodeOrdinary fuel text, tok) ↔ ∀ c, Piece.char c ∉ scan text) ∧
    ∀ allowed disallowed : StringSetUnion,
      KeepsText text (tok.encode fuel text allowed disallowed) ↔
        (∀ c, Piece.char c ∉ scan text) ∨ ¬ allowed.Documented ∨ ¬ disallowed.Documented ∨
          DoesNotCompile E (tok.disallowedSet allowed disallowed) := by
  refine ⟨?_, ?_⟩
  · rw [TikToken.encodeOrdinary, encodeOrdinaryNative_illFormed hP tok.corebpe hbad]
    exact keepsText_ret_nil tok
  · intro allowed disallowed
    rcases encode_illFormed hP hI tok hbad allowed disallowed hfuel with
      ⟨hthrow, hrefused⟩ | ⟨hret, hallowed, hdisallowed, hcompiles⟩
    · exact iff_of_true (Or.inl hthrow) (Or.inr hrefused)
    · rw [hret, keepsText_ret_nil]
      constructor
      · exact Or.inl
      · rintro (h | h | h | h)
        · exact h
        · exact absurd hallowed h
        · exact absurd hdisallowed h
        · exact absurd h hcompiles

end

/-! ## An instance -/

theorem illFormed_aFF : ¬ WellFormed [97, 255] := by decide +kernel

theorem illFormed_FF : ¬ WellFormed [255] := by decide +kernel

/-- The text `"a\xFF"` is lost, the text `"\xFF"` has nothing to keep. -/
theorem keepsText_iff_aFF :
    ∃ tok : TikToken plainPlatform, TikToken.fromEncoder plainPlatform 1 r50kParam byteDict = .ret tok ∧
      ¬ KeepsText [97, 255] (tok.encodeOrdinary 3 [97, 255], tok) ∧
      KeepsText [255] (tok.encodeOrdinary 3 [255], tok) := by
  obtain ⟨tok, htok⟩ := fromEncoder_byteDict
  refine ⟨tok, htok, ?_, ?_⟩
  · rw [(keepsText_iff plainPlatform_documented.pcre2.refuses plainPlatform_documented.iconv.takes_all
      tok illFormed_aFF (by decide)).1]
    intro h
    exact h 'a' (by decide +kernel)
  · rw [(keepsText_iff plainPlatform_documented.pcre2.refuses plainPlatform_documented.iconv.takes_all
      tok illFormed_FF (by decide)).1]
    have hscan : scan [255] = [.bad 255] := by decide +kernel
    simp [hscan]

/-- The text `"a\xFF"`: its letter is lost without an exception, by both calls. -/
theorem encode_aFF_not_kept :
    ∃ tok : TikToken plainPlatform, TikToken.fromEncoder plainPlatform 1 r50kParam byteDict = .ret tok ∧
      ¬ WellFormed [97, 255] ∧
      ¬ KeepsText [97, 255] (tok.encodeOrdinary 3 [97, 255], tok) ∧
      ¬ KeepsText [97, 255] (tok.encode 3 [97, 255] (.set .empty) (.set .empty)) := by
  obtain ⟨tok, htok⟩ := fromEncoder_byteDict
  have hlost : ¬ ∀ c, Piece.char c ∉ scan [97, 255] := by
    intro h
    exact h 'a' (by decide +kernel)
  refine ⟨tok, htok, illFormed_aFF, ?_, ?_⟩
  · rw [TikToken.encodeOrdinary,
      encodeOrdinaryNative_illFormed plainPlatform_documented.pcre2.refuses tok.corebpe illFormed_aFF]
    exact mt (keepsText_ret_nil tok).mp hlost
  · rcases encode_illFormed plainPlatform_documented.pcre2.refuses
      plainPlatform_documented.iconv.takes_all tok illFormed_aFF (.set .empty) (.set .empty)
      (show 0 < 3 by decide) with ⟨-, h | h | h⟩ | ⟨hret, -⟩
    · exact absurd trivial h
    · exact absurd trivial h
    · exact absurd h.1 (Nat.lt_irrefl 0)
    · rw [hret]
      exact mt (keepsText_ret_nil tok).mp hlost

end TiktokenCpp
