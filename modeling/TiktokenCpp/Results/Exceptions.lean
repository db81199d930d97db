import TiktokenCpp.Model.TokenEncoding

/-!
# What can be thrown

Below `Encode` the only exception is `std::out_of_range`, from `at` on the
dictionary and from `substr`. This holds of every object, text and platform;
which texts do throw is the subject of other modules.

Main results:

* `encodeNative_throwsOnly`, `encodeOrdinaryNative_throwsOnly`.
-/

namespace TiktokenCpp

/-- The call throws nothing but `std::out_of_range`. -/
abbrev OnlyOutOfRange {α : Type} (out : Run α) : Prop := out.ThrowsOnly (· = .outOfRange)

theorem substr_throwsOnly (s : Bytes) (pos count : Nat) : OnlyOutOfRange (substr s pos count) := by
  unfold substr
  split
  · trivial
  · rfl

/-! ## Byte-pair encoding -/

section

variable (encoder : EncodeDict) (piece : Bytes)

theorem at_throwsOnly (key : Bytes) : OnlyOutOfRange (EncodeDict.at encoder key) := by
  unfold EncodeDict.at
  split
  · trivial
  · rfl

theorem partAt_throwsOnly (parts : List Part) (i : Nat) : OnlyOutOfRange (partAt parts i) := by
  unfold partAt
  split <;> trivial

theorem setRank_throwsOnly (parts : List Part) (i rank : Nat) :
    OnlyOutOfRange (setRank parts i rank) := by
  unfold setRank
  split <;> trivial

theorem getRank_throwsOnly (parts : List Part) (startIdx skip : Nat) :
    OnlyOutOfRange (getRank encoder piece parts startIdx skip) := by
  unfold getRank
  split
  · refine (partAt_throwsOnly parts _).bind fun a => (partAt_throwsOnly parts _).bind fun b => ?_
    refine Outcome.ThrowsOnly.bind ?_ fun key => trivial
    unfold byteRange
    split <;> trivial
  · trivial

theorem initRanks_throwsOnly (parts : List Part) :
    OnlyOutOfRange (initRanks encoder piece parts) := by
  unfold initRanks
  refine forLoop_throwsOnly (?_) _ _ _
  intro i parts
  refine (getRank_throwsOnly encoder piece parts i 0).bind ?_
  intro rank
  cases rank with
  | none => trivial
  | some rank => exact setRank_throwsOnly parts i rank

theorem minRank_throwsOnly (parts : List Part) : OnlyOutOfRange (minRank parts) := by
  unfold minRank
  refine forLoop_throwsOnly (?_) _ _ _
  intro i best
  exact (partAt_throwsOnly parts i).bind fun p => trivial

theorem erasePart_throwsOnly (parts : List Part) (i : Nat) : OnlyOutOfRange (erasePart parts i) := by
  unfold erasePart
  split <;> trivial

theorem mergeRound_throwsOnly (parts : List Part) :
    OnlyOutOfRange (mergeRound encoder piece parts) := by
  unfold mergeRound
  refine (minRank_throwsOnly parts).bind ?_
  intro best
  obtain ⟨minRank, i⟩ := best
  dsimp only
  split
  · refine (getRank_throwsOnly encoder piece parts i 1).bind ?_
    intro rank
    refine (setRank_throwsOnly parts i _).bind ?_
    intro parts
    split
    · refine (getRank_throwsOnly encoder piece parts (i - 1) 1).bind ?_
      intro rank
      refine (setRank_throwsOnly parts (i - 1) _).bind ?_
      intro parts
      exact (erasePart_throwsOnly parts (i + 1)).bind fun parts => trivial
    · exact (erasePart_throwsOnly parts (i + 1)).bind fun parts => trivial
  · trivial

theorem mergeLoop_throwsOnly (n : Nat) (parts : List Part) :
    OnlyOutOfRange (mergeLoop encoder piece n parts) := by
  induction n generalizing parts with
  | zero =>
    unfold mergeLoop
    split <;> trivial
  | succ n ih =>
    unfold mergeLoop
    split
    · refine (mergeRound_throwsOnly encoder piece parts).bind ?_
      intro next
      cases next with
      | none => trivial
      | some parts => exact ih parts
    · trivial

theorem bytePairEncode_throwsOnly : OnlyOutOfRange (bytePairEncode encoder piece) := by
  unfold bytePairEncode
  split
  · exact (at_throwsOnly encoder piece).bind fun token => trivial
  · unfold bytePairMerge mergedParts
    refine Outcome.ThrowsOnly.bind ?_ ?_
    · exact (initRanks_throwsOnly encoder piece _).bind fun parts =>
        mergeLoop_throwsOnly encoder piece _ parts
    · intro parts
      refine forLoop_throwsOnly (fun i out => ?_) _ _ _
      refine (partAt_throwsOnly parts i).bind fun p => (partAt_throwsOnly parts _).bind fun q => ?_
      refine Outcome.ThrowsOnly.bind ?_ fun token => trivial
      refine Outcome.ThrowsOnly.bind ?_ fun key => at_throwsOnly encoder key
      unfold byteRange
      split <;> trivial

end

/-! ## Words and special tokens -/

section

variable {E : Platform} (self : CoreBpe E)

theorem pushMatches_throwsOnly (text : Bytes) (matches' : List Pcre2Match) (tokens : List Bytes) :
    OnlyOutOfRange (pushMatches text matches' tokens) := by
  induction matches' generalizing tokens with
  | nil => trivial
  | cons mat rest ih => exact (substr_throwsOnly text _ _).bind fun s => ih (tokens ++ [s])

theorem spliterLoop_throwsOnly (text : Bytes) (fuel startOffset : Nat) (tokens : List Bytes) :
    OnlyOutOfRange (spliterLoop self text fuel startOffset tokens) := by
  induction fuel generalizing startOffset tokens with
  | zero =>
    unfold spliterLoop
    split <;> trivial
  | succ fuel ih =>
    unfold spliterLoop
    split
    · trivial
    · exact (pushMatches_throwsOnly text _ tokens).bind fun tokens => ih _ tokens

theorem encodeWords_throwsOnly (words : List Bytes) : OnlyOutOfRange (encodeWords self words) := by
  induction words with
  | nil => trivial
  | cons word words ih =>
    refine Outcome.ThrowsOnly.bind ?_ fun wordTokens => ih.bind fun tokens => trivial
    unfold encodeWord
    split
    · trivial
    · exact bytePairEncode_throwsOnly self.encoder word

theorem encodeOrdinaryNative_throwsOnly (fuel : Nat) (text : Bytes) :
    OnlyOutOfRange (encodeOrdinaryNative self fuel text) := by
  unfold encodeOrdinaryNative
  exact (spliterLoop_throwsOnly self text fuel 0 []).bind fun words => encodeWords_throwsOnly self words

theorem findFirstSpecialPosition_throwsOnly (text : Bytes) (allowed : Utf8StringSet)
    (matches' : List Pcre2Match) :
    OnlyOutOfRange (findFirstSpecialPosition text allowed matches') := by
  induction matches' with
  | nil => trivial
  | cons mat rest ih =>
    unfold findFirstSpecialPosition
    refine (substr_throwsOnly text _ _).bind ?_
    intro s
    split
    · trivial
    · exact ih

theorem findSpecial_throwsOnly (text : Bytes) (allowed : Utf8StringSet) (fuel startFind : Nat) :
    OnlyOutOfRange (findSpecial self text allowed fuel startFind) := by
  induction fuel generalizing startFind with
  | zero =>
    unfold findSpecial
    split <;> trivial
  | succ fuel ih =>
    unfold findSpecial
    split
    · trivial
    · refine (findFirstSpecialPosition_throwsOnly text allowed _).bind ?_
      intro idx
      cases idx with
      | none => exact ih _
      | some idx => trivial

theorem encodeRound_throwsOnly (text : Bytes) (allowed : Utf8StringSet) (fuel start : Nat) :
    OnlyOutOfRange (encodeRound self text allowed fuel start) := by
  unfold encodeRound
  refine (findSpecial_throwsOnly self text allowed fuel start).bind ?_
  intro idx
  refine (substr_throwsOnly text start _).bind ?_
  intro segment
  exact (encodeOrdinaryNative_throwsOnly self fuel segment).bind fun tokens => trivial

/-- **`EncodeNative` throws nothing but `std::out_of_range`.** -/
theorem encodeNative_throwsOnly (text : Bytes) (allowed : Utf8StringSet) (fuel : Nat) :
    OnlyOutOfRange (encodeNative self text allowed fuel).1 := by
  have hloop (n start : Nat) (tokens : List UInt32) (special : Utf8StrToInt) :
      OnlyOutOfRange (encodeNativeLoop self text allowed fuel n start tokens special).1 := by
    induction n generalizing start tokens special with
    | zero => trivial
    | succ n ih =>
      unfold encodeNativeLoop
      refine (encodeRound_throwsOnly self text allowed fuel start).bindState ?_
      intro round
      split
      · exact ih _ _ _
      · trivial
  exact hloop fuel 0 [] self.specialTokensEncoder

end

/-- So the handlers of `EncodeOrdinary` and `Encode` have nothing to catch. -/
theorem catchUnicode_eq {fallback : List UInt32} {x : Run (List UInt32)} (hx : OnlyOutOfRange x) :
    catchUnicode fallback x = x := by
  cases x with
  | throw e =>
    obtain rfl : e = .outOfRange := hx
    rfl
  | _ => rfl

theorem encodeOrdinary_eq {E : Platform} (tok : TikToken E) (fuel : Nat) (text : Bytes) :
    tok.encodeOrdinary fuel text = encodeOrdinaryNative tok.corebpe fuel text :=
  catchUnicode_eq (encodeOrdinaryNative_throwsOnly tok.corebpe fuel text)

end TiktokenCpp
