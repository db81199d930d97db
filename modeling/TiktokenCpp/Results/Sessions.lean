import TiktokenCpp.Lib.Session
import TiktokenCpp.Results.BadInput

/-!
# Calls do not influence one another

An object changes in two places: `m_decoder` is built by the first call that
decodes, and `EncodeNative` indexes `m_specialTokensEncoder` with `operator[]`,
which inserts a key that is not there. The key is always there: what the scan
finds is a registered name, whatever the text and the allowed set.

Main results:

* `encodeNative_self` -- `EncodeNative` leaves its object as it was;
* `session_independent` -- every call of a session replies as on a fresh object.
-/

namespace TiktokenCpp

open Utf8 Pcre2

/-! ## What the scan finds -/

section

variable {E : Platform} {U : UnicodeProps} {self : CoreBpe E} {special : StrViewToInt}

/-- **What the scan finds is a registered name**, and it ends between two
characters of the text. -/
theorem findSpecial_some (hkind : SpecialKind special)
    (himpl : E.pcre2.Implements U self.specialRegex (namesRegex (names special)))
    (allowed : Utf8StringSet) (pre suf : List Char) {fuel : Nat} {idx : SpecialIdx}
    (h : findSpecial self (encode (pre ++ suf)) allowed fuel (encode pre).length = .ret (some idx)) :
    idx.name ∈ names special ∧ ∃ a b, pre ++ suf = a ++ b ∧ idx.end_ = (encode a).length := by
  induction fuel generalizing pre suf with
  | zero =>
    rcases findSpecial_zero hkind himpl allowed pre suf with hnone | ⟨hloop, -⟩
    · rw [hnone] at h
      simp at h
    · rw [hloop] at h
      simp at h
  | succ fuel ih =>
    rcases findSpecial_step hkind himpl allowed pre suf fuel with
      ⟨hnone, -⟩ | ⟨a, n, b, hn, hsuf, -, ⟨-, hfound⟩ | ⟨-, c, cs, hcs, -, hskip⟩⟩
    · rw [hnone] at h
      simp at h
    · rw [hfound, Outcome.ret.injEq, Option.some.injEq] at h
      subst h
      refine ⟨hn, pre ++ a ++ asciiChars n, b, ?_, rfl⟩
      rw [hsuf, List.append_assoc, List.append_assoc]
    · rw [hskip] at h
      obtain ⟨hname, x, y, htext, hend⟩ := ih (pre ++ a ++ [c]) (cs ++ b) h
      refine ⟨hname, x, y, ?_, hend⟩
      rw [← htext, hsuf, hcs]
      simp

/-- The rounds of `EncodeNative` only read the map of special tokens. -/
theorem encodeNativeLoop_map (hkind : SpecialKind special)
    (himpl : E.pcre2.Implements U self.specialRegex (namesRegex (names special)))
    (allowed : Utf8StringSet) {map : Utf8StrToInt}
    (hmap : ∀ n, map.find? n = special.find? n) (fuel n : Nat) (pre suf : List Char)
    (tokens : List UInt32) :
    (encodeNativeLoop self (encode (pre ++ suf)) allowed fuel n (encode pre).length tokens map).2 =
      map := by
  induction n generalizing pre suf tokens with
  | zero => rfl
  | succ n ih =>
    rw [encodeNativeLoop]
    cases hround : encodeRound self (encode (pre ++ suf)) allowed fuel (encode pre).length with
    | ret round =>
      obtain ⟨found, roundTokens⟩ := round
      rw [Outcome.ret_bindState]
      cases found with
      | none => rfl
      | some idx =>
        have hfound : findSpecial self (encode (pre ++ suf)) allowed fuel (encode pre).length =
            .ret (some idx) := by
          unfold encodeRound at hround
          obtain ⟨found, hfound, hround⟩ := Outcome.bind_eq_ret.mp hround
          obtain ⟨segment, -, hround⟩ := Outcome.bind_eq_ret.mp hround
          obtain ⟨ordinary, -, hround⟩ := Outcome.bind_eq_ret.mp hround
          cases hround
          exact hfound
        obtain ⟨hname, a, b, htext, hend⟩ := findSpecial_some hkind himpl allowed pre suf hfound
        obtain ⟨id, hid⟩ := mem_names_iff.mp hname
        dsimp only
        rw [UnorderedMap.getOrInsert_of_find? ((hmap idx.name).trans hid), htext, hend]
        exact ih a b _
    | _ => rfl

/-- **`EncodeNative` leaves its object as it was**, also when it throws. -/
theorem encodeNative_self (hE : E.Documented U) (self : CoreBpe E) (hkind : SpecialKind special)
    (himpl : E.pcre2.Implements U self.specialRegex (namesRegex (names special)))
    (hmap : ∀ n, self.specialTokensEncoder.find? n = special.find? n) (text : Bytes)
    (allowed : Utf8StringSet) (fuel : Nat) : (encodeNative self text allowed fuel).2 = self := by
  by_cases hwell : WellFormed text
  · obtain ⟨cs, rfl⟩ := hwell
    have hloop := encodeNativeLoop_map hkind himpl allowed hmap fuel fuel [] cs []
    rw [encode_nil, List.length_nil, List.nil_append] at hloop
    unfold encodeNative
    show ({ self with specialTokensEncoder := _ } : CoreBpe E) = self
    rw [hloop]
  · cases fuel with
    | zero => rfl
    | succ fuel => rw [encodeNative_illFormed hE.pcre2.refuses self hwell allowed (Nat.succ_pos fuel)]

/-! ## The decode dictionary -/

/-- The object with `m_decoder` set to `decoder`. -/
def CoreBpe.setDecoder (self : CoreBpe E) (decoder : Option DecodeDict) : CoreBpe E :=
  { self with decoder := decoder }

@[simp] theorem setDecoder_regex (decoder : Option DecodeDict) :
    (self.setDecoder decoder).regex = self.regex := rfl

@[simp] theorem setDecoder_specialRegex (decoder : Option DecodeDict) :
    (self.setDecoder decoder).specialRegex = self.specialRegex := rfl

variable (decoder : Option DecodeDict)

theorem spliterLoop_setDecoder (text : Bytes) (fuel startOffset : Nat) (tokens : List Bytes) :
    spliterLoop (self.setDecoder decoder) text fuel startOffset tokens =
      spliterLoop self text fuel startOffset tokens := by
  induction fuel generalizing startOffset tokens with
  | zero =>
    rw [spliterLoop, spliterLoop]
    rfl
  | succ fuel ih =>
    rw [spliterLoop, spliterLoop, setDecoder_regex]
    cases E.pcre2.pcre2_match self.regex text startOffset with
    | error rc => rfl
    | matched whole groups => exact Outcome.bind_congr fun tokens _ => ih _ tokens

theorem encodeWords_setDecoder (words : List Bytes) :
    encodeWords (self.setDecoder decoder) words = encodeWords self words := by
  induction words with
  | nil => rfl
  | cons word words ih =>
    rw [encodeWords, encodeWords, ih]
    rfl

theorem encodeOrdinaryNative_setDecoder (fuel : Nat) (text : Bytes) :
    encodeOrdinaryNative (self.setDecoder decoder) fuel text = encodeOrdinaryNative self fuel text := by
  unfold encodeOrdinaryNative utf8WordsSpliter
  rw [spliterLoop_setDecoder]
  exact Outcome.bind_congr fun words _ => encodeWords_setDecoder decoder words

theorem findSpecial_setDecoder (text : Bytes) (allowed : Utf8StringSet) (fuel startFind : Nat) :
    findSpecial (self.setDecoder decoder) text allowed fuel startFind =
      findSpecial self text allowed fuel startFind := by
  induction fuel generalizing startFind with
  | zero =>
    rw [findSpecial, findSpecial]
    rfl
  | succ fuel ih =>
    rw [findSpecial, findSpecial, setDecoder_specialRegex]
    cases E.pcre2.pcre2_match self.specialRegex text startFind with
    | error rc => rfl
    | matched whole groups =>
      refine Outcome.bind_congr ?_
      intro idx _
      cases idx with
      | none => exact ih _
      | some idx => rfl

theorem encodeRound_setDecoder (text : Bytes) (allowed : Utf8StringSet) (fuel start : Nat) :
    encodeRound (self.setDecoder decoder) text allowed fuel start =
      encodeRound self text allowed fuel start := by
  unfold encodeRound
  simp only [findSpecial_setDecoder, encodeOrdinaryNative_setDecoder]

/-- Encoding does not look at the decode dictionary. -/
theorem encodeNative_setDecoder (text : Bytes) (allowed : Utf8StringSet) (fuel : Nat) :
    (encodeNative (self.setDecoder decoder) text allowed fuel).1 =
      (encodeNative self text allowed fuel).1 := by
  have hloop (n start : Nat) (tokens : List UInt32) (map : Utf8StrToInt) :
      encodeNativeLoop (self.setDecoder decoder) text allowed fuel n start tokens map =
        encodeNativeLoop self text allowed fuel n start tokens map := by
    induction n generalizing start tokens map with
    | zero => rfl
    | succ n ih => simp only [encodeNativeLoop, encodeRound_setDecoder, ih]
  show (encodeNativeLoop (self.setDecoder decoder) text allowed fuel fuel 0 []
    self.specialTokensEncoder).1 = _
  rw [hloop]
  rfl

/-- Whatever decodes first finds or builds the same dictionary. -/
theorem withDecoder_setDecoder {decoder : Option DecodeDict}
    (hdecoder : decoder = none ∨ decoder = some (initDecodeDict self.encoder)) :
    (self.setDecoder decoder).withDecoder =
      (initDecodeDict self.encoder, self.setDecoder (some (initDecodeDict self.encoder))) := by
  rcases hdecoder with rfl | rfl
  · rfl
  · rfl

theorem withDecoder_of_none (hnone : self.decoder = none) :
    self.withDecoder =
      (initDecodeDict self.encoder, self.setDecoder (some (initDecodeDict self.encoder))) := by
  unfold CoreBpe.withDecoder
  rw [hnone]
  rfl

end

/-! ## Sessions -/

/-- A call of an object; the calls that encode bring their fuel. -/
inductive Op where
  | encodeOrdinary (fuel : Nat) (text : Bytes)
  | encode (fuel : Nat) (text : Bytes) (allowed disallowed : StringSetUnion)
  | decode (tokens : List UInt32)
  | tokenToSymbol (token : UInt32)
  | tokenToSymbols (tokens : List UInt32)

/-- What a call ends in. -/
inductive Reply where
  | tokens (out : Run (List UInt32))
  | text (s : Bytes)
  | texts (words : List Bytes)

section

variable {E : Platform} {U : UnicodeProps}

def TikToken.call (tok : TikToken E) : Op → Reply × TikToken E
  | .encodeOrdinary fuel text => (.tokens (tok.encodeOrdinary fuel text), tok)
  | .encode fuel text allowed disallowed =>
    (.tokens (tok.encode fuel text allowed disallowed).1,
      (tok.encode fuel text allowed disallowed).2)
  | .decode tokens => (.text (tok.decode tokens).1, (tok.decode tokens).2)
  | .tokenToSymbol token => (.text (tok.tokenToSymbol token).1, (tok.tokenToSymbol token).2)
  | .tokenToSymbols tokens => (.texts (tok.tokenToSymbols tokens).1, (tok.tokenToSymbols tokens).2)

/-- A state of an object made as `tok`: nothing but `m_decoder` may differ, and
that is null or the dictionary that `InitDecodeDict` builds. -/
def StateOf (tok s : TikToken E) : Prop :=
  ∃ decoder, (decoder = none ∨ decoder = some (initDecodeDict tok.corebpe.encoder)) ∧
    s = { tok with corebpe := tok.corebpe.setDecoder decoder }

/-- What the proofs use of a constructed object. -/
structure Constructed (U : UnicodeProps) (special : StrViewToInt) (tok : TikToken E) : Prop where
  kind : SpecialKind special
  decoder : tok.corebpe.decoder = none
  specialTokens : ∀ n, tok.corebpe.specialTokensEncoder.find? n = special.find? n
  specialRegex : E.pcre2.Implements U tok.corebpe.specialRegex (namesRegex (names special))

variable {special : StrViewToInt} {tok s : TikToken E}

theorem Constructed.stateOf (htok : Constructed U special tok) : StateOf tok tok := by
  refine ⟨none, Or.inl rfl, ?_⟩
  rw [← htok.decoder]
  rfl

theorem encode_setDecoder (hE : E.Documented U) (htok : Constructed U special tok)
    (decoder : Option DecodeDict) (fuel : Nat) (text : Bytes)
    (allowed disallowed : StringSetUnion) :
    TikToken.encode { tok with corebpe := tok.corebpe.setDecoder decoder } fuel text allowed
        disallowed =
      ((tok.encode fuel text allowed disallowed).1,
        { tok with corebpe := tok.corebpe.setDecoder decoder }) := by
  unfold TikToken.encode
  show Outcome.bindState (tok.encodeSetup fuel text allowed disallowed) _ _ = _
  cases tok.encodeSetup fuel text allowed disallowed with
  | ret set =>
    have hself : (encodeNative (tok.corebpe.setDecoder decoder) text set fuel).2 =
        tok.corebpe.setDecoder decoder :=
      encodeNative_self hE (tok.corebpe.setDecoder decoder) htok.kind htok.specialRegex htok.specialTokens text set fuel
    rw [Outcome.ret_bindState, Outcome.ret_bindState]
    dsimp only
    rw [hself, encodeNative_setDecoder]
  | _ => rfl

/-- **One call**: it replies as on the object as it was made, and leaves the
object in one of its states. -/
theorem call_stateOf (hE : E.Documented U) (htok : Constructed U special tok) (op : Op)
    (hs : StateOf tok s) : (s.call op).1 = (tok.call op).1 ∧ StateOf tok (s.call op).2 := by
  obtain ⟨decoder, hdecoder, rfl⟩ := hs
  have hwith := withDecoder_setDecoder hdecoder
  have hfresh := withDecoder_of_none htok.decoder
  have hafter : StateOf tok { tok with
      corebpe := tok.corebpe.setDecoder (some (initDecodeDict tok.corebpe.encoder)) } :=
    ⟨_, Or.inr rfl, rfl⟩
  cases op with
  | encodeOrdinary fuel text =>
    refine ⟨?_, decoder, hdecoder, rfl⟩
    unfold TikToken.call TikToken.encodeOrdinary
    dsimp only
    rw [encodeOrdinaryNative_setDecoder]
  | encode fuel text allowed disallowed =>
    unfold TikToken.call
    dsimp only
    rw [encode_setDecoder hE htok decoder fuel text allowed disallowed]
    exact ⟨rfl, decoder, hdecoder, rfl⟩
  | decode tokens =>
    unfold TikToken.call TikToken.decode CoreBpe.decodeNative
    dsimp only
    rw [hwith, hfresh]
    exact ⟨rfl, hafter⟩
  | tokenToSymbol token =>
    unfold TikToken.call TikToken.tokenToSymbol CoreBpe.tokenToSymbol
    dsimp only
    rw [hwith, hfresh]
    exact ⟨rfl, hafter⟩
  | tokenToSymbols tokens =>
    unfold TikToken.call TikToken.tokenToSymbols CoreBpe.decodeNative
    dsimp only
    rw [hwith, hfresh]
    exact ⟨rfl, hafter⟩

/-- **Calls do not influence one another.** In a session with a constructed
object every call ends as it does on the object as it was made, and after it
`m_decoder` is null or what `InitDecodeDict` builds, and the map of the special
tokens has gained no key. -/
theorem session_independent (hE : E.Documented U) {encoder : EncodeDict} {param : EncodingParam}
    (hkind : SpecialKind param.specialTokens) {newFuel : Nat} (hnew : 0 < newFuel)
    (hconstructed : TikToken.fromEncoder E newFuel param encoder = .ret tok) (ops : List Op) :
    (Session.session TikToken.call tok ops).1 = ops.map (fun op => (tok.call op).1) ∧
    ((Session.session TikToken.call tok ops).2.corebpe.decoder = none ∨
      (Session.session TikToken.call tok ops).2.corebpe.decoder = some (initDecodeDict encoder)) ∧
    (Session.session TikToken.call tok ops).2.corebpe.specialTokensEncoder =
      tok.corebpe.specialTokensEncoder := by
  obtain ⟨hbuilt, -, -⟩ := built_of_fromEncoder hE hkind hnew hconstructed
  have htok : Constructed U param.specialTokens tok :=
    ⟨hkind, hbuilt.decoder, hbuilt.specialTokens, hbuilt.specialRegex⟩
  have hstate : ∀ s op, StateOf tok s → StateOf tok (TikToken.call s op).2 :=
    fun s op hs => (call_stateOf hE htok op hs).2
  refine ⟨Session.session_replies hstate (fun s op hs => (call_stateOf hE htok op hs).1)
    htok.stateOf ops, ?_⟩
  obtain ⟨decoder, hdecoder, hlast⟩ := Session.session_invariant hstate htok.stateOf ops
  rw [hlast, ← hbuilt.encoder]
  exact ⟨hdecoder, rfl⟩

theorem session_independent_three :
    ∃ tok : TikToken plainPlatform, TikToken.fromEncoder plainPlatform 1 r50kParam byteDict = .ret tok ∧
      (Session.session TikToken.call tok
        [.decode [0], .encode 3 (str "ab") (.view []) (.set .empty), .decode [50256, 7]]).1 =
      [(tok.call (.decode [0])).1, (tok.call (.encode 3 (str "ab") (.view []) (.set .empty))).1,
        (tok.call (.decode [50256, 7])).1] := by
  obtain ⟨tok, htok⟩ := fromEncoder_byteDict
  exact ⟨tok, htok, (session_independent plainPlatform_documented endoftextTable_kind
    (Nat.succ_pos 0) htok _).1⟩

end

end TiktokenCpp
