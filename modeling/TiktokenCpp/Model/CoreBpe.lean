import TiktokenCpp.Model.BytePair
import TiktokenCpp.Model.Utils

/-!
# The encoder

`core_bpe.cpp`, less the merge. A method that may change the object takes it
last and gives it back beside its outcome, also when it throws. The loops of
`Utf8WordsSpliter` and `EncodeNative` run on fuel; each is given the same
amount.
-/

namespace TiktokenCpp

/-- What the program finds around it: the libraries, the iteration order of its
hash maps and the files of the cache directory. -/
structure Platform where
  pcre2 : Pcre2
  iconv : Iconv
  order : IterationOrder
  cache : Cache

/-- A platform whose libraries do what they document. -/
structure Platform.Documented (E : Platform) (U : Pcre2.UnicodeProps) : Prop where
  pcre2 : E.pcre2.Documented U
  iconv : E.iconv.Documented

structure CoreBpe (E : Platform) where
  encoder : EncodeDict
  decoder : Option DecodeDict
  specialTokensEncoder : Utf8StrToInt
  specialTokensDecoder : DecodeDict
  regex : E.pcre2.Code
  specialRegex : E.pcre2.Code

section

variable (E : Platform)

/-- `CPcre2Regex::Compile`. The exception keeps the code as a `uint32_t`. -/
def compile (pattern : Bytes) : Run E.pcre2.Code :=
  match E.pcre2.pcre2_compile pattern with
  | .ok code => .ret code
  | .error (errCode, errOffset) => .throw (.pcre2Exception (UInt32.ofInt errCode) errOffset)

/-- The names of the special tokens as UTF-8, with their ids, emplaced one by one. -/
def convertSpecialTokens (fuel : Nat) : List (Bytes × UInt32) → Utf8StrToInt → Run Utf8StrToInt
  | [], encoder => .ret encoder
  | mi :: rest, encoder => do
    let name ← utf8StrFromLocalMBCS E.iconv fuel (cstr mi.1)
    convertSpecialTokens fuel rest (encoder.emplace name mi.2)

/-- The pattern of `m_SpecialRegex`. -/
def specialPattern (specialTokensEncoder : StrViewToInt) : Bytes :=
  Pcre2.join 124 (specialTokensEncoder.entries.map fun mi => escapeRegex (cstr mi.1))

/-- The constructor of `CoreBpe`. -/
def CoreBpe.new (fuel : Nat) (encoder : EncodeDict) (specialTokensEncoder : StrViewToInt)
    (pattern : Bytes) : Run (CoreBpe E) := do
  let regex ← compile E (cstr pattern)
  let converted ← convertSpecialTokens E fuel specialTokensEncoder.entries .empty
  let converted := converted.shuffle E.order
  let specialRegex ← compile E (specialPattern specialTokensEncoder)
  return {
    encoder := encoder
    decoder := none
    specialTokensEncoder := converted
    specialTokensDecoder := UnorderedMap.empty.emplaceAll (converted.entries.map Prod.swap)
    regex := regex
    specialRegex := specialRegex }

end

-- ---------------------------------------------------------------------------
-- Words
-- ---------------------------------------------------------------------------

/-- The pairs that a `CPcre2OVector` walks through. -/
def overtor (whole : Pcre2Match) (groups : List Pcre2Match) : List Pcre2Match := whole :: groups

/-- `CPcre2OVector::Last` -/
def lastMatch (whole : Pcre2Match) (groups : List Pcre2Match) : Pcre2Match :=
  groups.getLast?.getD whole

/-- The matched strings, pushed one by one. -/
def pushMatches (text : Bytes) : List Pcre2Match → List Bytes → Run (List Bytes)
  | [], tokens => .ret tokens
  | mat :: rest, tokens => do
    let s ← substr text mat.start (subSize mat.end_ mat.start)
    pushMatches text rest (tokens ++ [s])

section

variable {E : Platform} (self : CoreBpe E)

/-- The loop of `Utf8WordsSpliter`, at most `fuel` rounds. -/
def spliterLoop (text : Bytes) : (fuel startOffset : Nat) → List Bytes → Run (List Bytes)
  | fuel, startOffset, tokens =>
    match E.pcre2.pcre2_match self.regex text startOffset with
    | .error _ => .ret tokens
    | .matched whole groups =>
      match fuel with
      | 0 => .loop
      | fuel + 1 => do
        let tokens ← pushMatches text (overtor whole groups) tokens
        spliterLoop text fuel (lastMatch whole groups).end_ tokens

def utf8WordsSpliter (fuel : Nat) (utf8Text : Bytes) : Run (List Bytes) :=
  spliterLoop self utf8Text fuel 0 []

/-- The tokens of one word: its own, if it has one. -/
def encodeWord (word : Bytes) : Run (List UInt32) :=
  match self.encoder.find? word with
  | some token => .ret [token]
  | none => bytePairEncode self.encoder word

/-- The loop over the words in `EncodeOrdinaryNative` and `EncodeNative`. -/
def encodeWords : List Bytes → Run (List UInt32)
  | [] => .ret []
  | word :: words => do
    let wordTokens ← encodeWord self word
    let tokens ← encodeWords words
    return wordTokens ++ tokens

def encodeOrdinaryNative (fuel : Nat) (utf8Text : Bytes) : Run (List UInt32) := do
  let words ← utf8WordsSpliter self fuel utf8Text
  encodeWords self words

end

-- ---------------------------------------------------------------------------
-- Special tokens
-- ---------------------------------------------------------------------------

/-- An occurrence of a special token: start, end and name. -/
structure SpecialIdx where
  start : Nat
  end_ : Nat
  name : Bytes
  deriving DecidableEq, Repr

def findFirstSpecialPosition (utf8Text : Bytes) (allowedSpecial : Utf8StringSet) :
    List Pcre2Match → Run (Option SpecialIdx)
  | [] => .ret none
  | mat :: rest => do
    let s ← substr utf8Text mat.start (subSize mat.end_ mat.start)
    if s ∈ allowedSpecial then return some ⟨mat.start, mat.end_, s⟩
    else findFirstSpecialPosition utf8Text allowedSpecial rest

section

variable {E : Platform} (self : CoreBpe E) (utf8Text : Bytes) (allowedSpecial : Utf8StringSet)

/-- The inner loop of `EncodeNative`: the next allowed special token. -/
def findSpecial : (fuel startFind : Nat) → Run (Option SpecialIdx)
  | fuel, startFind =>
    match E.pcre2.pcre2_match self.specialRegex utf8Text startFind with
    | .error _ => .ret none
    | .matched whole groups =>
      match fuel with
      | 0 => .loop
      | fuel + 1 => do
        match ← findFirstSpecialPosition utf8Text allowedSpecial (overtor whole groups) with
        | some idx => return some idx
        | none => findSpecial fuel ((lastMatch whole groups).start + 1)

/-- What a round of `EncodeNative` does before it emits a special token: find
the next one and encode the text in front of it. -/
def encodeRound (fuel start : Nat) : Run (Option SpecialIdx × List UInt32) := do
  let idx ← findSpecial self utf8Text allowedSpecial fuel start
  let end_ := match idx with
    | some idx => idx.start
    | none => utf8Text.length
  let segment ← substr utf8Text start (subSize end_ start)
  let tokens ← encodeOrdinaryNative self fuel segment
  return (idx, tokens)

/-- The outer loop of `EncodeNative`, at most `n` rounds. The map is
`m_specialTokensEncoder`, which `operator[]` may add to. -/
def encodeNativeLoop (fuel : Nat) : (n start : Nat) → List UInt32 → Utf8StrToInt →
    Run (List UInt32) × Utf8StrToInt
  | 0, _, _, special => (.loop, special)
  | n + 1, start, tokens, special =>
    (encodeRound self utf8Text allowedSpecial fuel start).bindState special fun round =>
      match round.1 with
      | some idx =>
        let (token, special) := special.getOrInsert idx.name 0
        encodeNativeLoop fuel n idx.end_ (tokens ++ round.2 ++ [token]) special
      | none => (.ret (tokens ++ round.2), special)

def encodeNative (fuel : Nat) : Run (List UInt32) × CoreBpe E :=
  let (tokens, special) :=
    encodeNativeLoop self utf8Text allowedSpecial fuel fuel 0 [] self.specialTokensEncoder
  (tokens, { self with specialTokensEncoder := special })

end

/-- The overload of `EncodeOrdinaryNative` for UTF-16 text, not written yet. -/
def encodeOrdinaryNativeUtf16 : List UInt32 := []

/-- The overload of `EncodeNative` for UTF-16 text, not written yet. -/
def encodeNativeUtf16 : List UInt32 := []

-- ---------------------------------------------------------------------------
-- Decoding
-- ---------------------------------------------------------------------------

def initDecodeDict (encoder : EncodeDict) : DecodeDict :=
  UnorderedMap.empty.emplaceAll (encoder.entries.map Prod.swap)

section

variable {E : Platform}

/-- `m_decoder`, built on first use. -/
def CoreBpe.withDecoder (self : CoreBpe E) : DecodeDict × CoreBpe E :=
  match self.decoder with
  | some decoder => (decoder, self)
  | none =>
    let decoder := initDecodeDict self.encoder
    (decoder, { self with decoder := some decoder })

def CoreBpe.tokenToSymbol (token : UInt32) (self : CoreBpe E) : Bytes × CoreBpe E :=
  let (decoder, self) := self.withDecoder
  ((decoder.find? token).getD [], self)

/-- The words of `DecodeNative` for one token: none, if the token is unknown. -/
def decodeToken (decoder specialTokensDecoder : DecodeDict) (token : UInt32) : List Bytes :=
  match decoder.find? token with
  | some word => [word]
  | none => (specialTokensDecoder.find? token).toList

def CoreBpe.decodeNative (tokens : List UInt32) (self : CoreBpe E) : List Bytes × CoreBpe E :=
  let (decoder, self) := self.withDecoder
  (tokens.flatMap (decodeToken decoder self.specialTokensDecoder), self)

end

end TiktokenCpp
