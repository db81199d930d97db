import TiktokenCpp.Model.CoreBpe
import TiktokenCpp.Model.Registry

/-!
# The tokenizer

`token_encoding.cpp` and the two functions of `tiktoken.cpp` that make a
`TikToken`. Assertions are enabled.
-/

namespace TiktokenCpp

-- ---------------------------------------------------------------------------
-- Construction
-- ---------------------------------------------------------------------------

/-- The largest special token id; zero if there is none. -/
def getMaxSpecialTokenValue (tokens : StrViewToInt) : UInt32 :=
  tokens.entries.foldl (fun value tk => if value < tk.2 then tk.2 else value) 0

/-- Get max token value from encoding map, as its size less one. -/
def getMaxTokenValue (dict : EncodeDict) : UInt32 :=
  let value := UInt32.ofNat dict.size
  if value ≠ 0 then value - 1 else value

/-- `m_maxTokenValue` -/
def maxTokenValue (encoder : EncodeDict) (specialTokens : StrViewToInt) : UInt32 :=
  max (getMaxTokenValue encoder) (getMaxSpecialTokenValue specialTokens)

/-- The two assertions of the constructor. -/
def checkVocab (vocabN : Option UInt32) (encoder : EncodeDict) (specialTokens : StrViewToInt) :
    Run Unit :=
  match vocabN with
  | some n => do
    Outcome.assert (specialTokens.size + encoder.size = n.toNat)
    Outcome.assert (maxTokenValue encoder specialTokens = n - 1)
  | none => .ret ()

structure TikToken (E : Platform) where
  corebpe : CoreBpe E
  specialTokensSet : StringSet
  maxTokenValue : UInt32
  name : Bytes

section

variable (E : Platform)

/-- The constructor of `TikToken` from the point where the dictionary is there. -/
def TikToken.fromEncoder (fuel : Nat) (param : EncodingParam) (encoder : EncodeDict) :
    Run (TikToken E) := do
  checkVocab param.vocabN encoder param.specialTokens
  let corebpe ← CoreBpe.new E fuel encoder param.specialTokens param.patStr
  return {
    corebpe := corebpe
    specialTokensSet := OrderedSet.empty.insertAll
      (param.specialTokens.entries.map fun spi => cstr spi.1)
    maxTokenValue := TiktokenCpp.maxTokenValue encoder param.specialTokens
    name := param.name }

/-- The constructor of `TikToken`. -/
def TikToken.new (fuel : Nat) (param : EncodingParam) : Run (TikToken E) := do
  match ← getTiktokenEncoding E.cache E.order param.name with
  | none =>
    throwGeneralException
      (str "local cache not find encoding file, please download encoding file first. encoding name: ")
      param.name
  | some encoder => TikToken.fromEncoder E fuel param encoder

def getEncoding (fuel : Nat) (encodingName : Bytes) : Run (TikToken E) := do
  let param ← getEncodingParam E.order encodingName
  TikToken.new E fuel param

/-- `tolower` in the C locale. -/
def toLower (c : UInt8) : UInt8 := if 65 ≤ c ∧ c ≤ 90 then c + 32 else c

def encodingForModel (fuel : Nat) (modelName : Bytes) : Run (TikToken E) := do
  let encodingName ← encodingNameForModel E.order (cstr (modelName.map toLower))
  getEncoding E fuel encodingName

end

-- ---------------------------------------------------------------------------
-- Encoding
-- ---------------------------------------------------------------------------

/-- The pattern of `SpecialTokenRegex`. -/
def specialTokenRegex (tokens : StringSet) : Bytes :=
  [40] ++ Pcre2.join 124 (tokens.elems.map escapeRegex) ++ [41]

/-- `std::get<1>` of an argument of `Encode`. -/
def StringSetUnion.getSet : StringSetUnion → Run StringSet
  | .view _ => .throw .badVariantAccess
  | .set s => .ret s

/-- `(arg.index() == 0) && (std::get<0>(arg) == "all")` -/
def StringSetUnion.isAll : StringSetUnion → Bool
  | .view s => s = str "all"
  | .set _ => false

/-- The set an argument of `Encode` stands for, where `"all"` is the set `all`. -/
def StringSetUnion.setOr (all : StringSet) (arg : StringSetUnion) : Run StringSet :=
  if arg.isAll then .ret all else arg.getSet

/-- The text of the exception for a disallowed special token. -/
def valueError : Bytes :=
  str ("Encountered text corresponding to disallowed special token \x7btoken!r\x7d.\n" ++
    "If you want this text to be encoded as a special token, " ++
    "pass it to `allowed_special`, e.g. `allowed_special=\x7b\x7b\x7btoken!r\x7d, ...\x7d\x7d`.\n" ++
    "If you want this text to be encoded as normal text, disable the check for this token " ++
    "by passing `disallowed_special=(enc.special_tokens_set - \x7b\x7b\x7btoken!r\x7d\x7d\x7d)`.\n" ++
    "To disable this check for all special tokens, pass `disallowed_special=()`.\n")

/-- `CPcre2Regex::Match` without match data: whether there is a match. -/
def hasMatch {E : Platform} (code : E.pcre2.Code) (text : Bytes) : Bool :=
  match E.pcre2.pcre2_match code text 0 with
  | .error _ => false
  | .matched _ _ => true

/-- The check for disallowed special tokens. -/
def checkDisallowed (E : Platform) (utf8Text : Bytes) (disallowedSpecialSet : StringSet) : Run Unit :=
  if 0 < disallowedSpecialSet.elems.length then do
    let regex ← compile E (specialTokenRegex disallowedSpecialSet)
    if hasMatch regex utf8Text then .throw (.runtimeError valueError) else .ret ()
  else .ret ()

section

variable {E : Platform}

/-- `catch (const UnicodeEncoderException&)` around a call that gives tokens. -/
def catchUnicode (fallback : List UInt32) : Run (List UInt32) → Run (List UInt32)
  | .throw .unicodeEncoderException => .ret fallback
  | out => out

namespace TikToken

variable (self : TikToken E)

def encodeOrdinary (fuel : Nat) (utf8Text : Bytes) : Run (List UInt32) :=
  catchUnicode encodeOrdinaryNativeUtf16 (encodeOrdinaryNative self.corebpe fuel utf8Text)

/-- The sets that `Encode` makes of its two arguments. -/
def argumentSets (allowedSpecial disallowedSpecial : StringSetUnion) :
    Run (StringSet × StringSet) := do
  let allowedSpecialSet ← allowedSpecial.setOr self.specialTokensSet
  let disallowedSpecialSet ←
    disallowedSpecial.setOr (self.specialTokensSet.difference allowedSpecialSet)
  return (allowedSpecialSet, disallowedSpecialSet)

/-- What `Encode` does before it encodes: the allowed set as UTF-8. -/
def encodeSetup (fuel : Nat) (utf8Text : Bytes) (allowedSpecial disallowedSpecial : StringSetUnion) :
    Run Utf8StringSet := do
  let sets ← self.argumentSets allowedSpecial disallowedSpecial
  checkDisallowed E utf8Text sets.2
  utf8StrsetFromStrSet E.iconv fuel sets.1

def encode (fuel : Nat) (utf8Text : Bytes) (allowedSpecial disallowedSpecial : StringSetUnion) :
    Run (List UInt32) × TikToken E :=
  (self.encodeSetup fuel utf8Text allowedSpecial disallowedSpecial).bindState self fun allowed =>
    let (tokens, corebpe) := encodeNative self.corebpe utf8Text allowed fuel
    (catchUnicode encodeNativeUtf16 tokens, { self with corebpe := corebpe })

-- -------------------------------------------------------------------------
-- Decoding
-- -------------------------------------------------------------------------

def decode (tokens : List UInt32) : Bytes × TikToken E :=
  let (words, corebpe) := self.corebpe.decodeNative tokens
  (words.flatten, { self with corebpe := corebpe })

def tokenToSymbol (token : UInt32) : Bytes × TikToken E :=
  let (symbol, corebpe) := self.corebpe.tokenToSymbol token
  (symbol, { self with corebpe := corebpe })

def tokenToSymbols (tokens : List UInt32) : List Bytes × TikToken E :=
  let (words, corebpe) := self.corebpe.decodeNative tokens
  (words, { self with corebpe := corebpe })

end TikToken

end

end TiktokenCpp
