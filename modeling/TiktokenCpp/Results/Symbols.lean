import TiktokenCpp.Results.Sessions

/-!
# Symbols and decoded text

`Decode` and `TokenToSymbols` look a token up in `m_decoder` and then in
`m_specialTokensDecoder`. `TokenToSymbol` looks in the first only, so the symbol
of a special token is empty and its name is lost when a text is put together
symbol by symbol.

Main results:

* `decoded_cases` -- what one token adds to the text and to the symbols;
* `pathsAgree_iff` -- the paths agree exactly on the lists without a token that
  only `m_specialTokensDecoder` knows.
-/

namespace TiktokenCpp

section

variable {E : Platform} {tok : TikToken E}

/-- `m_decoder` is null or what `InitDecodeDict` builds. -/
def DecoderState (bpe : CoreBpe E) : Prop :=
  bpe.decoder = none ∨ bpe.decoder = some (initDecodeDict bpe.encoder)

/-- The replies to calls of `TokenToSymbol`, one after the other. -/
def symbols (tok : TikToken E) (tokens : List UInt32) : List Bytes :=
  (Session.session TikToken.tokenToSymbol tok tokens).1

/-- The symbol of a token. -/
def symbolOf (bpe : CoreBpe E) (token : UInt32) : Bytes :=
  ((initDecodeDict bpe.encoder).find? token).getD []

/-- The words that `DecodeNative` has for a token. -/
def wordsOf (bpe : CoreBpe E) (token : UInt32) : List Bytes :=
  decodeToken (initDecodeDict bpe.encoder) bpe.specialTokensDecoder token

/-- A rank of the dictionary or the id of a special token. -/
def Known (bpe : CoreBpe E) (token : UInt32) : Prop :=
  (∃ w, bpe.encoder.find? w = some token) ∨ ∃ name, bpe.specialTokensDecoder.find? token = some name

/-- The id of a special token with a name, and no rank. -/
def SpecialOnly (bpe : CoreBpe E) (token : UInt32) : Prop :=
  (∀ w, bpe.encoder.find? w ≠ some token) ∧
    ∃ name, bpe.specialTokensDecoder.find? token = some name ∧ name ≠ []

-- ---------------------------------------------------------------------------
-- The two paths
-- ---------------------------------------------------------------------------

theorem DecoderState.withDecoder {bpe : CoreBpe E} (h : DecoderState bpe) :
    bpe.withDecoder =
      (initDecodeDict bpe.encoder, bpe.setDecoder (some (initDecodeDict bpe.encoder))) := by
  show (bpe.setDecoder bpe.decoder).withDecoder = _
  exact withDecoder_setDecoder h

theorem tokenToSymbol_eq (h : DecoderState tok.corebpe) (token : UInt32) :
    tok.tokenToSymbol token =
      (symbolOf tok.corebpe token,
        { tok with corebpe := tok.corebpe.setDecoder (some (initDecodeDict tok.corebpe.encoder)) }) := by
  unfold TikToken.tokenToSymbol CoreBpe.tokenToSymbol
  rw [h.withDecoder]
  rfl

theorem tokenToSymbols_eq (h : DecoderState tok.corebpe) (tokens : List UInt32) :
    (tok.tokenToSymbols tokens).1 = tokens.flatMap (wordsOf tok.corebpe) := by
  unfold TikToken.tokenToSymbols CoreBpe.decodeNative
  rw [h.withDecoder]
  rfl

theorem decode_eq (h : DecoderState tok.corebpe) (tokens : List UInt32) :
    (tok.decode tokens).1 = (tokens.flatMap (wordsOf tok.corebpe)).flatten := by
  unfold TikToken.decode CoreBpe.decodeNative
  rw [h.withDecoder]
  rfl

/-- The first call builds the dictionary; the symbols do not depend on it. -/
theorem symbols_eq (h : DecoderState tok.corebpe) (tokens : List UInt32) :
    symbols tok tokens = tokens.map (symbolOf tok.corebpe) := by
  have hstate : ∀ (s : TikToken E) token, DecoderState s.corebpe ∧ s.corebpe.encoder = tok.corebpe.encoder →
      DecoderState (s.tokenToSymbol token).2.corebpe ∧
        (s.tokenToSymbol token).2.corebpe.encoder = tok.corebpe.encoder := by
    rintro s token ⟨hs, hencoder⟩
    rw [tokenToSymbol_eq hs]
    exact ⟨Or.inr rfl, hencoder⟩
  have hreply : ∀ (s : TikToken E) token, DecoderState s.corebpe ∧ s.corebpe.encoder = tok.corebpe.encoder →
      (s.tokenToSymbol token).1 = (tok.tokenToSymbol token).1 := by
    rintro s token ⟨hs, hencoder⟩
    rw [tokenToSymbol_eq hs, tokenToSymbol_eq h]
    show symbolOf s.corebpe token = symbolOf tok.corebpe token
    rw [symbolOf, hencoder, symbolOf]
  have hsession := Session.session_replies hstate hreply ⟨h, rfl⟩ tokens
  unfold symbols
  rw [hsession]
  refine List.map_congr_left ?_
  intro token _
  rw [tokenToSymbol_eq h]

-- ---------------------------------------------------------------------------
-- One token
-- ---------------------------------------------------------------------------

variable {bpe : CoreBpe E} {token : UInt32}

theorem initDecodeDict_eq_none_iff :
    (initDecodeDict bpe.encoder).find? token = none ↔ ∀ w, bpe.encoder.find? w ≠ some token := by
  constructor
  · -- the dictionary is filled with the swapped entries, so every rank has a word
    intro hnone w hw
    obtain ⟨w', hw'⟩ := UnorderedMap.exists_find?_swap (UnorderedMap.find?_eq_some_iff.mp hw)
    have hsome : (initDecodeDict bpe.encoder).find? token = some w' := hw'
    rw [hnone] at hsome
    simp at hsome
  · intro hno
    rw [Option.eq_none_iff_forall_ne_some]
    intro w hw
    exact hno w (UnorderedMap.find?_eq_some_iff.mpr (UnorderedMap.mem_of_find?_swap hw))

/-- What a token adds on the two paths: its word, if it is a rank, and its name
on one path only, if it is the id of a special token. -/
theorem decoded_cases (bpe : CoreBpe E) (token : UInt32) :
    wordsOf bpe token = [symbolOf bpe token] ∨
    (symbolOf bpe token = [] ∧ (∀ w, bpe.encoder.find? w ≠ some token) ∧
      wordsOf bpe token = (bpe.specialTokensDecoder.find? token).toList) := by
  unfold wordsOf symbolOf decodeToken
  cases hfind : (initDecodeDict bpe.encoder).find? token with
  | some word => exact Or.inl rfl
  | none => exact Or.inr ⟨rfl, initDecodeDict_eq_none_iff.mp hfind, rfl⟩

/-- Other tokens add the same to the text as their symbols. -/
theorem flatten_wordsOf (h : ¬ SpecialOnly bpe token) :
    (wordsOf bpe token).flatten = symbolOf bpe token := by
  rcases decoded_cases bpe token with hword | ⟨hsymbol, hno, hwords⟩
  · -- a rank: both paths find its word
    rw [hword, List.flatten_singleton]
  · rw [hwords, hsymbol]
    cases hname : bpe.specialTokensDecoder.find? token with
    | none => rfl
    | some name =>
      have hempty : name = [] := by
        by_contra hne
        exact h ⟨hno, name, hname, hne⟩
      rw [hempty]
      rfl

/-- A known token has one word, its symbol. -/
theorem wordsOf_known (h : ¬ SpecialOnly bpe token) (hknown : Known bpe token) :
    wordsOf bpe token = [symbolOf bpe token] := by
  rcases decoded_cases bpe token with hword | ⟨hsymbol, hno, hwords⟩
  · exact hword
  · rcases hknown with ⟨w, hw⟩ | ⟨name, hname⟩
    · exact absurd hw (hno w)
    · have hempty : name = [] := by
        by_contra hne
        exact h ⟨hno, name, hname, hne⟩
      rw [hwords, hsymbol, hname, hempty]
      rfl

/-- A token that only the special dictionary knows adds its name to the text. -/
theorem length_symbolOf_lt (h : SpecialOnly bpe token) :
    (symbolOf bpe token).length < (wordsOf bpe token).flatten.length := by
  obtain ⟨hno, name, hname, hne⟩ := h
  have hnone := initDecodeDict_eq_none_iff.mpr hno
  unfold symbolOf wordsOf decodeToken
  rw [hnone, hname]
  simpa using List.length_pos_iff.mpr hne

theorem length_symbolOf_le (bpe : CoreBpe E) (token : UInt32) :
    (symbolOf bpe token).length ≤ (wordsOf bpe token).flatten.length := by
  by_cases h : SpecialOnly bpe token
  · exact Nat.le_of_lt (length_symbolOf_lt h)
  · rw [flatten_wordsOf h]

-- ---------------------------------------------------------------------------
-- Lists of tokens
-- ---------------------------------------------------------------------------

theorem length_symbols_le (bpe : CoreBpe E) (tokens : List UInt32) :
    (tokens.map (symbolOf bpe)).flatten.length ≤ (tokens.flatMap (wordsOf bpe)).flatten.length := by
  induction tokens with
  | nil => exact Nat.le_refl 0
  | cons token tokens ih =>
    have htoken := length_symbolOf_le bpe token
    rw [List.map_cons, List.flatten_cons, List.flatMap_cons, List.flatten_append,
      List.length_append, List.length_append]
    omega

/-- The symbols make up the text exactly when no name is lost. -/
theorem flatten_symbols_iff (bpe : CoreBpe E) (tokens : List UInt32) :
    (tokens.flatMap (wordsOf bpe)).flatten = (tokens.map (symbolOf bpe)).flatten ↔
      ∀ token ∈ tokens, ¬ SpecialOnly bpe token := by
  induction tokens with
  | nil => simp
  | cons token tokens ih =>
    rw [List.flatMap_cons, List.flatten_append, List.map_cons, List.flatten_cons,
      List.forall_mem_cons, ← ih]
    constructor
    · intro heq
      have hlen := congrArg List.length heq
      rw [List.length_append, List.length_append] at hlen
      have hle := length_symbols_le bpe tokens
      -- a lost name would make the text longer than its symbols
      have htoken : ¬ SpecialOnly bpe token := by
        intro hspecial
        have hlt := length_symbolOf_lt hspecial
        omega
      rw [flatten_wordsOf htoken] at heq
      exact ⟨htoken, List.append_cancel_left heq⟩
    · rintro ⟨htoken, hrest⟩
      rw [flatten_wordsOf htoken, hrest]

/-- The three calls agree on a list of tokens: the text is that of the symbols
in a row, and when every token is known, `TokenToSymbols` gives the symbols. -/
structure PathsAgree (tok : TikToken E) (tokens : List UInt32) : Prop where
  decode : (tok.decode tokens).1 = (symbols tok tokens).flatten
  tokenToSymbols : (∀ token ∈ tokens, Known tok.corebpe token) →
    (tok.tokenToSymbols tokens).1 = symbols tok tokens

/-- **The paths agree exactly when no token is that of a special name only.** -/
theorem pathsAgree_iff (hdecoder : DecoderState tok.corebpe) (tokens : List UInt32) :
    PathsAgree tok tokens ↔ ∀ token ∈ tokens, ¬ SpecialOnly tok.corebpe token := by
  have hsymbols := symbols_eq hdecoder tokens
  constructor
  · intro hagree
    have hdecode := hagree.decode
    rw [decode_eq hdecoder, hsymbols] at hdecode
    exact (flatten_symbols_iff tok.corebpe tokens).mp hdecode
  · intro hordinary
    refine ⟨?_, ?_⟩
    · rw [decode_eq hdecoder, hsymbols]
      exact (flatten_symbols_iff tok.corebpe tokens).mpr hordinary
    · intro hknown
      rw [tokenToSymbols_eq hdecoder, hsymbols, List.map_eq_flatMap]
      refine List.flatMap_congr ?_
      intro token htoken
      exact wordsOf_known (hordinary token htoken) (hknown token htoken)

-- ---------------------------------------------------------------------------
-- An instance
-- ---------------------------------------------------------------------------

/-- The object of `fromEncoder_byteDict` is fresh, and its dictionaries are
those it was made from. -/
theorem built_byteDict {tok : TikToken plainPlatform}
    (h : TikToken.fromEncoder plainPlatform 1 r50kParam byteDict = .ret tok) :
    DecoderState tok.corebpe ∧ tok.corebpe.encoder = byteDict ∧
      tok.corebpe.specialTokensDecoder.find? 50256 = some endoftext := by
  obtain ⟨hbuilt, -, -⟩ := built_of_fromEncoder plainPlatform_documented endoftextTable_kind
    (Nat.succ_pos 0) h
  refine ⟨Or.inl hbuilt.decoder, hbuilt.encoder, ?_⟩
  exact hbuilt.find?_specialTokensDecoder endoftextTable_distinct
    (find?_endoftextTable.mpr ⟨rfl, rfl⟩)

theorem pathsAgree_iff_bytes :
    ∃ tok : TikToken plainPlatform,
      TikToken.fromEncoder plainPlatform 1 r50kParam byteDict = .ret tok ∧
        PathsAgree tok [104, 105] := by
  obtain ⟨tok, htok⟩ := fromEncoder_byteDict
  obtain ⟨hdecoder, hencoder, -⟩ := built_byteDict htok
  refine ⟨tok, htok, (pathsAgree_iff hdecoder [104, 105]).mpr ?_⟩
  rintro token htoken ⟨hno, -⟩
  rw [hencoder] at hno
  rcases List.mem_cons.mp htoken with rfl | htoken
  · exact hno [104] (find?_byteDict.mpr ⟨104, by decide, rfl, rfl⟩)
  · obtain rfl := List.mem_singleton.mp htoken
    exact hno [105] (find?_byteDict.mpr ⟨105, by decide, rfl, rfl⟩)

/-- The name of the special token of `r50k_base` is in the text and is no symbol. -/
theorem endoftext_paths_differ :
    ∃ tok : TikToken plainPlatform,
      TikToken.fromEncoder plainPlatform 1 r50kParam byteDict = .ret tok ∧
        (tok.decode [50256]).1 = endoftext ∧ symbols tok [50256] = [[]] ∧
        ¬ PathsAgree tok [50256] := by
  obtain ⟨tok, htok⟩ := fromEncoder_byteDict
  obtain ⟨hdecoder, hencoder, hspecial⟩ := built_byteDict htok
  have hno : ∀ w, tok.corebpe.encoder.find? w ≠ some 50256 := by
    intro w hw
    rw [hencoder] at hw
    exact byteDict_disjoint w endoftext 50256 hw (find?_endoftextTable.mpr ⟨rfl, rfl⟩)
  have hnone := initDecodeDict_eq_none_iff.mpr hno
  have hdecode : (tok.decode [50256]).1 = endoftext := by
    rw [decode_eq hdecoder, List.flatMap_singleton, wordsOf, decodeToken, hnone, hspecial]
    rfl
  have hsymbols : symbols tok [50256] = [[]] := by
    rw [symbols_eq hdecoder, List.map_singleton, symbolOf, hnone]
    rfl
  refine ⟨tok, htok, hdecode, hsymbols, ?_⟩
  intro hagree
  have htext := hagree.decode
  rw [hdecode, hsymbols] at htext
  simp [endoftext, str] at htext

end

end TiktokenCpp
