import TiktokenCpp.Results.Separators
import TiktokenCpp.Results.TokenLocality
import TiktokenCpp.Results.Vocabulary

/-!
# What is returned spells the text

No vocabulary is too poor for this: it may lack bytes, and then `Encode` throws
for some texts; it may have ranks twice. Whenever a call returns, its tokens
are those of the pieces of some cut of the text, with nothing left out, added or
moved.

Main results:

* `Spells.length_le` -- no more tokens than bytes;
* `encode_spells` -- whatever `Encode` returns;
* `getEncoding_sound` -- the same for all objects of `GetEncoding`;
* `encodeOrdinary_returns_iff` -- when `EncodeOrdinary` returns;
* `encode_endings` -- every ending of `Encode`.
-/

namespace TiktokenCpp

open Utf8 Backtrack Pcre2

/-! ## Cuts of a text -/

/-- The text is cut into pieces that are not empty, and each of the tokens is
the rank of its piece or the id of the special token it is. -/
def Spells (encoder : EncodeDict) (special : StrViewToInt) (tokens : List UInt32) (text : Bytes) :
    Prop :=
  ∃ segs : List Bytes, segs.flatten = text ∧
    List.Forall₂ (fun s t => s ≠ [] ∧ HasId encoder special s t) segs tokens

namespace Spells

variable {encoder : EncodeDict} {special : StrViewToInt}

theorem nil : Spells encoder special [] [] := ⟨[], rfl, .nil⟩

theorem cons {s : Bytes} {t : UInt32} (hs : s ≠ []) (hid : HasId encoder special s t)
    {tokens : List UInt32} {text : Bytes} (h : Spells encoder special tokens text) :
    Spells encoder special (t :: tokens) (s ++ text) := by
  obtain ⟨segs, rfl, hsegs⟩ := h
  exact ⟨s :: segs, rfl, .cons ⟨hs, hid⟩ hsegs⟩

theorem append {ts us : List UInt32} {a b : Bytes} (ha : Spells encoder special ts a)
    (hb : Spells encoder special us b) : Spells encoder special (ts ++ us) (a ++ b) := by
  obtain ⟨segs, rfl, hsegs⟩ := ha
  obtain ⟨segs', rfl, hsegs'⟩ := hb
  exact ⟨segs ++ segs', List.flatten_append, List.rel_append hsegs hsegs'⟩

/-- There are no more tokens than bytes. -/
theorem length_le {tokens : List UInt32} {text : Bytes} (h : Spells encoder special tokens text) :
    tokens.length ≤ text.length := by
  obtain ⟨segs, rfl, hsegs⟩ := h
  obtain ⟨hne, hids⟩ := (List.forall₂_and_left ..).mp hsegs
  rw [← hids.length_eq]
  exact length_le_flatten hne

end Spells

section

variable {E : Platform} {U : UnicodeProps} {encoder : EncodeDict} {special : StrViewToInt}
  {self : CoreBpe E}

/-- With unique ids the tokens decode to the text they spell. -/
theorem Spells.decoded (hbuilt : Built U encoder special self) (hunique : UniqueIds encoder special)
    {tokens : List UInt32} {text : Bytes} (h : Spells encoder special tokens text) :
    decoded self tokens = text := by
  have hdecodes := hbuilt.decodesUnambiguously_iff.mpr hunique
  obtain ⟨segs, rfl, hsegs⟩ := h
  induction hsegs with
  | nil => rfl
  | @cons s t segs tokens hhead _ ih =>
    have hnative : (self.decodeNative [t]).1 = [s] := by
      rcases hhead.2 with hrank | hid
      · exact hdecodes.rank s t (hbuilt.encoder ▸ hrank)
      · exact hdecodes.specialId s t hid
    have hone : TiktokenCpp.decoded self [t] = s := by
      unfold TiktokenCpp.decoded
      rw [hbuilt.encoder, List.flatMap_singleton, ← decodeNative_single hbuilt, hnative,
        List.flatten_singleton]
    rw [← List.singleton_append, decoded_append, hone, ih, List.flatten_cons]

/-! ## Ordinary text -/

theorem bytePairEncode_spells {word : Bytes} (hword : word ≠ []) {tokens : List UInt32}
    (h : bytePairEncode encoder word = .ret tokens) : Spells encoder special tokens word := by
  rw [bytePairEncode_eq encoder hword, naiveEncode, lookupAll_eq_ret_iff] at h
  refine ⟨naiveSegments encoder word, flatten_naiveSegments encoder word, ?_⟩
  have hne : [] ∉ naiveSegments encoder word := by
    rw [naiveSegments_eq]
    exact GreedyMerge.nil_notMem_segments word
  exact (List.forall₂_and_left ..).mpr
    ⟨fun s hs hnil => hne (hnil ▸ hs), h.imp fun _ _ hfind => Or.inl hfind⟩

theorem encodeWords_spells {words : List Bytes} (hwords : ∀ w ∈ words, w ≠ []) {tokens : List UInt32}
    (h : encodeWords self words = .ret tokens) :
    Spells self.encoder special tokens words.flatten := by
  induction words generalizing tokens with
  | nil =>
    obtain rfl := Outcome.ret.inj h
    exact .nil
  | cons word words ih =>
    obtain ⟨hword, hrest⟩ := List.forall_mem_cons.mp hwords
    rw [encodeWords] at h
    obtain ⟨wordTokens, hwordTokens, h⟩ := Outcome.bind_eq_ret.mp h
    obtain ⟨rest, hrun, h⟩ := Outcome.bind_eq_ret.mp h
    obtain rfl := Outcome.ret.inj h
    refine Spells.append ?_ (ih hrest hrun)
    unfold encodeWord at hwordTokens
    split at hwordTokens
    · next token hfind =>
      obtain rfl := Outcome.ret.inj hwordTokens
      rw [← List.append_nil word]
      exact .cons hword (Or.inl hfind) .nil
    · exact bytePairEncode_spells hword hwordTokens

theorem encodeOrdinaryNative_spells {re : Regex CharClass}
    (himpl : E.pcre2.Implements U self.regex re) (hsplits : Splits U re) {cs : List Char} {fuel : Nat}
    (hfuel : cs.length ≤ fuel) {tokens : List UInt32}
    (h : encodeOrdinaryNative self fuel (encode cs) = .ret tokens) :
    Spells self.encoder special tokens (encode cs) := by
  obtain ⟨ws, hws, hflat, hne⟩ := utf8WordsSpliter_encode himpl hsplits hfuel
  rw [encodeOrdinaryNative, hws, Outcome.ret_bind] at h
  rw [← hflat]
  exact encodeWords_spells hne h

/-! ## When ordinary text is encoded -/

/-- What `at` finds for all segments of a list, or its exception. -/
theorem lookupAll_cases (encoder : EncodeDict) (segs : List Bytes) :
    ((∃ tokens, lookupAll encoder segs = .ret tokens) ∧ ∀ s ∈ segs, ∃ r, encoder.find? s = some r) ∨
      (lookupAll encoder segs = .throw .outOfRange ∧ ∃ s ∈ segs, encoder.find? s = none) := by
  induction segs with
  | nil => exact Or.inl ⟨⟨[], rfl⟩, List.forall_mem_nil _⟩
  | cons s segs ih =>
    rw [lookupAll, EncodeDict.at]
    cases hfind : encoder.find? s with
    | none => exact Or.inr ⟨rfl, s, List.mem_cons_self .., hfind⟩
    | some r =>
      dsimp only
      rw [Outcome.ret_bind]
      rcases ih with ⟨⟨tokens, htokens⟩, hall⟩ | ⟨hthrow, s', hs', hnone⟩
      · rw [htokens]
        exact Or.inl ⟨⟨r :: tokens, rfl⟩, List.forall_mem_cons.mpr ⟨⟨r, hfind⟩, hall⟩⟩
      · rw [hthrow]
        exact Or.inr ⟨rfl, s', List.mem_cons_of_mem _ hs', hnone⟩

/-- The word is a token, or merging leaves no byte over that is none. -/
def Encodable (encoder : EncodeDict) (word : Bytes) : Prop :=
  (∃ r, encoder.find? word = some r) ∨
    ∀ b, [b] ∈ GreedyMerge.segments (rankOf encoder) word → ∃ r, encoder.find? [b] = some r

theorem encodeWord_cases (self : CoreBpe E) {word : Bytes} (hword : word ≠ []) :
    ((∃ tokens, encodeWord self word = .ret tokens) ∧ Encodable self.encoder word) ∨
      (encodeWord self word = .throw .outOfRange ∧ ¬ Encodable self.encoder word) := by
  unfold encodeWord
  cases hfind : self.encoder.find? word with
  | some r => exact Or.inl ⟨⟨[r], rfl⟩, Or.inl ⟨r, hfind⟩⟩
  | none =>
    dsimp only
    rw [bytePairEncode_eq self.encoder hword, naiveEncode]
    rcases lookupAll_cases self.encoder (naiveSegments self.encoder word) with
      ⟨hret, hall⟩ | ⟨hthrow, s, hs, hnone⟩
    · refine Or.inl ⟨hret, Or.inr fun b hb => hall [b] ?_⟩
      rwa [naiveSegments_eq]
    · refine Or.inr ⟨hthrow, ?_⟩
      -- a segment without a rank is a single byte
      have hsingle : s ∈ singletons word := by
        refine (GreedyMerge.merge_segments hs).resolve_left ?_
        rw [rankOf, hnone]
        simp
      obtain ⟨b, -, rfl⟩ := List.mem_map.mp hsingle
      rw [naiveSegments_eq] at hs
      rintro (⟨r, hr⟩ | hall)
      · rw [hfind] at hr
        cases hr
      · obtain ⟨r, hr⟩ := hall b hs
        rw [hnone] at hr
        cases hr

theorem encodeWords_cases (self : CoreBpe E) {words : List Bytes} (hwords : ∀ w ∈ words, w ≠ []) :
    ((∃ tokens, encodeWords self words = .ret tokens) ∧ ∀ w ∈ words, Encodable self.encoder w) ∨
      (encodeWords self words = .throw .outOfRange ∧ ∃ w ∈ words, ¬ Encodable self.encoder w) := by
  induction words with
  | nil => exact Or.inl ⟨⟨[], rfl⟩, List.forall_mem_nil _⟩
  | cons word words ih =>
    obtain ⟨hword, hrest⟩ := List.forall_mem_cons.mp hwords
    rw [encodeWords]
    rcases encodeWord_cases self hword with ⟨⟨wordTokens, hret⟩, hgood⟩ | ⟨hthrow, hbad⟩
    · rw [hret, Outcome.ret_bind]
      rcases ih hrest with ⟨⟨tokens, htokens⟩, hall⟩ | ⟨hthrow, w, hw, hbad⟩
      · rw [htokens]
        exact Or.inl ⟨⟨wordTokens ++ tokens, rfl⟩, List.forall_mem_cons.mpr ⟨hgood, hall⟩⟩
      · rw [hthrow]
        exact Or.inr ⟨rfl, w, List.mem_cons_of_mem _ hw, hbad⟩
    · rw [hthrow]
      exact Or.inr ⟨rfl, word, List.mem_cons_self .., hbad⟩

/-- A word all of whose bytes are tokens is encoded. -/
theorem encodable_of_bytes {word : Bytes} (h : ∀ b ∈ word, ∃ r, encoder.find? [b] = some r) :
    Encodable encoder word := by
  refine Or.inr fun b hb => h b ?_
  have hmem := List.mem_flatten.mpr ⟨[b], hb, List.mem_singleton_self b⟩
  rwa [GreedyMerge.flatten_segments] at hmem

/-! ## Whole calls -/

/-- The pieces of a cut and the names between them. -/
theorem encodePieces_spells {ordinary : Bytes → Run (List UInt32)} {pieces : List (Bytes × Bytes)}
    {tail : Bytes}
    (hpieces : ∀ p ∈ pieces, (∀ tokens, ordinary p.1 = .ret tokens →
      Spells encoder special tokens p.1) ∧ p.2 ≠ [] ∧ p.2 ∈ names special)
    (htail : ∀ tokens, ordinary tail = .ret tokens → Spells encoder special tokens tail)
    {tokens : List UInt32} (h : encodePieces ordinary (idOf special) pieces tail = .ret tokens) :
    Spells encoder special tokens ((pieces.flatMap fun p => p.1 ++ p.2) ++ tail) := by
  induction pieces generalizing tokens with
  | nil => exact htail tokens h
  | cons p pieces ih =>
    obtain ⟨⟨hbefore, hne, hname⟩, hrest⟩ := List.forall_mem_cons.mp hpieces
    obtain ⟨before, word⟩ := p
    rw [encodePieces] at h
    obtain ⟨textTokens, htext, h⟩ := Outcome.bind_eq_ret.mp h
    obtain ⟨rest, hrun, h⟩ := Outcome.bind_eq_ret.mp h
    obtain rfl := Outcome.ret.inj h
    obtain ⟨id, hid⟩ := mem_names_iff.mp hname
    have hword : HasId encoder special word (idOf special word) := by
      rw [idOf, hid]
      exact Or.inr hid
    rw [List.flatMap_cons, List.append_assoc, List.append_assoc]
    exact (hbefore _ htext).append (.cons hne hword (ih hrest hrun))

theorem encodeNative_spells (hkind : SpecialKind special) (hpf : PrefixFree special)
    (hbuilt : Built U encoder special self) {re : Regex CharClass}
    (himpl : E.pcre2.Implements U self.regex re) (hsplits : Splits U re) (allowed : Utf8StringSet)
    (cs : List Char) {fuel : Nat} (hfuel : cs.length < fuel) {tokens : List UInt32}
    (h : (encodeNative self (encode cs) allowed fuel).1 = .ret tokens) :
    Spells encoder special tokens (encode cs) := by
  have hordinary (a : List Char) (ha : a.length ≤ cs.length) (tokens : List UInt32)
      (h : encodeOrdinaryNative self fuel (encode a) = .ret tokens) :
      Spells encoder special tokens (encode a) := by
    rw [← hbuilt.encoder]
    exact encodeOrdinaryNative_spells himpl hsplits (by omega) h
  obtain ⟨hpieces, b, hb, hblen⟩ := cut_chars hkind allowed cs
  rw [encodeNative_eq hkind hpf hbuilt allowed cs hfuel, encodeReference] at h
  rw [← Scan.cut_flatten (allowedNames hkind allowed) (encode cs)]
  refine encodePieces_spells ?_ (hb ▸ hordinary b hblen) h
  intro p hp
  obtain ⟨a, ha, halen⟩ := hpieces p hp
  obtain ⟨hname, -⟩ := mem_allowedNames.mp (Scan.mem_of_mem_cut hp)
  exact ⟨ha ▸ hordinary a halen, (hkind.nameKind hname).ne_nil, hname⟩

/-- **Whatever `Encode` returns spells the text**, and the object is as before. -/
theorem encode_spells {tok : TikToken E} (hkind : SpecialKind special) (hpf : PrefixFree special)
    (hbuilt : Built U encoder special tok.corebpe) {re : Regex CharClass}
    (himpl : E.pcre2.Implements U tok.corebpe.regex re) (hsplits : Splits U re) (cs : List Char)
    {fuel : Nat} (hfuel : cs.length < fuel) (allowed disallowed : StringSetUnion)
    {tokens : List UInt32} (h : (tok.encode fuel (encode cs) allowed disallowed).1 = .ret tokens) :
    Spells encoder special tokens (encode cs) ∧
      (tok.encode fuel (encode cs) allowed disallowed).2 = tok := by
  unfold TikToken.encode at h ⊢
  cases hsetup : tok.encodeSetup fuel (encode cs) allowed disallowed with
  | ret set =>
    rw [hsetup, Outcome.ret_bindState] at h
    rw [Outcome.ret_bindState]
    dsimp only at h ⊢
    rw [catchUnicode_eq (encodeNative_throwsOnly tok.corebpe (encode cs) set fuel)] at h
    refine ⟨encodeNative_spells hkind hpf hbuilt himpl hsplits set cs hfuel h, ?_⟩
    rw [encodeNative_eq hkind hpf hbuilt set cs hfuel]
  | _ =>
    rw [hsetup] at h
    cases h

/-- What was returned for the text spells it with known tokens, no more than
there are bytes, and decodes to it if the ids are unique. -/
structure Faithful (special : StrViewToInt) (tok : TikToken E) (tokens : List UInt32) (text : Bytes) :
    Prop where
  spells : Spells tok.corebpe.encoder special tokens text
  length_le : tokens.length ≤ text.length
  decode : UniqueIds tok.corebpe.encoder special → (tok.decode tokens).1 = text
  /-- The tokens may be decoded in two parts. -/
  split : UniqueIds tok.corebpe.encoder special → ∀ n,
    (tok.decode (tokens.take n)).1 ++ (tok.decode (tokens.drop n)).1 = text

theorem Spells.faithful {tok : TikToken E} (hbuilt : Built U tok.corebpe.encoder special tok.corebpe)
    {tokens : List UInt32} {text : Bytes} (h : Spells tok.corebpe.encoder special tokens text) :
    Faithful special tok tokens text where
  spells := h
  length_le := h.length_le
  decode hunique := by
    rw [decode_fresh hbuilt.decoder]
    exact h.decoded hbuilt hunique
  split hunique n := by
    rw [decode_fresh hbuilt.decoder, decode_fresh hbuilt.decoder, ← decoded_append,
      List.take_append_drop]
    exact h.decoded hbuilt hunique

/-- The object of `GetEncoding`. -/
theorem compiled_of_getEncoding (hE : E.Documented U) {newFuel : Nat} (hnew : 0 < newFuel) {name : Bytes}
    {tok : TikToken E} (hget : getEncoding E newFuel name = .ret tok) :
    ∃ param, getEncodingParam E.order name = .ret param ∧ Registered param ∧
      Built U tok.corebpe.encoder param.specialTokens tok.corebpe ∧
      compile E (cstr param.patStr) = .ret tok.corebpe.regex ∧
      ∀ n, n ∈ tok.specialTokensSet ↔ n ∈ names param.specialTokens := by
  obtain ⟨param, hparam, htok⟩ := Outcome.bind_eq_ret.mp hget
  have hregistered := registered_of_getEncodingParam hparam
  unfold TikToken.new at htok
  obtain ⟨loaded, -, htok⟩ := Outcome.bind_eq_ret.mp htok
  cases loaded with
  | none => cases htok
  | some dict =>
    obtain ⟨hbuilt, hcompiled, hset⟩ := built_of_fromEncoder hE hregistered.kind hnew htok
    obtain rfl := hbuilt.encoder
    exact ⟨param, hparam, hregistered, hbuilt, hcompiled, hset⟩

theorem built_of_getEncoding (hE : E.Documented U) {newFuel : Nat} (hnew : 0 < newFuel) {name : Bytes}
    {tok : TikToken E} (hget : getEncoding E newFuel name = .ret tok) :
    ∃ param, getEncodingParam E.order name = .ret param ∧ Registered param ∧
      Built U tok.corebpe.encoder param.specialTokens tok.corebpe ∧
      ∃ re, E.pcre2.Implements U tok.corebpe.regex re ∧ Splits U re := by
  obtain ⟨param, hparam, hregistered, hbuilt, hcompiled, -⟩ := compiled_of_getEncoding hE hnew hget
  exact ⟨param, hparam, hregistered, hbuilt, splits_of_compile hE hregistered.pattern hcompiled⟩

/-- **Objects of `GetEncoding` are sound**, for any file in the cache: whatever
`EncodeOrdinary` and `Encode` return, with any arguments, is faithful to the
text. -/
theorem getEncoding_sound (hE : E.Documented U) {newFuel : Nat} (hnew : 0 < newFuel) {name : Bytes}
    {tok : TikToken E} (hget : getEncoding E newFuel name = .ret tok) :
    ∃ param, getEncodingParam E.order name = .ret param ∧
      ∀ text, WellFormed text → ∀ fuel, text.length < fuel →
        (∀ tokens, tok.encodeOrdinary fuel text = .ret tokens →
          Faithful param.specialTokens tok tokens text) ∧
        ∀ allowed disallowed tokens, (tok.encode fuel text allowed disallowed).1 = .ret tokens →
          Faithful param.specialTokens (tok.encode fuel text allowed disallowed).2 tokens text := by
  obtain ⟨param, hparam, hregistered, hbuilt, re, himpl, hsplits⟩ := built_of_getEncoding hE hnew hget
  refine ⟨param, hparam, ?_⟩
  rintro text ⟨cs, rfl⟩ fuel hfuel
  have hshort : cs.length < fuel := lt_of_le_of_lt (length_le_length_encode cs) hfuel
  refine ⟨?_, ?_⟩
  · intro tokens h
    rw [encodeOrdinary_eq] at h
    exact (encodeOrdinaryNative_spells himpl hsplits hshort.le h).faithful hbuilt
  · intro allowed disallowed tokens h
    obtain ⟨hspells, hsame⟩ := encode_spells hregistered.kind hregistered.prefixFree hbuilt himpl
      hsplits cs hshort allowed disallowed h
    rw [hsame]
    exact hspells.faithful hbuilt

/-- **When ordinary text is encoded.** The splitter cuts the text into words, and
`EncodeOrdinary` returns exactly if every word is a token or is merged without a
byte left over that is none; otherwise it throws `out_of_range`. It returns if
all bytes of the text are tokens. -/
theorem encodeOrdinary_returns_iff (hE : E.Documented U) {newFuel : Nat} (hnew : 0 < newFuel)
    {name : Bytes} {tok : TikToken E} (hget : getEncoding E newFuel name = .ret tok) {text : Bytes}
    (hwell : WellFormed text) {fuel : Nat} (hfuel : text.length ≤ fuel) :
    ∃ ws, utf8WordsSpliter tok.corebpe fuel text = .ret ws ∧ ws.flatten = text ∧
      ((∃ tokens, tok.encodeOrdinary fuel text = .ret tokens) ↔
        ∀ w ∈ ws, Encodable tok.corebpe.encoder w) ∧
      ((∃ w ∈ ws, ¬ Encodable tok.corebpe.encoder w) →
        tok.encodeOrdinary fuel text = .throw .outOfRange) ∧
      ((∀ b ∈ text, ∃ r, tok.corebpe.encoder.find? [b] = some r) →
        ∃ tokens, tok.encodeOrdinary fuel text = .ret tokens) := by
  obtain ⟨param, -, -, -, re, himpl, hsplits⟩ := built_of_getEncoding hE hnew hget
  obtain ⟨cs, rfl⟩ := hwell
  obtain ⟨ws, hws, hflat, hne⟩ :=
    utf8WordsSpliter_encode himpl hsplits ((length_le_length_encode cs).trans hfuel)
  have hrun : tok.encodeOrdinary fuel (encode cs) =
      catchUnicode encodeOrdinaryNativeUtf16 (encodeWords tok.corebpe ws) := by
    rw [TikToken.encodeOrdinary, encodeOrdinaryNative, hws, Outcome.ret_bind]
  refine ⟨ws, hws, hflat, ?_⟩
  rw [hrun]
  rcases encodeWords_cases tok.corebpe hne with ⟨⟨tokens, htokens⟩, hall⟩ | ⟨hthrow, w, hw, hbad⟩
  · rw [htokens]
    refine ⟨iff_of_true ⟨tokens, rfl⟩ hall, ?_, fun _ => ⟨tokens, rfl⟩⟩
    rintro ⟨w, hw, hbad⟩
    exact absurd (hall w hw) hbad
  · rw [hthrow]
    refine ⟨iff_of_false ?_ fun hall => hbad (hall w hw), fun _ => rfl, ?_⟩
    · rintro ⟨tokens, h⟩
      cases h
    · intro hbytes
      refine absurd (encodable_of_bytes fun b hb => hbytes b ?_) hbad
      rw [← hflat]
      exact List.mem_flatten.mpr ⟨w, hw, hb⟩

/-! ## Every ending of `Encode` -/

/-- The splitter cuts the text into words that are all encoded. -/
def AllEncodable (self : CoreBpe E) (fuel : Nat) (text : Bytes) : Prop :=
  ∃ ws, utf8WordsSpliter self fuel text = .ret ws ∧ ∀ w ∈ ws, Encodable self.encoder w

theorem encodeOrdinaryNative_cases {re : Regex CharClass} (himpl : E.pcre2.Implements U self.regex re)
    (hsplits : Splits U re) {cs : List Char} {fuel : Nat} (hfuel : cs.length ≤ fuel) :
    ((∃ tokens, encodeOrdinaryNative self fuel (encode cs) = .ret tokens) ∧
        AllEncodable self fuel (encode cs)) ∨
      (encodeOrdinaryNative self fuel (encode cs) = .throw .outOfRange ∧
        ¬ AllEncodable self fuel (encode cs)) := by
  obtain ⟨ws, hws, -, hne⟩ := utf8WordsSpliter_encode himpl hsplits hfuel
  unfold encodeOrdinaryNative
  rw [hws, Outcome.ret_bind]
  rcases encodeWords_cases self hne with ⟨hret, hall⟩ | ⟨hthrow, w, hw, hbad⟩
  · exact Or.inl ⟨hret, ws, hws, hall⟩
  · refine Or.inr ⟨hthrow, ?_⟩
    rintro ⟨ws', hws', hall⟩
    rw [hws] at hws'
    obtain rfl := Outcome.ret.inj hws'
    exact hbad (hall w hw)

/-- The texts between the allowed names, with the rest behind the last one. -/
def ordinaryPieces (hkind : SpecialKind special) (arg : StringSetUnion) (text : Bytes) : List Bytes :=
  (Scan.cut (argumentNames hkind arg) text).1.map Prod.fst ++
    [(Scan.cut (argumentNames hkind arg) text).2]

theorem encodePieces_cases {ordinary : Bytes → Run (List UInt32)} {good : Bytes → Prop}
    (id : Bytes → UInt32) {pieces : List (Bytes × Bytes)} {tail : Bytes}
    (h : ∀ text ∈ pieces.map Prod.fst ++ [tail],
      ((∃ tokens, ordinary text = .ret tokens) ∧ good text) ∨
        (ordinary text = .throw .outOfRange ∧ ¬ good text)) :
    ((∃ tokens, encodePieces ordinary id pieces tail = .ret tokens) ∧
        ∀ text ∈ pieces.map Prod.fst ++ [tail], good text) ∨
      (encodePieces ordinary id pieces tail = .throw .outOfRange ∧
        ¬ ∀ text ∈ pieces.map Prod.fst ++ [tail], good text) := by
  induction pieces with
  | nil =>
    rw [List.map_nil, List.nil_append, List.forall_mem_singleton] at h ⊢
    exact h
  | cons p pieces ih =>
    obtain ⟨before, word⟩ := p
    rw [List.map_cons, List.cons_append] at h ⊢
    obtain ⟨hbefore, hrest⟩ := List.forall_mem_cons.mp h
    rw [encodePieces, List.forall_mem_cons]
    rcases hbefore with ⟨⟨tokens, hret⟩, hgood⟩ | ⟨hthrow, hbad⟩
    · rw [hret, Outcome.ret_bind]
      rcases ih hrest with ⟨⟨rest, hrun⟩, hall⟩ | ⟨hrun, hbad⟩
      · rw [hrun]
        exact Or.inl ⟨⟨tokens ++ id word :: rest, rfl⟩, hgood, hall⟩
      · rw [hrun]
        exact Or.inr ⟨rfl, fun hall => hbad hall.2⟩
    · rw [hthrow]
      exact Or.inr ⟨rfl, fun hall => hbad hall.1⟩

/-- What a default call ends in, each time with its exact condition. -/
structure EncodeEndings (hkind : SpecialKind special) (tok : TikToken E) (fuel : Nat)
    (arg : StringSetUnion) (text : Bytes) : Prop where
  refuses_iff : (tok.encode fuel text arg (.view (str "all"))).1 =
      .throw (.runtimeError valueError) ↔ Refused special arg text
  outOfRange_iff : (tok.encode fuel text arg (.view (str "all"))).1 = .throw .outOfRange ↔
    ¬ Refused special arg text ∧
      ∃ piece ∈ ordinaryPieces hkind arg text, ¬ AllEncodable tok.corebpe fuel piece
  returns_iff : (∃ tokens, (tok.encode fuel text arg (.view (str "all"))).1 = .ret tokens) ↔
    ¬ Refused special arg text ∧
      ∀ piece ∈ ordinaryPieces hkind arg text, AllEncodable tok.corebpe fuel piece

/-- **Every ending of `Encode`**, for any file in the cache: a name that is not
allowed goes first, wherever it stands; then a word that cannot be encoded, in
any of the texts between the special tokens; otherwise the call returns. -/
theorem encode_endings (hE : E.Documented U) {newFuel : Nat} (hnew : 0 < newFuel) {name : Bytes}
    {tok : TikToken E} (hget : getEncoding E newFuel name = .ret tok) :
    ∃ param, getEncodingParam E.order name = .ret param ∧
      ∃ hkind : SpecialKind param.specialTokens, ∀ arg : StringSetUnion, arg.Documented →
        ∀ text, WellFormed text → ∀ fuel, text.length < fuel →
          EncodeEndings hkind tok fuel arg text := by
  obtain ⟨param, hparam, hregistered, hbuilt, hcompiled, hset⟩ :=
    compiled_of_getEncoding hE hnew hget
  obtain ⟨re, himpl, hsplits⟩ := splits_of_compile hE hregistered.pattern hcompiled
  have hkind := hregistered.kind
  refine ⟨param, hparam, hkind, ?_⟩
  rintro arg harg text ⟨cs, rfl⟩ fuel hfuel
  have hshort : cs.length < fuel := lt_of_le_of_lt (length_le_length_encode cs) hfuel
  have hcases := encode_cases hE hkind hregistered.prefixFree hbuilt hset harg cs hshort
  have hpieces : ∀ piece ∈ ordinaryPieces hkind arg (encode cs),
      ((∃ tokens, encodeOrdinaryNative tok.corebpe fuel piece = .ret tokens) ∧
          AllEncodable tok.corebpe fuel piece) ∨
        (encodeOrdinaryNative tok.corebpe fuel piece = .throw .outOfRange ∧
          ¬ AllEncodable tok.corebpe fuel piece) := by
    intro piece hpiece
    obtain ⟨hbefore, b, hb, hblen⟩ := cut_argumentNames_chars hkind hregistered.prefixFree arg cs
    rcases List.mem_append.mp hpiece with hmem | hmem
    · obtain ⟨p, hp, rfl⟩ := List.mem_map.mp hmem
      obtain ⟨a, ha, halen⟩ := hbefore p hp
      rw [ha]
      exact encodeOrdinaryNative_cases himpl hsplits (by omega)
    · rw [List.mem_singleton.mp hmem, hb]
      exact encodeOrdinaryNative_cases himpl hsplits (by omega)
  rcases hcases with ⟨hbad, hrun⟩ | ⟨hgood, hrun⟩
  · constructor <;> simp [hrun, hbad]
  · rcases encodePieces_cases (idOf param.specialTokens) hpieces with
      ⟨⟨tokens, hret⟩, hall⟩ | ⟨hthrow, hno⟩
    · rw [hret] at hrun
      refine ⟨?_, ?_, ?_⟩
      · rw [hrun]
        exact iff_of_false nofun hgood
      · rw [hrun]
        refine iff_of_false nofun ?_
        rintro ⟨-, piece, hpiece, hbad⟩
        exact hbad (hall piece hpiece)
      · rw [hrun]
        exact iff_of_true ⟨tokens, rfl⟩ ⟨hgood, hall⟩
    · rw [hthrow] at hrun
      refine ⟨?_, ?_, ?_⟩
      · rw [hrun]
        exact iff_of_false nofun hgood
      · rw [hrun]
        refine iff_of_true rfl ⟨hgood, ?_⟩
        by_contra hnone
        exact hno fun piece hpiece => by_contra fun hbad => hnone ⟨piece, hpiece, hbad⟩
      · rw [hrun]
        refine iff_of_false nofun ?_
        rintro ⟨-, hall⟩
        exact hno hall

end

/-- A vocabulary of two bytes. -/
theorem getEncoding_two :
    ∃ tok, getEncoding (filePlatform (str "QQ== 0\nQg== 1\n")) 1 (str "cl100k_base") = .ret tok := by
  obtain ⟨tok, htok, -⟩ := new_cl100kParam
    (show loadTiktokenBpe IterationOrder.insertion (str "QQ== 0\nQg== 1\n") =
      .ret (UnorderedMap.empty.emplaceAll [(str "A", 0), (str "B", 1)]) from rfl)
  have hparam : getEncodingParam IterationOrder.insertion (str "cl100k_base") = .ret cl100kParam := rfl
  refine ⟨tok, ?_⟩
  unfold getEncoding
  show getEncodingParam IterationOrder.insertion _ >>= _ = _
  rw [hparam, Outcome.ret_bind, htok]

theorem getEncoding_sound_two :
    ∃ tok, getEncoding (filePlatform (str "QQ== 0\nQg== 1\n")) 1 (str "cl100k_base") = .ret tok ∧
      ∃ param, getEncodingParam .insertion (str "cl100k_base") = .ret param ∧
        ∀ text, WellFormed text → ∀ fuel, text.length < fuel →
          (∀ tokens, tok.encodeOrdinary fuel text = .ret tokens →
            Faithful param.specialTokens tok tokens text) ∧
          ∀ allowed disallowed tokens, (tok.encode fuel text allowed disallowed).1 = .ret tokens →
            Faithful param.specialTokens (tok.encode fuel text allowed disallowed).2 tokens text := by
  obtain ⟨tok, hget⟩ := getEncoding_two
  exact ⟨tok, hget, getEncoding_sound (filePlatform_documented _) Nat.one_pos hget⟩

/-- It encodes what has only these two bytes. -/
theorem encodeOrdinary_returns_iff_two :
    ∃ tok, getEncoding (filePlatform (str "QQ== 0\nQg== 1\n")) 1 (str "cl100k_base") = .ret tok ∧
      ∃ ws, utf8WordsSpliter tok.corebpe 3 (str "ABC") = .ret ws ∧ ws.flatten = str "ABC" ∧
        ((∃ tokens, tok.encodeOrdinary 3 (str "ABC") = .ret tokens) ↔
          ∀ w ∈ ws, Encodable tok.corebpe.encoder w) ∧
        ((∃ w ∈ ws, ¬ Encodable tok.corebpe.encoder w) →
          tok.encodeOrdinary 3 (str "ABC") = .throw .outOfRange) ∧
        ((∀ b ∈ str "ABC", ∃ r, tok.corebpe.encoder.find? [b] = some r) →
          ∃ tokens, tok.encodeOrdinary 3 (str "ABC") = .ret tokens) := by
  obtain ⟨tok, hget⟩ := getEncoding_two
  exact ⟨tok, hget, encodeOrdinary_returns_iff (filePlatform_documented _) Nat.one_pos hget
    (wellFormed_str "ABC") (by decide)⟩

/-- A name that is not allowed and, behind it, a byte that is no token. -/
theorem encode_endings_two :
    ∃ tok, getEncoding (filePlatform (str "QQ== 0\nQg== 1\n")) 1 (str "cl100k_base") = .ret tok ∧
      ∃ param, getEncodingParam .insertion (str "cl100k_base") = .ret param ∧
        ∃ hkind : SpecialKind param.specialTokens,
          EncodeEndings hkind tok 32 (.set .empty) (str "AB<|endoftext|>C") := by
  obtain ⟨tok, hget⟩ := getEncoding_two
  obtain ⟨param, hparam, hkind, hall⟩ :=
    encode_endings (filePlatform_documented _) Nat.one_pos hget
  exact ⟨tok, hget, param, hparam, hkind,
    hall (.set .empty) trivial _ (wellFormed_str _) 32 (by decide)⟩

end TiktokenCpp
