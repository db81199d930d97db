import TiktokenCpp.Results.SpecialScan

/-!
# Decoding undoes encoding

With all single bytes in the dictionary every word can be encoded, and with
distinct ids every token decodes to the bytes it was made from. Words, ordinary
text and special tokens are put together again in the order they were taken
apart: `decode_encode` says it for whole calls.
-/

namespace TiktokenCpp

open Utf8 Pcre2 GreedyMerge

/-! ## Vocabularies -/

/-- Every single byte is a key of the dictionary. -/
def HasAllBytes (encoder : EncodeDict) : Prop := ∀ b : UInt8, ∃ r, encoder.find? [b] = some r

/-- No two keys have the same value. -/
def DistinctValues (m : UnorderedMap Bytes UInt32) : Prop :=
  ∀ k k' v, m.find? k = some v → m.find? k' = some v → k = k'

/-- No rank is the id of a special token. -/
def DisjointIds (encoder : EncodeDict) (special : StrViewToInt) : Prop :=
  ∀ w n v, encoder.find? w = some v → special.find? n ≠ some v

section

variable {E : Platform} {U : UnicodeProps} {encoder : EncodeDict} {special : StrViewToInt}
  {self : CoreBpe E}

theorem find?_initDecodeDict (hranks : DistinctValues encoder) {w : Bytes} {r : UInt32} :
    (initDecodeDict encoder).find? r = some w ↔ encoder.find? w = some r := by
  constructor
  · intro h
    exact UnorderedMap.find?_eq_some_iff.mpr (UnorderedMap.mem_of_find?_swap h)
  · intro h
    obtain ⟨w', hw'⟩ := UnorderedMap.exists_find?_swap (UnorderedMap.find?_eq_some_iff.mp h)
    have hw := UnorderedMap.find?_eq_some_iff.mpr (UnorderedMap.mem_of_find?_swap hw')
    rw [hranks w w' r h hw]
    exact hw'

theorem Built.find?_specialTokensDecoder (hbuilt : Built U encoder special self)
    (hids : DistinctValues special) {n : Bytes} {id : UInt32} (hid : special.find? n = some id) :
    self.specialTokensDecoder.find? id = some n := by
  obtain ⟨es, hperm, hdecoder⟩ := hbuilt.specialDecoder
  have hmem : (n, id) ∈ es := hperm.mem_iff.mpr (UnorderedMap.find?_eq_some_iff.mp hid)
  obtain ⟨n', hn'⟩ := UnorderedMap.exists_find?_swap hmem
  have hback : special.find? n' = some id :=
    UnorderedMap.find?_eq_some_iff.mpr (hperm.mem_iff.mp (UnorderedMap.mem_of_find?_swap hn'))
  rw [hdecoder, hids n n' id hid hback]
  exact hn'

/-! ## What tokens stand for -/

/-- The text that a fresh object decodes tokens to. -/
def decoded (self : CoreBpe E) (tokens : List UInt32) : Bytes :=
  (tokens.flatMap (decodeToken (initDecodeDict self.encoder) self.specialTokensDecoder)).flatten

theorem decoded_append (tokens rest : List UInt32) :
    decoded self (tokens ++ rest) = decoded self tokens ++ decoded self rest := by
  unfold decoded
  rw [List.flatMap_append, List.flatten_append]

theorem decoded_rank (hranks : DistinctValues self.encoder) {w : Bytes} {r : UInt32}
    (h : self.encoder.find? w = some r) : decoded self [r] = w := by
  unfold decoded
  rw [List.flatMap_singleton, decodeToken, (find?_initDecodeDict hranks).mpr h, List.flatten_singleton]

theorem Built.decoded_id (hbuilt : Built U encoder special self) (hids : DistinctValues special)
    (hdisjoint : DisjointIds encoder special) {n : Bytes} {id : UInt32}
    (hid : special.find? n = some id) : decoded self [id] = n := by
  have hno : (initDecodeDict self.encoder).find? id = none := by
    rw [Option.eq_none_iff_forall_ne_some]
    intro w hw
    have hrank := UnorderedMap.find?_eq_some_iff.mpr (UnorderedMap.mem_of_find?_swap hw)
    rw [hbuilt.encoder] at hrank
    exact hdisjoint w n id hrank hid
  unfold decoded
  rw [List.flatMap_singleton, decodeToken, hno, hbuilt.find?_specialTokensDecoder hids hid]
  exact List.flatten_singleton

/-- A fresh object decodes to the text that the tokens stand for. -/
theorem decode_fresh {tok : TikToken E} (hfresh : tok.corebpe.decoder = none)
    (tokens : List UInt32) : (tok.decode tokens).1 = decoded tok.corebpe tokens := by
  unfold TikToken.decode CoreBpe.decodeNative CoreBpe.withDecoder decoded
  rw [hfresh]

/-! ## Words -/

/-- The tokens are the ranks of segments that make up the text. -/
def Tokenizes (encoder : EncodeDict) (tokens : List UInt32) (text : Bytes) : Prop :=
  ∃ segs : List Bytes, segs.flatten = text ∧
    List.Forall₂ (fun s t => encoder.find? s = some t) segs tokens

theorem Tokenizes.nil : Tokenizes encoder [] [] := ⟨[], rfl, List.Forall₂.nil⟩

theorem Tokenizes.single {w : Bytes} {r : UInt32} (h : encoder.find? w = some r) :
    Tokenizes encoder [r] w :=
  ⟨[w], List.flatten_singleton, List.Forall₂.cons h List.Forall₂.nil⟩

theorem Tokenizes.append {ts us : List UInt32} {a b : Bytes} (ha : Tokenizes encoder ts a)
    (hb : Tokenizes encoder us b) : Tokenizes encoder (ts ++ us) (a ++ b) := by
  obtain ⟨segs, rfl, hsegs⟩ := ha
  obtain ⟨segs', rfl, hsegs'⟩ := hb
  exact ⟨segs ++ segs', List.flatten_append, List.rel_append hsegs hsegs'⟩

/-- Every token of an ordinary text is a rank. -/
theorem Tokenizes.rank {tokens : List UInt32} {text : Bytes} (h : Tokenizes encoder tokens text) :
    ∀ t ∈ tokens, ∃ w, encoder.find? w = some t := by
  obtain ⟨segs, -, hsegs⟩ := h
  induction hsegs with
  | nil => simp
  | cons hhead _ ih => exact List.forall_mem_cons.mpr ⟨⟨_, hhead⟩, ih⟩

theorem Tokenizes.decoded (hranks : DistinctValues self.encoder) {tokens : List UInt32}
    {text : Bytes} (h : Tokenizes self.encoder tokens text) : decoded self tokens = text := by
  obtain ⟨segs, rfl, hsegs⟩ := h
  induction hsegs with
  | nil => rfl
  | @cons s t segs tokens hhead _ ih =>
    have happend : t :: tokens = [t] ++ tokens := rfl
    rw [happend, decoded_append, decoded_rank hranks hhead, ih, List.flatten_cons]

/-- Segments that are keys are looked up one by one. -/
theorem lookupAll_tokenizes {segs : List Bytes} (hsegs : ∀ s ∈ segs, ∃ r, encoder.find? s = some r) :
    ∃ tokens, lookupAll encoder segs = .ret tokens ∧ Tokenizes encoder tokens segs.flatten := by
  induction segs with
  | nil => exact ⟨[], rfl, Tokenizes.nil⟩
  | cons s segs ih =>
    obtain ⟨⟨r, hr⟩, hrest⟩ := List.forall_mem_cons.mp hsegs
    obtain ⟨tokens, htokens, htokenizes⟩ := ih hrest
    refine ⟨[r] ++ tokens, ?_, (Tokenizes.single hr).append htokenizes⟩
    rw [lookupAll, EncodeDict.at, hr]
    show (Outcome.ret r >>= _) = _
    rw [Outcome.ret_bind, htokens]
    rfl

/-- Every segment that a merge ends with is a key. -/
theorem naiveSegments_keys (hbytes : HasAllBytes encoder) (word : Bytes) :
    ∀ s ∈ naiveSegments encoder word, ∃ r, encoder.find? s = some r := by
  intro s hs
  rcases merge_segments hs with hrank | hsingle
  · rw [rankOf, Option.isSome_map] at hrank
    exact Option.isSome_iff_exists.mp hrank
  · obtain ⟨b, -, rfl⟩ := List.mem_map.mp hsingle
    exact hbytes b

theorem encodeWord_tokenizes (hbytes : HasAllBytes self.encoder) {word : Bytes} (hword : word ≠ []) :
    ∃ tokens, encodeWord self word = .ret tokens ∧ Tokenizes self.encoder tokens word := by
  unfold encodeWord
  cases hfind : self.encoder.find? word with
  | some token => exact ⟨[token], rfl, Tokenizes.single hfind⟩
  | none =>
    obtain ⟨tokens, htokens, htokenizes⟩ := lookupAll_tokenizes (naiveSegments_keys hbytes word)
    rw [flatten_naiveSegments] at htokenizes
    refine ⟨tokens, ?_, htokenizes⟩
    show bytePairEncode self.encoder word = _
    rw [bytePairEncode_eq self.encoder hword]
    exact htokens

theorem encodeWords_tokenizes (hbytes : HasAllBytes self.encoder) {ws : List Bytes}
    (hws : ∀ w ∈ ws, w ≠ []) :
    ∃ tokens, encodeWords self ws = .ret tokens ∧ Tokenizes self.encoder tokens ws.flatten := by
  induction ws with
  | nil => exact ⟨[], rfl, Tokenizes.nil⟩
  | cons w ws ih =>
    obtain ⟨hw, hrest⟩ := List.forall_mem_cons.mp hws
    obtain ⟨wordTokens, hwordTokens, hword⟩ := encodeWord_tokenizes hbytes hw
    obtain ⟨tokens, htokens, htokenizes⟩ := ih hrest
    refine ⟨wordTokens ++ tokens, ?_, hword.append htokenizes⟩
    rw [encodeWords, hwordTokens, Outcome.ret_bind, htokens]
    rfl

/-- **Ordinary text is tokenized**: the call returns, and its tokens are ranks
of pieces of the text. -/
theorem encodeOrdinaryNative_tokenizes {re : Backtrack.Regex CharClass}
    (himpl : E.pcre2.Implements U self.regex re) (hsplits : Splits U re)
    (hbytes : HasAllBytes self.encoder) {cs : List Char} {fuel : Nat} (hfuel : cs.length ≤ fuel) :
    ∃ tokens, encodeOrdinaryNative self fuel (encode cs) = .ret tokens ∧
      Tokenizes self.encoder tokens (encode cs) := by
  obtain ⟨ws, hws, hflat, hne⟩ := utf8WordsSpliter_encode himpl hsplits hfuel
  obtain ⟨tokens, htokens, htokenizes⟩ := encodeWords_tokenizes hbytes hne
  rw [hflat] at htokenizes
  refine ⟨tokens, ?_, htokenizes⟩
  rw [encodeOrdinaryNative, hws, Outcome.ret_bind, htokens]

/-! ## Pieces -/

/-- The pieces of a cut decode to the text, if each of them does. -/
theorem encodePieces_decoded {ordinary : Bytes → Run (List UInt32)} {id : Bytes → UInt32}
    {pieces : List (Bytes × Bytes)} {tail : Bytes}
    (hpieces : ∀ p ∈ pieces, (∃ tokens, ordinary p.1 = .ret tokens ∧ decoded self tokens = p.1) ∧
      decoded self [id p.2] = p.2)
    (htail : ∃ tokens, ordinary tail = .ret tokens ∧ decoded self tokens = tail) :
    ∃ tokens, encodePieces ordinary id pieces tail = .ret tokens ∧
      decoded self tokens = (pieces.flatMap fun p => p.1 ++ p.2) ++ tail := by
  induction pieces with
  | nil => exact htail
  | cons p pieces ih =>
    obtain ⟨⟨⟨before, hbefore, hp⟩, hid⟩, hrest⟩ := List.forall_mem_cons.mp hpieces
    obtain ⟨rest, hrun, hdecoded⟩ := ih hrest
    refine ⟨before ++ ([id p.2] ++ rest), ?_, ?_⟩
    · rw [encodePieces, hbefore, Outcome.ret_bind, hrun]
      rfl
    · rw [decoded_append, decoded_append, hp, hid, hdecoded, List.flatMap_cons,
        List.append_assoc, List.append_assoc]

/-- **Decoding undoes encoding**, with and without special tokens. -/
theorem decode_encode (hE : E.Documented U) (hbytes : HasAllBytes encoder)
    (hranks : DistinctValues encoder) (hkind : SpecialKind special) (hpf : PrefixFree special)
    (hids : DistinctValues special) (hdisjoint : DisjointIds encoder special) {pattern : Bytes}
    (hpattern : RegistryPattern pattern) {newFuel : Nat} (hnew : 0 < newFuel) :
    ∃ self : CoreBpe E, CoreBpe.new E newFuel encoder special pattern = .ret self ∧
      ∀ (tok : TikToken E), tok.corebpe = self → ∀ text, WellFormed text →
        ∀ fuel, text.length < fuel →
          (∃ tokens, encodeOrdinaryNative self fuel text = .ret tokens ∧
            (tok.decode tokens).1 = text) ∧
          ∀ allowed : Utf8StringSet, ∃ tokens self',
            encodeNative self text allowed fuel = (.ret tokens, self') ∧
            (TikToken.decode { tok with corebpe := self' } tokens).1 = text := by
  obtain ⟨self, hself, hbuilt, re, himpl, hsplits⟩ := new_built hE encoder hkind hpattern hnew
  refine ⟨self, hself, ?_⟩
  rintro tok rfl text ⟨cs, rfl⟩ fuel hfuel
  have hshort : cs.length < fuel := lt_of_le_of_lt (length_le_length_encode cs) hfuel
  rw [← hbuilt.encoder] at hbytes hranks
  refine ⟨?_, ?_⟩
  · obtain ⟨tokens, htokens, htokenizes⟩ :=
      encodeOrdinaryNative_tokenizes himpl hsplits hbytes hshort.le
    exact ⟨tokens, htokens, by rw [decode_fresh hbuilt.decoder, htokenizes.decoded hranks]⟩
  · intro allowed
    have heq := encodeNative_eq hkind hpf hbuilt allowed cs hshort
    obtain ⟨hpieces, b, hb, hblen⟩ := cut_chars hkind allowed cs
    have hall : ∀ p ∈ (Scan.cut (allowedNames hkind allowed) (encode cs)).1,
        (∃ tokens, encodeOrdinaryNative tok.corebpe fuel p.1 = .ret tokens ∧
          decoded tok.corebpe tokens = p.1) ∧
        decoded tok.corebpe [idOf special p.2] = p.2 := by
      intro p hp
      refine ⟨?_, ?_⟩
      · obtain ⟨a, ha, halen⟩ := hpieces p hp
        rw [ha]
        obtain ⟨tokens, htokens, htokenizes⟩ :=
          encodeOrdinaryNative_tokenizes himpl hsplits hbytes (show a.length ≤ fuel by omega)
        exact ⟨tokens, htokens, htokenizes.decoded hranks⟩
      · obtain ⟨hname, -⟩ := mem_allowedNames.mp (Scan.mem_of_mem_cut hp)
        obtain ⟨id, hid⟩ := mem_names_iff.mp hname
        rw [idOf, hid]
        exact hbuilt.decoded_id hids hdisjoint hid
    obtain ⟨rest, hrest, htail⟩ :=
      encodeOrdinaryNative_tokenizes himpl hsplits hbytes (show b.length ≤ fuel by omega)
    rw [← hb] at hrest htail
    obtain ⟨tokens, htokens, hdecoded⟩ :=
      encodePieces_decoded hall ⟨rest, hrest, htail.decoded hranks⟩
    rw [Scan.cut_flatten] at hdecoded
    refine ⟨tokens, tok.corebpe, by rw [heq, encodeReference, htokens], ?_⟩
    rw [decode_fresh hbuilt.decoder, hdecoded]

end

/-! ## An instance -/

/-- The dictionary of the single bytes. -/
def byteDict : EncodeDict where
  entries := (List.range 256).map fun i => ([UInt8.ofNat i], UInt32.ofNat i)
  nodup := by
    rw [List.map_map]
    refine List.Nodup.map_on (?_) List.nodup_range
    intro i hi j hj hij
    have hbyte : UInt8.ofNat i = UInt8.ofNat j := List.singleton_inj.mp hij
    have hnat := congrArg UInt8.toNat hbyte
    rw [UInt8.toNat_ofNat', UInt8.toNat_ofNat'] at hnat
    rw [List.mem_range] at hi hj
    omega

theorem find?_byteDict {w : Bytes} {r : UInt32} :
    byteDict.find? w = some r ↔ ∃ i < 256, w = [UInt8.ofNat i] ∧ r = UInt32.ofNat i := by
  rw [UnorderedMap.find?_eq_some_iff]
  unfold byteDict
  rw [List.mem_map]
  constructor
  · rintro ⟨i, hi, h⟩
    cases h
    exact ⟨i, List.mem_range.mp hi, rfl, rfl⟩
  · rintro ⟨i, hi, rfl, rfl⟩
    exact ⟨i, List.mem_range.mpr hi, rfl⟩

theorem byteDict_hasAllBytes : HasAllBytes byteDict := by
  intro b
  refine ⟨UInt32.ofNat b.toNat, find?_byteDict.mpr ⟨b.toNat, b.toNat_lt, ?_, rfl⟩⟩
  rw [UInt8.ofNat_toNat]

theorem byteDict_distinct : DistinctValues byteDict := by
  intro k k' v hk hk'
  obtain ⟨i, hi, rfl, rfl⟩ := find?_byteDict.mp hk
  obtain ⟨j, hj, rfl, hij⟩ := find?_byteDict.mp hk'
  have hnat := congrArg UInt32.toNat hij
  rw [UInt32.toNat_ofNat', UInt32.toNat_ofNat'] at hnat
  have : i = j := by omega
  rw [this]

theorem find?_endoftextTable {n : Bytes} {id : UInt32} :
    endoftextTable.find? n = some id ↔ n = endoftext ∧ id = 50256 := by
  have hentries : endoftextTable.entries = [(endoftext, 50256)] := rfl
  rw [UnorderedMap.find?_eq_some_iff, hentries, List.mem_singleton, Prod.mk.injEq]

theorem byteDict_lt {w : Bytes} {r : UInt32} (h : byteDict.find? w = some r) : r.toNat < 256 := by
  obtain ⟨i, hi, -, rfl⟩ := find?_byteDict.mp h
  rw [UInt32.toNat_ofNat']
  omega

theorem byteDict_disjoint : DisjointIds byteDict endoftextTable := by
  intro w n v hw hn
  obtain ⟨-, rfl⟩ := find?_endoftextTable.mp hn
  exact absurd (byteDict_lt hw) (by decide)

theorem endoftextTable_distinct : DistinctValues endoftextTable := by
  intro k k' v hk hk'
  obtain ⟨rfl, -⟩ := find?_endoftextTable.mp hk
  obtain ⟨rfl, -⟩ := find?_endoftextTable.mp hk'
  rfl

/-- The parameters of `r50k_base`, for a vocabulary of any size. -/
def r50kParam : EncodingParam where
  name := str "r50k_base"
  vocabN := none
  patStr := str r50kPat
  bpeUrl := str "https://openaipublic.blob.core.windows.net/encodings/r50k_base.tiktoken"
  specialTokens := endoftextTable

/-- With these a tokenizer can be made. -/
theorem fromEncoder_byteDict :
    ∃ tok : TikToken plainPlatform, TikToken.fromEncoder plainPlatform 1 r50kParam byteDict = .ret tok :=
  fromEncoder_ret plainPlatform_documented r50kParam byteDict endoftextTable_kind r50kPat_registered
    rfl (Nat.succ_pos 0)

theorem wellFormed_str (s : String) : WellFormed (str s) := ⟨s.toList, rfl⟩

/-- The single bytes and two words that take merges. -/
def pairDict : EncodeDict where
  entries := byteDict.entries ++ [(str "ab", 256), (str "abab", 257)]
  nodup := by
    rw [List.map_append]
    refine List.Nodup.append byteDict.nodup (by decide) ?_
    intro w hw hpair
    obtain ⟨e, he, rfl⟩ := List.mem_map.mp hw
    obtain ⟨i, -, hbyte, -⟩ := find?_byteDict.mp (UnorderedMap.find?_eq_some_iff.mpr he)
    have hlen : ∀ w ∈ [(str "ab", (256 : UInt32)), (str "abab", 257)].map Prod.fst, 1 < w.length := by
      decide
    have hlong := hlen _ hpair
    rw [hbyte] at hlong
    exact absurd hlong (by simp)

theorem find?_pairDict {w : Bytes} {r : UInt32} :
    pairDict.find? w = some r ↔
      byteDict.find? w = some r ∨ (w = str "ab" ∧ r = 256) ∨ (w = str "abab" ∧ r = 257) := by
  rw [UnorderedMap.find?_eq_some_iff, UnorderedMap.find?_eq_some_iff]
  unfold pairDict
  simp

theorem pairDict_hasAllBytes : HasAllBytes pairDict := by
  intro b
  obtain ⟨r, hr⟩ := byteDict_hasAllBytes b
  exact ⟨r, find?_pairDict.mpr (Or.inl hr)⟩

theorem pairDict_distinct : DistinctValues pairDict := by
  intro k k' v hk hk'
  rcases find?_pairDict.mp hk with hk | ⟨rfl, rfl⟩ | ⟨rfl, rfl⟩ <;>
    rcases find?_pairDict.mp hk' with hk' | ⟨rfl, h⟩ | ⟨rfl, h⟩
  · exact byteDict_distinct k k' v hk hk'
  · exact absurd (byteDict_lt hk) (by rw [h]; decide)
  · exact absurd (byteDict_lt hk) (by rw [h]; decide)
  · exact absurd (byteDict_lt hk') (by decide)
  · rfl
  · exact absurd h (by decide)
  · exact absurd (byteDict_lt hk') (by decide)
  · exact absurd h (by decide)
  · rfl

theorem pairDict_disjoint : DisjointIds pairDict endoftextTable := by
  intro w n v hw hn
  rcases find?_pairDict.mp hw with hw | ⟨-, rfl⟩ | ⟨-, rfl⟩
  · exact byteDict_disjoint w n v hw hn
  · exact absurd (find?_endoftextTable.mp hn).2 (by decide)
  · exact absurd (find?_endoftextTable.mp hn).2 (by decide)

/-- A text with a word to merge and an allowed special token comes back from
both calls. -/
theorem decode_encode_bytes :
    ∃ self, CoreBpe.new plainPlatform 1 pairDict endoftextTable (str r50kPat) = .ret self ∧
      ∀ tok : TikToken plainPlatform, tok.corebpe = self →
        (∃ tokens, encodeOrdinaryNative self 27 (str "ababa naïve <|endoftext|>") = .ret tokens ∧
          (tok.decode tokens).1 = str "ababa naïve <|endoftext|>") ∧
        ∃ tokens self', encodeNative self (str "ababa naïve <|endoftext|>")
            (OrderedSet.empty.insert endoftext) 27 = (.ret tokens, self') ∧
          (TikToken.decode { tok with corebpe := self' } tokens).1 =
            str "ababa naïve <|endoftext|>" := by
  obtain ⟨self, hself, hall⟩ := decode_encode plainPlatform_documented pairDict_hasAllBytes
    pairDict_distinct endoftextTable_kind endoftextTable_prefixFree endoftextTable_distinct
    pairDict_disjoint r50kPat_registered (Nat.succ_pos 0)
  refine ⟨self, hself, ?_⟩
  intro tok htok
  obtain ⟨hordinary, hnative⟩ :=
    hall tok htok (str "ababa naïve <|endoftext|>") (wellFormed_str _) 27 (by decide)
  exact ⟨hordinary, hnative _⟩

end TiktokenCpp
