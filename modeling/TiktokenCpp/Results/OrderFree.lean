import TiktokenCpp.Results.Models
import TiktokenCpp.Results.Separators
import TiktokenCpp.Results.Sessions
import TiktokenCpp.Results.Vocabulary

/-!
# The iteration order of the hash maps cannot be seen

The standard leaves open in which order a hash map is walked through, and the
program walks through several: the dictionary when it is turned round for
decoding, the table of special tokens when its names are joined to a pattern
and when its ids are collected, the prefixes of the model names. On the same
files two runs of the program that differ in this order make objects that reply
alike to every call, as long as no two ranks of the file are the same.

Main results:

* `encodeOrdinaryNative_congr` -- ordinary text sees the lookups only;
* `Twins.call` -- one call of two objects that were made from the same file;
* `order_free` -- from the name of an encoding or a model to whole sessions.
-/

namespace TiktokenCpp

open Utf8 Pcre2

/-- The same libraries and files with another iteration order. -/
def Platform.reorder (E : Platform) (order : IterationOrder) : Platform := { E with order := order }

theorem Platform.Documented.reorder {E : Platform} {U : UnicodeProps} (hE : E.Documented U)
    (order : IterationOrder) : (E.reorder order).Documented U :=
  ⟨hE.pcre2, hE.iconv⟩

/-! ## Dictionaries with the same lookups -/

section

variable {encoder encoder' : EncodeDict} (h : ∀ k, encoder.find? k = encoder'.find? k)
include h

theorem at_congr (key : Bytes) : EncodeDict.at encoder key = EncodeDict.at encoder' key := by
  unfold EncodeDict.at
  rw [h]

theorem getRank_congr (piece : Bytes) (parts : List Part) (startIdx skip : Nat) :
    getRank encoder piece parts startIdx skip = getRank encoder' piece parts startIdx skip := by
  unfold getRank
  simp only [h]

theorem mergeRound_congr (piece : Bytes) (parts : List Part) :
    mergeRound encoder piece parts = mergeRound encoder' piece parts := by
  unfold mergeRound
  simp only [getRank_congr h]

theorem mergeLoop_congr (piece : Bytes) (n : Nat) (parts : List Part) :
    mergeLoop encoder piece n parts = mergeLoop encoder' piece n parts := by
  induction n generalizing parts with
  | zero =>
    rw [mergeLoop, mergeLoop]
  | succ n ih =>
    rw [mergeLoop, mergeLoop]
    simp only [mergeRound_congr h, ih]

theorem mergedParts_congr (piece : Bytes) :
    mergedParts encoder piece = mergedParts encoder' piece := by
  unfold mergedParts initRanks
  simp only [getRank_congr h, mergeLoop_congr h]

theorem bytePairEncode_congr (piece : Bytes) :
    bytePairEncode encoder piece = bytePairEncode encoder' piece := by
  unfold bytePairEncode bytePairMerge
  simp only [at_congr h, mergedParts_congr h]

end

section

variable {E : Platform} {U : UnicodeProps} {order : IterationOrder} {self : CoreBpe E}
  {self' : CoreBpe (E.reorder order)}

theorem encodeWords_congr (h : ∀ k, self.encoder.find? k = self'.encoder.find? k)
    (words : List Bytes) : encodeWords self words = encodeWords self' words := by
  induction words with
  | nil => rfl
  | cons word words ih =>
    rw [encodeWords, encodeWords, ih]
    unfold encodeWord
    rw [h word, bytePairEncode_congr h]

theorem spliterLoop_congr (hregex : self.regex = self'.regex) (text : Bytes) (fuel startOffset : Nat)
    (tokens : List Bytes) :
    spliterLoop self text fuel startOffset tokens = spliterLoop self' text fuel startOffset tokens := by
  have hmatch (startOffset : Nat) : (E.reorder order).pcre2.pcre2_match self'.regex text startOffset =
      E.pcre2.pcre2_match self.regex text startOffset := by
    rw [hregex]
    rfl
  induction fuel generalizing startOffset tokens with
  | zero =>
    rw [spliterLoop, spliterLoop, hmatch]
  | succ fuel ih =>
    rw [spliterLoop, spliterLoop, hmatch]
    cases E.pcre2.pcre2_match self.regex text startOffset with
    | error rc => rfl
    | matched whole groups => exact Outcome.bind_congr fun tokens _ => ih _ tokens

/-- Ordinary text sees the pattern and the lookups only. -/
theorem encodeOrdinaryNative_congr (hregex : self.regex = self'.regex)
    (h : ∀ k, self.encoder.find? k = self'.encoder.find? k) (fuel : Nat) (text : Bytes) :
    encodeOrdinaryNative self fuel text = encodeOrdinaryNative self' fuel text := by
  unfold encodeOrdinaryNative utf8WordsSpliter
  rw [spliterLoop_congr hregex]
  exact Outcome.bind_congr fun words _ => encodeWords_congr h words

end

/-! ## Two tables with the same entries -/

/-- The table of an encoding in two iteration orders. -/
structure SameTable (special special' : StrViewToInt) : Prop where
  perm : special.entries.Perm special'.entries
  kind : SpecialKind special
  prefixFree : PrefixFree special
  ids : DistinctValues special

namespace SameTable

variable {special special' : StrViewToInt} (h : SameTable special special')
include h

theorem find? (n : Bytes) : special.find? n = special'.find? n := UnorderedMap.find?_perm h.perm n

theorem mem_names {n : Bytes} : n ∈ names special ↔ n ∈ names special' :=
  (h.perm.map Prod.fst).mem_iff

theorem kind' : SpecialKind special' where
  nonempty := by
    intro hnil
    have hperm := h.perm
    rw [hnil] at hperm
    exact h.kind.nonempty hperm.eq_nil
  name e he := h.kind.name e (h.perm.mem_iff.mpr he)

theorem prefixFree' : PrefixFree special' :=
  fun n hn m hm => h.prefixFree n (h.mem_names.mpr hn) m (h.mem_names.mpr hm)

theorem ids' : DistinctValues special' := by
  intro k k' v hk hk'
  rw [← h.find?] at hk hk'
  exact h.ids k k' v hk hk'

theorem maxSpecial : getMaxSpecialTokenValue special = getMaxSpecialTokenValue special' := by
  have hids (i : Nat) : i ∈ idList special ↔ i ∈ idList special' :=
    (h.perm.map fun e => e.2.toNat).mem_iff
  rw [← UInt32.toNat_inj]
  refine Nat.le_antisymm ?_ ?_
  · exact le_getMaxSpecialTokenValue ((hids _).mp (getMaxSpecialTokenValue_mem h.kind.nonempty))
  · exact le_getMaxSpecialTokenValue ((hids _).mpr (getMaxSpecialTokenValue_mem h.kind'.nonempty))

/-- The assertions of the constructor do not see the order. -/
theorem checkVocab (vocabN : Option UInt32) {encoder encoder' : EncodeDict}
    (hperm : encoder.entries.Perm encoder'.entries) :
    TiktokenCpp.checkVocab vocabN encoder special = TiktokenCpp.checkVocab vocabN encoder' special' := by
  have hsize : encoder.size = encoder'.size := hperm.length_eq
  have hspecial : special.size = special'.size := h.perm.length_eq
  unfold TiktokenCpp.checkVocab maxTokenValue getMaxTokenValue
  rw [hsize, hspecial, h.maxSpecial]

end SameTable

/-! ## Two objects from the same file -/

/-- Objects made from the same parameters and the same file, in two iteration
orders. -/
structure Twins {E : Platform} {order : IterationOrder} (U : UnicodeProps)
    (special special' : StrViewToInt) (tok : TikToken E) (tok' : TikToken (E.reorder order)) :
    Prop where
  table : SameTable special special'
  built : Built U tok.corebpe.encoder special tok.corebpe
  built' : Built U tok'.corebpe.encoder special' tok'.corebpe
  encoder : tok.corebpe.encoder.entries.Perm tok'.corebpe.encoder.entries
  ranks : DistinctValues tok.corebpe.encoder
  regex : tok.corebpe.regex = tok'.corebpe.regex
  set : tok.specialTokensSet = tok'.specialTokensSet

/-- The fuel of a call is more than its text is long. -/
def Op.Fueled : Op → Prop
  | .encode fuel text _ _ => text.length < fuel
  | _ => True

section

variable {E : Platform} {U : UnicodeProps} {order : IterationOrder} {special special' : StrViewToInt}

theorem compile_reorder (pattern : Bytes) : compile (E.reorder order) pattern = compile E pattern := by
  have hcompile : (E.reorder order).pcre2.pcre2_compile pattern = E.pcre2.pcre2_compile pattern := rfl
  unfold compile
  rw [hcompile]
  cases E.pcre2.pcre2_compile pattern <;> rfl

theorem checkDisallowed_reorder (text : Bytes) (set : StringSet) :
    checkDisallowed (E.reorder order) text set = checkDisallowed E text set := by
  unfold checkDisallowed
  split
  · exact congrArg (· >>= _) (compile_reorder _)
  · rfl

theorem Built.find?_specialTokensDecoder_iff {encoder : EncodeDict} {self : CoreBpe E}
    (hbuilt : Built U encoder special self) (hids : DistinctValues special) {n : Bytes} {id : UInt32} :
    self.specialTokensDecoder.find? id = some n ↔ special.find? n = some id := by
  constructor
  · intro h
    obtain ⟨es, hperm, hdecoder⟩ := hbuilt.specialDecoder
    rw [hdecoder] at h
    exact UnorderedMap.find?_eq_some_iff.mpr (hperm.mem_iff.mp (UnorderedMap.mem_of_find?_swap h))
  · exact hbuilt.find?_specialTokensDecoder hids

namespace Twins

variable {tok : TikToken E} {tok' : TikToken (E.reorder order)}
  (h : Twins U special special' tok tok')
include h

theorem find? (w : Bytes) : tok.corebpe.encoder.find? w = tok'.corebpe.encoder.find? w :=
  UnorderedMap.find?_perm h.encoder w

theorem ranks' : DistinctValues tok'.corebpe.encoder := by
  intro k k' v hk hk'
  rw [← h.find?] at hk hk'
  exact h.ranks k k' v hk hk'

theorem encodeOrdinary (fuel : Nat) (text : Bytes) :
    tok.encodeOrdinary fuel text = tok'.encodeOrdinary fuel text := by
  unfold TikToken.encodeOrdinary
  rw [encodeOrdinaryNative_congr h.regex h.find?]

theorem encodeNative (hE : E.Documented U) (allowed : Utf8StringSet) {text : Bytes} {fuel : Nat}
    (hfuel : text.length < fuel) :
    (encodeNative tok.corebpe text allowed fuel).1 =
      (TiktokenCpp.encodeNative tok'.corebpe text allowed fuel).1 := by
  by_cases hwell : WellFormed text
  · obtain ⟨cs, rfl⟩ := hwell
    have hshort : cs.length < fuel := lt_of_le_of_lt (length_le_length_encode cs) hfuel
    have hcut : Scan.cut (allowedNames h.table.kind allowed) (encode cs) =
        Scan.cut (allowedNames h.table.kind' allowed) (encode cs) := by
      refine Scan.cut_congr (prefixFree_allowedNames h.table.prefixFree allowed)
        (prefixFree_allowedNames h.table.prefixFree' allowed) ?_
      intro w _
      rw [mem_allowedNames, mem_allowedNames, h.table.mem_names]
    have hordinary : encodeOrdinaryNative tok.corebpe fuel = encodeOrdinaryNative tok'.corebpe fuel :=
      funext fun text => encodeOrdinaryNative_congr h.regex h.find? fuel text
    have hid : idOf special = idOf special' := by
      funext n
      rw [idOf, idOf, h.table.find?]
    rw [encodeNative_eq h.table.kind h.table.prefixFree h.built allowed cs hshort,
      encodeNative_eq h.table.kind' h.table.prefixFree' h.built' allowed cs hshort]
    unfold encodeReference
    rw [hcut, hordinary, hid]
  · rw [encodeNative_illFormed hE.pcre2.refuses tok.corebpe hwell allowed (by omega),
      encodeNative_illFormed (hE.reorder order).pcre2.refuses tok'.corebpe hwell allowed (by omega)]

theorem encode (hE : E.Documented U) {text : Bytes} {fuel : Nat} (hfuel : text.length < fuel)
    (allowed disallowed : StringSetUnion) :
    (tok.encode fuel text allowed disallowed).1 = (tok'.encode fuel text allowed disallowed).1 := by
  have hsetup : tok.encodeSetup fuel text allowed disallowed =
      tok'.encodeSetup fuel text allowed disallowed := by
    unfold TikToken.encodeSetup TikToken.argumentSets
    simp only [h.set, checkDisallowed_reorder]
    rfl
  unfold TikToken.encode
  rw [hsetup]
  cases tok'.encodeSetup fuel text allowed disallowed with
  | ret set =>
    rw [Outcome.ret_bindState, Outcome.ret_bindState]
    exact congrArg (catchUnicode encodeNativeUtf16) (h.encodeNative hE set hfuel)
  | _ => rfl

theorem decoder (id : UInt32) :
    (initDecodeDict tok.corebpe.encoder).find? id = (initDecodeDict tok'.corebpe.encoder).find? id := by
  apply Option.ext
  intro w
  rw [find?_initDecodeDict h.ranks, find?_initDecodeDict h.ranks', h.find?]

theorem specialDecoder (id : UInt32) :
    tok.corebpe.specialTokensDecoder.find? id = tok'.corebpe.specialTokensDecoder.find? id := by
  apply Option.ext
  intro n
  rw [h.built.find?_specialTokensDecoder_iff h.table.ids,
    h.built'.find?_specialTokensDecoder_iff h.table.ids', h.table.find?]

theorem decodeNative (tokens : List UInt32) :
    (tok.corebpe.decodeNative tokens).1 = (tok'.corebpe.decodeNative tokens).1 := by
  unfold CoreBpe.decodeNative
  rw [withDecoder_of_none h.built.decoder, withDecoder_of_none h.built'.decoder]
  refine List.flatMap_congr ?_
  intro id _
  show decodeToken _ tok.corebpe.specialTokensDecoder id = decodeToken _ tok'.corebpe.specialTokensDecoder id
  unfold decodeToken
  rw [h.decoder, h.specialDecoder]

/-- **One call**: the objects as they were made reply alike. -/
theorem call (hE : E.Documented U) {op : Op} (hop : op.Fueled) : (tok.call op).1 = (tok'.call op).1 := by
  cases op with
  | encodeOrdinary fuel text => exact congrArg Reply.tokens (h.encodeOrdinary fuel text)
  | encode fuel text allowed disallowed =>
    exact congrArg Reply.tokens (h.encode hE hop allowed disallowed)
  | decode tokens =>
    exact congrArg (fun words => Reply.text words.flatten) (h.decodeNative tokens)
  | tokenToSymbol token =>
    refine congrArg Reply.text ?_
    unfold TikToken.tokenToSymbol CoreBpe.tokenToSymbol
    rw [withDecoder_of_none h.built.decoder, withDecoder_of_none h.built'.decoder]
    show ((initDecodeDict _).find? token).getD [] = ((initDecodeDict _).find? token).getD []
    rw [h.decoder]
  | tokenToSymbols tokens => exact congrArg Reply.texts (h.decodeNative tokens)

end Twins

/-! ## Making the objects -/

/-- The parameters of an encoding in two iteration orders. -/
structure SameParam (order order' : IterationOrder) (p p' : EncodingParam) : Prop where
  mem : p ∈ (sEncodingParam order).dropLast
  mem' : p' ∈ (sEncodingParam order').dropLast
  name : p.name = p'.name
  vocabN : p.vocabN = p'.vocabN
  patStr : p.patStr = p'.patStr
  table : SameTable p.specialTokens p'.specialTokens

theorem shuffle_insertion (m : StrViewToInt) (order : IterationOrder) :
    (m.shuffle IterationOrder.insertion).shuffle order = m.shuffle order := rfl

/-- The registry in another iteration order. -/
theorem dropLast_sEncodingParam (order : IterationOrder) :
    (sEncodingParam order).dropLast = (sEncodingParam IterationOrder.insertion).dropLast.map fun p =>
      { p with specialTokens := p.specialTokens.shuffle order } := by
  simp only [sEncodingParam, List.dropLast, List.map_cons, List.map_nil, shuffle_insertion]

theorem distinctValues_of_nodup {m : StrViewToInt} (h : (m.entries.map Prod.snd).Nodup) :
    DistinctValues m := by
  intro k k' v hk hk'
  have heq := List.inj_on_of_nodup_map h (UnorderedMap.find?_eq_some_iff.mp hk)
    (UnorderedMap.find?_eq_some_iff.mp hk') rfl
  exact congrArg Prod.fst heq

/-- No two special tokens of a registered encoding have the same id. -/
theorem registry_distinct :
    ∀ param ∈ (sEncodingParam IterationOrder.insertion).dropLast, DistinctValues param.specialTokens := by
  have hall : ∀ param ∈ (sEncodingParam IterationOrder.insertion).dropLast,
      (param.specialTokens.entries.map Prod.snd).Nodup := by
    decide +kernel
  exact fun param hparam => distinctValues_of_nodup (hall param hparam)

theorem sameTable_shuffle {special : StrViewToInt} (hkind : SpecialKind special)
    (hpf : PrefixFree special) (hids : DistinctValues special) (order order' : IterationOrder) :
    SameTable (special.shuffle order) (special.shuffle order') where
  perm := (order.perm special.entries).trans (order'.perm special.entries).symm
  kind := hkind.shuffle order
  prefixFree := hpf.shuffle order
  ids k k' v hk hk' := by
    rw [UnorderedMap.find?_shuffle] at hk hk'
    exact hids k k' v hk hk'

theorem getEncodingParam_agree (order order' : IterationOrder) (name : Bytes) :
    (getEncodingParam order name).Agree (SameParam order order') (getEncodingParam order' name) := by
  have hfind (order : IterationOrder) :
      ((sEncodingParam order).dropLast.find? fun p => p.name = name) =
        ((sEncodingParam IterationOrder.insertion).dropLast.find? fun p => p.name = name).map fun p =>
          { p with specialTokens := p.specialTokens.shuffle order } := by
    rw [dropLast_sEncodingParam order, List.find?_map]
    rfl
  unfold getEncodingParam
  rw [hfind order, hfind order']
  cases hbase : (sEncodingParam IterationOrder.insertion).dropLast.find? fun p => p.name = name with
  | none => exact .throw _
  | some p =>
    have hp := List.mem_of_find?_eq_some hbase
    obtain ⟨hkind, hpf⟩ := registry_specialKind IterationOrder.insertion p hp
    refine .ret ⟨?_, ?_, rfl, rfl, rfl, sameTable_shuffle hkind hpf (registry_distinct p hp) order order'⟩
    · rw [dropLast_sEncodingParam order]
      exact List.mem_map_of_mem hp
    · rw [dropLast_sEncodingParam order']
      exact List.mem_map_of_mem hp

/-- From the same dictionary the constructor makes objects of a kind, or fails
the same assertion. -/
theorem fromEncoder_agree (hE : E.Documented U) {p p' : EncodingParam}
    (hp : SameParam E.order order p p') {encoder encoder' : EncodeDict}
    (hperm : encoder.entries.Perm encoder'.entries) (hranks : DistinctValues encoder) {fuel : Nat}
    (hfuel : 0 < fuel) :
    (TikToken.fromEncoder E fuel p encoder).Agree (Twins U p.specialTokens p'.specialTokens)
      (TikToken.fromEncoder (E.reorder order) fuel p' encoder') := by
  have hcheck := hp.table.checkVocab p.vocabN hperm
  rw [hp.vocabN] at hcheck
  by_cases hok : checkVocab p.vocabN encoder p.specialTokens = .ret ()
  · have hok' : checkVocab p'.vocabN encoder' p'.specialTokens = .ret () := by
      rw [← hcheck, ← hp.vocabN, hok]
    obtain ⟨tok, htok⟩ := fromEncoder_ret hE p encoder hp.table.kind ⟨_, p, hp.mem, rfl⟩ hok hfuel
    obtain ⟨tok', htok'⟩ := fromEncoder_ret (hE.reorder order) p' encoder' hp.table.kind'
      ⟨_, p', hp.mem', rfl⟩ hok' hfuel
    obtain ⟨hbuilt, hcompiled, hset⟩ := built_of_fromEncoder hE hp.table.kind hfuel htok
    obtain ⟨hbuilt', hcompiled', hset'⟩ :=
      built_of_fromEncoder (hE.reorder order) hp.table.kind' hfuel htok'
    have hregex : tok.corebpe.regex = tok'.corebpe.regex := by
      rw [compile_reorder, ← hp.patStr, hcompiled] at hcompiled'
      exact Outcome.ret.inj hcompiled'
    rw [htok, htok']
    refine .ret ⟨hp.table, hbuilt.encoder ▸ hbuilt, hbuilt'.encoder ▸ hbuilt', ?_, ?_, hregex, ?_⟩
    · rw [hbuilt.encoder, hbuilt'.encoder]
      exact hperm
    · rw [hbuilt.encoder]
      exact hranks
    · refine OrderedSet.eq_of_mem_iff ?_
      intro n
      rw [hset, hset', hp.table.mem_names]
  · unfold TikToken.fromEncoder
    rw [← hcheck, ← hp.vocabN]
    exact Outcome.Agree.bind_self fun u hu => absurd hu hok

/-- No file of the cache gives two tokens the same rank. -/
def RanksDistinct (E : Platform) : Prop :=
  ∀ file content dict, E.cache file = some content →
    loadTiktokenBpe E.order content = .ret dict → DistinctValues dict

/-- They reply alike to every list of calls. -/
def Alike (tok : TikToken E) (tok' : TikToken (E.reorder order)) : Prop :=
  ∀ ops : List Op, (∀ op ∈ ops, op.Fueled) →
    (Session.session TikToken.call tok ops).1 = (Session.session TikToken.call tok' ops).1

theorem Twins.alike {tok : TikToken E} {tok' : TikToken (E.reorder order)} (hE : E.Documented U)
    (h : Twins U special special' tok tok') : Alike tok tok' := by
  have htok : Constructed U special tok :=
    ⟨h.table.kind, h.built.decoder, h.built.specialTokens, h.built.specialRegex⟩
  have htok' : Constructed U special' tok' :=
    ⟨h.table.kind', h.built'.decoder, h.built'.specialTokens, h.built'.specialRegex⟩
  have hstate : ∀ s op, StateOf tok s → StateOf tok (TikToken.call s op).2 :=
    fun s op hs => (call_stateOf hE htok op hs).2
  have hstate' : ∀ s op, StateOf tok' s → StateOf tok' (TikToken.call s op).2 :=
    fun s op hs => (call_stateOf (hE.reorder order) htok' op hs).2
  intro ops hops
  -- every call of a session replies as on the object as it was made
  have hleft : (Session.session TikToken.call tok ops).1 = ops.map fun op => (tok.call op).1 :=
    Session.session_replies hstate (fun s op hs => (call_stateOf hE htok op hs).1) htok.stateOf ops
  have hright : (Session.session TikToken.call tok' ops).1 = ops.map fun op => (tok'.call op).1 :=
    Session.session_replies hstate'
      (fun s op hs => (call_stateOf (hE.reorder order) htok' op hs).1) htok'.stateOf ops
  rw [hleft, hright]
  exact List.map_congr_left fun op hop => h.call hE (hops op hop)

theorem new_agree (hE : E.Documented U) (hcache : RanksDistinct E) {p p' : EncodingParam}
    (hp : SameParam E.order order p p') {fuel : Nat} (hfuel : 0 < fuel) :
    (TikToken.new E fuel p).Agree Alike (TikToken.new (E.reorder order) fuel p') := by
  have hfile : (E.reorder order).cache (p'.name ++ str ".tiktoken") =
      E.cache (p.name ++ str ".tiktoken") := by
    rw [hp.name]
    rfl
  unfold TikToken.new getTiktokenEncoding
  rw [hfile]
  cases hcontent : E.cache (p.name ++ str ".tiktoken") with
  | none =>
    dsimp only
    rw [Outcome.ret_bind, Outcome.ret_bind, hp.name]
    exact .throw _
  | some content =>
    have hload := hcache (p.name ++ str ".tiktoken") content
    dsimp only
    unfold loadTiktokenBpe at hload ⊢
    cases hlines : loadLines (content.splitOn 10) .empty with
    | ret dict =>
      have hdistinct := hload (dict.shuffle E.order) hcontent (by rw [hlines]; rfl)
      have hperm : (dict.shuffle E.order).entries.Perm (dict.shuffle order).entries :=
        (E.order.perm dict.entries).trans (order.perm dict.entries).symm
      exact (fromEncoder_agree hE hp hperm hdistinct hfuel).mono fun _ _ h => h.alike hE
    | throw e => exact .throw e
    | abort => exact .abort
    | ub => exact .ub
    | loop => exact .loop

theorem getEncoding_agree (hE : E.Documented U) (hcache : RanksDistinct E) (order : IterationOrder)
    {fuel : Nat} (hfuel : 0 < fuel) (encodingName : Bytes) :
    (getEncoding E fuel encodingName).Agree Alike (getEncoding (E.reorder order) fuel encodingName) :=
  (getEncodingParam_agree E.order order encodingName).bind fun _ _ hp =>
    new_agree hE hcache hp hfuel

/-- **The iteration order cannot be seen.** On the same files, with no rank
twice in one of them, `GetEncoding` and `EncodingForModel` end alike in two
iteration orders, and the objects they return reply alike to every list of
calls. -/
theorem order_free (hE : E.Documented U) (hcache : RanksDistinct E) (order : IterationOrder)
    {fuel : Nat} (hfuel : 0 < fuel) :
    (∀ encodingName, (getEncoding E fuel encodingName).Agree Alike
      (getEncoding (E.reorder order) fuel encodingName)) ∧
    ∀ modelName, (encodingForModel E fuel modelName).Agree Alike
      (encodingForModel (E.reorder order) fuel modelName) := by
  refine ⟨getEncoding_agree hE hcache order hfuel, ?_⟩
  intro modelName
  have hname := encodingNameForModel_order order E.order (cstr (modelName.map toLower))
  unfold encodingForModel
  show Outcome.Agree Alike _ (encodingNameForModel order _ >>= _)
  rw [hname]
  exact Outcome.Agree.bind_self fun name _ => getEncoding_agree hE hcache order hfuel name

end

/-! ## An instance -/

/-- The entries walked through from the last to the first. -/
def IterationOrder.backwards : IterationOrder := ⟨List.reverse, List.reverse_perm⟩

theorem order_free_two :
    (getEncoding (filePlatform (str "QQ== 0\nQg== 1\n")) 1 (str "cl100k_base")).Agree Alike
      (getEncoding ((filePlatform (str "QQ== 0\nQg== 1\n")).reorder IterationOrder.backwards) 1
        (str "cl100k_base")) := by
  have hdistinct : DistinctValues (UnorderedMap.empty.emplaceAll [(str "A", (0 : UInt32)), (str "B", 1)]) :=
    distinctValues_of_nodup (by decide)
  refine (order_free (filePlatform_documented (str "QQ== 0\nQg== 1\n")) ?_
    IterationOrder.backwards Nat.one_pos).1 (str "cl100k_base")
  intro file content dict hfile hload
  have hcontent : str "QQ== 0\nQg== 1\n" = content := by
    by_cases hname : file = str "cl100k_base.tiktoken"
    · simpa [filePlatform, hname] using hfile
    · simp [filePlatform, hname] at hfile
  subst hcontent
  have hdict : UnorderedMap.empty.emplaceAll [(str "A", 0), (str "B", 1)] = dict := by
    injection hload
  exact hdict ▸ hdistinct

end TiktokenCpp
