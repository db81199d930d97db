import TiktokenCpp.Lib.MergeRanking
import TiktokenCpp.Results.Chunks
import TiktokenCpp.Results.Segmentation

/-!
# Vocabularies and how they come about

The ranks of a vocabulary say in which order its tokens were added, and the
merge takes the lowest first. Two things follow from that order.

* `encodeOrdinary_grows` -- a vocabulary that grows by tokens of higher ranks, as
  that of `p50k_base` extends that of `r50k_base`, puts tokens together that
  stood side by side, and does nothing else;
* `encodeOrdinary_trained` -- with a vocabulary that comes from training, looking
  up whole words before they are merged is a shortcut that cannot be seen.
-/

namespace TiktokenCpp

open Utf8 Backtrack Pcre2 GreedyMerge

section

variable {E : Platform} {U : UnicodeProps} {encoder encoder' : EncodeDict} {bound : Nat}

-- ---------------------------------------------------------------------------
-- Tokens in groups
-- ---------------------------------------------------------------------------

/-- The second dictionary is the first one and further tokens, with ranks from
`bound` on. -/
structure Grows (bound : Nat) (encoder encoder' : EncodeDict) : Prop where
  keep : ∀ {w : Bytes} {r : UInt32}, encoder.find? w = some r → encoder'.find? w = some r
  old : ∀ {w : Bytes} {r : UInt32}, encoder.find? w = some r → r.toNat < bound
  new : ∀ {w : Bytes} {r : UInt32}, encoder'.find? w = some r → encoder.find? w = none →
    bound ≤ r.toNat

theorem Grows.rankOf_eq (h : Grows bound encoder encoder') :
    below bound (rankOf encoder') = rankOf encoder := by
  funext w
  rw [below, rankOf, rankOf]
  cases hold : encoder.find? w with
  | some r =>
    rw [h.keep hold, Option.map_some, Option.filter_some, if_pos (decide_eq_true (h.old hold))]
  | none =>
    cases hnew : encoder'.find? w with
    | none => rfl
    | some r =>
      have hhigh := h.new hnew hold
      rw [Option.map_some, Option.filter_some, if_neg (by simpa using hhigh)]
      rfl

/-- The tokens are put into groups, and each of the other tokens is the rank of
the text that a group spells. -/
def Regroups (encoder encoder' : EncodeDict) (tokens tokens' : List UInt32) : Prop :=
  ∃ groups : List (List (Bytes × UInt32)), groups.flatten.map Prod.snd = tokens ∧
    (∀ g ∈ groups, g ≠ [] ∧ ∀ p ∈ g, encoder.find? p.1 = some p.2) ∧
    List.Forall₂ (fun g t => encoder'.find? (g.map Prod.fst).flatten = some t) groups tokens'

namespace Regroups

theorem nil : Regroups encoder encoder' [] [] := ⟨[], rfl, List.forall_mem_nil _, .nil⟩

theorem append {ts us ts' us' : List UInt32} (ht : Regroups encoder encoder' ts ts')
    (hu : Regroups encoder encoder' us us') : Regroups encoder encoder' (ts ++ us) (ts' ++ us') := by
  obtain ⟨groups, rfl, hold, hnew⟩ := ht
  obtain ⟨groups', rfl, hold', hnew'⟩ := hu
  refine ⟨groups ++ groups', by rw [List.flatten_append, List.map_append], ?_,
    List.rel_append hnew hnew'⟩
  intro g hg
  exact (List.mem_append.mp hg).elim (hold g) (hold' g)

/-- There are no more groups than tokens. -/
theorem length_le {ts ts' : List UInt32} (h : Regroups encoder encoder' ts ts') :
    ts'.length ≤ ts.length := by
  obtain ⟨groups, rfl, hold, hnew⟩ := h
  rw [← hnew.length_eq, List.length_map]
  exact length_le_flatten fun g hg => (hold g hg).1

end Regroups

/-- What a dictionary has for words that it has. -/
theorem values_of_forall₂ {segs : List Bytes} {tokens : List UInt32}
    (h : List.Forall₂ (fun s t => encoder.find? s = some t) segs tokens) :
    (segs.map fun s => (encoder.find? s).getD 0) = tokens ∧
      ∀ s ∈ segs, encoder.find? s = some ((encoder.find? s).getD 0) := by
  induction h with
  | nil => exact ⟨rfl, List.forall_mem_nil _⟩
  | @cons s t segs tokens hhead _ ih =>
    refine ⟨by rw [List.map_cons, hhead, ih.1, Option.getD_some], List.forall_mem_cons.mpr ⟨?_, ih.2⟩⟩
    rw [hhead, Option.getD_some]

/-- Groups of segments, with the ranks of the segments and of the groups. -/
theorem Regroups.of_groups {segs segs' : List Bytes} (h : Groups segs' segs) {tokens tokens' : List UInt32}
    (hold : List.Forall₂ (fun s t => encoder.find? s = some t) segs tokens)
    (hnew : List.Forall₂ (fun s t => encoder'.find? s = some t) segs' tokens') :
    Regroups encoder encoder' tokens tokens' := by
  obtain ⟨groups, rfl, rfl, hne⟩ := h.exists_groups
  obtain ⟨hvalues, hfound⟩ := values_of_forall₂ hold
  refine ⟨groups.map (List.map fun s => (s, (encoder.find? s).getD 0)), ?_, ?_, ?_⟩
  · rw [← List.map_flatten, List.map_map]
    exact hvalues
  · intro g hg
    obtain ⟨g, hmem, rfl⟩ := List.mem_map.mp hg
    refine ⟨?_, ?_⟩
    · rw [ne_eq, List.map_eq_nil_iff]
      rintro rfl
      exact hne hmem
    · intro p hp
      obtain ⟨s, hs, rfl⟩ := List.mem_map.mp hp
      exact hfound s (List.mem_flatten.mpr ⟨g, hmem, hs⟩)
  · rw [List.forall₂_map_left_iff] at hnew ⊢
    refine hnew.imp ?_
    intro g t ht
    rw [List.map_map]
    show encoder'.find? (g.map id).flatten = some t
    rwa [List.map_id]

-- ---------------------------------------------------------------------------
-- One word
-- ---------------------------------------------------------------------------

/-- With the larger dictionary every segment has a rank if it has one with the
smaller. -/
theorem bytePairEncode_grows (hgrows : Grows bound encoder encoder') {word : Bytes} (hword : word ≠ [])
    {tokens : List UInt32} (h : bytePairEncode encoder word = .ret tokens) :
    ∃ tokens', bytePairEncode encoder' word = .ret tokens' ∧ Regroups encoder encoder' tokens tokens' := by
  rw [bytePairEncode_eq _ hword, naiveEncode, naiveSegments_eq, lookupAll_eq_ret_iff] at h
  have hrun : run (rankOf encoder') (segments (rankOf encoder) word) =
      segments (rankOf encoder') word := by
    rw [← hgrows.rankOf_eq]
    exact run_segments_below bound word
  rw [bytePairEncode_eq _ hword, naiveEncode, naiveSegments_eq, ← hrun]
  rcases lookupAll_cases encoder' (run (rankOf encoder') (segments (rankOf encoder) word)) with
    ⟨⟨tokens', htokens⟩, -⟩ | ⟨-, s, hs, hnone⟩
  · exact ⟨tokens', htokens, .of_groups (run_groups _) h (lookupAll_eq_ret_iff.mp htokens)⟩
  · -- a segment without a rank would be one of those before
    have hbefore : s ∈ segments (rankOf encoder) word := by
      refine (merge_segments hs).resolve_left ?_
      rw [rankOf, hnone]
      simp
    have hkept := hgrows.keep ((values_of_forall₂ h).2 s hbefore)
    rw [hnone] at hkept
    cases hkept

/-- A word that is a token now puts all its tokens together. -/
theorem Regroups.whole {word : Bytes} (hword : word ≠ []) {tokens : List UInt32}
    (h : bytePairEncode encoder word = .ret tokens) {t : UInt32} (hfind : encoder'.find? word = some t) :
    Regroups encoder encoder' tokens [t] := by
  rw [bytePairEncode_eq _ hword, naiveEncode, naiveSegments_eq, lookupAll_eq_ret_iff] at h
  have hne : segments (rankOf encoder) word ≠ [] := by
    intro hnil
    have hflat : (segments (rankOf encoder) word).flatten = word := flatten_segments word
    rw [hnil] at hflat
    exact hword hflat.symm
  have hgroups := Groups.whole hne
  rw [flatten_segments] at hgroups
  exact .of_groups hgroups h (.cons hfind .nil)

variable {self self' : CoreBpe E}

theorem encodeWord_grows (hgrows : Grows bound self.encoder self'.encoder) {word : Bytes}
    (hword : word ≠ []) {tokens : List UInt32} (h : encodeWord self word = .ret tokens) :
    ∃ tokens', encodeWord self' word = .ret tokens' ∧
      Regroups self.encoder self'.encoder tokens tokens' := by
  unfold encodeWord at h ⊢
  cases hfind : self.encoder.find? word with
  | some t =>
    rw [hfind] at h
    obtain rfl := Outcome.ret.inj h
    rw [hgrows.keep hfind]
    refine ⟨[t], rfl, .of_groups (.refl [word]) (.cons hfind .nil) (.cons (hgrows.keep hfind) .nil)⟩
  | none =>
    rw [hfind] at h
    cases hfind' : self'.encoder.find? word with
    | some t => exact ⟨[t], rfl, .whole hword h hfind'⟩
    | none => exact bytePairEncode_grows hgrows hword h

theorem encodeWords_grows (hgrows : Grows bound self.encoder self'.encoder) {words : List Bytes}
    (hwords : ∀ w ∈ words, w ≠ []) {tokens : List UInt32} (h : encodeWords self words = .ret tokens) :
    ∃ tokens', encodeWords self' words = .ret tokens' ∧
      Regroups self.encoder self'.encoder tokens tokens' := by
  induction words generalizing tokens with
  | nil =>
    obtain rfl := Outcome.ret.inj h
    exact ⟨[], rfl, .nil⟩
  | cons word words ih =>
    obtain ⟨hword, hrest⟩ := List.forall_mem_cons.mp hwords
    rw [encodeWords] at h ⊢
    obtain ⟨wordTokens, hwordTokens, h⟩ := Outcome.bind_eq_ret.mp h
    obtain ⟨rest, hrun, h⟩ := Outcome.bind_eq_ret.mp h
    obtain rfl := Outcome.ret.inj h
    obtain ⟨wordTokens', hwordTokens', hfirst⟩ := encodeWord_grows hgrows hword hwordTokens
    obtain ⟨rest', hrun', hsecond⟩ := ih hrest hrun
    rw [hwordTokens', Outcome.ret_bind, hrun']
    exact ⟨wordTokens' ++ rest', rfl, hfirst.append hsecond⟩

-- ---------------------------------------------------------------------------
-- Whole texts
-- ---------------------------------------------------------------------------

/-- **A vocabulary that grows at its upper end only puts tokens together.**
Where `EncodeOrdinary` returns tokens with the smaller vocabulary, it returns
with the larger one the tokens of groups of them, and so no more. -/
theorem encodeOrdinary_grows (hE : E.Documented U) {newFuel : Nat} (hnew : 0 < newFuel)
    {param param' : EncodingParam} (hkind : SpecialKind param.specialTokens)
    (hkind' : SpecialKind param'.specialTokens) (hpattern : RegistryPattern param.patStr)
    (hsame : param'.patStr = param.patStr) {tok tok' : TikToken E}
    (htok : TikToken.fromEncoder E newFuel param encoder = .ret tok)
    (htok' : TikToken.fromEncoder E newFuel param' encoder' = .ret tok')
    (hgrows : Grows bound encoder encoder') {text : Bytes} (hwell : WellFormed text) {fuel : Nat}
    (hfuel : text.length ≤ fuel) {tokens : List UInt32} (h : tok.encodeOrdinary fuel text = .ret tokens) :
    ∃ tokens', tok'.encodeOrdinary fuel text = .ret tokens' ∧
      Regroups encoder encoder' tokens tokens' ∧ tokens'.length ≤ tokens.length := by
  obtain ⟨hbuilt, hcompiled, -⟩ := built_of_fromEncoder hE hkind hnew htok
  obtain ⟨hbuilt', hcompiled', -⟩ := built_of_fromEncoder hE hkind' hnew htok'
  obtain ⟨re, himpl, hsplits⟩ := splits_of_compile hE hpattern hcompiled
  rw [hsame, hcompiled, Outcome.ret.injEq] at hcompiled'
  obtain ⟨cs, rfl⟩ := hwell
  have hshort : cs.length ≤ fuel := (length_le_length_encode cs).trans hfuel
  obtain ⟨-, hne⟩ := words_of_covers hsplits.covers hsplits.minLen hshort
  rw [encodeOrdinary_eq, encodeOrdinaryNative_words himpl hsplits hshort] at h
  rw [encodeOrdinary_eq, encodeOrdinaryNative_words (hcompiled' ▸ himpl) hsplits hshort]
  have hwords : ∀ w ∈ (words (CharClass.mem U) re fuel cs).map encode, w ≠ [] := by
    intro w hw
    obtain ⟨m, hm, rfl⟩ := List.mem_map.mp hw
    exact fun hnil => hne m hm (encode_eq_nil.mp hnil)
  have hdicts : Grows bound tok.corebpe.encoder tok'.corebpe.encoder := by
    rwa [hbuilt.encoder, hbuilt'.encoder]
  obtain ⟨tokens', htokens', hregroups⟩ := encodeWords_grows hdicts hwords h
  rw [hbuilt.encoder, hbuilt'.encoder] at hregroups
  exact ⟨tokens', htokens', hregroups, hregroups.length_le⟩

/-- `abDict` before its last token was added. -/
def abDictBefore : EncodeDict :=
  UnorderedMap.empty.emplaceAll [(str "a", 0), (str "b", 1), (str "ab", 2)]

theorem mem_abDictBefore {w : Bytes} {r : UInt32} :
    abDictBefore.find? w = some r ↔ (w, r) ∈ [(str "a", 0), (str "b", 1), (str "ab", 2)] := by
  rw [UnorderedMap.find?_eq_some_iff]
  have hentries : abDictBefore.entries = [(str "a", 0), (str "b", 1), (str "ab", 2)] := by decide
  rw [hentries]

theorem abDict_grows : Grows 3 abDictBefore abDict where
  keep := by
    intro w r h
    rw [mem_abDictBefore] at h
    rw [mem_abDict]
    simp only [List.mem_cons, List.not_mem_nil, or_false] at h ⊢
    tauto
  old := by
    intro w r h
    rw [mem_abDictBefore] at h
    simp only [List.mem_cons, Prod.mk.injEq, List.not_mem_nil, or_false] at h
    rcases h with ⟨-, rfl⟩ | ⟨-, rfl⟩ | ⟨-, rfl⟩ <;> decide
  new := by
    intro w r h hnone
    rw [mem_abDict] at h
    simp only [List.mem_cons, Prod.mk.injEq, List.not_mem_nil, or_false] at h
    rcases h with ⟨rfl, -⟩ | ⟨rfl, -⟩ | ⟨rfl, -⟩ | ⟨-, rfl⟩
    · exact absurd hnone (by decide)
    · exact absurd hnone (by decide)
    · exact absurd hnone (by decide)
    · decide

/-- Three tokens become two. -/
theorem encodeOrdinary_grows_ababab :
    ∃ tok tok' : TikToken plainPlatform,
      TikToken.fromEncoder plainPlatform 1 r50kParam abDictBefore = .ret tok ∧
      TikToken.fromEncoder plainPlatform 1 r50kParam abDict = .ret tok' ∧
      ∃ tokens', tok'.encodeOrdinary 6 (str "ababab") = .ret tokens' ∧
        Regroups abDictBefore abDict [2, 2, 2] tokens' ∧ tokens'.length ≤ 3 := by
  obtain ⟨tok, htok⟩ := fromEncoder_ret plainPlatform_documented r50kParam abDictBefore
    endoftextTable_kind r50kPat_registered rfl Nat.one_pos
  obtain ⟨tok', htok'⟩ := fromEncoder_ret plainPlatform_documented r50kParam abDict
    endoftextTable_kind r50kPat_registered rfl Nat.one_pos
  have htokens : tok.encodeOrdinary 6 (str "ababab") = .ret [2, 2, 2] := by
    obtain ⟨hbuilt, hcompiled, -⟩ :=
      built_of_fromEncoder plainPlatform_documented endoftextTable_kind Nat.one_pos htok
    have hword : encodeWord tok.corebpe (str "ababab") = .ret [2, 2, 2] := by
      unfold encodeWord
      rw [hbuilt.encoder]
      exact (bytePairEncode_eq abDictBefore (by decide)).trans (by decide)
    -- the pattern makes one word of it
    have hwords : words (CharClass.mem asciiProps) r50kRegex 6 "ababab".toList =
        ["ababab".toList] := by decide +kernel
    obtain ⟨code, hcode, himpl⟩ := compile_of_parse plainPlatform_documented parse_r50kPat
    have hpattern : cstr (str r50kPat) = encode r50kPat.toList :=
      cstr_of_noNul (noNul_str (by decide +kernel))
    have hregex : tok.corebpe.regex = code := by
      have h : compile plainPlatform (cstr (str r50kPat)) = .ret tok.corebpe.regex := hcompiled
      rw [hpattern, hcode, Outcome.ret.injEq] at h
      exact h.symm
    have hnative := encodeOrdinaryNative_words (hregex ▸ himpl) (splits_r50k asciiProps)
      (show "ababab".toList.length ≤ 6 by decide)
    rw [encodeOrdinary_eq]
    refine hnative.trans ?_
    rw [hwords, List.map_singleton, encodeWords]
    show (encodeWord tok.corebpe (str "ababab") >>= _) = _
    rw [hword]
    rfl
  exact ⟨tok, tok', htok, htok', encodeOrdinary_grows plainPlatform_documented Nat.one_pos
    endoftextTable_kind endoftextTable_kind r50kPat_registered rfl htok htok' abDict_grows
    (wellFormed_str _) (by decide) htokens⟩

/-! ## Training -/

/-- The words of a text, each of them merged. -/
def mergeWords (encoder : EncodeDict) : List Bytes → Run (List UInt32)
  | [] => .ret []
  | word :: words => do
    let wordTokens ← bytePairEncode encoder word
    let tokens ← mergeWords encoder words
    return wordTokens ++ tokens

/-- A token of a trained vocabulary is merged to itself. -/
theorem bytePairEncode_trained (htrained : Trained (rankOf encoder)) {word : Bytes} (hword : word ≠ [])
    {r : UInt32} (hfind : encoder.find? word = some r) : bytePairEncode encoder word = .ret [r] := by
  have hrank : rankOf encoder word = some r.toNat := by rw [rankOf, hfind, Option.map_some]
  rw [bytePairEncode_eq _ hword, naiveEncode, naiveSegments_eq, htrained.segments_self hrank hword,
    lookupAll_eq_ret_iff]
  exact .cons hfind .nil

theorem encodeWords_trained (htrained : Trained (rankOf self.encoder)) {words : List Bytes}
    (hwords : ∀ w ∈ words, w ≠ []) : encodeWords self words = mergeWords self.encoder words := by
  induction words with
  | nil => rfl
  | cons word words ih =>
    obtain ⟨hword, hrest⟩ := List.forall_mem_cons.mp hwords
    have hone : encodeWord self word = bytePairEncode self.encoder word := by
      unfold encodeWord
      cases hfind : self.encoder.find? word with
      | none => rfl
      | some r => exact (bytePairEncode_trained htrained hword hfind).symm
    rw [encodeWords, mergeWords, hone, ih hrest]

/-- **The lookup of whole words cannot be seen** with a vocabulary that comes
from training: `EncodeOrdinary` does what merging every word does. -/
theorem encodeOrdinary_trained (hE : E.Documented U) {newFuel : Nat} (hnew : 0 < newFuel) {name : Bytes}
    {tok : TikToken E} (hget : getEncoding E newFuel name = .ret tok)
    (htrained : Trained (rankOf tok.corebpe.encoder)) {text : Bytes} (hwell : WellFormed text)
    {fuel : Nat} (hfuel : text.length ≤ fuel) :
    tok.encodeOrdinary fuel text =
      (utf8WordsSpliter tok.corebpe fuel text >>= mergeWords tok.corebpe.encoder) := by
  obtain ⟨param, -, -, -, re, himpl, hsplits⟩ := built_of_getEncoding hE hnew hget
  obtain ⟨cs, rfl⟩ := hwell
  obtain ⟨ws, hws, -, hne⟩ :=
    utf8WordsSpliter_encode himpl hsplits ((length_le_length_encode cs).trans hfuel)
  rw [encodeOrdinary_eq, encodeOrdinaryNative, hws, Outcome.ret_bind, Outcome.ret_bind]
  exact encodeWords_trained htrained hne

end

theorem abDict_trained : Trained (rankOf abDict) := by
  intro w r hrank hlong
  obtain ⟨r, hfind, rfl⟩ := Option.map_eq_some_iff.mp hrank
  rw [mem_abDict] at hfind
  simp only [List.mem_cons, Prod.mk.injEq, List.not_mem_nil, or_false] at hfind
  rcases hfind with ⟨rfl, -⟩ | ⟨rfl, -⟩ | ⟨rfl, rfl⟩ | ⟨rfl, rfl⟩
  · exact absurd hlong (by decide)
  · exact absurd hlong (by decide)
  · exact ⟨str "ab", [], str "a", str "b", [], by decide, by decide⟩
  · exact ⟨str "abab", [], str "ab", str "ab", [], by decide, by decide⟩

theorem encodeOrdinary_trained_abab :
    ∃ tok, getEncoding (filePlatform (str "YQ== 0\nYg== 1\nYWI= 2\nYWJhYg== 3\n")) 1
        (str "cl100k_base") = .ret tok ∧
      tok.encodeOrdinary 5 (str "ababa") =
        (utf8WordsSpliter tok.corebpe 5 (str "ababa") >>= mergeWords tok.corebpe.encoder) := by
  obtain ⟨tok, htok, hencoder⟩ := new_cl100kParam
    (show loadTiktokenBpe IterationOrder.insertion (str "YQ== 0\nYg== 1\nYWI= 2\nYWJhYg== 3\n") =
      .ret abDict from rfl)
  have hget : getEncoding (filePlatform (str "YQ== 0\nYg== 1\nYWI= 2\nYWJhYg== 3\n")) 1
      (str "cl100k_base") = .ret tok := by
    unfold getEncoding
    show getEncodingParam IterationOrder.insertion _ >>= _ = _
    rw [show getEncodingParam IterationOrder.insertion (str "cl100k_base") = .ret cl100kParam from rfl,
      Outcome.ret_bind, htok]
  exact ⟨tok, hget, encodeOrdinary_trained (filePlatform_documented _) Nat.one_pos hget
    (hencoder ▸ abDict_trained) (wellFormed_str _) (by decide)⟩

end TiktokenCpp
