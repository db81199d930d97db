import Mathlib.Data.List.Chain
import TiktokenCpp.Lib.MergeLocality
import TiktokenCpp.Results.RoundTrip

/-!
# Tokens of a word depend on their neighbours only

`CoreBpe::BytePairEncode` merges over the whole word, but what it returns can
be cut and checked piece by piece.

* `bytePairEncode_slice` -- tokens that stand side by side in the encoding of a
  word are the encoding of the text they decode to;
* `bytePairEncode_eq_iff` -- a list of tokens is the encoding of its text
  exactly if every token, and every two adjacent ones, are the encoding of
  theirs.
-/

namespace TiktokenCpp

open GreedyMerge

section

variable {E : Platform} {self : CoreBpe E} {encoder : EncodeDict}

theorem naiveSegments_eq (piece : Bytes) :
    naiveSegments encoder piece = segments (rankOf encoder) piece := by
  show _ = merge _ (singletons piece).length (singletons piece)
  rw [length_singletons]
  rfl

-- ---------------------------------------------------------------------------
-- Tokens and the words they stand for
-- ---------------------------------------------------------------------------

theorem lookupAll_eq_ret_iff {segs : List Bytes} {tokens : List UInt32} :
    lookupAll encoder segs = .ret tokens ↔
      List.Forall₂ (fun s t => encoder.find? s = some t) segs tokens := by
  induction segs generalizing tokens with
  | nil =>
    rw [lookupAll, List.forall₂_nil_left_iff, Outcome.ret.injEq, eq_comm]
  | cons s segs ih =>
    rw [lookupAll, EncodeDict.at]
    cases hfind : encoder.find? s with
    | none =>
      constructor
      · intro h
        cases h
      · intro h
        cases h with
        | cons hhead _ =>
          rw [hfind] at hhead
          cases hhead
    | some token =>
      rw [Outcome.ret_bind, Outcome.bind_eq_ret]
      constructor
      · rintro ⟨rest, hrest, heq⟩
        cases heq
        exact List.Forall₂.cons hfind (ih.mp hrest)
      · intro h
        cases h with
        | @cons _ t _ rest hhead htail =>
          rw [hfind, Option.some.injEq] at hhead
          subst hhead
          exact ⟨rest, ih.mpr htail, rfl⟩

/-- Tokens that are ranks, each of a word that is not empty. -/
def AllRanks (encoder : EncodeDict) (tokens : List UInt32) : Prop :=
  ∀ t ∈ tokens, ∃ w, w ≠ [] ∧ encoder.find? w = some t

theorem AllRanks.of_forall₂ {segs : List Bytes} {tokens : List UInt32}
    (h : List.Forall₂ (fun s t => encoder.find? s = some t) segs tokens) (hne : [] ∉ segs) :
    AllRanks encoder tokens := by
  induction h with
  | nil => exact fun t ht => absurd ht List.not_mem_nil
  | @cons s t segs tokens hhead _ ih =>
    rw [List.mem_cons, not_or] at hne
    exact List.forall_mem_cons.mpr ⟨⟨s, Ne.symm hne.1, hhead⟩, ih hne.2⟩

/-- The words of tokens, one by one. -/
def spelling (self : CoreBpe E) (tokens : List UInt32) : List Bytes :=
  tokens.map fun t => decoded self [t]

theorem flatten_spelling (tokens : List UInt32) :
    (spelling self tokens).flatten = decoded self tokens := by
  induction tokens with
  | nil => rfl
  | cons t tokens ih =>
    have happend : decoded self (t :: tokens) = decoded self [t] ++ decoded self tokens :=
      decoded_append [t] tokens
    rw [happend, ← ih]
    rfl

theorem spelling_of_forall₂ (hranks : DistinctValues self.encoder) {segs : List Bytes}
    {tokens : List UInt32}
    (h : List.Forall₂ (fun s t => self.encoder.find? s = some t) segs tokens) :
    spelling self tokens = segs := by
  induction h with
  | nil => rfl
  | @cons s t segs tokens hhead _ ih =>
    show decoded self [t] :: spelling self tokens = s :: segs
    rw [decoded_rank hranks hhead, ih]

theorem AllRanks.forall₂ (hranks : DistinctValues self.encoder) {tokens : List UInt32}
    (h : AllRanks self.encoder tokens) :
    List.Forall₂ (fun s t => self.encoder.find? s = some t) (spelling self tokens) tokens := by
  rw [spelling, List.forall₂_map_left_iff, List.forall₂_same]
  intro t ht
  obtain ⟨w, -, hw⟩ := h t ht
  rwa [decoded_rank hranks hw]

theorem AllRanks.nil_notMem (hranks : DistinctValues self.encoder) {tokens : List UInt32}
    (h : AllRanks self.encoder tokens) : [] ∉ spelling self tokens := by
  intro hmem
  obtain ⟨t, ht, heq⟩ := List.mem_map.mp hmem
  obtain ⟨w, hne, hw⟩ := h t ht
  rw [decoded_rank hranks hw] at heq
  exact hne heq

-- ---------------------------------------------------------------------------
-- Encoding as segmentation
-- ---------------------------------------------------------------------------

/-- A word is encoded to the tokens exactly if their words are its segments. -/
theorem bytePairEncode_eq_ret_iff (hranks : DistinctValues self.encoder) {word : Bytes}
    (hword : word ≠ []) {tokens : List UInt32} :
    bytePairEncode self.encoder word = .ret tokens ↔
      AllRanks self.encoder tokens ∧
        segments (rankOf self.encoder) word = spelling self tokens := by
  rw [bytePairEncode_eq _ hword, naiveEncode, naiveSegments_eq, lookupAll_eq_ret_iff]
  constructor
  · intro h
    exact ⟨AllRanks.of_forall₂ h (nil_notMem_segments word), (spelling_of_forall₂ hranks h).symm⟩
  · rintro ⟨hall, hsegs⟩
    rw [hsegs]
    exact hall.forall₂ hranks

theorem AllRanks.decoded_ne_nil (hranks : DistinctValues self.encoder) {tokens : List UInt32}
    (h : AllRanks self.encoder tokens) (hne : tokens ≠ []) : decoded self tokens ≠ [] := by
  have hspelling := h.nil_notMem hranks
  intro hnil
  rw [← flatten_spelling, List.flatten_eq_nil_iff] at hnil
  obtain ⟨t, ht⟩ := List.exists_mem_of_ne_nil tokens hne
  have hmem : decoded self [t] ∈ spelling self tokens := List.mem_map_of_mem ht
  rw [hnil _ hmem] at hmem
  exact hspelling hmem

/-- The tokens are the encoding of the text they decode to. -/
def EncodesBack (self : CoreBpe E) (tokens : List UInt32) : Prop :=
  bytePairEncode self.encoder (decoded self tokens) = .ret tokens

theorem encodesBack_iff (hranks : DistinctValues self.encoder) {tokens : List UInt32}
    (hall : AllRanks self.encoder tokens) (hne : tokens ≠ []) :
    EncodesBack self tokens ↔
      segments (rankOf self.encoder) (spelling self tokens).flatten = spelling self tokens := by
  rw [EncodesBack, bytePairEncode_eq_ret_iff hranks (hall.decoded_ne_nil hranks hne), flatten_spelling]
  exact and_iff_right hall

theorem encodesBack_of_encode (hranks : DistinctValues self.encoder) {word : Bytes}
    (hword : word ≠ []) {tokens : List UInt32}
    (h : bytePairEncode self.encoder word = .ret tokens) : EncodesBack self tokens := by
  obtain ⟨-, hsegs⟩ := (bytePairEncode_eq_ret_iff hranks hword).mp h
  have hdecoded : decoded self tokens = word := by
    rw [← flatten_spelling, ← hsegs, flatten_segments]
  rw [EncodesBack, hdecoded, h]

-- ---------------------------------------------------------------------------
-- Cutting and checking an encoding
-- ---------------------------------------------------------------------------

/-- **Every part of an encoding is an encoding**: tokens that stand side by
side in the encoding of a word are what the text they decode to is encoded
to. -/
theorem bytePairEncode_slice (hranks : DistinctValues self.encoder) {word : Bytes}
    (hword : word ≠ []) {pre mid post : List UInt32}
    (h : bytePairEncode self.encoder word = .ret (pre ++ (mid ++ post))) (hmid : mid ≠ []) :
    EncodesBack self mid := by
  obtain ⟨hall, hsegs⟩ := (bytePairEncode_eq_ret_iff hranks hword).mp h
  have hallMid : AllRanks self.encoder mid := fun t ht => hall t (by simp [ht])
  have hspelling : spelling self (pre ++ (mid ++ post)) =
      spelling self pre ++ (spelling self mid ++ spelling self post) := by
    unfold spelling
    rw [List.map_append, List.map_append]
  rw [hspelling] at hsegs
  exact (encodesBack_iff hranks hallMid hmid).mpr (segments_slice hsegs).2.1

theorem mem_abDict {w : Bytes} {r : UInt32} :
    abDict.find? w = some r ↔
      (w, r) ∈ [(str "a", 0), (str "b", 1), (str "ab", 2), (str "abab", 3)] := by
  rw [UnorderedMap.find?_eq_some_iff]
  have hentries : abDict.entries = [(str "a", 0), (str "b", 1), (str "ab", 2), (str "abab", 3)] := by
    decide
  rw [hentries]

theorem abDict_distinct : DistinctValues abDict := by
  intro k k' v hk hk'
  rw [mem_abDict] at hk hk'
  simp only [List.mem_cons, Prod.mk.injEq, List.not_mem_nil, or_false] at hk hk'
  rcases hk with ⟨rfl, rfl⟩ | ⟨rfl, rfl⟩ | ⟨rfl, rfl⟩ | ⟨rfl, rfl⟩ <;>
    rcases hk' with ⟨rfl, h⟩ | ⟨rfl, h⟩ | ⟨rfl, h⟩ | ⟨rfl, h⟩ <;>
    first
    | rfl
    | exact absurd h (by decide)

/-- An object with this dictionary. -/
theorem abDict_self :
    ∃ self, CoreBpe.new plainPlatform 1 abDict endoftextTable (str r50kPat) = .ret self ∧
      self.encoder = abDict := by
  obtain ⟨self, hself, hbuilt, -⟩ := new_built plainPlatform_documented abDict endoftextTable_kind
    r50kPat_registered Nat.one_pos
  exact ⟨self, hself, hbuilt.encoder⟩

theorem bytePairEncode_slice_abab :
    ∃ self, CoreBpe.new plainPlatform 1 abDict endoftextTable (str r50kPat) = .ret self ∧
      bytePairEncode self.encoder (str "ababa") = .ret ([] ++ ([3] ++ [0])) ∧
      EncodesBack self [3] := by
  obtain ⟨self, hself, hencoder⟩ := abDict_self
  have hword : bytePairEncode self.encoder (str "ababa") = .ret ([] ++ ([3] ++ [0])) := by
    rw [hencoder]
    exact (bytePairEncode_eq abDict (by decide)).trans (by decide)
  exact ⟨self, hself, hword,
    bytePairEncode_slice (hencoder ▸ abDict_distinct) (by decide) hword (by decide)⟩

/-- **An encoding is recognised two tokens at a time.** -/
theorem bytePairEncode_eq_iff (hranks : DistinctValues self.encoder) {tokens : List UInt32}
    (hall : AllRanks self.encoder tokens) (hne : tokens ≠ []) :
    EncodesBack self tokens ↔
      (∀ t ∈ tokens, EncodesBack self [t]) ∧ tokens.IsChain fun a b => EncodesBack self [a, b] := by
  have hpart {part : List UInt32} (hpart : ∀ t ∈ part, t ∈ tokens) (hne : part ≠ []) :
      EncodesBack self part ↔
        segments (rankOf self.encoder) (spelling self part).flatten = spelling self part :=
    encodesBack_iff hranks (fun t ht => hall t (hpart t ht)) hne
  rw [encodesBack_iff hranks hall hne, segments_eq_iff (hall.nil_notMem hranks), spelling,
    List.forall_mem_map, List.isChain_map]
  refine and_congr ?_ ?_
  · refine forall₂_congr ?_
    intro t ht
    rw [hpart (by simpa using ht) (by simp), flatten_spelling]
    rfl
  · refine List.IsChain.iff_of_mem_imp ?_
    intro a b ha hb
    rw [hpart (by simp [ha, hb]) (by simp)]
    have hflat : (spelling self [a, b]).flatten = decoded self [a] ++ decoded self [b] := by
      rw [flatten_spelling]
      exact decoded_append [a] [b]
    rw [hflat]
    rfl

/-- The tokens of `abab`, `abab` and `a` are the encoding of `ababababa`. -/
theorem bytePairEncode_eq_iff_abab :
    ∃ self, CoreBpe.new plainPlatform 1 abDict endoftextTable (str r50kPat) = .ret self ∧
      EncodesBack self [3, 3, 0] := by
  obtain ⟨self, hself, hencoder⟩ := abDict_self
  have hall : AllRanks self.encoder [3, 3, 0] := by
    have habab : ∃ w, w ≠ [] ∧ abDict.find? w = some 3 := ⟨str "abab", by decide, by decide⟩
    have ha : ∃ w, w ≠ [] ∧ abDict.find? w = some 0 := ⟨str "a", by decide, by decide⟩
    rw [hencoder]
    simp [AllRanks, habab, ha]
  have hback {tokens : List UInt32} {word : Bytes} (hword : word ≠ [])
      (h : naiveEncode abDict word = .ret tokens) : EncodesBack self tokens := by
    refine encodesBack_of_encode (hencoder ▸ abDict_distinct) hword ?_
    rw [hencoder, bytePairEncode_eq _ hword, h]
  have ha : EncodesBack self [0] := hback (by decide : str "a" ≠ []) (by decide)
  have habab : EncodesBack self [3] := hback (by decide : str "abab" ≠ []) (by decide)
  have hsame : EncodesBack self [3, 3] := hback (by decide : str "abababab" ≠ []) (by decide)
  have hlast : EncodesBack self [3, 0] := hback (by decide : str "ababa" ≠ []) (by decide)
  refine ⟨self, hself, (bytePairEncode_eq_iff (hencoder ▸ abDict_distinct) hall (by decide)).mpr ?_⟩
  simp [ha, habab, hsame, hlast]

end

end TiktokenCpp
