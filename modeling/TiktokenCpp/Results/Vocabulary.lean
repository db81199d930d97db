import Mathlib.Order.Bounds.Defs
import TiktokenCpp.Results.RoundTrip

/-!
# Vocabularies and their ids

The constructor of `TikToken` compares the largest id of a vocabulary with its
size, but takes the number of ranks for the largest rank. It never looks at the
ranks themselves, so two tokens may share an id.

Main results:

* `vocab_accepted_iff` -- a vocabulary without gaps passes the assertions
  exactly when its last id is that of a special token;
* `decodes_iff` -- every token decodes to itself exactly when no two tokens
  share an id.
-/

namespace TiktokenCpp

open Utf8 Pcre2

/-! ## The largest id -/

/-- The ids in a map. -/
def idList (m : UnorderedMap Bytes UInt32) : List Nat := m.entries.map fun e => e.2.toNat

theorem length_idList (m : UnorderedMap Bytes UInt32) : (idList m).length = m.size :=
  List.length_map ..

theorem mem_idList {m : UnorderedMap Bytes UInt32} {i : Nat} :
    i ∈ idList m ↔ ∃ k v, m.find? k = some v ∧ v.toNat = i := by
  constructor
  · intro hi
    obtain ⟨⟨k, v⟩, hmem, rfl⟩ := List.mem_map.mp hi
    exact ⟨k, v, UnorderedMap.find?_eq_some_iff.mpr hmem, rfl⟩
  · rintro ⟨k, v, hfind, rfl⟩
    exact List.mem_map.mpr ⟨(k, v), UnorderedMap.find?_eq_some_iff.mp hfind, rfl⟩

/-- A well-formed vocabulary of `n` tokens: every id from `0` to `n - 1` is that
of exactly one token, ordinary or special, and there is a special token. -/
structure WellFormedVocab (n : UInt32) (encoder : EncodeDict) (special : StrViewToInt) : Prop where
  special_ne_nil : special.entries ≠ []
  ids : (idList encoder ++ idList special).Perm (List.range n.toNat)

/-- The largest special id, found by a fold. -/
private theorem foldl_max_spec (es : List (Bytes × UInt32)) (value : UInt32) :
    value.toNat ≤ (es.foldl (fun value tk => if value < tk.2 then tk.2 else value) value).toNat ∧
    (∀ e ∈ es, e.2.toNat ≤
      (es.foldl (fun value tk => if value < tk.2 then tk.2 else value) value).toNat) ∧
    (es.foldl (fun value tk => if value < tk.2 then tk.2 else value) value = value ∨
      ∃ e ∈ es, e.2 = es.foldl (fun value tk => if value < tk.2 then tk.2 else value) value) := by
  induction es generalizing value with
  | nil => simp
  | cons e es ih =>
    rw [List.foldl_cons]
    split
    · next hlt =>
      obtain ⟨hvalue, hall, hmem⟩ := ih e.2
      rw [UInt32.lt_iff_toNat_lt] at hlt
      refine ⟨by omega, List.forall_mem_cons.mpr ⟨hvalue, hall⟩, Or.inr ?_⟩
      rcases hmem with heq | ⟨e', he', heq⟩
      · exact ⟨e, List.mem_cons_self .., heq.symm⟩
      · exact ⟨e', List.mem_cons_of_mem _ he', heq⟩
    · next hge =>
      obtain ⟨hvalue, hall, hmem⟩ := ih value
      rw [UInt32.lt_iff_toNat_lt] at hge
      refine ⟨hvalue, List.forall_mem_cons.mpr ⟨by omega, hall⟩, ?_⟩
      rcases hmem with heq | ⟨e', he', heq⟩
      · exact Or.inl heq
      · exact Or.inr ⟨e', List.mem_cons_of_mem _ he', heq⟩

section

variable {n : UInt32} {encoder : EncodeDict} {special : StrViewToInt}

theorem getMaxSpecialTokenValue_mem (hne : special.entries ≠ []) :
    (getMaxSpecialTokenValue special).toNat ∈ idList special := by
  obtain ⟨-, hall, hmem⟩ := foldl_max_spec special.entries 0
  rcases hmem with hzero | ⟨e, he, heq⟩
  · obtain ⟨e, he⟩ := List.exists_mem_of_ne_nil _ hne
    have hle := hall e he
    rw [hzero] at hle
    have hid : e.2.toNat = 0 := Nat.le_zero.mp hle
    exact List.mem_map.mpr ⟨e, he, by rw [getMaxSpecialTokenValue, hzero, hid]; rfl⟩
  · exact List.mem_map.mpr ⟨e, he, by rw [heq]; rfl⟩

theorem le_getMaxSpecialTokenValue {i : Nat} (hi : i ∈ idList special) :
    i ≤ (getMaxSpecialTokenValue special).toNat := by
  obtain ⟨e, he, rfl⟩ := List.mem_map.mp hi
  exact (foldl_max_spec special.entries 0).2.1 e he

/-- `GetMaxTokenValue` is the number of ranks less one, whatever they are. -/
theorem getMaxTokenValue_toNat (hsize : encoder.size < 2 ^ 32) :
    (getMaxTokenValue encoder).toNat = encoder.size - 1 := by
  have hvalue : (UInt32.ofNat encoder.size).toNat = encoder.size := UInt32.toNat_ofNat_of_lt' hsize
  unfold getMaxTokenValue
  dsimp only
  split
  · next hne =>
    have hpos : 0 < encoder.size := by
      rw [Nat.pos_iff_ne_zero]
      intro hzero
      rw [hzero] at hne
      exact hne rfl
    have hone : (1 : UInt32) ≤ UInt32.ofNat encoder.size := by
      rw [UInt32.le_iff_toNat_le, hvalue]
      exact hpos
    rw [UInt32.toNat_sub_of_le _ _ hone, hvalue]
    rfl
  · next hzero =>
    rw [not_not] at hzero
    have hsize0 : encoder.size = 0 := by
      rw [← hvalue, hzero]
      rfl
    rw [hzero, hsize0]
    rfl

theorem maxTokenValue_toNat (special : StrViewToInt) (hsize : encoder.size < 2 ^ 32) :
    (maxTokenValue encoder special).toNat =
      max (encoder.size - 1) (getMaxSpecialTokenValue special).toNat := by
  have hmax (a b : UInt32) : (max a b).toNat = max a.toNat b.toNat := by
    show (if a ≤ b then b else a).toNat = _
    split
    · next h =>
      rw [UInt32.le_iff_toNat_le] at h
      omega
    · next h =>
      rw [UInt32.le_iff_toNat_le] at h
      omega
  rw [maxTokenValue, hmax, getMaxTokenValue_toNat hsize]

theorem checkVocab_eq_ret :
    checkVocab (some n) encoder special = .ret () ↔
      special.size + encoder.size = n.toNat ∧ maxTokenValue encoder special = n - 1 := by
  show (Outcome.assert _ >>= fun _ => Outcome.assert _) = _ ↔ _
  rw [Outcome.assert_bind_eq_ret, Outcome.assert_eq_ret, decide_eq_true_iff, decide_eq_true_iff]

namespace WellFormedVocab

theorem mem_iff (h : WellFormedVocab n encoder special) {i : Nat} :
    i ∈ idList encoder ∨ i ∈ idList special ↔ i < n.toNat := by
  rw [← List.mem_append, h.ids.mem_iff, List.mem_range]

theorem size_add (h : WellFormedVocab n encoder special) :
    special.size + encoder.size = n.toNat := by
  have hlen := h.ids.length_eq
  rw [List.length_append, length_idList, length_idList, List.length_range] at hlen
  omega

theorem special_pos (h : WellFormedVocab n encoder special) : 0 < special.size :=
  List.length_pos_iff.mpr h.special_ne_nil

/-- The last id. -/
theorem toNat_sub_one (h : WellFormedVocab n encoder special) : (n - 1).toNat = n.toNat - 1 := by
  have hone : (1 : UInt32) ≤ n := by
    rw [UInt32.le_iff_toNat_le, ← h.size_add]
    exact Nat.le_add_right_of_le h.special_pos
  rw [UInt32.toNat_sub_of_le _ _ hone]
  rfl

theorem size_lt (h : WellFormedVocab n encoder special) : encoder.size < 2 ^ 32 := by
  have hn := n.toNat_lt
  have hsize := h.size_add
  omega

end WellFormedVocab

/-- The constructor accepts a vocabulary of `n` tokens: both assertions hold and
`m_maxTokenValue` is the largest id. -/
structure AcceptsVocab (n : UInt32) (encoder : EncodeDict) (special : StrViewToInt) : Prop where
  assertions : checkVocab (some n) encoder special = .ret ()
  greatest : IsGreatest {i | i ∈ idList encoder ∨ i ∈ idList special}
    (maxTokenValue encoder special).toNat

/-- **A well-formed vocabulary is accepted exactly when its last id is special.**
Otherwise the largest special id and the number of ranks less one are both too
small. -/
theorem vocab_accepted_iff (h : WellFormedVocab n encoder special) :
    AcceptsVocab n encoder special ↔ ∃ name, special.find? name = some (n - 1) := by
  have hsize := h.size_add
  have hpos := h.special_pos
  have hlast := h.toNat_sub_one
  have hvalue := maxTokenValue_toNat special h.size_lt
  have hspecial := getMaxSpecialTokenValue_mem h.special_ne_nil
  constructor
  · intro haccepts
    obtain ⟨-, hmax⟩ := checkVocab_eq_ret.mp haccepts.assertions
    have hmaxNat := congrArg UInt32.toNat hmax
    rw [hvalue, hlast] at hmaxNat
    have hmem : n.toNat - 1 ∈ idList special := by
      rcases h.mem_iff.mpr (show n.toNat - 1 < n.toNat by omega) with hrank | hid
      · -- a rank is there, so the number of ranks less one is less than the last id
        have hrankPos : 0 < encoder.size := by
          rw [← length_idList]
          exact List.length_pos_of_mem hrank
        have heq : (getMaxSpecialTokenValue special).toNat = n.toNat - 1 := by omega
        exact heq ▸ hspecial
      · exact hid
    obtain ⟨name, v, hfind, hv⟩ := mem_idList.mp hmem
    exact ⟨name, by rw [hfind, UInt32.toNat_inj.mp (hv.trans hlast.symm)]⟩
  · rintro ⟨name, hfind⟩
    have hmem : n.toNat - 1 ∈ idList special := mem_idList.mpr ⟨name, n - 1, hfind, hlast⟩
    have hle := le_getMaxSpecialTokenValue hmem
    have hlt := h.mem_iff.mp (Or.inr hspecial)
    have hmaxNat : (maxTokenValue encoder special).toNat = n.toNat - 1 := by omega
    refine ⟨checkVocab_eq_ret.mpr ⟨hsize, UInt32.toNat_inj.mp (hmaxNat.trans hlast.symm)⟩, ?_, ?_⟩
    · rw [hmaxNat]
      exact Or.inr hmem
    · intro i hi
      have := h.mem_iff.mp hi
      omega

end

theorem vocab_accepted_two :
    AcceptsVocab 2 (UnorderedMap.empty.emplaceAll [(str "a", 0)])
      (UnorderedMap.empty.emplaceAll [(endoftext, 1)]) :=
  (vocab_accepted_iff ⟨by decide, by decide⟩).mpr ⟨endoftext, rfl⟩

/-! ## The layout of `p50k_base` -/

/-- The ranks of `p50k_base`: the special id 50256 lies below the last of them. -/
def p50kRanks : List Nat := List.range 50256 ++ (List.range 24).map (50257 + ·)

/-- The bytes of a rank, as a stand-in for its token. -/
def p50kToken (i : Nat) : Bytes := [UInt8.ofNat (i / 2 ^ 16), UInt8.ofNat (i / 2 ^ 8), UInt8.ofNat i]

theorem lt_of_mem_p50kRanks {i : Nat} (hi : i ∈ p50kRanks) : i < 50281 := by
  rcases List.mem_append.mp hi with hi | hi
  · rw [List.mem_range] at hi
    omega
  · obtain ⟨j, hj, rfl⟩ := List.mem_map.mp hi
    rw [List.mem_range] at hj
    omega

theorem p50kToken_injOn {i j : Nat} (hi : i < 50281) (hj : j < 50281)
    (h : p50kToken i = p50kToken j) : i = j := by
  unfold p50kToken at h
  simp only [List.cons.injEq, and_true] at h
  obtain ⟨h2, h1, h0⟩ := h
  replace h2 := congrArg UInt8.toNat h2
  replace h1 := congrArg UInt8.toNat h1
  replace h0 := congrArg UInt8.toNat h0
  rw [UInt8.toNat_ofNat', UInt8.toNat_ofNat'] at h2 h1 h0
  omega

theorem p50kRanks_nodup : p50kRanks.Nodup := by
  refine List.nodup_append.mpr ⟨List.nodup_range, ?_, ?_⟩
  · exact List.nodup_range.map fun i j hij => Nat.add_left_cancel hij
  · intro i hi j hj hij
    obtain ⟨k, -, rfl⟩ := List.mem_map.mp hj
    rw [List.mem_range] at hi
    omega

/-- A dictionary with the ranks of `p50k_base`. -/
def p50kDict : EncodeDict where
  entries := p50kRanks.map fun i => (p50kToken i, UInt32.ofNat i)
  nodup := by
    rw [List.map_map]
    refine List.Nodup.map_on (?_) p50kRanks_nodup
    intro i hi j hj hij
    exact p50kToken_injOn (lt_of_mem_p50kRanks hi) (lt_of_mem_p50kRanks hj) hij

theorem idList_p50kDict : idList p50kDict = p50kRanks := by
  unfold idList p50kDict
  rw [List.map_map]
  refine (List.map_congr_left ?_).trans (List.map_id p50kRanks)
  intro i hi
  have hlt := lt_of_mem_p50kRanks hi
  exact UInt32.toNat_ofNat_of_lt' (Nat.lt_trans hlt (by decide))

theorem size_p50kDict : p50kDict.size = 50280 := by
  rw [← length_idList, idList_p50kDict, p50kRanks, List.length_append, List.length_range,
    List.length_map, List.length_range]

/-- The layout is that of a well-formed vocabulary. -/
theorem p50kDict_wellFormed : WellFormedVocab 50281 p50kDict endoftextTable where
  special_ne_nil := List.cons_ne_nil _ _
  ids := by
    have hrange : List.range 50281 = List.range 50256 ++ 50256 :: (List.range 24).map (50257 + ·) := by
      rw [show 50281 = 50256 + 25 from rfl, List.range_add]
      rfl
    rw [idList_p50kDict, p50kRanks, List.append_assoc]
    show List.Perm _ (List.range 50281)
    rw [hrange]
    exact (List.perm_append_singleton 50256 _).append_left _

theorem checkVocab_p50kDict : checkVocab (some 50281) p50kDict endoftextTable = .abort := by
  have hsize : endoftextTable.size + p50kDict.size = 50281 := by
    rw [size_p50kDict]
    rfl
  have hvalue : maxTokenValue p50kDict endoftextTable = 50279 := by
    apply UInt32.toNat_inj.mp
    rw [maxTokenValue_toNat _ (by rw [size_p50kDict]; decide), size_p50kDict]
    rfl
  unfold checkVocab
  rw [hsize, hvalue]
  rfl

/-- The vocabulary of `p50k_base`, whose last id is a rank: the second assertion
fails, so the constructor ends the program. -/
theorem p50k_not_accepted :
    WellFormedVocab 50281 p50kDict endoftextTable ∧
      ¬ AcceptsVocab 50281 p50kDict endoftextTable ∧
      TikToken.fromEncoder plainPlatform 1 { r50kParam with vocabN := some 50281 } p50kDict =
        .abort := by
  refine ⟨p50kDict_wellFormed, ?_, ?_⟩
  · intro haccepts
    have hassertions := haccepts.assertions
    rw [checkVocab_p50kDict] at hassertions
    simp at hassertions
  · unfold TikToken.fromEncoder
    show (checkVocab (some 50281) p50kDict endoftextTable >>= _) = _
    rw [checkVocab_p50kDict]
    rfl

/-! ## Shared ids -/

/-- A token, ordinary or special, has an id. -/
def HasId (encoder : EncodeDict) (special : StrViewToInt) (token : Bytes) (id : UInt32) : Prop :=
  encoder.find? token = some id ∨ special.find? token = some id

/-- No two different tokens share an id. -/
def UniqueIds (encoder : EncodeDict) (special : StrViewToInt) : Prop :=
  ∀ token token' id, HasId encoder special token id → HasId encoder special token' id →
    token = token'

/-- Every token decodes to itself, and the dictionary that `InitDecodeDict`
builds does not depend on the iteration order. -/
structure DecodesUnambiguously {E : Platform} (bpe : CoreBpe E) (special : StrViewToInt) : Prop where
  rank : ∀ token id, bpe.encoder.find? token = some id → (bpe.decodeNative [id]).1 = [token]
  specialId : ∀ name id, special.find? name = some id → (bpe.decodeNative [id]).1 = [name]
  order : ∀ es (h : es.Perm bpe.encoder.entries) id,
    (initDecodeDict (bpe.encoder.reorder es h)).find? id = (initDecodeDict bpe.encoder).find? id

section

variable {E : Platform} {U : UnicodeProps} {encoder : EncodeDict} {special : StrViewToInt}
  {self : CoreBpe E}

theorem UniqueIds.ranks (h : UniqueIds encoder special) : DistinctValues encoder :=
  fun k k' v hk hk' => h k k' v (Or.inl hk) (Or.inl hk')

theorem UniqueIds.ids (h : UniqueIds encoder special) : DistinctValues special :=
  fun k k' v hk hk' => h k k' v (Or.inr hk) (Or.inr hk')

/-- Another iteration order gives the same inverse, when no rank is used twice. -/
theorem find?_initDecodeDict_reorder (hranks : DistinctValues encoder)
    {es : List (Bytes × UInt32)} (hes : es.Perm encoder.entries) (id : UInt32) :
    (initDecodeDict (encoder.reorder es hes)).find? id = (initDecodeDict encoder).find? id := by
  have hsame (k : Bytes) : (encoder.reorder es hes).find? k = encoder.find? k :=
    UnorderedMap.find?_perm hes k
  have hranks' : DistinctValues (encoder.reorder es hes) := by
    intro k k' v hk hk'
    rw [hsame] at hk hk'
    exact hranks k k' v hk hk'
  apply Option.ext
  intro w
  rw [find?_initDecodeDict hranks', find?_initDecodeDict hranks, hsame]

theorem decodeNative_single (hbuilt : Built U encoder special self) (id : UInt32) :
    (self.decodeNative [id]).1 = decodeToken (initDecodeDict encoder) self.specialTokensDecoder id := by
  unfold CoreBpe.decodeNative CoreBpe.withDecoder
  rw [hbuilt.decoder]
  dsimp only
  rw [List.flatMap_singleton, hbuilt.encoder]

theorem Built.decodesUnambiguously_iff (hbuilt : Built U encoder special self) :
    DecodesUnambiguously self special ↔ UniqueIds encoder special := by
  have henc := hbuilt.encoder
  constructor
  · intro hdecodes token token' id hid hid'
    have hself {t : Bytes} (ht : HasId encoder special t id) : (self.decodeNative [id]).1 = [t] := by
      rcases ht with ht | ht
      · rw [← henc] at ht
        exact hdecodes.rank t id ht
      · exact hdecodes.specialId t id ht
    exact List.singleton_inj.mp ((hself hid).symm.trans (hself hid'))
  · intro hunique
    refine ⟨?_, ?_, ?_⟩
    · intro token id hid
      rw [henc] at hid
      rw [decodeNative_single hbuilt, decodeToken, (find?_initDecodeDict hunique.ranks).mpr hid]
    · intro name id hid
      rw [decodeNative_single hbuilt, decodeToken]
      cases hword : (initDecodeDict encoder).find? id with
      | some word =>
        have hrank := (find?_initDecodeDict hunique.ranks).mp hword
        rw [hunique word name id (Or.inl hrank) (Or.inr hid)]
      | none =>
        rw [hbuilt.find?_specialTokensDecoder hunique.ids hid]
        rfl
    · intro es hes id
      exact find?_initDecodeDict_reorder (henc ▸ hunique.ranks) hes id

/-- The object of a completed constructor has the dictionary of its file. -/
theorem built_of_tikToken_new (hE : E.Documented U) {param : EncodingParam}
    (hkind : SpecialKind param.specialTokens) {fuel : Nat} (hfuel : 0 < fuel) {tok : TikToken E}
    (h : TikToken.new E fuel param = .ret tok) :
    Built U tok.corebpe.encoder param.specialTokens tok.corebpe := by
  unfold TikToken.new at h
  obtain ⟨loaded, -, h⟩ := Outcome.bind_eq_ret.mp h
  cases loaded with
  | none => cases h
  | some encoder =>
    obtain ⟨hbuilt, -, -⟩ := built_of_fromEncoder hE hkind hfuel h
    rw [hbuilt.encoder]
    exact hbuilt

/-- **A vocabulary decodes unambiguously exactly when its ids are unique.** The
constructor completes without a look at this. -/
theorem decodes_iff (hE : E.Documented U) {param : EncodingParam}
    (hparam : param ∈ (sEncodingParam E.order).dropLast) {fuel : Nat} (hfuel : 0 < fuel)
    {tok : TikToken E} (h : TikToken.new E fuel param = .ret tok) :
    DecodesUnambiguously tok.corebpe param.specialTokens ↔
      UniqueIds tok.corebpe.encoder param.specialTokens := by
  have hkind := (registry_specialKind E.order param hparam).1
  exact (built_of_tikToken_new hE hkind hfuel h).decodesUnambiguously_iff

end

/-! ## An instance -/

/-- The platform with one file in its cache, for `cl100k_base`. -/
def filePlatform (content : Bytes) : Platform :=
  { plainPlatform with
    cache := fun file => if file = str "cl100k_base.tiktoken" then some content else none }

theorem filePlatform_documented (content : Bytes) : (filePlatform content).Documented asciiProps :=
  ⟨reference_documented asciiProps, Iconv.identity_documented⟩

/-- The entry of `cl100k_base` in the registry. -/
def cl100kParam : EncodingParam := (sEncodingParam IterationOrder.insertion).get ⟨3, by decide⟩

theorem cl100kParam_registered : cl100kParam ∈ (sEncodingParam IterationOrder.insertion).dropLast :=
  List.mem_cons_of_mem _ (List.mem_cons_of_mem _ (List.mem_cons_of_mem _ (List.mem_cons_self ..)))

/-- With a file that loads, the constructor completes: the registry gives no
size for `cl100k_base`. -/
theorem new_cl100kParam {content : Bytes} {dict : EncodeDict}
    (hload : loadTiktokenBpe IterationOrder.insertion content = .ret dict) :
    ∃ tok, TikToken.new (filePlatform content) 1 cl100kParam = .ret tok ∧
      tok.corebpe.encoder = dict := by
  have hkind := (registry_specialKind IterationOrder.insertion _ cl100kParam_registered).1
  obtain ⟨tok, htok⟩ := fromEncoder_ret (filePlatform_documented content) cl100kParam dict hkind
    ⟨_, _, cl100kParam_registered, rfl⟩ rfl (Nat.succ_pos 0)
  obtain ⟨hbuilt, -, -⟩ := built_of_fromEncoder (filePlatform_documented content) hkind
    (Nat.succ_pos 0) htok
  refine ⟨tok, ?_, hbuilt.encoder⟩
  have hcache : (filePlatform content).cache (cl100kParam.name ++ str ".tiktoken") = some content := by
    have hfile : cl100kParam.name ++ str ".tiktoken" = str "cl100k_base.tiktoken" := by decide
    simp [filePlatform, hfile]
  have hget : getTiktokenEncoding (filePlatform content).cache (filePlatform content).order
      cl100kParam.name = .ret (some dict) := by
    unfold getTiktokenEncoding
    rw [hcache]
    show (loadTiktokenBpe IterationOrder.insertion content >>= _) = _
    rw [hload]
    rfl
  unfold TikToken.new
  rw [hget, Outcome.ret_bind]
  exact htok

theorem uniqueIds_of_entries {encoder : EncodeDict} {special : StrViewToInt}
    (h : ∀ e ∈ encoder.entries ++ special.entries, ∀ e' ∈ encoder.entries ++ special.entries,
      e.2 = e'.2 → e.1 = e'.1) : UniqueIds encoder special := by
  have hmem {token : Bytes} {id : UInt32} (hid : HasId encoder special token id) :
      (token, id) ∈ encoder.entries ++ special.entries := by
    rw [List.mem_append, ← UnorderedMap.find?_eq_some_iff, ← UnorderedMap.find?_eq_some_iff]
    exact hid
  intro token token' id hid hid'
  exact h _ (hmem hid) _ (hmem hid') rfl

/-- A file with two ranks, neither used twice. -/
theorem decodes_iff_two :
    ∃ tok, TikToken.new (filePlatform (str "QQ== 0\nQg== 1\n")) 1 cl100kParam = .ret tok ∧
      DecodesUnambiguously tok.corebpe cl100kParam.specialTokens := by
  obtain ⟨tok, htok, hencoder⟩ := new_cl100kParam
    (show loadTiktokenBpe IterationOrder.insertion (str "QQ== 0\nQg== 1\n") =
      .ret (UnorderedMap.empty.emplaceAll [(str "A", 0), (str "B", 1)]) from rfl)
  refine ⟨tok, htok, (decodes_iff (filePlatform_documented _) cl100kParam_registered
    (Nat.succ_pos 0) htok).mpr ?_⟩
  rw [hencoder]
  exact uniqueIds_of_entries (by decide +kernel)

/-- A file that gives `A` and `B` the same rank is accepted, and one of the two
does not decode to itself. -/
theorem shared_rank_accepted :
    ∃ tok, TikToken.new (filePlatform (str "QQ== 0\nQg== 0\n")) 1 cl100kParam = .ret tok ∧
      tok.corebpe.encoder.find? (str "A") = some 0 ∧ tok.corebpe.encoder.find? (str "B") = some 0 ∧
      ¬ DecodesUnambiguously tok.corebpe cl100kParam.specialTokens := by
  obtain ⟨tok, htok, hencoder⟩ := new_cl100kParam
    (show loadTiktokenBpe IterationOrder.insertion (str "QQ== 0\nQg== 0\n") =
      .ret (UnorderedMap.empty.emplaceAll [(str "A", 0), (str "B", 0)]) from rfl)
  have hA : tok.corebpe.encoder.find? (str "A") = some 0 := by
    rw [hencoder]
    decide
  have hB : tok.corebpe.encoder.find? (str "B") = some 0 := by
    rw [hencoder]
    decide
  refine ⟨tok, htok, hA, hB, ?_⟩
  intro hdecodes
  have hsame := (hdecodes.rank _ _ hA).symm.trans (hdecodes.rank _ _ hB)
  exact absurd hsame (by decide)

end TiktokenCpp
