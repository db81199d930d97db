import TiktokenCpp.Results.Startup

/-!
# When there is an object

All that `GetEncoding` and `EncodingForModel` can end in, for any content of
the cache: the two errors of their own, an error of the loader, a failed
assertion, or an object. For two encodings any file that loads will do, for
`r50k_base` the number of its tokens must be right, and for `p50k_base` there is
no file that passes the assertions.

Main results:

* `getEncoding_outcome` -- every ending, with its condition;
* `encodingForModel_returns_iff` -- when the name of a model gives an object.
-/

namespace TiktokenCpp

open Pcre2

/-- The assertions of the constructor for a registered encoding. -/
def Accepted (name : Bytes) (dict : EncodeDict) : Prop :=
  name = str "r50k_base" ∧ dict.size = 50256 ∨ name = str "p50k_edit" ∨ name = str "cl100k_base"

theorem checkVocab_cases (n : UInt32) (encoder : EncodeDict) (special : StrViewToInt) :
    checkVocab (some n) encoder special = .ret () ∨ checkVocab (some n) encoder special = .abort := by
  have hassert (c d : Bool) : (Outcome.assert c >>= fun _ => Outcome.assert d : Run Unit) = .ret () ∨
      (Outcome.assert c >>= fun _ => Outcome.assert d : Run Unit) = .abort := by
    cases c <;> cases d <;> simp
  exact hassert _ _

section

variable {order : IterationOrder} {encoder : EncodeDict}

/-- The table of the encodings with a vocabulary size. -/
theorem shuffle_endoftext :
    ((UnorderedMap.empty.emplaceAll [(endoftext, (50256 : UInt32))]).shuffle order).entries =
      [(endoftext, 50256)] :=
  List.perm_singleton.mp (order.perm [(endoftext, (50256 : UInt32))])

theorem checkVocab_endoftext {special : StrViewToInt} (hspecial : special.entries = [(endoftext, 50256)])
    {n : UInt32} (hn : 0 < n.toNat) :
    checkVocab (some n) encoder special = .ret () ↔
      encoder.size + 1 = n.toNat ∧ max (encoder.size - 1) 50256 = n.toNat - 1 := by
  have hsize : special.size = 1 := by
    rw [UnorderedMap.size, hspecial]
    rfl
  have hmax : (getMaxSpecialTokenValue special).toNat = 50256 := by
    rw [getMaxSpecialTokenValue, hspecial]
    rfl
  have hlt := n.toNat_lt
  have hone : (1 : UInt32) ≤ n := by
    rw [UInt32.le_iff_toNat_le]
    exact hn
  rw [checkVocab_eq_ret, hsize, ← UInt32.toNat_inj, UInt32.toNat_sub_of_le _ _ hone]
  constructor
  · rintro ⟨hcount, hvalue⟩
    rw [maxTokenValue_toNat special (by omega), hmax] at hvalue
    exact ⟨by omega, hvalue⟩
  · rintro ⟨hcount, hvalue⟩
    rw [maxTokenValue_toNat special (by omega), hmax]
    exact ⟨by omega, hvalue⟩

theorem checkVocab_registered {param : EncodingParam} (hparam : param ∈ (sEncodingParam order).dropLast) :
    checkVocab param.vocabN encoder param.specialTokens = .ret () ↔ Accepted param.name encoder := by
  simp only [sEncodingParam, List.dropLast, List.mem_cons, List.not_mem_nil, or_false] at hparam
  have hr50k : str "r50k_base" ≠ str "p50k_edit" ∧ str "r50k_base" ≠ str "cl100k_base" := by decide
  have hp50k : str "p50k_base" ≠ str "r50k_base" ∧ str "p50k_base" ≠ str "p50k_edit" ∧
    str "p50k_base" ≠ str "cl100k_base" := by decide
  rcases hparam with rfl | rfl | rfl | rfl
  · have hn : (50257 : UInt32).toNat = 50257 := rfl
    rw [checkVocab_endoftext shuffle_endoftext (by decide), hn]
    unfold Accepted
    simp only [hr50k, true_and, or_false]
    omega
  · -- the last id is that of a rank, so the maximum is one too small
    have hn : (50281 : UInt32).toNat = 50281 := rfl
    rw [checkVocab_endoftext shuffle_endoftext (by decide), hn]
    unfold Accepted
    simp only [hp50k, false_and, or_false, iff_false]
    omega
  · exact iff_of_true rfl (Or.inr (Or.inl rfl))
  · exact iff_of_true rfl (Or.inr (Or.inr rfl))

/-- A check that does not pass ends the process. -/
theorem checkVocab_abort {param : EncodingParam}
    (h : checkVocab param.vocabN encoder param.specialTokens ≠ .ret ()) :
    checkVocab param.vocabN encoder param.specialTokens = .abort := by
  cases hvocab : param.vocabN with
  | none =>
    rw [hvocab] at h
    exact absurd rfl h
  | some n =>
    rw [hvocab] at h
    exact (checkVocab_cases n _ _).resolve_left h

end

/-! ## Every ending -/

section

variable {E : Platform} {U : UnicodeProps}

/-- What `GetEncoding` ends in, with the condition for each of the endings. -/
inductive GetOutcome (E : Platform) (name : Bytes) : Run (TikToken E) → Prop where
  | unknown (hname : name ∉ registryNames) :
      GetOutcome E name (throwGeneralException (str "Not find encoding parameters for: ") name)
  | missing (hname : name ∈ registryNames) (hcache : E.cache (cacheFileName name) = none) :
      GetOutcome E name (throwGeneralException (str
        "local cache not find encoding file, please download encoding file first. encoding name: ")
          name)
  | malformed {content : Bytes} {e : Exn} (hname : name ∈ registryNames)
      (hcache : E.cache (cacheFileName name) = some content)
      (hload : loadTiktokenBpe E.order content = .throw e) : GetOutcome E name (.throw e)
  | refused {content : Bytes} {dict : EncodeDict} (hname : name ∈ registryNames)
      (hcache : E.cache (cacheFileName name) = some content)
      (hload : loadTiktokenBpe E.order content = .ret dict) (h : ¬ Accepted name dict) :
      GetOutcome E name .abort
  | made {content : Bytes} {dict : EncodeDict} {tok : TikToken E}
      (hcache : E.cache (cacheFileName name) = some content)
      (hload : loadTiktokenBpe E.order content = .ret dict) (h : Accepted name dict)
      (hdict : tok.corebpe.encoder = dict) : GetOutcome E name (.ret tok)

theorem loadLines_finishes (lines : List Bytes) (dict : EncodeDict) :
    (loadLines lines dict).Finishes := by
  induction lines generalizing dict with
  | nil => exact Outcome.finishes_ret _
  | cons line lines ih =>
    by_cases hne : line = []
    · rw [loadLines, if_pos hne]
      exact Outcome.finishes_ret _
    · rw [loadLines_cons hne]
      exact (readEntry_finishes line).bind fun e _ => ih _

theorem loadTiktokenBpe_finishes (order : IterationOrder) (content : Bytes) :
    (loadTiktokenBpe order content).Finishes :=
  (loadLines_finishes _ _).bind fun _ _ => Outcome.finishes_ret _

theorem getEncodingParam_unknown {name : Bytes} (hname : name ∉ registryNames) (order : IterationOrder) :
    getEncodingParam order name =
      throwGeneralException (str "Not find encoding parameters for: ") name := by
  have hno := getEncodingParam_of_not_mem hname order
  unfold getEncodingParam at hno ⊢
  split
  · next param hfind =>
    rw [hfind] at hno
    exact absurd rfl (hno param)
  · rfl

/-- **Every ending of `GetEncoding`.** -/
theorem getEncoding_outcome (hE : E.Documented U) {fuel : Nat} (hfuel : 0 < fuel) (name : Bytes) :
    GetOutcome E name (getEncoding E fuel name) := by
  by_cases hname : name ∈ registryNames
  · obtain ⟨param, hparam, rfl, hget⟩ := getEncodingParam_of_mem hname E.order
    have hfile : param.name ++ str ".tiktoken" = cacheFileName param.name := rfl
    cases hcache : E.cache (cacheFileName param.name) with
    | none =>
      rw [getEncoding, hget, Outcome.ret_bind, TikToken.new, getTiktokenEncoding, hfile, hcache]
      exact .missing hname hcache
    | some content =>
      rcases Outcome.finishes_iff.mp (loadTiktokenBpe_finishes E.order content) with
        ⟨dict, hload⟩ | ⟨e, hload⟩
      · rw [getEncoding_of_load rfl hget hcache hload]
        have hkind := (registry_specialKind E.order param hparam).1
        by_cases haccepted : Accepted param.name dict
        · have hcheck := (checkVocab_registered hparam).mpr haccepted
          obtain ⟨tok, htok⟩ := fromEncoder_ret hE param dict hkind ⟨_, param, hparam, rfl⟩ hcheck hfuel
          obtain ⟨hbuilt, -, -⟩ := built_of_fromEncoder hE hkind hfuel htok
          rw [htok]
          exact .made hcache hload haccepted hbuilt.encoder
        · have hcheck : checkVocab param.vocabN dict param.specialTokens ≠ .ret () :=
            fun hret => haccepted ((checkVocab_registered hparam).mp hret)
          rw [TikToken.fromEncoder, checkVocab_abort hcheck]
          exact .refused hname hcache hload haccepted
      · rw [getEncoding, hget, Outcome.ret_bind, TikToken.new, getTiktokenEncoding, hfile, hcache]
        dsimp only
        rw [hload]
        exact .malformed hname hcache hload
  · rw [getEncoding, getEncodingParam_unknown hname]
    exact .unknown hname

/-- The file of the encoding is in the cache, loads, and has the tokens that the
assertions ask for. -/
def Usable (E : Platform) (name : Bytes) : Prop :=
  ∃ content dict, E.cache (cacheFileName name) = some content ∧
    loadTiktokenBpe E.order content = .ret dict ∧ Accepted name dict

theorem getEncoding_returns_iff (hE : E.Documented U) {fuel : Nat} (hfuel : 0 < fuel) (name : Bytes) :
    (∃ tok, getEncoding E fuel name = .ret tok) ↔ Usable E name := by
  have houtcome := getEncoding_outcome hE hfuel name
  constructor
  · rintro ⟨tok, htok⟩
    rw [htok] at houtcome
    cases houtcome with
    | made hcache hload h hdict => exact ⟨_, _, hcache, hload, h⟩
  · rintro ⟨content, dict, hcache, hload, haccepted⟩
    generalize getEncoding E fuel name = out at houtcome
    cases houtcome with
    | unknown hname =>
      refine absurd ?_ hname
      rcases haccepted with ⟨rfl, -⟩ | rfl | rfl <;> decide
    | missing hname hmissing => simp [hmissing] at hcache
    | malformed hname hcache' hload' =>
      obtain rfl := Option.some.inj (hcache.symm.trans hcache')
      rw [hload] at hload'
      cases hload'
    | refused hname hcache' hload' h =>
      obtain rfl := Option.some.inj (hcache.symm.trans hcache')
      obtain rfl := Outcome.ret.inj (hload.symm.trans hload')
      exact absurd haccepted h
    | made => exact ⟨_, rfl⟩

/-- **When there is an object.** `GetEncoding` ends in one of five ways, each
with its condition on the registry, the cache and the file, and
`EncodingForModel` returns exactly for a model whose encoding is usable. -/
theorem encodingForModel_returns_iff (hE : E.Documented U) {fuel : Nat} (hfuel : 0 < fuel) :
    (∀ name, GetOutcome E name (getEncoding E fuel name)) ∧
      ∀ modelName, (∃ tok, encodingForModel E fuel modelName = .ret tok) ↔
        ∃ name, encodingNameForModel E.order (lowerName modelName) = .ret name ∧ Usable E name := by
  refine ⟨getEncoding_outcome hE hfuel, ?_⟩
  intro modelName
  rw [encodingForModel_eq]
  constructor
  · rintro ⟨tok, htok⟩
    obtain ⟨name, hname, htok⟩ := Outcome.bind_eq_ret.mp htok
    exact ⟨name, hname, (getEncoding_returns_iff hE hfuel name).mp ⟨tok, htok⟩⟩
  · rintro ⟨name, hname, husable⟩
    obtain ⟨tok, htok⟩ := (getEncoding_returns_iff hE hfuel name).mpr husable
    exact ⟨tok, Outcome.bind_eq_ret.mpr ⟨name, hname, htok⟩⟩

end

/-- With a file for `cl100k_base` alone, there is an object for `gpt-4`, whose
encoding it is, and none for `davinci`. -/
theorem encodingForModel_returns_iff_gpt4 :
    (∃ tok, encodingForModel (filePlatform (str "QQ== 0\n")) 1 (str "gpt-4") = .ret tok) ∧
      ¬ ∃ tok, encodingForModel (filePlatform (str "QQ== 0\n")) 1 (str "davinci") = .ret tok := by
  obtain ⟨-, hiff⟩ :=
    encodingForModel_returns_iff (filePlatform_documented (str "QQ== 0\n")) Nat.one_pos
  have hgpt4 : encodingNameForModel IterationOrder.insertion (lowerName (str "gpt-4")) =
      .ret (str "cl100k_base") := by decide +kernel
  have hdavinci : encodingNameForModel IterationOrder.insertion (lowerName (str "davinci")) =
      .ret (str "r50k_base") := by decide +kernel
  refine ⟨(hiff _).mpr ⟨_, hgpt4, str "QQ== 0\n", _, ?_, rfl, ?_⟩, ?_⟩
  · decide +kernel
  · exact Or.inr (Or.inr rfl)
  · rw [hiff]
    rintro ⟨name, hname, content, dict, hcache, -⟩
    obtain rfl := Outcome.ret.inj (hdavinci.symm.trans hname)
    have hnone : (filePlatform (str "QQ== 0\n")).cache (cacheFileName (str "r50k_base")) = none := by
      decide +kernel
    rw [hnone] at hcache
    cases hcache

end TiktokenCpp
