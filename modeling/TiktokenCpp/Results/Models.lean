import TiktokenCpp.Results.Construction

/-!
# Model names

A model name is looked up in the table of exact names and, failing that, among
the prefixes; the registry has to know the encoding that comes out. The prefixes
all stand for one encoding, so the order of their walk does not matter. One of
the exact names stands for an encoding that the registry does not have.

Main results:

* `encodingNameForModel_order` -- the lookup does not depend on the order;
* `resolvesModel_iff` -- every model name but `gpt2` lands on a known encoding.
-/

namespace TiktokenCpp

open Utf8 Pcre2

/-! ## The registry -/

/-- The names of the encodings in the registry, whatever the iteration order. -/
def registryNames : List Bytes :=
  [str "r50k_base", str "p50k_base", str "p50k_edit", str "cl100k_base"]

theorem map_name_sEncodingParam (order : IterationOrder) :
    (sEncodingParam order).dropLast.map EncodingParam.name = registryNames := rfl

theorem getEncodingParam_of_mem {name : Bytes} (hname : name ∈ registryNames)
    (order : IterationOrder) :
    ∃ param ∈ (sEncodingParam order).dropLast, param.name = name ∧
      getEncodingParam order name = .ret param := by
  rw [← map_name_sEncodingParam order] at hname
  obtain ⟨p, hp, hpname⟩ := List.mem_map.mp hname
  unfold getEncodingParam
  cases hfind : (sEncodingParam order).dropLast.find? fun p => p.name = name with
  | some param =>
    exact ⟨param, List.mem_of_find?_eq_some hfind, by simpa using List.find?_some hfind, rfl⟩
  | none => exact absurd hpname (by simpa using List.find?_eq_none.mp hfind p hp)

theorem getEncodingParam_of_not_mem {name : Bytes} (hname : name ∉ registryNames)
    (order : IterationOrder) (param : EncodingParam) : getEncodingParam order name ≠ .ret param := by
  rw [← map_name_sEncodingParam order] at hname
  have hnone : ((sEncodingParam order).dropLast.find? fun p => p.name = name) = none := by
    rw [List.find?_eq_none]
    intro p hp hpname
    exact hname (List.mem_map.mpr ⟨p, hp, of_decide_eq_true hpname⟩)
  unfold getEncodingParam
  rw [hnone]
  intro h
  cases h

/-! ## The tables of the models -/

/-- Every exact name but one stands for an encoding of the registry. -/
theorem modelToEncoding_known :
    ∀ item ∈ modelToEncoding.entries, item.2 ∈ registryNames ∨ item.1 = str "gpt2" := by
  have hall : ∀ item ∈ modelToEncodingEntries, item.2 ∈ registryNames ∨ item.1 = str "gpt2" := by
    decide +kernel
  intro item hitem
  exact hall item (UnorderedMap.mem_of_find?_emplaceAll (UnorderedMap.find?_eq_some_iff.mpr hitem))

/-- All prefixes stand for one encoding. -/
theorem modelPrefixToEncoding_value (order : IterationOrder) :
    ∀ item ∈ (modelPrefixToEncoding order).entries, item.2 = str "cl100k_base" := by
  have hall : ∀ item ∈ (modelPrefixToEncoding IterationOrder.insertion).entries,
      item.2 = str "cl100k_base" := by decide +kernel
  intro item hitem
  unfold modelPrefixToEncoding at hitem
  refine hall item ?_
  unfold modelPrefixToEncoding
  rw [UnorderedMap.mem_shuffle] at hitem ⊢
  exact hitem

/-- What the prefixes give: their one encoding, if any of them fits. -/
theorem prefix_lookup (order : IterationOrder) (modelName : Bytes) :
    ((modelPrefixToEncoding order).entries.find? fun item => item.1.isPrefixOf modelName).elim []
        Prod.snd =
      if ∃ item ∈ (modelPrefixToEncoding IterationOrder.insertion).entries,
        item.1.isPrefixOf modelName = true then str "cl100k_base" else [] := by
  have hmem (item : Bytes × Bytes) : item ∈ (modelPrefixToEncoding order).entries ↔
      item ∈ (modelPrefixToEncoding IterationOrder.insertion).entries := by
    unfold modelPrefixToEncoding
    rw [UnorderedMap.mem_shuffle, UnorderedMap.mem_shuffle]
  cases hfind : (modelPrefixToEncoding order).entries.find? fun item =>
      item.1.isPrefixOf modelName with
  | some item =>
    have hitem := List.mem_of_find?_eq_some hfind
    have hprefix : item.1.isPrefixOf modelName = true := by simpa using List.find?_some hfind
    rw [if_pos ⟨item, (hmem item).mp hitem, hprefix⟩]
    exact modelPrefixToEncoding_value order item hitem
  | none =>
    rw [if_neg]
    · rfl
    · rintro ⟨item, hitem, hprefix⟩
      exact List.find?_eq_none.mp hfind item ((hmem item).mpr hitem) hprefix

theorem findEncodingName_order (order order' : IterationOrder) (modelName : Bytes) :
    findEncodingName order modelName = findEncodingName order' modelName := by
  unfold findEncodingName
  rw [prefix_lookup, prefix_lookup]

/-- **The encoding of a model does not depend on the iteration order.** -/
theorem encodingNameForModel_order (order order' : IterationOrder) (modelName : Bytes) :
    encodingNameForModel order modelName = encodingNameForModel order' modelName := by
  unfold encodingNameForModel
  rw [findEncodingName_order order order']

/-- A name that is found is one of the registry, unless the model is `gpt2`. -/
theorem encodingNameForModel_known {order : IterationOrder} {modelName name : Bytes}
    (hmodel : modelName ≠ str "gpt2") (h : encodingNameForModel order modelName = .ret name) :
    name ∈ registryNames := by
  unfold encodingNameForModel at h
  dsimp only at h
  split at h
  · cases h
  · next hne =>
    rw [Outcome.ret.injEq] at h
    rw [← h]
    unfold findEncodingName at hne ⊢
    cases hfind : modelToEncoding.find? modelName with
    | some found =>
      rcases modelToEncoding_known _ (UnorderedMap.find?_eq_some_iff.mp hfind) with hknown | hgpt2
      · exact hknown
      · exact absurd hgpt2 hmodel
    | none =>
      rw [hfind] at hne
      dsimp only at hne ⊢
      rw [prefix_lookup] at hne ⊢
      split at hne
      · next hprefix =>
        rw [if_pos hprefix]
        decide
      · exact absurd rfl hne

/-! ## Making a tokenizer -/

section

variable {E : Platform} {U : UnicodeProps}

/-- With parameters of the registry and a dictionary, the constructor does not
throw: it returns, or an assertion fails. -/
theorem fromEncoder_throws_nothing (hE : E.Documented U) {param : EncodingParam}
    (hparam : param ∈ (sEncodingParam E.order).dropLast) (encoder : EncodeDict) {fuel : Nat}
    (hfuel : 0 < fuel) : (TikToken.fromEncoder E fuel param encoder).ThrowsOnly fun _ => False := by
  obtain ⟨bpe, hbpe, -⟩ := new_built hE encoder (registry_specialKind E.order param hparam).1
    ⟨E.order, param, hparam, rfl⟩ hfuel
  have hassert (cond : Bool) : (Outcome.assert cond : Run Unit).ThrowsOnly fun _ => False := by
    cases cond <;> trivial
  unfold TikToken.fromEncoder
  rw [hbpe]
  refine Outcome.ThrowsOnly.bind ?_ fun _ => trivial
  unfold checkVocab
  split
  · exact (hassert _).bind fun _ => hassert _
  · trivial

/-- The file of an encoding is not in the cache, or it cannot be loaded. -/
def MissingOrMalformed (E : Platform) (encodingName : Bytes) : Prop :=
  E.cache (encodingName ++ str ".tiktoken") = none ∨
    ∃ content e, E.cache (encodingName ++ str ".tiktoken") = some content ∧
      loadTiktokenBpe E.order content = .throw e

theorem getEncoding_throw (hE : E.Documented U) {name : Bytes} (hname : name ∈ registryNames)
    {fuel : Nat} (hfuel : 0 < fuel) {e : Exn} (h : getEncoding E fuel name = .throw e) :
    MissingOrMalformed E name := by
  obtain ⟨param, hparam, rfl, hget⟩ := getEncodingParam_of_mem hname E.order
  unfold getEncoding at h
  rw [hget, Outcome.ret_bind] at h
  unfold TikToken.new getTiktokenEncoding at h
  cases hcache : E.cache (param.name ++ str ".tiktoken") with
  | none => exact Or.inl hcache
  | some content =>
    rw [hcache] at h
    dsimp only at h
    cases hload : loadTiktokenBpe E.order content with
    | throw e => exact Or.inr ⟨content, e, hcache, hload⟩
    | ret dict =>
      rw [hload] at h
      have hnothing := fromEncoder_throws_nothing hE hparam dict hfuel
      exact absurd h fun h => Outcome.throwsOnly_iff.mp hnothing e h
    | _ =>
      rw [hload] at h
      simp at h

end

/-! ## Which model names resolve -/

/-- The name that `EncodingForModel` looks up. -/
def lowerName (modelName : Bytes) : Bytes := cstr (modelName.map toLower)

theorem encodingForModel_eq (E : Platform) (fuel : Nat) (modelName : Bytes) :
    encodingForModel E fuel modelName =
      (encodingNameForModel E.order (lowerName modelName) >>= fun name => getEncoding E fuel name) :=
  rfl

/-- A model name lands on a known encoding: what the lookup gives does not
depend on the iteration order, the registry has parameters for it, and
`EncodingForModel` throws only for a name that the lookup does not find, or
when the file of the encoding is missing or malformed. -/
structure ResolvesModel (modelName : Bytes) : Prop where
  order : ∀ order order' name, encodingNameForModel order (lowerName modelName) = .ret name →
    encodingNameForModel order' (lowerName modelName) = .ret name
  known : ∀ order name, encodingNameForModel order (lowerName modelName) = .ret name →
    ∃ param, getEncodingParam order name = .ret param
  throws : ∀ (E : Platform) (U : UnicodeProps), E.Documented U → ∀ fuel, 0 < fuel → ∀ e,
    encodingForModel E fuel modelName = .throw e →
      (∀ name, encodingNameForModel E.order (lowerName modelName) ≠ .ret name) ∨
      ∃ name, encodingNameForModel E.order (lowerName modelName) = .ret name ∧
        MissingOrMalformed E name

theorem encodingNameForModel_gpt2 :
    encodingNameForModel IterationOrder.insertion (str "gpt2") = .ret (str "gpt2") := by
  decide +kernel

theorem gpt2_not_mem_registryNames : str "gpt2" ∉ registryNames := by decide

/-- **Every model name resolves, but `gpt2`.** -/
theorem resolvesModel_iff (modelName : Bytes) :
    ResolvesModel modelName ↔ lowerName modelName ≠ str "gpt2" := by
  constructor
  · intro hresolves hgpt2
    have hfound := encodingNameForModel_gpt2
    rw [← hgpt2] at hfound
    obtain ⟨param, hparam⟩ := hresolves.known _ _ hfound
    rw [hgpt2] at hparam
    exact getEncodingParam_of_not_mem gpt2_not_mem_registryNames _ param hparam
  · intro hmodel
    refine ⟨?_, ?_, ?_⟩
    · intro order order' name h
      rwa [encodingNameForModel_order order' order]
    · intro order name h
      obtain ⟨param, -, -, hget⟩ :=
        getEncodingParam_of_mem (encodingNameForModel_known hmodel h) order
      exact ⟨param, hget⟩
    · intro E U hE fuel hfuel e h
      cases hname : encodingNameForModel E.order (lowerName modelName) with
      | ret name =>
        rw [encodingForModel_eq, hname] at h
        exact Or.inr ⟨name, rfl,
          getEncoding_throw hE (encodingNameForModel_known hmodel hname) hfuel h⟩
      | _ =>
        refine Or.inl ?_
        intro name h
        simp at h

/-- The model `gpt2` is found, and its encoding is not. -/
theorem gpt2_does_not_resolve :
    encodingNameForModel IterationOrder.insertion (lowerName (str "gpt2")) = .ret (str "gpt2") ∧
      (∀ param, getEncodingParam IterationOrder.insertion (str "gpt2") ≠ .ret param) ∧
      ¬ ResolvesModel (str "gpt2") := by
  have hlower : lowerName (str "gpt2") = str "gpt2" := by decide
  have hunknown := getEncodingParam_of_not_mem gpt2_not_mem_registryNames IterationOrder.insertion
  rw [hlower]
  refine ⟨encodingNameForModel_gpt2, hunknown, ?_⟩
  intro hresolves
  have hknown := hresolves.known IterationOrder.insertion (str "gpt2")
  rw [hlower] at hknown
  obtain ⟨param, hparam⟩ := hknown encodingNameForModel_gpt2
  exact hunknown param hparam

end TiktokenCpp
