import TiktokenCpp.Results.DisallowedCheck

/-!
# The policy on special tokens

With the default for disallowed tokens, a text goes through `Encode` only if
every registered name in it is allowed, and then the special ids among its
tokens are those of the allowed names, one for each occurrence.

`Encode` looks at a text twice: the check for disallowed names is a search with
one pattern, the scan for allowed names is another search with another pattern
and with the allowed set after a charset conversion. The two agree on the texts
that pass the check, since no other registered name occurs there.

Main results:

* `checkDisallowed_eq` -- the check finds exactly the names that occur;
* `encodePieces_special` -- special ids come from the pieces of the cut only;
* `encode_policy` -- the policy, for whole calls.
-/

namespace TiktokenCpp

open Utf8 Backtrack Pcre2

/-! ## Arguments -/

/-- Whether a documented argument has a name; `"all"` has every name. -/
def StringSetUnion.allows : StringSetUnion → Bytes → Bool
  | .view _, _ => true
  | .set s, n => n ∈ s

section

variable {E : Platform} {U : UnicodeProps} {encoder : EncodeDict} {special : StrViewToInt}
  {tok : TikToken E} {arg : StringSetUnion}

/-- By default every registered name that is not allowed is disallowed. -/
theorem mem_disallowedSet_all (arg : StringSetUnion)
    (hset : ∀ n, n ∈ tok.specialTokensSet ↔ n ∈ names special) (n : Bytes) :
    n ∈ tok.disallowedSet arg (.view (str "all")) ↔ n ∈ names special ∧ arg.allows n = false := by
  show n ∈ tok.specialTokensSet.difference _ ↔ _
  rw [OrderedSet.mem_difference, hset]
  match arg with
  | .view s => simp [StringSetUnion.allows, StringSetUnion.elements, hset]
  | .set s => simp [StringSetUnion.allows, StringSetUnion.elements]

theorem mem_elements (hset : ∀ n, n ∈ tok.specialTokensSet ↔ n ∈ names special) {n : Bytes}
    (hn : n ∈ names special) (hallows : arg.allows n = true) :
    n ∈ arg.elements tok.specialTokensSet := by
  match arg with
  | .view s => exact (hset n).mpr hn
  | .set s => exact of_decide_eq_true hallows

/-! ## The check -/

theorem searches_names (hE : E.Documented U) {set : StringSet}
    (hset : ∀ n ∈ set.elems, NameKind n) (hne : set.elems ≠ []) : SearchesLiterally E set := by
  have hwords : set.elems = (set.elems.map asciiChars).map encode := by
    rw [List.map_map]
    exact (List.map_congr_left fun n hn => encode_asciiChars (hset n hn).ascii).trans
      (List.map_id _) |>.symm
  refine searches_words hE hwords hne ?_
  intro w hw
  obtain ⟨n, hn, rfl⟩ := List.mem_map.mp hw
  exact (hset n hn).noBackslash_asciiChars

/-- **The check refuses a text when one of the names occurs in it.** -/
theorem checkDisallowed_eq (hE : E.Documented U) {set : StringSet}
    (hset : ∀ n ∈ set.elems, NameKind n) (cs : List Char) :
    checkDisallowed E (encode cs) set =
      if ∃ n ∈ set.elems, n <:+: encode cs then .throw (.runtimeError valueError) else .ret () := by
  unfold checkDisallowed
  rcases Nat.eq_zero_or_pos set.elems.length with hlen | hpos
  · have hnil : set.elems = [] := List.length_eq_zero_iff.mp hlen
    rw [hnil]
    simp
  · obtain ⟨code, hcode, hmatch⟩ := searches_names hE hset (List.length_pos_iff.mp hpos)
    rw [if_pos hpos, hcode, Outcome.ret_bind]
    simp only [hmatch (encode cs) ⟨cs, rfl⟩]

/-- Before it encodes, `Encode` refuses exactly the texts with a registered name
that is not allowed. Otherwise it goes on with a set that has the allowed names. -/
theorem encodeSetup_cases (hE : E.Documented U) (hkind : SpecialKind special)
    (hset : ∀ n, n ∈ tok.specialTokensSet ↔ n ∈ names special) (harg : arg.Documented)
    (cs : List Char) {fuel : Nat} (hfuel : 0 < fuel) :
    ((∃ n ∈ names special, arg.allows n = false ∧ n <:+: encode cs) ∧
      tok.encodeSetup fuel (encode cs) arg (.view (str "all")) =
        .throw (.runtimeError valueError)) ∨
    ((∀ n ∈ names special, n <:+: encode cs → arg.allows n = true) ∧
      ∃ allowed, tok.encodeSetup fuel (encode cs) arg (.view (str "all")) = .ret allowed ∧
        ∀ n ∈ names special, arg.allows n = true → n ∈ allowed) := by
  have hall : (StringSetUnion.view (str "all")).Documented := rfl
  have hdisallowed := mem_disallowedSet_all arg hset
  have hnames : ∀ n ∈ (tok.disallowedSet arg (.view (str "all"))).elems, NameKind n :=
    fun n hn => hkind.nameKind ((hdisallowed n).mp hn).1
  have hcheck := checkDisallowed_eq hE hnames cs
  unfold TikToken.encodeSetup
  rw [argumentSets_documented harg hall, Outcome.ret_bind, hcheck]
  by_cases hbad : ∃ n ∈ (tok.disallowedSet arg (.view (str "all"))).elems, n <:+: encode cs
  · rw [if_pos hbad]
    obtain ⟨n, hn, hinfix⟩ := hbad
    obtain ⟨hname, hno⟩ := (hdisallowed n).mp hn
    exact Or.inl ⟨⟨n, hname, hno, hinfix⟩, rfl⟩
  · obtain ⟨allowed, hconverted⟩ :=
      utf8StrsetFromStrSet_ret hE.iconv.takes_all hfuel (arg.elements tok.specialTokensSet)
    rw [if_neg hbad, Outcome.ret_bind]
    refine Or.inr ⟨?_, allowed, hconverted, ?_⟩
    · intro n hn hinfix
      by_contra hno
      rw [Bool.not_eq_true] at hno
      exact hbad ⟨n, (hdisallowed n).mpr ⟨hn, hno⟩, hinfix⟩
    · intro n hn hallows
      have hkindn := hkind.nameKind hn
      exact utf8StrsetFromStrSet_mem hE.iconv hfuel hconverted (mem_elements hset hn hallows)
        hkindn.ascii hkindn.short

/-! ## Special ids -/

/-- The token is the id of a special token. -/
def isSpecialId (special : StrViewToInt) (token : UInt32) : Bool :=
  special.entries.any fun e => e.2 = token

theorem isSpecialId_iff {token : UInt32} :
    isSpecialId special token = true ↔ ∃ n, special.find? n = some token := by
  simp [isSpecialId, UnorderedMap.find?_eq_some_iff]

/-- **Special ids come from the hits of the cut**, one for each. -/
theorem encodePieces_special {ordinary : Bytes → Run (List UInt32)} {id : Bytes → UInt32}
    {isId : UInt32 → Bool} {pieces : List (Bytes × Bytes)} {tail : Bytes}
    (hpieces : ∀ p ∈ pieces,
      (∃ tokens, ordinary p.1 = .ret tokens ∧ ∀ t ∈ tokens, isId t = false) ∧ isId (id p.2) = true)
    (htail : ∃ tokens, ordinary tail = .ret tokens ∧ ∀ t ∈ tokens, isId t = false) :
    ∃ tokens, encodePieces ordinary id pieces tail = .ret tokens ∧
      tokens.filter isId = pieces.map fun p => id p.2 := by
  have hnone {tokens : List UInt32} (h : ∀ t ∈ tokens, isId t = false) : tokens.filter isId = [] := by
    rw [List.filter_eq_nil_iff]
    intro t ht
    rw [h t ht]
    exact Bool.false_ne_true
  induction pieces with
  | nil =>
    obtain ⟨tokens, htokens, hno⟩ := htail
    exact ⟨tokens, htokens, hnone hno⟩
  | cons p pieces ih =>
    obtain ⟨⟨⟨before, hbefore, hno⟩, hid⟩, hrest⟩ := List.forall_mem_cons.mp hpieces
    obtain ⟨rest, hrun, hfilter⟩ := ih hrest
    refine ⟨before ++ id p.2 :: rest, ?_, ?_⟩
    · rw [encodePieces, hbefore, Outcome.ret_bind, hrun]
      rfl
    · rw [List.filter_append, hnone hno, List.nil_append, List.filter_cons_of_pos hid, hfilter,
        List.map_cons]

/-- The registered names that a documented argument allows. -/
def argumentNames (hkind : SpecialKind special) (arg : StringSetUnion) : Scan.WordSet UInt8 :=
  (wordSet (names special) fun _ hn => hkind.nameKind hn).filter arg.allows

theorem mem_argumentNames {hkind : SpecialKind special} {n : Bytes} :
    n ∈ argumentNames hkind arg ↔ n ∈ names special ∧ arg.allows n = true := by
  unfold argumentNames
  exact Scan.WordSet.mem_filter

theorem prefixFree_argumentNames {hkind : SpecialKind special} (hpf : PrefixFree special)
    (arg : StringSetUnion) : (argumentNames hkind arg).PrefixFree := by
  have hall : (wordSet (names special) fun _ hn => hkind.nameKind hn).PrefixFree := hpf
  exact hall.filter _

/-- Where every registered name in the text is allowed, the converted set cuts
the text like the argument does. -/
theorem cut_allowedNames_eq (hkind : SpecialKind special) (hpf : PrefixFree special)
    {allowed : Utf8StringSet} {text : Bytes}
    (hall : ∀ n ∈ names special, n <:+: text → arg.allows n = true)
    (hmem : ∀ n ∈ names special, arg.allows n = true → n ∈ allowed) :
    Scan.cut (allowedNames hkind allowed) text = Scan.cut (argumentNames hkind arg) text := by
  refine Scan.cut_congr (prefixFree_allowedNames hpf allowed) (prefixFree_argumentNames hpf arg)
    ?_
  intro w hw
  rw [mem_allowedNames, mem_argumentNames]
  constructor
  · rintro ⟨hname, -⟩
    exact ⟨hname, hall w hname hw⟩
  · rintro ⟨hname, hallows⟩
    exact ⟨hname, hmem w hname hallows⟩

/-- The special ids of an encoded text are those of the hits of its cut. -/
theorem encodeNative_special (hkind : SpecialKind special) (hpf : PrefixFree special)
    (hbuilt : Built U encoder special tok.corebpe) {re : Regex CharClass}
    (himpl : E.pcre2.Implements U tok.corebpe.regex re) (hsplits : Splits U re)
    (hbytes : HasAllBytes encoder) (hdisjoint : DisjointIds encoder special)
    (allowed : Utf8StringSet) (cs : List Char) {fuel : Nat} (hfuel : cs.length < fuel) :
    ∃ tokens, encodeNative tok.corebpe (encode cs) allowed fuel = (.ret tokens, tok.corebpe) ∧
      tokens.filter (isSpecialId special) =
        (Scan.cut (allowedNames hkind allowed) (encode cs)).1.map fun p => idOf special p.2 := by
  have hordinary (a : List Char) (ha : a.length ≤ fuel) :
      ∃ tokens, encodeOrdinaryNative tok.corebpe fuel (encode a) = .ret tokens ∧
        ∀ t ∈ tokens, isSpecialId special t = false := by
    rw [← hbuilt.encoder] at hbytes
    obtain ⟨tokens, htokens, htokenizes⟩ :=
      encodeOrdinaryNative_tokenizes himpl hsplits hbytes ha
    refine ⟨tokens, htokens, ?_⟩
    intro t ht
    obtain ⟨w, hw⟩ := htokenizes.rank t ht
    rw [hbuilt.encoder] at hw
    rw [← Bool.not_eq_true, isSpecialId_iff]
    rintro ⟨n, hn⟩
    exact hdisjoint w n t hw hn
  obtain ⟨hpieces, b, hb, hblen⟩ := cut_chars hkind allowed cs
  have hall : ∀ p ∈ (Scan.cut (allowedNames hkind allowed) (encode cs)).1,
      (∃ tokens, encodeOrdinaryNative tok.corebpe fuel p.1 = .ret tokens ∧
        ∀ t ∈ tokens, isSpecialId special t = false) ∧
      isSpecialId special (idOf special p.2) = true := by
    intro p hp
    refine ⟨?_, ?_⟩
    · obtain ⟨a, ha, halen⟩ := hpieces p hp
      rw [ha]
      exact hordinary a (by omega)
    · obtain ⟨hname, -⟩ := mem_allowedNames.mp (Scan.mem_of_mem_cut hp)
      obtain ⟨id, hid⟩ := mem_names_iff.mp hname
      rw [isSpecialId_iff]
      exact ⟨p.2, by rw [idOf, hid]; rfl⟩
  obtain ⟨tokens, htokens, hfilter⟩ := encodePieces_special hall (hb ▸ hordinary b (by omega))
  exact ⟨tokens, by rw [encodeNative_eq hkind hpf hbuilt allowed cs hfuel, encodeReference, htokens],
    hfilter⟩

end

/-! ## The policy -/

/-- **The default policy.** A call comes to an end; it throws exactly when a
registered name that is not allowed occurs in the text, and the tokens it
returns have the ids of allowed names only, one for each hit of leftmost,
non-overlapping scanning for them. -/
theorem encode_policy {E : Platform} {U : UnicodeProps} (hE : E.Documented U)
    (encoder : EncodeDict) (param : EncodingParam) (hkind : SpecialKind param.specialTokens)
    (hpf : PrefixFree param.specialTokens) (hids : DistinctValues param.specialTokens)
    (hdisjoint : DisjointIds encoder param.specialTokens) (hbytes : HasAllBytes encoder)
    (hpattern : RegistryPattern param.patStr)
    (hcheck : checkVocab param.vocabN encoder param.specialTokens = .ret ()) {newFuel : Nat}
    (hnew : 0 < newFuel) :
    ∃ tok : TikToken E, TikToken.fromEncoder E newFuel param encoder = .ret tok ∧
      ∀ arg : StringSetUnion, arg.Documented → ∀ text, WellFormed text →
        ∀ fuel, text.length < fuel →
          (tok.encode fuel text arg (.view (str "all"))).1.Finishes ∧
          ((∃ e, (tok.encode fuel text arg (.view (str "all"))).1 = .throw e) ↔
            ∃ n ∈ names param.specialTokens, arg.allows n = false ∧ n <:+: text) ∧
          ∀ tokens, (tok.encode fuel text arg (.view (str "all"))).1 = .ret tokens →
            (∀ t ∈ tokens, ∀ n, param.specialTokens.find? n = some t → arg.allows n = true) ∧
            tokens.countP (isSpecialId param.specialTokens) =
              (Scan.cut (argumentNames hkind arg) text).1.length := by
  obtain ⟨tok, htok⟩ := fromEncoder_ret hE param encoder hkind hpattern hcheck hnew
  obtain ⟨hbuilt, hcompiled, hset⟩ := built_of_fromEncoder hE hkind hnew htok
  obtain ⟨re, himpl, hsplits⟩ := splits_of_compile hE hpattern hcompiled
  refine ⟨tok, htok, ?_⟩
  rintro arg harg text ⟨cs, rfl⟩ fuel hfuel
  have hshort : cs.length < fuel := lt_of_le_of_lt (length_le_length_encode cs) hfuel
  unfold TikToken.encode
  rcases encodeSetup_cases hE hkind hset harg cs (show 0 < fuel by omega) with
    ⟨hbad, hsetup⟩ | ⟨hall, allowed, hsetup, hmem⟩
  · rw [hsetup]
    refine ⟨trivial, iff_of_true ⟨_, rfl⟩ hbad, ?_⟩
    intro tokens htokens
    cases htokens
  · obtain ⟨tokens, hrun, hfilter⟩ := encodeNative_special hkind hpf hbuilt himpl hsplits hbytes
      hdisjoint allowed cs hshort
    rw [cut_allowedNames_eq hkind hpf hall hmem] at hfilter
    rw [hsetup, Outcome.ret_bindState, hrun]
    refine ⟨trivial, iff_of_false ?_ ?_, ?_⟩
    · rintro ⟨e, he⟩
      cases he
    · rintro ⟨n, hn, hno, hinfix⟩
      rw [hall n hn hinfix] at hno
      simp at hno
    · intro tokens' htokens
      obtain rfl : tokens = tokens' := by
        cases htokens
        rfl
      refine ⟨?_, ?_⟩
      · intro t ht n hn
        have hspecial : isSpecialId param.specialTokens t = true := isSpecialId_iff.mpr ⟨n, hn⟩
        have hfound := List.mem_filter.mpr ⟨ht, hspecial⟩
        rw [hfilter, List.mem_map] at hfound
        obtain ⟨p, hp, rfl⟩ := hfound
        obtain ⟨hname, hallows⟩ := mem_argumentNames.mp (Scan.mem_of_mem_cut hp)
        obtain ⟨id, hid⟩ := mem_names_iff.mp hname
        have hidOf : idOf param.specialTokens p.2 = id := by rw [idOf, hid]; rfl
        rw [hidOf] at hn
        rwa [hids n p.2 id hn hid]
      · rw [List.countP_eq_length_filter, hfilter, List.length_map]

/-- The special token is refused when it is not allowed; when all are, it has
its id in the tokens. -/
theorem encode_policy_endoftext :
    ∃ tok : TikToken plainPlatform, TikToken.fromEncoder plainPlatform 1 r50kParam byteDict = .ret tok ∧
      (∃ e, (tok.encode 16 (str "a<|endoftext|>") (.set .empty) (.view (str "all"))).1 = .throw e) ∧
      ∃ tokens, (tok.encode 16 (str "a<|endoftext|>") (.view (str "all"))
          (.view (str "all"))).1 = .ret tokens ∧
        tokens.countP (isSpecialId endoftextTable) = 1 ∧ 50256 ∈ tokens := by
  obtain ⟨tok, htok, hall⟩ := encode_policy plainPlatform_documented byteDict r50kParam
    endoftextTable_kind endoftextTable_prefixFree endoftextTable_distinct byteDict_disjoint
    byteDict_hasAllBytes r50kPat_registered rfl (Nat.succ_pos 0)
  obtain ⟨-, hthrows, -⟩ := hall (.set .empty) trivial (str "a<|endoftext|>") (wellFormed_str _) 16
    (by decide)
  refine ⟨tok, htok, hthrows.mpr ⟨endoftext, List.mem_cons_self .., rfl, by decide⟩, ?_⟩
  obtain ⟨hfinishes, hthrows, hids⟩ := hall (.view (str "all")) rfl (str "a<|endoftext|>")
    (wellFormed_str _) 16 (by decide)
  have hreturns : ¬ ∃ e, (tok.encode 16 (str "a<|endoftext|>") (.view (str "all"))
      (.view (str "all"))).1 = .throw e := by
    rw [hthrows]
    rintro ⟨n, -, hno, -⟩
    cases hno
  cases hcall : (tok.encode 16 (str "a<|endoftext|>") (.view (str "all")) (.view (str "all"))).1 with
  | ret tokens =>
    have hone : tokens.countP (isSpecialId endoftextTable) = 1 :=
      (hids tokens hcall).2.trans (by decide +kernel)
    obtain ⟨t, ht, hspecial⟩ := List.countP_pos_iff.mp (hone ▸ Nat.one_pos)
    obtain ⟨n, hn⟩ := isSpecialId_iff.mp hspecial
    obtain ⟨-, rfl⟩ := find?_endoftextTable.mp hn
    exact ⟨tokens, rfl, hone, ht⟩
  | throw e => exact absurd ⟨e, hcall⟩ hreturns
  | _ =>
    rw [hcall] at hfinishes
    cases hfinishes

end TiktokenCpp
