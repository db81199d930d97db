import TiktokenCpp.Results.Policy

/-!
# Special tokens keep the texts around them apart

A prompt is often put together from pieces of text with special tokens between
them. Such a name begins with `<` and has no other one, so that it overlaps no
other name: wherever it stands, the text left and right of it is encoded as if
it stood alone.

Main results:

* `encode_append_word` -- one special token between two texts;
* `encode_render` -- any number of them, for whole calls of `Encode`.
-/

namespace TiktokenCpp

open Utf8 Backtrack Pcre2

/-! ## Names that overlap nothing -/

/-- The name begins with `<`, which it has nowhere else. -/
def Bracketed (n : Bytes) : Prop := n.head? = some 60 ∧ 60 ∉ n.tail

instance (n : Bytes) : Decidable (Bracketed n) := inferInstanceAs (Decidable (_ ∧ _))

theorem noOverlap_of_bracketed {ws : Scan.WordSet UInt8} (h : ∀ w ∈ ws, Bracketed w) :
    ws.NoOverlap := by
  rintro w hw v hv a x rfl ha hx
  obtain ⟨c, a, rfl⟩ := List.exists_cons_of_ne_nil ha
  obtain ⟨d, x, rfl⟩ := List.exists_cons_of_ne_nil hx
  have hno : 60 ∉ d :: x := fun hmem => (h _ hw).2 (List.mem_append_right a hmem)
  have hhead := (h v hv).1
  cases v with
  | nil => simp at hhead
  | cons e v =>
    obtain rfl : e = 60 := by simpa using hhead
    -- both begin with the same byte
    refine ⟨?_, ?_⟩
    · intro hpre
      rw [List.cons_prefix_cons] at hpre
      exact hno (hpre.1 ▸ List.mem_cons_self ..)
    · intro hpre
      rw [List.cons_prefix_cons] at hpre
      exact hno (hpre.1 ▸ List.mem_cons_self ..)

/-- The names of every registered encoding are of this kind. -/
theorem registry_bracketed (order : IterationOrder) :
    ∀ param ∈ (sEncodingParam order).dropLast, ∀ n ∈ names param.specialTokens, Bracketed n := by
  intro param hparam n hn
  simp only [sEncodingParam, List.dropLast, List.mem_cons, List.not_mem_nil, or_false] at hparam
  have hsome (table : StrViewToInt) (hall : ∀ n ∈ names table, Bracketed n)
      (hn : n ∈ names (table.shuffle order)) : Bracketed n := hall n (mem_names_shuffle.mp hn)
  rcases hparam with rfl | rfl | rfl | rfl <;> exact hsome _ (by decide +kernel) hn

/-- What is known of a registered encoding. -/
structure Registered (param : EncodingParam) : Prop where
  kind : SpecialKind param.specialTokens
  prefixFree : PrefixFree param.specialTokens
  bracketed : ∀ n ∈ names param.specialTokens, Bracketed n
  pattern : RegistryPattern param.patStr

theorem registered_of_getEncodingParam {order : IterationOrder} {name : Bytes} {param : EncodingParam}
    (h : getEncodingParam order name = .ret param) : Registered param := by
  have hmem : param ∈ (sEncodingParam order).dropLast := by
    unfold getEncodingParam at h
    cases hfind : (sEncodingParam order).dropLast.find? fun p => p.name = name with
    | none =>
      rw [hfind] at h
      cases h
    | some p =>
      rw [hfind] at h
      cases h
      exact List.mem_of_find?_eq_some hfind
  obtain ⟨hkind, hpf⟩ := registry_specialKind order param hmem
  exact ⟨hkind, hpf, registry_bracketed order param hmem, order, param, hmem, rfl⟩

/-! ## Pieces -/

theorem encodePieces_append {ordinary : Bytes → Run (List UInt32)} {id : Bytes → UInt32}
    (pieces rest : List (Bytes × Bytes)) (before n tail : Bytes) :
    encodePieces ordinary id (pieces ++ (before, n) :: rest) tail =
      (encodePieces ordinary id pieces before >>= fun a =>
        encodePieces ordinary id rest tail >>= fun b => .ret (a ++ id n :: b)) := by
  induction pieces with
  | nil => rfl
  | cons p pieces ih =>
    obtain ⟨text, word⟩ := p
    rw [List.cons_append, encodePieces, encodePieces, ih, Outcome.bind_assoc]
    refine Outcome.bind_congr ?_
    intro tokens _
    rw [Outcome.bind_assoc, Outcome.bind_assoc]
    refine Outcome.bind_congr ?_
    intro a _
    rw [Outcome.bind_assoc, Outcome.pure_eq, Outcome.ret_bind]
    refine Outcome.bind_congr ?_
    intro b _
    rw [Outcome.ret_bind, Outcome.pure_eq, List.append_assoc, List.cons_append]

theorem encodePieces_ret {ordinary : Bytes → Run (List UInt32)} {id : Bytes → UInt32}
    {pieces : List (Bytes × Bytes)} {tail : Bytes}
    (hpieces : ∀ p ∈ pieces, ∃ tokens, ordinary p.1 = .ret tokens)
    (htail : ∃ tokens, ordinary tail = .ret tokens) :
    ∃ tokens, encodePieces ordinary id pieces tail = .ret tokens := by
  induction pieces with
  | nil => exact htail
  | cons p pieces ih =>
    obtain ⟨⟨before, hbefore⟩, hrest⟩ := List.forall_mem_cons.mp hpieces
    obtain ⟨rest, hrun⟩ := ih hrest
    refine ⟨before ++ id p.2 :: rest, ?_⟩
    rw [encodePieces, hbefore, Outcome.ret_bind, hrun]
    rfl

section

variable {E : Platform} {U : UnicodeProps} {encoder : EncodeDict} {special : StrViewToInt}
  {tok : TikToken E} {arg : StringSetUnion}

/-- The pieces of a cut at the names an argument allows are texts of characters. -/
theorem cut_argumentNames_chars (hkind : SpecialKind special) (hpf : PrefixFree special)
    (arg : StringSetUnion) (cs : List Char) :
    (∀ p ∈ (Scan.cut (argumentNames hkind arg) (encode cs)).1,
      ∃ a, p.1 = encode a ∧ a.length ≤ cs.length) ∧
    ∃ b, (Scan.cut (argumentNames hkind arg) (encode cs)).2 = encode b ∧
      b.length ≤ cs.length := by
  have hcut : Scan.cut (allowedNames hkind
      (OrderedSet.empty.insertAll ((names special).filter arg.allows))) (encode cs) =
      Scan.cut (argumentNames hkind arg) (encode cs) := by
    refine Scan.cut_congr (prefixFree_allowedNames hpf _) (prefixFree_argumentNames hpf arg) ?_
    intro w _
    rw [mem_allowedNames, mem_argumentNames, OrderedSet.mem_insertAll, List.mem_filter]
    simp
  rw [← hcut]
  exact cut_chars hkind _ cs

/-- Every piece of a text is encoded, if every byte is a token. -/
theorem encodePieces_cut_ret {self : CoreBpe E} (hkind : SpecialKind special)
    (hpf : PrefixFree special) {re : Regex CharClass} (himpl : E.pcre2.Implements U self.regex re)
    (hsplits : Splits U re) (hbytes : HasAllBytes self.encoder) (arg : StringSetUnion)
    (cs : List Char) {fuel : Nat} (hfuel : cs.length ≤ fuel) :
    ∃ tokens, encodePieces (encodeOrdinaryNative self fuel) (idOf special)
      (Scan.cut (argumentNames hkind arg) (encode cs)).1
      (Scan.cut (argumentNames hkind arg) (encode cs)).2 = .ret tokens := by
  have hordinary (a : List Char) (ha : a.length ≤ fuel) :
      ∃ tokens, encodeOrdinaryNative self fuel (encode a) = .ret tokens := by
    obtain ⟨tokens, htokens, -⟩ := encodeOrdinaryNative_tokenizes himpl hsplits hbytes ha
    exact ⟨tokens, htokens⟩
  obtain ⟨hpieces, b, hb, hblen⟩ := cut_argumentNames_chars hkind hpf arg cs
  refine encodePieces_ret ?_ (hb ▸ hordinary b (by omega))
  intro p hp
  obtain ⟨a, ha, halen⟩ := hpieces p hp
  rw [ha]
  exact hordinary a (by omega)

/-! ## One special token -/

/-- A text has a registered name that is not allowed. -/
def Refused (special : StrViewToInt) (arg : StringSetUnion) (text : Bytes) : Prop :=
  ∃ n ∈ names special, arg.allows n = false ∧ n <:+: text

/-- What `Encode` does by default: a text is refused, or cut and encoded piece by
piece. -/
theorem encode_cases (hE : E.Documented U) (hkind : SpecialKind special) (hpf : PrefixFree special)
    (hbuilt : Built U encoder special tok.corebpe)
    (hset : ∀ n, n ∈ tok.specialTokensSet ↔ n ∈ names special) (harg : arg.Documented) (cs : List Char)
    {fuel : Nat} (hfuel : cs.length < fuel) :
    (Refused special arg (encode cs) ∧
      (tok.encode fuel (encode cs) arg (.view (str "all"))).1 = .throw (.runtimeError valueError)) ∨
    (¬ Refused special arg (encode cs) ∧
      (tok.encode fuel (encode cs) arg (.view (str "all"))).1 =
        encodePieces (encodeOrdinaryNative tok.corebpe fuel) (idOf special)
          (Scan.cut (argumentNames hkind arg) (encode cs)).1
          (Scan.cut (argumentNames hkind arg) (encode cs)).2) := by
  unfold TikToken.encode
  rcases encodeSetup_cases hE hkind hset harg cs (show 0 < fuel by omega) with
    ⟨hbad, hsetup⟩ | ⟨hall, allowed, hsetup, hmem⟩
  · rw [hsetup]
    exact Or.inl ⟨hbad, rfl⟩
  · refine Or.inr ⟨?_, ?_⟩
    · rintro ⟨n, hn, hno, hinfix⟩
      rw [hall n hn hinfix] at hno
      simp at hno
    · have hnative := encodeNative_eq hkind hpf hbuilt allowed cs hfuel
      unfold encodeReference at hnative
      rw [cut_allowedNames_eq hkind hpf hall hmem] at hnative
      rw [hsetup, Outcome.ret_bindState]
      dsimp only
      rw [catchUnicode_eq (encodeNative_throwsOnly tok.corebpe (encode cs) allowed fuel), hnative]

/-- The same with every byte a token: what is not refused is encoded. -/
theorem encode_default (hE : E.Documented U) (hkind : SpecialKind special) (hpf : PrefixFree special)
    (hbuilt : Built U encoder special tok.corebpe)
    (hset : ∀ n, n ∈ tok.specialTokensSet ↔ n ∈ names special) {re : Regex CharClass}
    (himpl : E.pcre2.Implements U tok.corebpe.regex re) (hsplits : Splits U re)
    (hbytes : HasAllBytes tok.corebpe.encoder) (harg : arg.Documented) (cs : List Char) {fuel : Nat}
    (hfuel : cs.length < fuel) :
    (Refused special arg (encode cs) ∧
      (tok.encode fuel (encode cs) arg (.view (str "all"))).1 = .throw (.runtimeError valueError)) ∨
    (¬ Refused special arg (encode cs) ∧ ∃ tokens,
      (tok.encode fuel (encode cs) arg (.view (str "all"))).1 = .ret tokens ∧
      encodePieces (encodeOrdinaryNative tok.corebpe fuel) (idOf special)
        (Scan.cut (argumentNames hkind arg) (encode cs)).1
        (Scan.cut (argumentNames hkind arg) (encode cs)).2 = .ret tokens) := by
  refine (encode_cases hE hkind hpf hbuilt hset harg cs hfuel).imp_right ?_
  rintro ⟨hgood, hrun⟩
  obtain ⟨tokens, htokens⟩ := encodePieces_cut_ret hkind hpf himpl hsplits hbytes arg cs hfuel.le
  exact ⟨hgood, tokens, hrun.trans htokens, htokens⟩

theorem noOverlap_names (hbracketed : ∀ n ∈ names special, Bracketed n)
    (hkind : SpecialKind special) :
    (wordSet (names special) fun _ hn => hkind.nameKind hn).NoOverlap :=
  noOverlap_of_bracketed hbracketed

/-- A text around an allowed name is refused for what stands left or right of it. -/
theorem refused_append_word (hkind : SpecialKind special) (hpf : PrefixFree special)
    (hbracketed : ∀ n ∈ names special, Bracketed n) {n : Bytes} (hn : n ∈ names special)
    (hallows : arg.allows n = true) (text rest : Bytes) :
    Refused special arg (text ++ (n ++ rest)) ↔ Refused special arg text ∨ Refused special arg rest := by
  have hfree : (wordSet (names special) fun _ hn => hkind.nameKind hn).PrefixFree := hpf
  constructor
  · rintro ⟨w, hw, hno, hinfix⟩
    rcases Scan.infix_append_word hfree (noOverlap_names hbracketed hkind) hn hw hinfix with
      hleft | rfl | hright
    · exact Or.inl ⟨w, hw, hno, hleft⟩
    · rw [hallows] at hno
      cases hno
    · exact Or.inr ⟨w, hw, hno, hright⟩
  · rintro (⟨w, hw, hno, hinfix⟩ | ⟨w, hw, hno, hinfix⟩)
    · exact ⟨w, hw, hno, hinfix.trans (List.infix_append' [] text (n ++ rest))⟩
    · refine ⟨w, hw, hno, hinfix.trans ⟨text ++ n, [], ?_⟩⟩
      simp

/-- **A special token separates two texts**: their encodings stand left and
right of its id. -/
theorem encode_append_word (hE : E.Documented U) (hkind : SpecialKind special)
    (hpf : PrefixFree special) (hbracketed : ∀ n ∈ names special, Bracketed n)
    (hbuilt : Built U encoder special tok.corebpe)
    (hset : ∀ n, n ∈ tok.specialTokensSet ↔ n ∈ names special) {re : Regex CharClass}
    (himpl : E.pcre2.Implements U tok.corebpe.regex re) (hsplits : Splits U re)
    (hbytes : HasAllBytes tok.corebpe.encoder) (harg : arg.Documented) {n : Bytes}
    (hn : n ∈ names special) (hallows : arg.allows n = true) (cs ds : List Char) {fuel : Nat}
    (hfuel : (encode cs ++ (n ++ encode ds)).length < fuel) :
    (tok.encode fuel (encode cs ++ (n ++ encode ds)) arg (.view (str "all"))).1 =
      ((tok.encode fuel (encode cs) arg (.view (str "all"))).1 >>= fun a =>
        (tok.encode fuel (encode ds) arg (.view (str "all"))).1 >>= fun b =>
          .ret (a ++ idOf special n :: b)) := by
  have hcase (es : List Char) (hes : es.length < fuel) :=
    encode_default hE hkind hpf hbuilt hset himpl hsplits hbytes harg es hes
  have htext : encode cs ++ (n ++ encode ds) = encode (cs ++ (asciiChars n ++ ds)) := by
    rw [encode_append, encode_append, encode_asciiChars (hkind.nameKind hn).ascii]
  have hrefused : Refused special arg (encode cs ++ (n ++ encode ds)) ↔ _ :=
    refused_append_word hkind hpf hbracketed hn hallows (encode cs) (encode ds)
  have hlen := length_le_length_encode (cs ++ (asciiChars n ++ ds))
  rw [htext] at hfuel
  have hcs : cs.length < fuel := by simp only [List.length_append] at hlen; omega
  have hds : ds.length < fuel := by simp only [List.length_append] at hlen; omega
  have hwhole := hcase (cs ++ (asciiChars n ++ ds)) (by omega)
  rw [← htext] at hwhole
  rcases hcase cs hcs with ⟨hbad, hthrow⟩ | ⟨hgood, a, ha, hpieces⟩
  · rw [hthrow]
    rcases hwhole with ⟨-, hrun⟩ | ⟨hno, -⟩
    · exact hrun
    · exact absurd (hrefused.mpr (Or.inl hbad)) hno
  · rw [ha, Outcome.ret_bind]
    rcases hcase ds hds with ⟨hbad, hthrow⟩ | ⟨hgood', b, hb, hpieces'⟩
    · rw [hthrow]
      rcases hwhole with ⟨-, hrun⟩ | ⟨hno, -⟩
      · exact hrun
      · exact absurd (hrefused.mpr (Or.inr hbad)) hno
    · rw [hb, Outcome.ret_bind]
      rcases hwhole with ⟨hbad, -⟩ | ⟨-, tokens, htokens, hall⟩
      · exact absurd (hrefused.mp hbad) (by simp [hgood, hgood'])
      · have hfree : (argumentNames hkind arg).PrefixFree := prefixFree_argumentNames hpf arg
        have hoverlap : (argumentNames hkind arg).NoOverlap :=
          (noOverlap_names hbracketed hkind).filter arg.allows
        rw [Scan.cut_append_word hfree hoverlap (mem_argumentNames.mpr ⟨hn, hallows⟩),
          encodePieces_append, hpieces, Outcome.ret_bind, hpieces', Outcome.ret_bind] at hall
        rw [htokens, ← hall]

end

/-! ## Any number of them -/

/-- Texts, each with the name that follows it, and a last text. -/
def render (parts : List (Bytes × Bytes)) (tail : Bytes) : Bytes :=
  (parts.flatMap fun p => p.1 ++ p.2) ++ tail

theorem render_cons (text n : Bytes) (parts : List (Bytes × Bytes)) (tail : Bytes) :
    render ((text, n) :: parts) tail = text ++ (n ++ render parts tail) := by
  unfold render
  rw [List.flatMap_cons]
  simp only [List.append_assoc]

theorem wellFormed_render {parts : List (Bytes × Bytes)} {tail : Bytes}
    (hparts : ∀ p ∈ parts, WellFormed p.1 ∧ NameKind p.2) (htail : WellFormed tail) :
    WellFormed (render parts tail) := by
  induction parts with
  | nil => exact htail
  | cons p parts ih =>
    obtain ⟨text, n⟩ := p
    obtain ⟨⟨⟨cs, rfl⟩, hkind⟩, hrest⟩ := List.forall_mem_cons.mp hparts
    obtain ⟨ds, hds⟩ := ih hrest
    refine ⟨cs ++ (asciiChars n ++ ds), ?_⟩
    rw [encode_append, encode_append, encode_asciiChars hkind.ascii, ← hds, render_cons]

/-- **A prompt is encoded piece by piece.** For every registered encoding, any
documented argument for the allowed tokens and the default for the disallowed
ones, the call on texts with allowed names between them does what the calls on
the texts do, one after the other, with the ids of the names between their
tokens. -/
theorem encode_render {E : Platform} {U : UnicodeProps} (hE : E.Documented U) {encodingName : Bytes}
    {param : EncodingParam} (hparam : getEncodingParam E.order encodingName = .ret param)
    {encoder : EncodeDict} (hbytes : HasAllBytes encoder)
    (hcheck : checkVocab param.vocabN encoder param.specialTokens = .ret ()) {newFuel : Nat}
    (hnew : 0 < newFuel) :
    ∃ tok : TikToken E, TikToken.fromEncoder E newFuel param encoder = .ret tok ∧
      ∀ arg : StringSetUnion, arg.Documented → ∀ (parts : List (Bytes × Bytes)) (tail : Bytes),
        (∀ p ∈ parts, WellFormed p.1 ∧ p.2 ∈ names param.specialTokens ∧ arg.allows p.2 = true) →
        WellFormed tail → ∀ fuel, (render parts tail).length < fuel →
          (tok.encode fuel (render parts tail) arg (.view (str "all"))).1 =
            encodePieces (fun text => (tok.encode fuel text arg (.view (str "all"))).1)
              (idOf param.specialTokens) parts tail := by
  obtain ⟨hkind, hpf, hbracketed, hpattern⟩ := registered_of_getEncodingParam hparam
  obtain ⟨tok, htok⟩ := fromEncoder_ret hE param encoder hkind hpattern hcheck hnew
  obtain ⟨hbuilt, hcompiled, hset⟩ := built_of_fromEncoder hE hkind hnew htok
  obtain ⟨re, himpl, hsplits⟩ := splits_of_compile hE hpattern hcompiled
  rw [← hbuilt.encoder] at hbytes
  refine ⟨tok, htok, ?_⟩
  intro arg harg parts tail hparts htail fuel hfuel
  induction parts with
  | nil => rfl
  | cons p parts ih =>
    obtain ⟨text, n⟩ := p
    obtain ⟨⟨⟨cs, rfl⟩, hn, hallows⟩, hrest⟩ := List.forall_mem_cons.mp hparts
    obtain ⟨ds, hds⟩ := wellFormed_render (fun p hp => ⟨(hrest p hp).1, hkind.nameKind (hrest p hp).2.1⟩)
      htail
    have hrec := ih hrest (by rw [render_cons] at hfuel; simp only [List.length_append] at hfuel; omega)
    rw [render_cons] at hfuel ⊢
    rw [hds] at hfuel hrec ⊢
    rw [encode_append_word hE hkind hpf hbracketed hbuilt hset himpl hsplits hbytes harg hn hallows cs
      ds hfuel, hrec]
    rfl

/-- The parameters of `p50k_edit`. -/
def p50kEditParam : EncodingParam := (sEncodingParam IterationOrder.insertion).get ⟨2, by decide⟩

theorem getEncodingParam_p50kEdit :
    getEncodingParam IterationOrder.insertion (str "p50k_edit") = .ret p50kEditParam := rfl

theorem encode_render_p50kEdit :
    ∃ tok : TikToken plainPlatform,
      TikToken.fromEncoder plainPlatform 1 p50kEditParam byteDict = .ret tok ∧
      (tok.encode 64 (render [(str "é", fimPrefix), (str "b", endoftext)] (str "<|"))
        (.view (str "all")) (.view (str "all"))).1 =
        encodePieces (fun text => (tok.encode 64 text (.view (str "all")) (.view (str "all"))).1)
          (idOf p50kEditParam.specialTokens) [(str "é", fimPrefix), (str "b", endoftext)]
          (str "<|") := by
  obtain ⟨tok, htok, hall⟩ := encode_render plainPlatform_documented getEncodingParam_p50kEdit
    byteDict_hasAllBytes rfl Nat.one_pos
  refine ⟨tok, htok, hall (.view (str "all")) rfl _ _ ?_ (wellFormed_str _) 64 (by decide +kernel)⟩
  rw [List.forall_mem_cons, List.forall_mem_singleton]
  exact ⟨⟨wellFormed_str _, by decide +kernel, rfl⟩, wellFormed_str _, by decide +kernel, rfl⟩

end TiktokenCpp
