import Mathlib.Data.List.TakeWhile
import TiktokenCpp.Lib.Scan
import TiktokenCpp.Results.WordSplit

/-!
# What the constructor of the encoder builds

For special tokens of the kind the registry supplies (`SpecialKind`), the
pattern that `CoreBpe` joins from their escaped names stands for the
alternation of the names, and the charset conversion leaves the names alone.

Main results:

* `parse_names` -- escaping and joining names gives a pattern for the names;
* `match_names` -- what matching that pattern reports, in bytes;
* `new_built`, `built_of_new` -- the constructor succeeds, and the object it
  makes is `Built`;
* `words_partition` -- it cuts every text into words and loses nothing.
-/

namespace TiktokenCpp

open Utf8 Backtrack Pcre2

/-! ## Names of special tokens -/

/-- A name of the kind the registry supplies: ASCII without backslash, not
empty, that fits the conversion buffer. The program reads the names as C
strings, so there is no NUL in one. -/
structure NameKind (n : Bytes) : Prop where
  ne_nil : n ≠ []
  ascii : IsAscii n
  noBackslash : 92 ∉ n
  noNul : 0 ∉ n
  short : n.length ≤ localBufSize

instance (n : Bytes) : Decidable (NameKind n) :=
  decidable_of_iff (n ≠ [] ∧ IsAscii n ∧ 92 ∉ n ∧ 0 ∉ n ∧ n.length ≤ localBufSize)
    ⟨fun h => ⟨h.1, h.2.1, h.2.2.1, h.2.2.2.1, h.2.2.2.2⟩,
      fun h => ⟨h.ne_nil, h.ascii, h.noBackslash, h.noNul, h.short⟩⟩

/-- A special-token table of the kind the registry supplies. -/
structure SpecialKind (special : StrViewToInt) : Prop where
  nonempty : special.entries ≠ []
  name : ∀ e ∈ special.entries, NameKind e.1

/-- The names of a special-token table, in iteration order. -/
def names (special : StrViewToInt) : List Bytes := special.entries.map Prod.fst

theorem SpecialKind.names_ne_nil {special : StrViewToInt} (h : SpecialKind special) :
    names special ≠ [] := by
  unfold names
  rw [ne_eq, List.map_eq_nil_iff]
  exact h.nonempty

theorem SpecialKind.nameKind {special : StrViewToInt} (h : SpecialKind special) {n : Bytes}
    (hn : n ∈ names special) : NameKind n := by
  obtain ⟨e, he, rfl⟩ := List.mem_map.mp hn
  exact h.name e he

theorem mem_names_iff {special : StrViewToInt} {n : Bytes} :
    n ∈ names special ↔ ∃ id, special.find? n = some id := by
  constructor
  · intro hn
    obtain ⟨⟨n', id⟩, he, rfl⟩ := List.mem_map.mp hn
    exact ⟨id, UnorderedMap.find?_eq_some_iff.mpr he⟩
  · rintro ⟨id, hid⟩
    exact List.mem_map.mpr ⟨(n, id), UnorderedMap.find?_eq_some_iff.mp hid, rfl⟩

/-- No registered name is the beginning of another. -/
def PrefixFree (special : StrViewToInt) : Prop :=
  ∀ n ∈ names special, ∀ m ∈ names special, n <+: m → n = m

instance (special : StrViewToInt) : Decidable (PrefixFree special) :=
  inferInstanceAs (Decidable (∀ n ∈ names special, ∀ m ∈ names special, _))

theorem mem_names_shuffle {special : StrViewToInt} {order : IterationOrder} {n : Bytes} :
    n ∈ names (special.shuffle order) ↔ n ∈ names special := by
  rw [mem_names_iff, mem_names_iff]
  simp only [UnorderedMap.find?_shuffle]

/-- The two conditions do not see the iteration order. -/
theorem SpecialKind.shuffle {special : StrViewToInt} (h : SpecialKind special)
    (order : IterationOrder) : SpecialKind (special.shuffle order) where
  nonempty := by
    intro hnil
    have hperm := order.perm special.entries
    have hwalk : order.walk special.entries = [] := hnil
    rw [hwalk] at hperm
    exact h.nonempty hperm.nil_eq.symm
  name := fun e he => h.name e (UnorderedMap.mem_shuffle.mp he)

theorem PrefixFree.shuffle {special : StrViewToInt} (h : PrefixFree special)
    (order : IterationOrder) : PrefixFree (special.shuffle order) :=
  fun n hn m hm => h n (mem_names_shuffle.mp hn) m (mem_names_shuffle.mp hm)

/-- **The registry supplies such tables**, and in each of them no name is the
beginning of another. -/
theorem registry_specialKind (order : IterationOrder) :
    ∀ param ∈ (sEncodingParam order).dropLast,
      SpecialKind param.specialTokens ∧ PrefixFree param.specialTokens := by
  intro param hparam
  simp only [sEncodingParam, List.dropLast, List.mem_cons, List.not_mem_nil, or_false] at hparam
  rcases hparam with h | h | h | h <;> rw [h]
  all_goals exact
    ⟨SpecialKind.shuffle ⟨by decide, by decide +kernel⟩ order, PrefixFree.shuffle (by decide +kernel) order⟩

theorem cstr_of_noNul {n : Bytes} (h : 0 ∉ n) : cstr n = n := by
  unfold cstr
  rw [List.takeWhile_eq_self_iff]
  intro b hb
  have hne : b ≠ 0 := by
    rintro rfl
    exact h hb
  simpa using hne

/-- The names as words to look for. -/
def wordSet (ns : List Bytes) (h : ∀ n ∈ ns, NameKind n) : Scan.WordSet UInt8 :=
  ⟨ns, fun n hn => (h n hn).ne_nil⟩

/-! ## Escaping -/

/-- `EscapeRegex` on characters. -/
def escapeChars (c : Char) : List Char := asciiChars (escapeChar (UInt8.ofNat c.val.toNat))

theorem escapeChars_ofUInt8 (b : UInt8) : escapeChars (Char.ofUInt8 b) = asciiChars (escapeChar b) := by
  have hval : (Char.ofUInt8 b).val.toNat = b.toNat := UInt8.toNat_toUInt32 b
  unfold escapeChars
  rw [hval, UInt8.ofNat_toNat]

theorem isAscii_escapeChar {b : UInt8} (hb : b.toNat < 128) : IsAscii (escapeChar b) := by
  unfold escapeChar
  split
  · intro x hx
    rcases List.mem_cons.mp hx with rfl | hx
    · decide
    · rw [List.mem_singleton.mp hx]
      exact hb
  · intro x hx
    rw [List.mem_singleton.mp hx]
    exact hb

theorem encode_escapeChars {n : Bytes} (hn : IsAscii n) :
    encode ((asciiChars n).flatMap escapeChars) = escapeRegex n := by
  induction n with
  | nil => rfl
  | cons b n ih =>
    have hb : b.toNat < 128 := hn b (List.mem_cons_self ..)
    have hrest := ih fun x hx => hn x (List.mem_cons_of_mem _ hx)
    unfold asciiChars escapeRegex at hrest ⊢
    rw [List.map_cons, List.flatMap_cons, List.flatMap_cons, encode_append, hrest,
      escapeChars_ofUInt8, encode_asciiChars (isAscii_escapeChar hb)]

instance (piece : List Char) (c : Char) : Decidable (Spells piece c) :=
  inferInstanceAs (Decidable (_ ∨ _))

/-- The escaped characters are those with a meaning of their own, backslash
apart, and no letter or digit is escaped. -/
theorem spells_escapeChar : ∀ k < 128, k ≠ 92 →
    Spells (asciiChars (escapeChar (UInt8.ofNat k))) (Char.ofUInt8 (UInt8.ofNat k)) := by
  decide +kernel

theorem spells_escapeChars {n : Bytes} (hn : NameKind n) :
    ∀ c ∈ asciiChars n, Spells (escapeChars c) c := by
  intro c hc
  obtain ⟨b, hb, rfl⟩ := List.mem_map.mp hc
  have hne : b.toNat ≠ 92 := by
    intro h
    have h92 : b = 92 := UInt8.toNat_inj.mp h
    exact hn.noBackslash (h92 ▸ hb)
  have hspells := spells_escapeChar b.toNat (hn.ascii b hb) hne
  rw [UInt8.ofNat_toNat] at hspells
  rwa [escapeChars_ofUInt8]

theorem NameKind.noBackslash_asciiChars {n : Bytes} (hn : NameKind n) : '\\' ∉ asciiChars n := by
  intro hmem
  have hbyte : 92 ∈ encode (asciiChars n) := List.mem_flatMap.mpr ⟨'\\', hmem, by decide⟩
  rw [encode_asciiChars hn.ascii] at hbyte
  exact hn.noBackslash hbyte

/-- Escaped names joined by `|`, as characters. -/
def joinedNames (ns : List Bytes) : List Char :=
  join '|' (ns.map fun n => (asciiChars n).flatMap escapeChars)

/-- The alternation of the names. -/
def namesRegex (ns : List Bytes) : Regex CharClass :=
  anyOf (ns.map fun n => lit ((asciiChars n).map .lit))

theorem encode_join (ws : List (List Char)) : encode (join '|' ws) = join 124 (ws.map encode) := by
  induction ws with
  | nil => rfl
  | cons w ws ih =>
    cases ws with
    | nil => rfl
    | cons v ws =>
      rw [join, encode_append, encode_cons, ih]
      rfl

theorem encode_joinedNames {ns : List Bytes} (hns : ∀ n ∈ ns, NameKind n) :
    encode (joinedNames ns) = join 124 (ns.map escapeRegex) := by
  unfold joinedNames
  rw [encode_join, List.map_map]
  congr 1
  exact List.map_congr_left fun n hn => encode_escapeChars (hns n hn).ascii

/-- **The joined pattern stands for the names.** -/
theorem parse_names {ns : List Bytes} (hne : ns ≠ []) (hns : ∀ n ∈ ns, NameKind n) :
    parse (joinedNames ns) = some (namesRegex ns) := by
  have hspells : ∀ w ∈ ns.map asciiChars, ∀ c ∈ w, Spells (escapeChars c) c := by
    intro w hw c hc
    obtain ⟨n, hn, rfl⟩ := List.mem_map.mp hw
    exact spells_escapeChars (hns n hn) c hc
  have h := parse_joined (ns.map asciiChars) (by rwa [ne_eq, List.map_eq_nil_iff]) hspells
  rw [List.map_map, List.map_map] at h
  exact h

/-! ## Matching names -/

section

variable {U : UnicodeProps} {ns : List Bytes}

theorem namesRegex_eq (ns : List Bytes) : namesRegex ns = wordsRegex (ns.map asciiChars) := by
  rw [namesRegex, wordsRegex, List.map_map]
  rfl

theorem mem_ends_namesRegex (hne : ns ≠ []) {s t : List Char} :
    t ∈ (namesRegex ns).ends (CharClass.mem U) s ↔ ∃ n ∈ ns, s = asciiChars n ++ t := by
  rw [namesRegex_eq, mem_ends_wordsRegex (by rwa [ne_eq, List.map_eq_nil_iff])]
  simp only [List.mem_map, exists_exists_and_eq_and]

theorem groups_lit (ks : List CharClass) : (lit ks).groups = 0 := by
  induction ks with
  | nil => rfl
  | cons k ks ih => rw [lit, Regex.groups, ih]; rfl

theorem groups_namesRegex (ns : List Bytes) : (namesRegex ns).groups = 0 := by
  unfold namesRegex
  induction ns with
  | nil => rfl
  | cons n ns ih =>
    cases ns with
    | nil => exact groups_lit _
    | cons m ns =>
      rw [List.map_cons, List.map_cons, anyOf, Regex.groups, groups_lit, Nat.zero_add]
      exact ih

/-- No name begins in `p` when the characters `t` follow it. -/
def NoNameIn (ns : List Bytes) (p t : List Char) : Prop :=
  ∀ a b, p = a ++ b → b ≠ [] → ∀ m ∈ ns, ¬ asciiChars m <+: b ++ t

/-- The same in bytes: a name of ASCII characters begins at a character. -/
theorem clear_encode (hns : ∀ n ∈ ns, NameKind n) {p t : List Char} (h : NoNameIn ns p t) :
    Scan.Clear (wordSet ns hns) (encode p) (encode t) := by
  rintro x y hxy hy m hm hpre
  have hkind := hns m hm
  have hdrop : m <+: (encode (p ++ t)).drop x.length := by
    rw [encode_append, hxy, List.append_assoc, List.drop_left]
    exact hpre
  obtain ⟨a, b, hpt, hk⟩ := (ascii_prefix_drop_iff hkind.ascii hkind.ne_nil (p ++ t) x.length).mp hdrop
  have hshort : (encode a).length < (encode p).length := by
    have hpos := List.length_pos_iff.mpr hy
    rw [hxy, List.length_append]
    omega
  rw [List.append_assoc] at hpt
  rcases List.append_eq_append_iff.mp hpt with ⟨c, rfl, -⟩ | ⟨c, rfl, hc⟩
  · rw [encode_append, List.length_append] at hshort
    omega
  · have hcne : c ≠ [] := by
      rintro rfl
      rw [List.append_nil] at hshort
      omega
    exact h a c rfl hcne m hm ⟨b, hc⟩

/-- **What matching the joined pattern reports**: the first name in the rest of
the subject, or nothing. -/
theorem match_names {P : Pcre2} {code : P.Code} (himpl : P.Implements U code (namesRegex ns))
    (hne : ns ≠ []) (hns : ∀ n ∈ ns, NameKind n) (pre suf : List Char) :
    (P.pcre2_match code (encode (pre ++ suf)) (encode pre).length = .error errorNoMatch ∧
      Scan.Clear (wordSet ns hns) (encode suf) []) ∨
    ∃ a n b, n ∈ ns ∧ suf = a ++ (asciiChars n ++ b) ∧
      P.pcre2_match code (encode (pre ++ suf)) (encode pre).length =
        .matched ⟨(encode (pre ++ a)).length, (encode (pre ++ a ++ asciiChars n)).length⟩ [] ∧
      Scan.Clear (wordSet ns hns) (encode a) (encode (asciiChars n ++ b)) := by
  cases hsearch : search (CharClass.mem U) (namesRegex ns) suf with
  | none =>
    refine Or.inl ⟨himpl.of_search_none hsearch, ?_⟩
    refine clear_encode hns (t := []) ?_
    intro a b hab _ m hm
    rintro ⟨c, hc⟩
    rw [List.append_nil] at hc
    have hends := search_none hsearch a b hab
    exact List.ne_nil_of_mem ((mem_ends_namesRegex hne).mpr ⟨m, hm, hc.symm⟩) hends
  | some f =>
    obtain ⟨hsplit, hmem, hearlier⟩ := search_spec hsearch
    obtain ⟨n, hn, hmatched⟩ := (mem_ends_namesRegex hne).mp hmem
    have hword : f.matched = asciiChars n := List.append_cancel_right hmatched
    obtain ⟨groups, hlen, hmatch⟩ := himpl.of_search_some hsearch pre
    have hgroups : groups = [] := by
      rw [groups_namesRegex] at hlen
      exact List.length_eq_zero_iff.mp hlen
    refine Or.inr ⟨f.skipped, n, f.rest, hn, ?_, ?_, ?_⟩
    · rw [hsplit, hword, List.append_assoc]
    · rw [hmatch, hgroups, hword]
    · refine clear_encode hns ?_
      intro a b hab hb m hm
      rintro ⟨c, hc⟩
      have hends := hearlier a b hab hb
      rw [hword, List.append_assoc] at hends
      exact List.ne_nil_of_mem ((mem_ends_namesRegex hne).mpr ⟨m, hm, hc.symm⟩) hends

end

/-! ## The constructor -/

section

variable {E : Platform} {U : UnicodeProps} {encoder : EncodeDict} {special : StrViewToInt}

/-- The object that the constructor makes of its arguments. -/
structure Built (U : UnicodeProps) (encoder : EncodeDict) (special : StrViewToInt)
    (bpe : CoreBpe E) : Prop where
  encoder : bpe.encoder = encoder
  decoder : bpe.decoder = none
  specialTokens : ∀ n, bpe.specialTokensEncoder.find? n = special.find? n
  specialDecoder : ∃ es : List (Bytes × UInt32), es.Perm special.entries ∧
    bpe.specialTokensDecoder = UnorderedMap.empty.emplaceAll (es.map Prod.swap)
  specialRegex : E.pcre2.Implements U bpe.specialRegex (namesRegex (names special))

theorem specialPattern_eq (hkind : SpecialKind special) :
    specialPattern special = encode (joinedNames (names special)) := by
  unfold specialPattern
  rw [encode_joinedNames fun n hn => hkind.nameKind hn, names, List.map_map]
  congr 1
  refine List.map_congr_left ?_
  intro e he
  rw [cstr_of_noNul (hkind.name e he).noNul]
  rfl

/-- A pattern that parses compiles. -/
theorem compile_of_parse (hE : E.Documented U) {pat : List Char} {re : Regex CharClass}
    (hparse : parse pat = some re) :
    ∃ code, compile E (encode pat) = .ret code ∧ E.pcre2.Implements U code re := by
  obtain ⟨code, hcode, himpl⟩ := hE.pcre2.compiles hparse
  exact ⟨code, by rw [compile, hcode], himpl⟩

/-- Converting the names leaves the table as it is. -/
theorem convertSpecialTokens_eq (hE : E.Documented U) {fuel : Nat} (hfuel : 0 < fuel)
    (es : List (Bytes × UInt32)) (hes : ∀ e ∈ es, NameKind e.1) (acc : Utf8StrToInt) :
    convertSpecialTokens E fuel es acc = .ret (acc.emplaceAll es) := by
  induction es generalizing acc with
  | nil => rfl
  | cons e es ih =>
    obtain ⟨he, hes⟩ := List.forall_mem_cons.mp hes
    rw [convertSpecialTokens, cstr_of_noNul he.noNul,
      utf8StrFromLocalMBCS_ascii hE.iconv hfuel he.ascii he.short, Outcome.ret_bind, ih hes]
    rfl

theorem built_of_new (hE : E.Documented U) (hkind : SpecialKind special) {fuel : Nat}
    (hfuel : 0 < fuel) {pattern : Bytes} {self : CoreBpe E}
    (h : CoreBpe.new E fuel encoder special pattern = .ret self) :
    Built U encoder special self ∧ compile E (cstr pattern) = .ret self.regex := by
  obtain ⟨code, hcode, himpl⟩ := compile_of_parse hE
    (parse_names hkind.names_ne_nil fun n hn => hkind.nameKind hn)
  rw [CoreBpe.new, Outcome.bind_eq_ret] at h
  obtain ⟨regex, hregex, h⟩ := h
  rw [convertSpecialTokens_eq hE hfuel special.entries hkind.name, Outcome.ret_bind,
    specialPattern_eq hkind, hcode, Outcome.ret_bind, Outcome.pure_eq, Outcome.ret.injEq] at h
  subst h
  refine ⟨⟨rfl, rfl, ?_, ?_, himpl⟩, hregex⟩
  · intro n
    show ((UnorderedMap.empty.emplaceAll special.entries).shuffle E.order).find? n = _
    rw [UnorderedMap.find?_shuffle]
    apply Option.ext
    intro id
    rw [UnorderedMap.find?_emplaceAll_of_nodup special.nodup, UnorderedMap.find?_eq_some_iff]
  · refine ⟨((UnorderedMap.empty.emplaceAll special.entries).shuffle E.order).entries, ?_, rfl⟩
    refine (E.order.perm (UnorderedMap.empty.emplaceAll special.entries).entries).trans ?_
    rw [UnorderedMap.entries_emplaceAll_of_nodup special.nodup]

theorem noNul_str {s : String} (h : '\x00' ∉ s.toList) : 0 ∉ str s := by
  intro hmem
  exact h (mem_encode_ascii (by decide) hmem)

/-- A pattern of the registry compiles to one that cuts every text into words. -/
theorem compile_registry (hE : E.Documented U) {pattern : Bytes} (hpattern : RegistryPattern pattern) :
    ∃ code, compile E (cstr pattern) = .ret code ∧
      ∃ re, E.pcre2.Implements U code re ∧ Splits U re := by
  obtain ⟨pat, re, hpat, hnoNul, hparse, hsplits⟩ : ∃ pat re, pattern = encode pat ∧ 0 ∉ pattern ∧
      parse pat = some re ∧ Splits U re := by
    rcases registryPattern_cases hpattern with hpat | hpat
    · refine ⟨_, _, hpat, ?_, parse_r50kPat, splits_r50k U⟩
      rw [hpat]
      exact noNul_str (by decide +kernel)
    · refine ⟨_, _, hpat, ?_, parse_cl100kPat, splits_cl100k U⟩
      rw [hpat]
      exact noNul_str (by decide +kernel)
  obtain ⟨code, hcode, himpl⟩ := compile_of_parse hE hparse
  exact ⟨code, by rw [cstr_of_noNul hnoNul, hpat, hcode], re, himpl, hsplits⟩

/-- An object with a pattern of the registry cuts every text into words. -/
theorem splits_of_compile (hE : E.Documented U) {pattern : Bytes}
    (hpattern : RegistryPattern pattern) {code : E.pcre2.Code}
    (h : compile E (cstr pattern) = .ret code) :
    ∃ re, E.pcre2.Implements U code re ∧ Splits U re := by
  obtain ⟨code', hcode', hre⟩ := compile_registry hE hpattern
  rw [hcode', Outcome.ret.injEq] at h
  exact h ▸ hre

/-- **With a pattern of the registry the constructor succeeds.** -/
theorem new_built (hE : E.Documented U) (encoder : EncodeDict) (hkind : SpecialKind special)
    {pattern : Bytes} (hpattern : RegistryPattern pattern) {fuel : Nat} (hfuel : 0 < fuel) :
    ∃ self : CoreBpe E, CoreBpe.new E fuel encoder special pattern = .ret self ∧
      Built U encoder special self ∧
      ∃ re, E.pcre2.Implements U self.regex re ∧ Splits U re := by
  obtain ⟨regex, hregex, -⟩ := compile_registry hE hpattern
  obtain ⟨code, hcode, -⟩ := compile_of_parse hE
    (parse_names hkind.names_ne_nil fun n hn => hkind.nameKind hn)
  have hnew : ∃ self, CoreBpe.new E fuel encoder special pattern = .ret self := by
    rw [CoreBpe.new, hregex, Outcome.ret_bind,
      convertSpecialTokens_eq hE hfuel special.entries hkind.name, Outcome.ret_bind,
      specialPattern_eq hkind, hcode, Outcome.ret_bind]
    exact ⟨_, rfl⟩
  obtain ⟨self, hself⟩ := hnew
  obtain ⟨hbuilt, hcompiled⟩ := built_of_new hE hkind hfuel hself
  exact ⟨self, hself, hbuilt, splits_of_compile hE hpattern hcompiled⟩

/-- **The words partition the text.** With a pattern of the registry and any
character database, the match from every offset before the end of a text begins
there and is not empty; the splitter comes to an end, and its words are not
empty and make up the text. They are the successive matches: each word is what
the pattern matches from the end of the words before it. -/
theorem words_partition (hE : E.Documented U) {pattern : Bytes} (hpattern : RegistryPattern pattern) :
    ∃ code, compile E (cstr pattern) = .ret code ∧
      ∀ self : CoreBpe E, self.regex = code →
        (∀ pre suf : List Char, suf ≠ [] → ∃ m t, suf = m ++ t ∧ m ≠ [] ∧
          E.pcre2.pcre2_match self.regex (encode (pre ++ suf)) (encode pre).length =
            .matched ⟨(encode pre).length, (encode (pre ++ m)).length⟩ []) ∧
        ∀ (cs : List Char) (fuel : Nat), cs.length ≤ fuel →
          ∃ ws, utf8WordsSpliter self fuel (encode cs) = .ret ws ∧ (∀ w ∈ ws, w ≠ []) ∧
            ws.flatten = encode cs ∧
            ∀ before w after, ws = before ++ w :: after →
              E.pcre2.pcre2_match self.regex (encode cs) before.flatten.length =
                .matched ⟨before.flatten.length, (before.flatten ++ w).length⟩ [] := by
  obtain ⟨code, hcode, re, himpl, hsplits⟩ := compile_registry hE hpattern
  refine ⟨code, hcode, ?_⟩
  rintro self rfl
  refine ⟨?_, ?_⟩
  · intro pre suf hsuf
    obtain ⟨c, cs, rfl⟩ := List.exists_cons_of_ne_nil hsuf
    obtain ⟨m, t, -, hm, hs, hmatch⟩ := match_at_start himpl hsplits pre c cs
    exact ⟨m, t, hs, hm, hmatch⟩
  · intro cs fuel hfuel
    obtain ⟨ws, hws, hflat, hne⟩ := utf8WordsSpliter_encode himpl hsplits hfuel
    refine ⟨ws, hws, hne, hflat, ?_⟩
    rintro before w after rfl
    exact utf8WordsSpliter_matched himpl hsplits hfuel hws

/-! ## The constructor of `TikToken` -/

/-- What the constructor of `TikToken` makes: the object of `CoreBpe` and the
set of the special names. -/
theorem built_of_fromEncoder (hE : E.Documented U) {param : EncodingParam}
    (hkind : SpecialKind param.specialTokens) {fuel : Nat} (hfuel : 0 < fuel) {tok : TikToken E}
    (h : TikToken.fromEncoder E fuel param encoder = .ret tok) :
    Built U encoder param.specialTokens tok.corebpe ∧
      compile E (cstr param.patStr) = .ret tok.corebpe.regex ∧
      ∀ n, n ∈ tok.specialTokensSet ↔ n ∈ names param.specialTokens := by
  unfold TikToken.fromEncoder at h
  obtain ⟨_, -, h⟩ := Outcome.bind_eq_ret.mp h
  obtain ⟨bpe, hbpe, h⟩ := Outcome.bind_eq_ret.mp h
  rw [Outcome.pure_eq, Outcome.ret.injEq] at h
  subst h
  obtain ⟨hbuilt, hcompiled⟩ := built_of_new hE hkind hfuel hbpe
  refine ⟨hbuilt, hcompiled, ?_⟩
  intro n
  have hnames : (param.specialTokens.entries.map fun spi => cstr spi.1) =
      names param.specialTokens :=
    List.map_congr_left fun e he => cstr_of_noNul (hkind.name e he).noNul
  rw [hnames, OrderedSet.mem_insertAll]
  exact or_iff_right (OrderedSet.not_mem_empty n)

/-- With a pattern of the registry, it succeeds when its assertions hold. -/
theorem fromEncoder_ret (hE : E.Documented U) (param : EncodingParam) (encoder : EncodeDict)
    (hkind : SpecialKind param.specialTokens) (hpattern : RegistryPattern param.patStr)
    (hcheck : checkVocab param.vocabN encoder param.specialTokens = .ret ()) {fuel : Nat}
    (hfuel : 0 < fuel) : ∃ tok, TikToken.fromEncoder E fuel param encoder = .ret tok := by
  obtain ⟨bpe, hbpe, -⟩ := new_built hE encoder hkind hpattern hfuel
  unfold TikToken.fromEncoder
  rw [hcheck, Outcome.ret_bind, hbpe]
  exact ⟨_, rfl⟩

end

/-! ## An instance -/

/-- A platform with documented libraries and nothing in its cache. -/
def plainPlatform : Platform where
  pcre2 := Pcre2.reference asciiProps
  iconv := Iconv.identity
  order := IterationOrder.insertion
  cache _ := none

theorem plainPlatform_documented : plainPlatform.Documented asciiProps :=
  ⟨reference_documented asciiProps, Iconv.identity_documented⟩

/-- The special tokens of `r50k_base`. -/
def endoftextTable : StrViewToInt := UnorderedMap.empty.emplaceAll [(endoftext, 50256)]

theorem endoftextTable_kind : SpecialKind endoftextTable := ⟨by decide, by decide +kernel⟩

theorem endoftextTable_prefixFree : PrefixFree endoftextTable := by decide +kernel

theorem r50kPat_registered : RegistryPattern (str r50kPat) :=
  ⟨IterationOrder.insertion, (sEncodingParam IterationOrder.insertion).head (List.cons_ne_nil _ _),
    List.mem_cons_self .., rfl⟩

theorem words_partition_r50k :
    ∃ code, compile plainPlatform (cstr (str r50kPat)) = .ret code ∧
      ∀ self : CoreBpe plainPlatform, self.regex = code →
        ∃ ws, utf8WordsSpliter self 9 (encode "I'll  go!".toList) = .ret ws ∧ (∀ w ∈ ws, w ≠ []) ∧
          ws.flatten = encode "I'll  go!".toList ∧
          ∀ before w after, ws = before ++ w :: after →
            plainPlatform.pcre2.pcre2_match self.regex (encode "I'll  go!".toList)
              before.flatten.length =
                .matched ⟨before.flatten.length, (before.flatten ++ w).length⟩ [] := by
  obtain ⟨code, hcode, hall⟩ := words_partition plainPlatform_documented r50kPat_registered
  exact ⟨code, hcode, fun self hself => (hall self hself).2 _ 9 (by decide)⟩

end TiktokenCpp
