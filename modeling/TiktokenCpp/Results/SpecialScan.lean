import TiktokenCpp.Results.BytePair
import TiktokenCpp.Results.Construction

/-!
# The special-token scan refines leftmost scanning

`EncodeNative` looks for the next allowed special token with a regex over all
of them, restarting one byte after a disallowed one. The reference is the
leftmost, non-overlapping cut of the text at its allowed special tokens
(`Scan.cut`). The two agree because a disallowed name hides no allowed one: no
name begins another, and a name begins only where a character does.

Main results:

* `findSpecial_eq` -- the inner loop finds the next hit of the cut;
* `encodeNativeLoop_eq` -- the outer loop emits the pieces of the cut;
* `encodeNative_eq_reference` -- the whole call, from the constructor on.
-/

namespace TiktokenCpp

open Utf8 Pcre2

/-! ## The reference -/

/-- What is emitted for a text taken apart: each piece of ordinary text, each
time followed by the id of a special token, and the rest. -/
def encodePieces (ordinary : Bytes → Run (List UInt32)) (id : Bytes → UInt32) :
    List (Bytes × Bytes) → Bytes → Run (List UInt32)
  | [], tail => ordinary tail
  | (before, word) :: pieces, tail => do
    let tokens ← ordinary before
    let rest ← encodePieces ordinary id pieces tail
    return tokens ++ id word :: rest

/-- The registered names that are allowed. -/
def allowedNames {special : StrViewToInt} (hkind : SpecialKind special)
    (allowed : Utf8StringSet) : Scan.WordSet UInt8 :=
  (wordSet (names special) fun _ hn => hkind.nameKind hn).filter (· ∈ allowed)

/-- The id of a registered name. -/
def idOf (special : StrViewToInt) (n : Bytes) : UInt32 := (special.find? n).getD 0

/-- Encoding by the book: again and again, the smallest position where an
allowed registered name occurs, the text in front of it as ordinary text, the
id of the name; and after the last one the rest as ordinary text. -/
def encodeReference (ordinary : Bytes → Run (List UInt32)) {special : StrViewToInt}
    (hkind : SpecialKind special) (allowed : Utf8StringSet) (text : Bytes) : Run (List UInt32) :=
  encodePieces ordinary (idOf special) (Scan.cut (allowedNames hkind allowed) text).1
    (Scan.cut (allowedNames hkind allowed) text).2

section

variable {E : Platform} {U : UnicodeProps} {self : CoreBpe E} {special : StrViewToInt}

theorem mem_allowedNames {hkind : SpecialKind special} {allowed : Utf8StringSet} {n : Bytes} :
    n ∈ allowedNames hkind allowed ↔ n ∈ names special ∧ n ∈ allowed := by
  unfold allowedNames
  rw [Scan.WordSet.mem_filter, decide_eq_true_iff]
  exact Iff.rfl

theorem prefixFree_allowedNames {hkind : SpecialKind special} (hpf : PrefixFree special)
    (allowed : Utf8StringSet) : (allowedNames hkind allowed).PrefixFree := by
  have hall : (wordSet (names special) fun _ hn => hkind.nameKind hn).PrefixFree := hpf
  exact hall.filter _

/-- Where no name begins, no allowed name does. -/
theorem clear_allowedNames {hkind : SpecialKind special} {p t : Bytes}
    (h : Scan.Clear (wordSet (names special) fun _ hn => hkind.nameKind hn) p t)
    (allowed : Utf8StringSet) : Scan.Clear (allowedNames hkind allowed) p t :=
  h.filter _

/-- A hit in a text of characters is one between characters. -/
theorem hit_chars {hkind : SpecialKind special} {allowed : Utf8StringSet} {cs : List Char}
    {hit : Scan.Hit UInt8}
    (hhit : Scan.nextHit (allowedNames hkind allowed) (encode cs) = some hit) :
    hit.word ∈ names special ∧ hit.word ∈ allowed ∧ ∃ a b, cs = a ++ asciiChars hit.word ++ b ∧
      hit.before = encode a ∧ encode (asciiChars hit.word) = hit.word ∧ hit.after = encode b := by
  obtain ⟨hsplit, hmem, -⟩ := Scan.nextHit_isFirst hhit
  obtain ⟨hname, hallowed⟩ := mem_allowedNames.mp hmem
  have hword := hkind.nameKind hname
  have hascii := encode_asciiChars hword.ascii
  have hpre : hit.word <+: (encode cs).drop hit.before.length := by
    rw [hsplit, List.drop_left]
    exact List.prefix_append hit.word hit.after
  obtain ⟨a, b, hcs, hlen⟩ :=
    (ascii_prefix_drop_iff hword.ascii hword.ne_nil cs hit.before.length).mp hpre
  rw [hcs, encode_append, encode_append, hascii, List.append_assoc] at hsplit
  obtain ⟨hbefore, hrest⟩ := List.append_inj hsplit hlen.symm
  exact ⟨hname, hallowed, a, b, hcs, hbefore.symm, hascii, (List.append_cancel_left hrest).symm⟩

/-- The pieces of a cut are texts of characters again. -/
theorem cut_chars (hkind : SpecialKind special) (allowed : Utf8StringSet) (cs : List Char) :
    (∀ p ∈ (Scan.cut (allowedNames hkind allowed) (encode cs)).1,
      ∃ a, p.1 = encode a ∧ a.length ≤ cs.length) ∧
    ∃ b, (Scan.cut (allowedNames hkind allowed) (encode cs)).2 = encode b ∧
      b.length ≤ cs.length := by
  induction hn : cs.length using Nat.strong_induction_on generalizing cs with
  | _ n ih =>
    cases hhit : Scan.nextHit (allowedNames hkind allowed) (encode cs) with
    | none =>
      rw [Scan.cut_of_none hhit]
      exact ⟨by simp, cs, rfl, hn.le⟩
    | some hit =>
      obtain ⟨hname, -, a, b, hcs, hbefore, -, hafter⟩ := hit_chars hhit
      have hpos : 0 < (asciiChars hit.word).length := by
        unfold asciiChars
        rw [List.length_map]
        exact List.length_pos_iff.mpr (hkind.nameKind hname).ne_nil
      have hlen : a.length + (asciiChars hit.word).length + b.length = n := by
        rw [← hn, hcs, List.length_append, List.length_append]
      obtain ⟨hpieces, b', hb', hshort⟩ := ih b.length (by omega) b rfl
      rw [Scan.cut_of_some hhit, hafter]
      refine ⟨?_, b', hb', by omega⟩
      intro p hp
      rcases List.mem_cons.mp hp with rfl | hp
      · exact ⟨a, hbefore, by omega⟩
      · obtain ⟨c, hc, hshort⟩ := hpieces p hp
        exact ⟨c, hc, by omega⟩

/-! ## The inner loop -/

theorem findSpecial_of_error {text : Bytes} {allowed : Utf8StringSet} {startFind : Nat} {rc : Int}
    (h : E.pcre2.pcre2_match self.specialRegex text startFind = .error rc) (fuel : Nat) :
    findSpecial self text allowed fuel startFind = .ret none := by
  cases fuel with
  | zero => rw [findSpecial, h]
  | succ fuel => rw [findSpecial, h]

/-- A match without groups is taken if its text is allowed. -/
theorem findSpecial_of_matched {allowed : Utf8StringSet} {a m t : List Char} {start : Nat}
    (h : E.pcre2.pcre2_match self.specialRegex (encode (a ++ m ++ t)) start =
      .matched ⟨(encode a).length, (encode (a ++ m)).length⟩ []) (fuel : Nat) :
    findSpecial self (encode (a ++ m ++ t)) allowed (fuel + 1) start =
      if encode m ∈ allowed then
        .ret (some ⟨(encode a).length, (encode (a ++ m)).length, encode m⟩)
      else findSpecial self (encode (a ++ m ++ t)) allowed fuel ((encode a).length + 1) := by
  rw [findSpecial, h]
  show (findFirstSpecialPosition _ allowed (overtor _ []) >>= _) = _
  rw [overtor, findFirstSpecialPosition, substr_encode, Outcome.ret_bind]
  by_cases hmem : encode m ∈ allowed
  · rw [if_pos hmem, if_pos hmem]
    rfl
  · rw [if_neg hmem, if_neg hmem]
    rfl

/-- A name of more than nothing starts with a character of one byte. -/
theorem asciiChars_cons {n : Bytes} (hn : NameKind n) :
    ∃ c cs, asciiChars n = c :: cs ∧ (encode [c]).length = 1 := by
  obtain ⟨b, bs, rfl⟩ := List.exists_cons_of_ne_nil hn.ne_nil
  refine ⟨Char.ofUInt8 b, asciiChars bs, rfl, ?_⟩
  have hb : b.toNat < 128 := hn.ascii b (List.mem_cons_self ..)
  rw [encode_cons, utf8EncodeChar_ofUInt8 hb]
  rfl

/-- Where the inner loop stands when it finds a hit `before` further on. -/
def specialIdx (start : Nat) (hit : Scan.Hit UInt8) : SpecialIdx :=
  ⟨start + hit.before.length, start + hit.before.length + hit.word.length, hit.word⟩

/-- **One round of the inner loop**, from a character boundary: it finds no name,
takes an allowed one, or goes on behind the first character of a disallowed one. -/
theorem findSpecial_step (hkind : SpecialKind special)
    (himpl : E.pcre2.Implements U self.specialRegex (namesRegex (names special)))
    (allowed : Utf8StringSet) (pre suf : List Char) (fuel : Nat) :
    (findSpecial self (encode (pre ++ suf)) allowed (fuel + 1) (encode pre).length = .ret none ∧
      Scan.Clear (wordSet (names special) fun _ hn => hkind.nameKind hn) (encode suf) []) ∨
    ∃ a n b, n ∈ names special ∧ suf = a ++ (asciiChars n ++ b) ∧
      Scan.Clear (wordSet (names special) fun _ hn => hkind.nameKind hn) (encode a)
        (encode (asciiChars n ++ b)) ∧
      ((n ∈ allowed ∧
        findSpecial self (encode (pre ++ suf)) allowed (fuel + 1) (encode pre).length =
          .ret (some ⟨(encode (pre ++ a)).length, (encode (pre ++ a ++ asciiChars n)).length, n⟩)) ∨
      (n ∉ allowed ∧ ∃ c cs, asciiChars n = c :: cs ∧ (encode [c]).length = 1 ∧
        findSpecial self (encode (pre ++ suf)) allowed (fuel + 1) (encode pre).length =
          findSpecial self (encode (pre ++ a ++ [c] ++ (cs ++ b))) allowed fuel
            (encode (pre ++ a ++ [c])).length)) := by
  rcases match_names himpl hkind.names_ne_nil (fun n hn => hkind.nameKind hn) pre suf with
    ⟨hmatch, hclear⟩ | ⟨a, n, b, hn, hsuf, hmatch, hclear⟩
  · exact Or.inl ⟨findSpecial_of_error hmatch _, hclear⟩
  · refine Or.inr ⟨a, n, b, hn, hsuf, hclear, ?_⟩
    have hascii := encode_asciiChars (hkind.nameKind hn).ascii
    have htext : pre ++ suf = pre ++ a ++ asciiChars n ++ b := by
      rw [hsuf, List.append_assoc, List.append_assoc]
    rw [htext] at hmatch ⊢
    rw [findSpecial_of_matched hmatch, hascii]
    by_cases hallowed : n ∈ allowed
    · exact Or.inl ⟨hallowed, if_pos hallowed⟩
    · obtain ⟨c, cs, hcs, hc⟩ := asciiChars_cons (hkind.nameKind hn)
      refine Or.inr ⟨hallowed, c, cs, hcs, hc, ?_⟩
      have htext' : pre ++ a ++ asciiChars n ++ b = pre ++ a ++ [c] ++ (cs ++ b) := by
        rw [hcs]
        simp
      have hstart : (encode (pre ++ a)).length + 1 = (encode (pre ++ a ++ [c])).length := by
        rw [encode_append (pre ++ a), List.length_append, hc]
      rw [if_neg hallowed, htext', hstart]

/-- Without fuel the inner loop ends only if there is no name. -/
theorem findSpecial_zero (hkind : SpecialKind special)
    (himpl : E.pcre2.Implements U self.specialRegex (namesRegex (names special)))
    (allowed : Utf8StringSet) (pre suf : List Char) :
    findSpecial self (encode (pre ++ suf)) allowed 0 (encode pre).length = .ret none ∨
    findSpecial self (encode (pre ++ suf)) allowed 0 (encode pre).length = .loop ∧ suf ≠ [] := by
  rcases match_names himpl hkind.names_ne_nil (fun n hn => hkind.nameKind hn) pre suf with
    ⟨hmatch, -⟩ | ⟨a, n, b, hn, hsuf, hmatch, -⟩
  · exact Or.inl (findSpecial_of_error hmatch 0)
  · obtain ⟨c, cs, hcs, -⟩ := asciiChars_cons (hkind.nameKind hn)
    refine Or.inr ⟨by rw [findSpecial, hmatch], ?_⟩
    rw [hsuf, hcs]
    simp

/-- **The inner loop finds the next hit.** The induction is on the rounds; a
disallowed name is skipped by one character, in which no allowed name begins. -/
theorem findSpecial_eq (hkind : SpecialKind special) (hpf : PrefixFree special)
    (himpl : E.pcre2.Implements U self.specialRegex (namesRegex (names special)))
    (allowed : Utf8StringSet) (pre suf : List Char) {fuel : Nat} (hfuel : suf.length ≤ fuel) :
    findSpecial self (encode (pre ++ suf)) allowed fuel (encode pre).length =
      .ret ((Scan.nextHit (allowedNames hkind allowed) (encode suf)).map
        (specialIdx (encode pre).length)) := by
  induction fuel generalizing pre suf with
  | zero =>
    have hsuf : suf = [] := List.length_eq_zero_iff.mp (by omega)
    rcases findSpecial_zero hkind himpl allowed pre suf with hnone | ⟨-, hne⟩
    · rw [hnone, hsuf]
      rfl
    · exact absurd hsuf hne
  | succ fuel ih =>
    rcases findSpecial_step hkind himpl allowed pre suf fuel with
      ⟨hnone, hclear⟩ | ⟨a, n, b, hn, hsuf, hclear, hnext⟩
    · rw [hnone, Scan.nextHit_of_clear (clear_allowedNames hclear allowed)]
      rfl
    · have hascii := encode_asciiChars (hkind.nameKind hn).ascii
      have hsufBytes : encode suf = encode a ++ (n ++ encode b) := by
        rw [hsuf, encode_append, encode_append, hascii]
      rw [encode_append, hascii] at hclear
      rcases hnext with ⟨hallowed, hfound⟩ | ⟨hallowed, c, cs, hcs, hc, hskip⟩
      · have hfirst : Scan.IsFirst (allowedNames hkind allowed) (encode suf)
            ⟨encode a, n, encode b⟩ :=
          ⟨hsufBytes, mem_allowedNames.mpr ⟨hn, hallowed⟩, clear_allowedNames hclear allowed⟩
        rw [hfound, Scan.nextHit_of_isFirst (prefixFree_allowedNames hpf allowed) hfirst]
        show Outcome.ret (some (SpecialIdx.mk _ _ n)) = .ret (some (specialIdx _ _))
        unfold specialIdx
        simp only [encode_append, hascii, List.length_append]
      · -- no allowed name begins in `a` or in the first character of `n`
        have hnBytes : n ++ encode b = encode [c] ++ encode (cs ++ b) := by
          rw [← hascii, hcs, ← encode_append, ← encode_append]
          rfl
        have hhere : Scan.Clear (allowedNames hkind allowed) (encode [c]) (encode (cs ++ b)) := by
          obtain ⟨x, hx⟩ := List.length_eq_one_iff.mp hc
          rw [hx]
          refine Scan.Clear.cons ?_ (Scan.Clear.nil _)
          intro w hw hpre
          obtain ⟨hwname, hwallowed⟩ := mem_allowedNames.mp hw
          have hnpre : n <+: [x] ++ encode (cs ++ b) := by
            rw [← hx, ← hnBytes]
            exact List.prefix_append n (encode b)
          rcases List.prefix_or_prefix_of_prefix hpre hnpre with h | h
          · exact hallowed (hpf w hwname n hn h ▸ hwallowed)
          · exact hallowed (hpf n hn w hwname h ▸ hwallowed)
        rw [hnBytes] at hclear hsufBytes
        have hclearHere := (clear_allowedNames hclear allowed).append hhere
        have hrec := ih (pre ++ a ++ [c]) (cs ++ b) (by
          rw [hsuf, hcs] at hfuel
          simp only [List.length_append, List.length_cons] at hfuel ⊢
          omega)
        rw [hskip, hrec, hsufBytes, ← List.append_assoc, Scan.nextHit_append hclearHere,
          Option.map_map]
        congr 2
        funext hit
        show specialIdx _ hit = specialIdx _ (hit.prepend _)
        unfold specialIdx Scan.Hit.prepend
        simp only [encode_append, List.length_append, hc]
        congr 1 <;> omega

/-! ## The outer loop -/

/-- A round encodes the text in front of the next hit. -/
theorem encodeRound_eq (hkind : SpecialKind special) (hpf : PrefixFree special)
    (himpl : E.pcre2.Implements U self.specialRegex (namesRegex (names special)))
    (allowed : Utf8StringSet) (pre suf : List Char) {fuel : Nat} (hfuel : suf.length ≤ fuel) :
    encodeRound self (encode (pre ++ suf)) allowed fuel (encode pre).length =
      match Scan.nextHit (allowedNames hkind allowed) (encode suf) with
      | none => encodeOrdinaryNative self fuel (encode suf) >>= fun tokens => .ret (none, tokens)
      | some hit => encodeOrdinaryNative self fuel hit.before >>= fun tokens =>
          .ret (some (specialIdx (encode pre).length hit), tokens) := by
  rw [encodeRound, findSpecial_eq hkind hpf himpl allowed pre suf hfuel, Outcome.ret_bind]
  cases hhit : Scan.nextHit (allowedNames hkind allowed) (encode suf) with
  | none =>
    have hsegment := substr_encode pre suf []
    rw [List.append_nil] at hsegment
    show (substr _ _ (subSize (encode (pre ++ suf)).length _) >>= _) = _
    rw [hsegment]
    rfl
  | some hit =>
    obtain ⟨-, -, a, b, hcs, hbefore, -, -⟩ := hit_chars hhit
    have hsegment := substr_encode pre a (asciiChars hit.word ++ b)
    have hend : (specialIdx (encode pre).length hit).start = (encode (pre ++ a)).length := by
      unfold specialIdx
      rw [hbefore, encode_append, List.length_append]
    rw [List.append_assoc, ← List.append_assoc a, ← hcs] at hsegment
    show (substr _ _ (subSize (specialIdx _ hit).start _) >>= _) = _
    rw [hend, hsegment, ← hbefore]
    rfl

/-- **The outer loop emits the pieces of the cut**, and the map of special
tokens stays as it is: `operator[]` only ever reads a registered name. -/
theorem encodeNativeLoop_eq (hkind : SpecialKind special) (hpf : PrefixFree special)
    (himpl : E.pcre2.Implements U self.specialRegex (namesRegex (names special)))
    (allowed : Utf8StringSet) {map : Utf8StrToInt}
    (hmap : ∀ n, map.find? n = special.find? n) {fuel : Nat} (pre suf : List Char)
    (hfuel : suf.length ≤ fuel) {n : Nat} (hn : suf.length < n) (tokens : List UInt32) :
    encodeNativeLoop self (encode (pre ++ suf)) allowed fuel n (encode pre).length tokens map =
      (encodeReference (encodeOrdinaryNative self fuel) hkind allowed (encode suf) >>= fun rest =>
        .ret (tokens ++ rest), map) := by
  induction n generalizing pre suf tokens with
  | zero => omega
  | succ n ih =>
    rw [encodeNativeLoop, encodeRound_eq hkind hpf himpl allowed pre suf hfuel]
    unfold encodeReference
    cases hhit : Scan.nextHit (allowedNames hkind allowed) (encode suf) with
    | none =>
      rw [Scan.cut_of_none hhit, encodePieces]
      cases encodeOrdinaryNative self fuel (encode suf) <;> rfl
    | some hit =>
      obtain ⟨hname, -, a, b, hcs, -, hword, hafter⟩ := hit_chars hhit
      obtain ⟨id, hid⟩ := mem_names_iff.mp hname
      have hpos : 0 < (asciiChars hit.word).length := by
        obtain ⟨c, cs, hc, -⟩ := asciiChars_cons (hkind.nameKind hname)
        rw [hc]
        exact Nat.succ_pos cs.length
      have hlen : a.length + (asciiChars hit.word).length + b.length = suf.length := by
        rw [hcs, List.length_append, List.length_append]
      have hnext : (specialIdx (encode pre).length hit).end_ =
          (encode (pre ++ (a ++ asciiChars hit.word))).length := by
        obtain ⟨-, -, a', b', hcs', hbefore, -, -⟩ := hit_chars hhit
        have hsplit := (Scan.nextHit_isFirst hhit).split
        rw [hcs, encode_append, encode_append, hword, hafter] at hsplit
        have hlen := congrArg List.length hsplit
        unfold specialIdx
        simp only [List.length_append, encode_append, hword] at hlen ⊢
        omega
      have hrec := ih (pre ++ (a ++ asciiChars hit.word)) b (by omega) (by omega)
      rw [List.append_assoc, ← hcs] at hrec
      rw [Scan.cut_of_some hhit, encodePieces]
      dsimp only
      cases encodeOrdinaryNative self fuel hit.before with
      | ret before =>
        rw [Outcome.ret_bind, Outcome.ret_bindState]
        show (let p := map.getOrInsert hit.word 0; encodeNativeLoop self _ allowed fuel n
          (specialIdx _ hit).end_ (tokens ++ before ++ [p.1]) p.2) = _
        rw [UnorderedMap.getOrInsert_of_find? ((hmap hit.word).trans hid), hnext]
        refine (hrec _).trans ?_
        have hidOf : idOf special hit.word = id := by rw [idOf, hid]; rfl
        unfold encodeReference
        rw [hafter, Outcome.ret_bind, Outcome.bind_assoc, hidOf]
        congr 1
        refine Outcome.bind_congr ?_
        intro rest _
        simp
      | _ => rfl

/-! ## The whole call -/

/-- An ordinary text of characters is encoded or refused. -/
theorem encodeOrdinaryNative_finishes {re : Backtrack.Regex CharClass}
    (himpl : E.pcre2.Implements U self.regex re) (hsplits : Splits U re) {cs : List Char}
    {fuel : Nat} (hfuel : cs.length ≤ fuel) :
    (encodeOrdinaryNative self fuel (encode cs)).Finishes := by
  obtain ⟨ws, hws, -, hne⟩ := utf8WordsSpliter_encode himpl hsplits hfuel
  rw [encodeOrdinaryNative, hws, Outcome.ret_bind]
  clear hws
  induction ws with
  | nil => trivial
  | cons w ws ih =>
    obtain ⟨hw, hrest⟩ := List.forall_mem_cons.mp hne
    rw [encodeWords]
    refine Outcome.Finishes.bind ?_ fun _ _ =>
      Outcome.Finishes.bind (ih hrest) fun _ _ => Outcome.finishes_ret _
    unfold encodeWord
    cases self.encoder.find? w with
    | some token => exact Outcome.finishes_ret _
    | none => exact bytePairEncode_finishes self.encoder hw

theorem encodePieces_finishes {ordinary : Bytes → Run (List UInt32)} {id : Bytes → UInt32}
    {pieces : List (Bytes × Bytes)} {tail : Bytes}
    (hpieces : ∀ p ∈ pieces, (ordinary p.1).Finishes) (htail : (ordinary tail).Finishes) :
    (encodePieces ordinary id pieces tail).Finishes := by
  induction pieces with
  | nil => exact htail
  | cons p pieces ih =>
    obtain ⟨hp, hrest⟩ := List.forall_mem_cons.mp hpieces
    exact hp.bind fun _ _ => (ih hrest).bind fun _ _ => Outcome.finishes_ret _

theorem encodeNative_eq (hkind : SpecialKind special) (hpf : PrefixFree special)
    {encoder : EncodeDict} (hbuilt : Built U encoder special self) (allowed : Utf8StringSet)
    (cs : List Char) {fuel : Nat} (hfuel : cs.length < fuel) :
    encodeNative self (encode cs) allowed fuel =
      (encodeReference (encodeOrdinaryNative self fuel) hkind allowed (encode cs), self) := by
  have hloop := encodeNativeLoop_eq hkind hpf hbuilt.specialRegex allowed hbuilt.specialTokens
    [] cs hfuel.le hfuel []
  rw [encodeNative]
  rw [List.nil_append, encode_nil, List.length_nil] at hloop
  rw [hloop]
  show (_, self) = (_, self)
  congr 1
  cases encodeReference (encodeOrdinaryNative self fuel) hkind allowed (encode cs) <;> rfl

/-- **`EncodeNative` is the reference.** For an object from the constructor,
the call comes to an end and returns, or throws, what the reference does; with
no allowed occurrence that is what `EncodeOrdinaryNative` does. -/
theorem encodeNative_eq_reference (hE : E.Documented U) (encoder : EncodeDict)
    (hkind : SpecialKind special) (hpf : PrefixFree special) {pattern : Bytes}
    (hpattern : RegistryPattern pattern) {newFuel : Nat} (hnew : 0 < newFuel) :
    ∃ self : CoreBpe E, CoreBpe.new E newFuel encoder special pattern = .ret self ∧
      ∀ text, WellFormed text → ∀ (allowed : Utf8StringSet) (fuel : Nat), text.length < fuel →
        (encodeNative self text allowed fuel).1 =
          encodeReference (encodeOrdinaryNative self fuel) hkind allowed text ∧
        (encodeNative self text allowed fuel).1.Finishes ∧
        ((∀ n ∈ names special, n ∈ allowed → ¬ n <:+: text) →
          (encodeNative self text allowed fuel).1 = encodeOrdinaryNative self fuel text) := by
  obtain ⟨self, hself, hbuilt, re, himpl, hsplits⟩ := new_built hE encoder hkind hpattern hnew
  refine ⟨self, hself, ?_⟩
  rintro text ⟨cs, rfl⟩ allowed fuel hfuel
  have hshort : cs.length < fuel := lt_of_le_of_lt (length_le_length_encode cs) hfuel
  have heq := encodeNative_eq hkind hpf hbuilt allowed cs hshort
  obtain ⟨hpieces, b, hb, hblen⟩ := cut_chars hkind allowed cs
  refine ⟨by rw [heq], ?_, ?_⟩
  · rw [heq]
    refine encodePieces_finishes (?_) ?_
    · intro p hp
      obtain ⟨a, ha, halen⟩ := hpieces p hp
      rw [ha]
      exact encodeOrdinaryNative_finishes himpl hsplits (by omega)
    · rw [hb]
      exact encodeOrdinaryNative_finishes himpl hsplits (by omega)
  · intro hnone
    have hclear : Scan.nextHit (allowedNames hkind allowed) (encode cs) = none := by
      rw [Scan.nextHit_eq_none_iff]
      intro w hw
      obtain ⟨hname, hallowed⟩ := mem_allowedNames.mp hw
      exact hnone w hname hallowed
    rw [heq]
    unfold encodeReference
    rw [Scan.cut_of_none hclear, encodePieces]

end

theorem encodeNative_eq_reference_endoftext :
    ∃ self : CoreBpe plainPlatform,
      CoreBpe.new plainPlatform 1 (UnorderedMap.empty.emplaceAll [(str "a", 0)]) endoftextTable
        (str r50kPat) = .ret self ∧
      (encodeNative self (str "a<|endoftext|>a") (OrderedSet.empty.insert endoftext) 16).1 =
        encodeReference (encodeOrdinaryNative self 16) endoftextTable_kind
          (OrderedSet.empty.insert endoftext) (str "a<|endoftext|>a") := by
  obtain ⟨self, hself, hall⟩ := encodeNative_eq_reference plainPlatform_documented
    (UnorderedMap.empty.emplaceAll [(str "a", 0)]) endoftextTable_kind endoftextTable_prefixFree
    r50kPat_registered (Nat.succ_pos 0)
  exact ⟨self, hself, (hall _ ⟨_, rfl⟩ _ 16 (by decide)).1⟩

end TiktokenCpp
