import TiktokenCpp.Results.Loader

/-!
# The grammar of a vocabulary file

What the base64 decoder takes, as a grammar of its own: whole blocks of four
symbols, one padded block at most, and then the end of the text or a NUL with
anything behind it. The bits of a padded block that fill no byte may be set. In
terms of it, the files that `LoadTiktokenBpe` takes.

Main results:

* `base64Decode_eq_ret_iff` -- the decoder;
* `loadTiktokenBpe_ret_iff` -- the loader.
-/

namespace TiktokenCpp

/-- The end of the text, or a NUL. -/
def Ends (src : Bytes) : Prop := ∀ c ∈ src.head?, c = 0

/-- The text is base64 for the bytes. -/
inductive Decodes : Bytes → Bytes → Prop where
  | done {rest : Bytes} (h : Ends rest) : Decodes rest []
  | padTwo {c₁ c₂ : UInt8} {i j : Nat} {rest : Bytes} (h₁ : forSymbol c₁ = .index i)
      (h₂ : forSymbol c₂ = .index j) (h : Ends rest) :
      Decodes (c₁ :: c₂ :: paddingSymbol :: paddingSymbol :: rest) [UInt8.ofNat (i * 4 + j / 16)]
  | padOne {c₁ c₂ c₃ : UInt8} {i j k : Nat} {rest : Bytes} (h₁ : forSymbol c₁ = .index i)
      (h₂ : forSymbol c₂ = .index j) (h₃ : forSymbol c₃ = .index k) (h : Ends rest) :
      Decodes (c₁ :: c₂ :: c₃ :: paddingSymbol :: rest)
        [UInt8.ofNat (i * 4 + j / 16), UInt8.ofNat (j % 16 * 16 + k / 4)]
  | block {c₁ c₂ c₃ c₄ : UInt8} {i j k l : Nat} {src out : Bytes} (h₁ : forSymbol c₁ = .index i)
      (h₂ : forSymbol c₂ = .index j) (h₃ : forSymbol c₃ = .index k) (h₄ : forSymbol c₄ = .index l)
      (h : Decodes src out) : Decodes (c₁ :: c₂ :: c₃ :: c₄ :: src) (decodeBlock i j k l ++ out)

/-! ## The symbols that are none -/

theorem forSymbol_eof_iff {c : UInt8} : forSymbol c = .eof ↔ c = 0 := by
  have hall : ∀ n < 256, forSymbol (UInt8.ofNat n) = .eof ↔ UInt8.ofNat n = 0 := by decide +kernel
  have h := hall c.toNat c.toNat_lt
  rwa [UInt8.ofNat_toNat] at h

theorem forSymbol_padding_iff {c : UInt8} : forSymbol c = .padding ↔ c = paddingSymbol := by
  have hall : ∀ n < 256, forSymbol (UInt8.ofNat n) = .padding ↔ UInt8.ofNat n = paddingSymbol := by
    decide +kernel
  have h := hall c.toNat c.toNat_lt
  rwa [UInt8.ofNat_toNat] at h

theorem ends_nil : Ends [] := fun c hc => by cases hc

theorem ends_cons_iff {c : UInt8} {src : Bytes} : Ends (c :: src) ↔ c = 0 := by
  simp [Ends]

theorem readPadding_four (src : Bytes) (n : Nat) :
    readPadding 4 src = .ret n ↔ n = 4 ∧ Ends src := by
  rcases src with _ | ⟨c, src⟩
  · rw [readPadding, Outcome.ret.injEq, eq_comm]
    exact ⟨fun h => ⟨h, ends_nil⟩, fun h => h.1⟩
  · rw [readPadding, ends_cons_iff, ← forSymbol_eof_iff]
    cases forSymbol c <;> simp [eq_comm]

theorem readPadding_three {src : Bytes} :
    readPadding 3 src = .ret 4 ↔ ∃ rest, src = paddingSymbol :: rest ∧ Ends rest := by
  rcases src with _ | ⟨c, src⟩
  · simp [readPadding]
  · rw [readPadding]
    cases hc : forSymbol c with
    | padding =>
      obtain rfl := forSymbol_padding_iff.mp hc
      have hfour := readPadding_four src 4
      simp [hfour]
    | _ =>
      have hne : c ≠ paddingSymbol := by
        rintro rfl
        rw [forSymbol_padding_iff.mpr rfl] at hc
        cases hc
      simp [hne]

/-! ## The decoder, symbol by symbol -/

section

variable {i j k : Nat} {out src bs : Bytes}

theorem decodeLoop_one (h : decodeLoop [i] out src = .ret bs) :
    ∃ c j rest, src = c :: rest ∧ forSymbol c = .index j ∧ decodeLoop [i, j] out rest = .ret bs := by
  rcases src with _ | ⟨c, src⟩
  · cases h
  · rw [decodeLoop] at h
    cases hc : forSymbol c with
    | index j =>
      rw [hc] at h
      exact ⟨c, j, src, rfl, hc, h⟩
    | padding =>
      -- one symbol does not fill a byte
      rw [hc] at h
      dsimp only at h
      rw [if_neg (List.cons_ne_nil _ _)] at h
      obtain ⟨last, -, h⟩ := Outcome.bind_eq_ret.mp h
      split at h <;> cases h
    | eof =>
      rw [hc] at h
      cases h
    | invalid =>
      rw [hc] at h
      cases h

theorem decodeLoop_two (h : decodeLoop [i, j] out src = .ret bs) :
    (∃ c k rest, src = c :: rest ∧ forSymbol c = .index k ∧
      decodeLoop [i, j, k] out rest = .ret bs) ∨
    ∃ rest, src = paddingSymbol :: paddingSymbol :: rest ∧ Ends rest ∧
      bs = out ++ [UInt8.ofNat (i * 4 + j / 16)] := by
  rcases src with _ | ⟨c, src⟩
  · cases h
  · rw [decodeLoop] at h
    cases hc : forSymbol c with
    | index k =>
      rw [hc] at h
      exact Or.inl ⟨c, k, src, rfl, hc, h⟩
    | padding =>
      obtain rfl := forSymbol_padding_iff.mp hc
      rw [hc] at h
      dsimp only at h
      rw [if_neg (List.cons_ne_nil _ _)] at h
      obtain ⟨last, hlast, htail⟩ := Outcome.bind_eq_ret.mp h
      by_cases hfour : last = 4
      · subst hfour
        obtain ⟨rest, rfl, hends⟩ := readPadding_three.mp hlast
        exact Or.inr ⟨rest, rfl, hends, (Outcome.ret.inj htail).symm⟩
      · rw [if_neg hfour] at htail
        cases htail
    | eof =>
      rw [hc] at h
      cases h
    | invalid =>
      rw [hc] at h
      cases h

theorem decodeLoop_three (h : decodeLoop [i, j, k] out src = .ret bs) :
    (∃ c l rest, src = c :: rest ∧ forSymbol c = .index l ∧
      decodeLoop [] (out ++ decodeBlock i j k l) rest = .ret bs) ∨
    ∃ rest, src = paddingSymbol :: rest ∧ Ends rest ∧
      bs = out ++ [UInt8.ofNat (i * 4 + j / 16), UInt8.ofNat (j % 16 * 16 + k / 4)] := by
  rcases src with _ | ⟨c, src⟩
  · cases h
  · rw [decodeLoop] at h
    cases hc : forSymbol c with
    | index l =>
      rw [hc] at h
      exact Or.inl ⟨c, l, src, rfl, hc, h⟩
    | padding =>
      obtain rfl := forSymbol_padding_iff.mp hc
      rw [hc] at h
      dsimp only at h
      rw [if_neg (List.cons_ne_nil _ _)] at h
      obtain ⟨last, hlast, h⟩ := Outcome.bind_eq_ret.mp h
      obtain ⟨rfl, hends⟩ := (readPadding_four _ _).mp hlast
      exact Or.inr ⟨src, rfl, hends, (Outcome.ret.inj h).symm⟩
    | eof =>
      rw [hc] at h
      cases h
    | invalid =>
      rw [hc] at h
      cases h

theorem decodeLoop_nil (h : decodeLoop [] out src = .ret bs) :
    Ends src ∧ bs = out ∨
    ∃ c i rest, src = c :: rest ∧ forSymbol c = .index i ∧ decodeLoop [i] out rest = .ret bs := by
  rcases src with _ | ⟨c, src⟩
  · exact Or.inl ⟨ends_nil, (Outcome.ret.inj h).symm⟩
  · rw [decodeLoop] at h
    cases hc : forSymbol c with
    | index i =>
      rw [hc] at h
      exact Or.inr ⟨c, i, src, rfl, hc, h⟩
    | eof =>
      rw [hc] at h
      exact Or.inl ⟨ends_cons_iff.mpr (forSymbol_eof_iff.mp hc), (Outcome.ret.inj h).symm⟩
    | padding =>
      rw [hc] at h
      cases h
    | invalid =>
      rw [hc] at h
      cases h

end

/-- What the loop returns is decoded by the grammar, block by block. -/
theorem decodes_of_decodeLoop {out src bs : Bytes} (h : decodeLoop [] out src = .ret bs) :
    ∃ bs', bs = out ++ bs' ∧ Decodes src bs' := by
  induction hn : src.length using Nat.strong_induction_on generalizing out src with
  | _ n ih =>
    rcases decodeLoop_nil h with ⟨hends, rfl⟩ | ⟨c₁, i, src₁, rfl, h₁, h⟩
    · exact ⟨[], (List.append_nil _).symm, .done hends⟩
    obtain ⟨c₂, j, src₂, rfl, h₂, h⟩ := decodeLoop_one h
    rcases decodeLoop_two h with ⟨c₃, k, src₃, rfl, h₃, h⟩ | ⟨rest, rfl, hends, rfl⟩
    · rcases decodeLoop_three h with ⟨c₄, l, src₄, rfl, h₄, h⟩ | ⟨rest, rfl, hends, rfl⟩
      · obtain ⟨bs', rfl, hdecodes⟩ := ih src₄.length (by simp at hn; omega) h rfl
        exact ⟨decodeBlock i j k l ++ bs', List.append_assoc .., .block h₁ h₂ h₃ h₄ hdecodes⟩
      · exact ⟨_, rfl, .padOne h₁ h₂ h₃ hends⟩
    · exact ⟨_, rfl, .padTwo h₁ h₂ hends⟩

theorem decodeLoop_of_ends {src : Bytes} (h : Ends src) (out : Bytes) :
    decodeLoop [] out src = .ret out := by
  rcases src with _ | ⟨c, src⟩
  · rfl
  · rw [decodeLoop, forSymbol_eof_iff.mpr (ends_cons_iff.mp h)]
    rfl

theorem decodeLoop_of_decodes {src bs : Bytes} (h : Decodes src bs) (out : Bytes) :
    decodeLoop [] out src = .ret (out ++ bs) := by
  have hpad : forSymbol paddingSymbol = .padding := forSymbol_padding_iff.mpr rfl
  induction h generalizing out with
  | done h => rw [decodeLoop_of_ends h, List.append_nil]
  | padTwo h₁ h₂ h =>
    have hread := readPadding_three.mpr ⟨_, rfl, h⟩
    simp [decodeLoop, h₁, h₂, hpad, hread, decodeTail]
  | padOne h₁ h₂ h₃ h =>
    have hread := (readPadding_four _ _).mpr ⟨rfl, h⟩
    simp [decodeLoop, h₁, h₂, h₃, hpad, hread, decodeTail]
  | block h₁ h₂ h₃ h₄ _ ih =>
    simp only [decodeLoop, h₁, h₂, h₃, h₄, List.nil_append, List.cons_append]
    rw [ih, List.append_assoc]

/-- **The decoder takes the grammar**, and nothing else. -/
theorem base64Decode_eq_ret_iff {src bs : Bytes} : base64Decode src = .ret bs ↔ Decodes src bs := by
  constructor
  · intro h
    obtain ⟨bs', rfl, hdecodes⟩ := decodes_of_decodeLoop h
    exact hdecodes
  · exact fun h => decodeLoop_of_decodes h []

/-! ## The loader -/

/-- A line that the loader takes, in terms of the grammars of its two fields. -/
def EntryLine (line token : Bytes) (v : Int) : Prop :=
  ∃ field text, line = field ++ 32 :: text ∧ 4 ≤ field.length ∧ 32 ∉ field.drop 4 ∧
    Decodes field token ∧ BeginsWithNumber text v ∧ -2 ^ 31 ≤ v ∧ v < 2 ^ 31

theorem lineEntry_iff {line token : Bytes} {rank : UInt32} :
    LineEntry line token rank ↔ ∃ v, EntryLine line token v ∧ rank = UInt32.ofInt v := by
  constructor
  · rintro ⟨field, text, v, hline, hlen, hno, hdecode, hnumber, hlo, hhi, hrank⟩
    exact ⟨v, ⟨field, text, hline, hlen, hno, base64Decode_eq_ret_iff.mp hdecode, hnumber, hlo, hhi⟩,
      hrank⟩
  · rintro ⟨v, ⟨field, text, hline, hlen, hno, hdecodes, hnumber, hlo, hhi⟩, hrank⟩
    exact ⟨field, text, v, hline, hlen, hno, base64Decode_eq_ret_iff.mpr hdecodes, hnumber, hlo, hhi,
      hrank⟩

theorem loadTiktokenBpe_of_lines (order : IterationOrder) {content : Bytes} {es : List (Bytes × Int)}
    (h : List.Forall₂ (fun line e => EntryLine line e.1 e.2) (leadingLines content) es) :
    loadTiktokenBpe order content = .ret ((UnorderedMap.empty.emplaceAll
      (es.map fun e => (e.1, UInt32.ofInt e.2))).shuffle order) := by
  have hlines : List.Forall₂ (fun line (e : Bytes × UInt32) => LineEntry line e.1 e.2)
      (leadingLines content) (es.map fun e => (e.1, UInt32.ofInt e.2)) :=
    List.forall₂_map_right_iff.mpr (h.imp fun _ e hentry => lineEntry_iff.mpr ⟨e.2, hentry, rfl⟩)
  rw [loadTiktokenBpe, loadLines_ret hlines, Outcome.ret_bind, Outcome.pure_eq]

/-- **The grammar of a vocabulary file.** The loader returns a dictionary exactly
for the contents whose lines, up to the first empty one, are entry lines, and the
dictionary is that of the entries of these lines in their order. -/
theorem loadTiktokenBpe_ret_iff (order : IterationOrder) (content : Bytes) (dict : EncodeDict) :
    loadTiktokenBpe order content = .ret dict ↔
      ∃ es : List (Bytes × Int),
        List.Forall₂ (fun line e => EntryLine line e.1 e.2) (leadingLines content) es ∧
        dict = (UnorderedMap.empty.emplaceAll
          (es.map fun e => (e.1, UInt32.ofInt e.2))).shuffle order := by
  constructor
  · intro h
    have hall : ∀ line ∈ leadingLines content, ∃ e : Bytes × Int, EntryLine line e.1 e.2 := by
      by_contra hno
      push Not at hno
      obtain ⟨line, hline, hno⟩ := hno
      have hbad : ∀ token rank, ¬ LineEntry line token rank := by
        intro token rank hentry
        obtain ⟨v, hv, -⟩ := lineEntry_iff.mp hentry
        exact hno (token, v) hv
      obtain ⟨e, hthrow⟩ := loadLines_throw ⟨line, hline, hbad⟩ .empty
      rw [loadTiktokenBpe, hthrow] at h
      cases h
    obtain ⟨es, hes⟩ := exists_forall₂ hall
    rw [loadTiktokenBpe_of_lines order hes, Outcome.ret.injEq] at h
    exact ⟨es, hes, h.symm⟩
  · rintro ⟨es, hes, rfl⟩
    exact loadTiktokenBpe_of_lines order hes

end TiktokenCpp
