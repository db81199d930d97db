import Mathlib.Data.List.TakeWhile
import TiktokenCpp.Model.Utils

/-!
# The vocabulary loader

What `LoadTiktokenBpe` makes of a file, for every content. `LineEntry` is the
grammar of a line the loader takes. It is wider than the format of a
vocabulary file: what follows the number is ignored, a negative number wraps,
and an empty line ends the file.

Main results:

* `readEntry_eq_ret_iff` -- one line;
* `loadTiktokenBpe_accounts` -- the whole file, up to the first empty line;
* `loadTiktokenBpe_writeFile` -- a written map is loaded as it was.
-/

namespace TiktokenCpp

-- ---------------------------------------------------------------------------
-- The blank between the two fields
-- ---------------------------------------------------------------------------

theorem findSpace_eq_some_iff {line : Bytes} {pos spacePos : Nat} :
    findSpace line pos = some spacePos ↔
      ∃ field text, line = field ++ 32 :: text ∧ field.length = spacePos ∧ pos ≤ spacePos ∧
        32 ∉ field.drop pos := by
  rw [findSpace, Option.map_eq_some_iff]
  constructor
  · rintro ⟨i, hfind, rfl⟩
    rw [List.findIdx?_eq_some_iff_getElem] at hfind
    obtain ⟨hi, hspace, hbefore⟩ := hfind
    rw [List.length_drop] at hi
    rw [List.getElem_drop, decide_eq_true_eq] at hspace
    have hlt : i + pos < line.length := by omega
    refine ⟨line.take (i + pos), line.drop (i + pos + 1), ?_, ?_, by omega, ?_⟩
    · have hcons : line.drop (i + pos) = 32 :: line.drop (i + pos + 1) := by
        rw [List.drop_eq_getElem_cons hlt, ← hspace]
        simp only [Nat.add_comm]
      rw [← hcons, List.take_append_drop]
    · rw [List.length_take]
      omega
    · rw [List.drop_take]
      intro hmem
      obtain ⟨j, hj, hget⟩ := List.mem_iff_getElem.mp hmem
      rw [List.length_take, List.length_drop] at hj
      have hno := hbefore j (by omega)
      rw [List.getElem_take] at hget
      simp [hget] at hno
  · rintro ⟨field, text, rfl, rfl, hle, hno⟩
    refine ⟨field.length - pos, ?_, by omega⟩
    rw [List.drop_append_of_le_length hle, List.findIdx?_append]
    have hnone : (field.drop pos).findIdx? (fun c => decide (c = 32)) = none := by
      rw [List.findIdx?_eq_none_iff]
      intro c hc
      exact decide_eq_false fun heq => hno (heq ▸ hc)
    rw [hnone]
    simp [List.findIdx?_cons]

-- ---------------------------------------------------------------------------
-- The number
-- ---------------------------------------------------------------------------

/-- The text begins with the number `v`: white space, a sign and decimal digits,
the first two of which may be missing. It goes on with anything but a digit. -/
def BeginsWithNumber (text : Bytes) (v : Int) : Prop :=
  ∃ space sign digits rest, text = space ++ (sign ++ (digits ++ rest)) ∧
    (∀ c ∈ space, isSpace c) ∧ sign ∈ [[], [43], [45]] ∧
    digits ≠ [] ∧ (∀ c ∈ digits, isDigit c) ∧ (∀ c ∈ rest.head?, ¬ isDigit c) ∧
    v = if sign = [45] then -(ofDigits digits : Int) else ofDigits digits

theorem not_space_of_digit {c : UInt8} (h : isDigit c) : ¬ isSpace c := by
  simp only [isDigit, isSpace, Bool.and_eq_true, Bool.or_eq_true, decide_eq_true_eq,
    UInt8.le_iff_toNat_le, ← UInt8.toNat_inj] at h ⊢
  simp at h ⊢
  omega

theorem not_sign_of_digit {c : UInt8} (h : isDigit c) : c ≠ 45 ∧ c ≠ 43 := by
  constructor <;> rintro rfl <;> simp [isDigit] at h

/-- `stoi` on a text in its parts. -/
theorem stoi_parts {space sign digits rest : Bytes} (hspace : ∀ c ∈ space, isSpace c)
    (hsign : sign ∈ [[], [43], [45]]) (hne : digits ≠ []) (hdigits : ∀ c ∈ digits, isDigit c)
    (hrest : ∀ c ∈ rest.head?, ¬ isDigit c) {v : Int}
    (hv : v = if sign = [45] then -(ofDigits digits : Int) else ofDigits digits) :
    stoi (space ++ (sign ++ (digits ++ rest))) =
      if -2 ^ 31 ≤ v ∧ v < 2 ^ 31 then .ret v else .throw .outOfRange := by
  obtain ⟨d, ds, rfl⟩ := List.exists_cons_of_ne_nil hne
  have hd := hdigits d (List.mem_cons_self ..)
  have htake : ((d :: ds) ++ rest).takeWhile isDigit = d :: ds := by
    rw [List.takeWhile_append_of_pos hdigits]
    rcases rest with _ | ⟨c, rest⟩
    · simp
    · rw [List.takeWhile_cons_of_neg (hrest c rfl), List.append_nil]
  have hnot := not_sign_of_digit hd
  have hmem : sign = [] ∨ sign = [43] ∨ sign = [45] := by simpa using hsign
  -- white space ends at the sign, or at the first digit
  have hdrop : (space ++ (sign ++ ((d :: ds) ++ rest))).dropWhile isSpace =
      sign ++ ((d :: ds) ++ rest) := by
    rw [List.dropWhile_append_of_pos hspace]
    rcases hmem with rfl | rfl | rfl
    · exact List.dropWhile_cons_of_neg (not_space_of_digit hd)
    · exact List.dropWhile_cons_of_neg (by decide)
    · exact List.dropWhile_cons_of_neg (by decide)
  rw [stoi]
  dsimp only
  rw [hdrop]
  rcases hmem with rfl | rfl | rfl
  · simp [hnot] at htake hv ⊢
    simp [htake, hv, hd]
  · simp at htake hv ⊢
    simp [htake, hv, hd]
  · simp at htake hv ⊢
    simp [htake, hv, hd]

/-- Every text has such parts, but there may be no digits. -/
theorem exists_parts (text : Bytes) :
    ∃ space sign digits rest, text = space ++ (sign ++ (digits ++ rest)) ∧
      (∀ c ∈ space, isSpace c) ∧ sign ∈ [[], [43], [45]] ∧ (∀ c ∈ digits, isDigit c) ∧
      (∀ c ∈ rest.head?, ¬ isDigit c) ∧
      (digits = [] → stoi text = .throw .invalidArgument) := by
  have hspace : ∀ c ∈ text.takeWhile isSpace, isSpace c := fun c hc => List.mem_takeWhile_imp hc
  have hdigits : ∀ s : Bytes, ∀ c ∈ s.takeWhile isDigit, isDigit c :=
    fun s c hc => List.mem_takeWhile_imp hc
  have hrest : ∀ s : Bytes, ∀ c ∈ (s.dropWhile isDigit).head?, ¬ isDigit c := by
    intro s c hc hdigit
    have hno := List.head?_dropWhile_not isDigit s
    rw [Option.mem_def.mp hc] at hno
    simp [hdigit] at hno
  by_cases hsign : (text.dropWhile isSpace).head? = some 45 ∨ (text.dropWhile isSpace).head? = some 43
  · obtain ⟨c, hc, hhead⟩ : ∃ c, (c = 45 ∨ c = 43) ∧ (text.dropWhile isSpace).head? = some c := by
      rcases hsign with h | h
      · exact ⟨45, Or.inl rfl, h⟩
      · exact ⟨43, Or.inr rfl, h⟩
    obtain ⟨t, ht⟩ := List.head?_eq_some_iff.mp hhead
    refine ⟨text.takeWhile isSpace, [c], t.takeWhile isDigit, t.dropWhile isDigit, ?_, hspace, ?_,
      hdigits t, hrest t, ?_⟩
    · rw [List.takeWhile_append_dropWhile, List.singleton_append, ← ht,
        List.takeWhile_append_dropWhile]
    · rcases hc with rfl | rfl <;> simp
    · intro hnil
      rw [stoi]
      dsimp only
      rw [if_pos hsign, ht, List.tail_cons, if_pos hnil]
  · refine ⟨text.takeWhile isSpace, [], (text.dropWhile isSpace).takeWhile isDigit,
      (text.dropWhile isSpace).dropWhile isDigit, ?_, hspace, by simp, hdigits _, hrest _, ?_⟩
    · rw [List.nil_append, List.takeWhile_append_dropWhile, List.takeWhile_append_dropWhile]
    · intro hnil
      rw [stoi]
      dsimp only
      rw [if_neg hsign, if_pos hnil]

/-- `stoi` finds no number, or the one the text begins with. -/
theorem stoi_cases (text : Bytes) :
    stoi text = .throw .invalidArgument ∨
      ∃ v, BeginsWithNumber text v ∧
        stoi text = if -2 ^ 31 ≤ v ∧ v < 2 ^ 31 then .ret v else .throw .outOfRange := by
  obtain ⟨space, sign, digits, rest, rfl, hspace, hsign, hdigits, hrest, hnil⟩ := exists_parts text
  by_cases hne : digits = []
  · exact Or.inl (hnil hne)
  · exact Or.inr ⟨_, ⟨space, sign, digits, rest, rfl, hspace, hsign, hne, hdigits, hrest, rfl⟩,
      stoi_parts hspace hsign hne hdigits hrest rfl⟩

/-- **`stoi` returns the number the text begins with**, if it is in range. -/
theorem stoi_eq_ret_iff {text : Bytes} {v : Int} :
    stoi text = .ret v ↔ BeginsWithNumber text v ∧ -2 ^ 31 ≤ v ∧ v < 2 ^ 31 := by
  constructor
  · intro h
    rcases stoi_cases text with hthrow | ⟨w, hnumber, hstoi⟩
    · rw [hthrow] at h
      cases h
    · rw [hstoi] at h
      by_cases hrange : -2 ^ 31 ≤ w ∧ w < 2 ^ 31
      · rw [if_pos hrange, Outcome.ret.injEq] at h
        subst h
        exact ⟨hnumber, hrange⟩
      · rw [if_neg hrange] at h
        cases h
  · rintro ⟨⟨space, sign, digits, rest, rfl, hspace, hsign, hne, hdigits, hrest, hv⟩, hrange⟩
    rw [stoi_parts hspace hsign hne hdigits hrest hv, if_pos hrange]

theorem stoi_finishes (text : Bytes) : (stoi text).Finishes := by
  rcases stoi_cases text with hthrow | ⟨w, -, hstoi⟩
  · rw [hthrow]
    exact Outcome.finishes_throw _
  · rw [hstoi]
    split
    · exact Outcome.finishes_ret _
    · exact Outcome.finishes_throw _

-- ---------------------------------------------------------------------------
-- One line
-- ---------------------------------------------------------------------------

/-- A line the loader takes: what the decoder accepts, up to the first blank at
offset 4 or later, and a text that begins with a number of 32 bits. -/
def LineEntry (line token : Bytes) (rank : UInt32) : Prop :=
  ∃ field text v, line = field ++ 32 :: text ∧ 4 ≤ field.length ∧ 32 ∉ field.drop 4 ∧
    base64Decode field = .ret token ∧
    BeginsWithNumber text v ∧ -2 ^ 31 ≤ v ∧ v < 2 ^ 31 ∧ rank = UInt32.ofInt v

/-- What the loop does with a line before it emplaces the entry. -/
def readEntry (line : Bytes) : Run (Bytes × UInt32) :=
  match findSpace line 4 with
  | none => .throw (.runtimeError (str "invaid token encoding file format!"))
  | some spacePos => do
    let token ← base64Decode (line.take spacePos)
    let rank ← stoi (line.drop (spacePos + 1))
    return (token, UInt32.ofInt rank)

theorem loadLines_cons {line : Bytes} (hne : line ≠ []) (lines : List Bytes) (dict : EncodeDict) :
    loadLines (line :: lines) dict =
      readEntry line >>= fun e => loadLines lines (dict.emplace e.1 e.2) := by
  rw [loadLines, if_neg hne, readEntry]
  rcases findSpace line 4 with _ | spacePos
  · rfl
  · simp only [Outcome.bind_assoc, Outcome.pure_eq, Outcome.ret_bind]

theorem readEntry_fields {field text : Bytes} (hlen : 4 ≤ field.length) (hno : 32 ∉ field.drop 4) :
    readEntry (field ++ 32 :: text) =
      base64Decode field >>= fun token => stoi text >>= fun rank =>
        .ret (token, UInt32.ofInt rank) := by
  have hdrop : (field ++ 32 :: text).drop (field.length + 1) = text := by
    rw [List.drop_length_add_append, List.drop_one, List.tail_cons]
  rw [readEntry, findSpace_eq_some_iff.mpr ⟨field, text, rfl, rfl, hlen, hno⟩]
  dsimp only
  rw [List.take_left, hdrop]
  rfl

/-- **One line**: the entry that is read is the one the grammar gives it. -/
theorem readEntry_eq_ret_iff {line token : Bytes} {rank : UInt32} :
    readEntry line = .ret (token, rank) ↔ LineEntry line token rank := by
  constructor
  · intro h
    rcases hfind : findSpace line 4 with _ | spacePos
    · rw [readEntry, hfind] at h
      cases h
    · obtain ⟨field, text, rfl, rfl, hlen, hno⟩ := findSpace_eq_some_iff.mp hfind
      rw [readEntry_fields hlen hno, Outcome.bind_eq_ret] at h
      obtain ⟨token', hdecode, h⟩ := h
      obtain ⟨v, hstoi, h⟩ := Outcome.bind_eq_ret.mp h
      obtain ⟨hnumber, hlo, hhi⟩ := stoi_eq_ret_iff.mp hstoi
      rw [Outcome.ret.injEq, Prod.mk.injEq] at h
      obtain ⟨rfl, rfl⟩ := h
      exact ⟨field, text, v, rfl, hlen, hno, hdecode, hnumber, hlo, hhi, rfl⟩
  · rintro ⟨field, text, v, rfl, hlen, hno, hdecode, hnumber, hlo, hhi, rfl⟩
    rw [readEntry_fields hlen hno, hdecode, Outcome.ret_bind,
      stoi_eq_ret_iff.mpr ⟨hnumber, hlo, hhi⟩, Outcome.ret_bind]

theorem LineEntry.unique {line token token' : Bytes} {rank rank' : UInt32}
    (h : LineEntry line token rank) (h' : LineEntry line token' rank') :
    token = token' ∧ rank = rank' := by
  rw [← readEntry_eq_ret_iff] at h h'
  rw [h, Outcome.ret.injEq, Prod.mk.injEq] at h'
  exact h'

theorem LineEntry.ne_nil {line token : Bytes} {rank : UInt32} (h : LineEntry line token rank) :
    line ≠ [] := by
  obtain ⟨field, text, v, rfl, -⟩ := h
  simp

/-- The call returns or throws a `parse_error`. -/
abbrev ReturnsOrParseError {α : Type} (out : Run α) : Prop := out.ReturnsOr (· = .parseError)

theorem readPadding_returnsOr (last : Nat) (src : Bytes) :
    ReturnsOrParseError (readPadding last src) := by
  induction src generalizing last with
  | nil => trivial
  | cons c src ih =>
    rw [readPadding]
    split
    · trivial
    · split
      · rfl
      · exact ih _
    · rfl

theorem decodeTail_returnsOr (block : List Nat) : ReturnsOrParseError (decodeTail block) := by
  unfold decodeTail
  split
  · trivial
  · trivial
  · rfl

theorem decodeLoop_returnsOr (block : List Nat) (out src : Bytes) :
    ReturnsOrParseError (decodeLoop block out src) := by
  induction src generalizing block out with
  | nil =>
    rw [decodeLoop]
    split
    · trivial
    · rfl
  | cons c src ih =>
    rw [decodeLoop]
    split
    · split
      · exact ih _ _
      · exact ih _ _
    · split
      · rfl
      · refine (readPadding_returnsOr _ _).bind fun last => ?_
        split
        · exact (decodeTail_returnsOr _).bind fun tail => trivial
        · rfl
    · split
      · trivial
      · rfl
    · rfl

/-- A line that is no entry is an error. -/
theorem readEntry_finishes (line : Bytes) : (readEntry line).Finishes := by
  rw [readEntry]
  split
  · exact Outcome.finishes_throw _
  · exact (decodeLoop_returnsOr _ _ _).finishes.bind fun token _ =>
      (stoi_finishes _).bind fun rank _ => Outcome.finishes_ret _

-- ---------------------------------------------------------------------------
-- The loop
-- ---------------------------------------------------------------------------

/-- The lines before the first empty one. -/
def leadingLines (content : Bytes) : List Bytes := (content.splitOn 10).takeWhile (· ≠ [])

/-- If every line up to the first empty one is an entry, the loop emplaces
these entries in their order. -/
theorem loadLines_ret {lines : List Bytes} {es : List (Bytes × UInt32)}
    (h : List.Forall₂ (fun line e => LineEntry line e.1 e.2) (lines.takeWhile (· ≠ [])) es)
    (dict : EncodeDict) : loadLines lines dict = .ret (dict.emplaceAll es) := by
  induction lines generalizing es dict with
  | nil =>
    obtain rfl := List.forall₂_nil_left_iff.mp h
    rfl
  | cons line lines ih =>
    by_cases hne : line = []
    · rw [List.takeWhile_cons_of_neg (by simp [hne]), List.forall₂_nil_left_iff] at h
      rw [loadLines, if_pos hne, h]
      rfl
    · rw [List.takeWhile_cons_of_pos (by simp [hne])] at h
      obtain ⟨e, es', hentry, htail, rfl⟩ := List.forall₂_cons_left_iff.mp h
      rw [loadLines_cons hne, readEntry_eq_ret_iff.mpr hentry, Outcome.ret_bind, ih htail]
      rfl

/-- Otherwise it throws. -/
theorem loadLines_throw {lines : List Bytes}
    (h : ∃ line ∈ lines.takeWhile (· ≠ []), ∀ token rank, ¬ LineEntry line token rank)
    (dict : EncodeDict) : ∃ e, loadLines lines dict = .throw e := by
  induction lines generalizing dict with
  | nil =>
    obtain ⟨line, hline, -⟩ := h
    simp at hline
  | cons line lines ih =>
    obtain ⟨bad, hbad, hno⟩ := h
    by_cases hne : line = []
    · rw [List.takeWhile_cons_of_neg (by simp [hne])] at hbad
      simp at hbad
    · rw [List.takeWhile_cons_of_pos (by simp [hne]), List.mem_cons] at hbad
      rw [loadLines_cons hne]
      rcases Outcome.finishes_iff.mp (readEntry_finishes line) with ⟨e, hread⟩ | ⟨e, hread⟩
      · -- this line is fine, so the bad one comes later
        rcases hbad with rfl | hbad
        · exact absurd (readEntry_eq_ret_iff.mp hread) (hno _ _)
        · rw [hread, Outcome.ret_bind]
          exact ih ⟨bad, hbad, hno⟩ _
      · exact ⟨e, by rw [hread, Outcome.throw_bind]⟩

-- ---------------------------------------------------------------------------
-- The whole file
-- ---------------------------------------------------------------------------

/-- The rank of the first of the lines that carries the token. -/
def FirstEntry (lines : List Bytes) (token : Bytes) (rank : UInt32) : Prop :=
  ∃ before line after, lines = before ++ line :: after ∧ LineEntry line token rank ∧
    ∀ l ∈ before, ∀ r, ¬ LineEntry l token r

theorem not_firstEntry_nil (token : Bytes) (rank : UInt32) : ¬ FirstEntry [] token rank := by
  rintro ⟨before, line, after, hsplit, -⟩
  simp at hsplit

theorem firstEntry_cons {line : Bytes} {lines : List Bytes} {token : Bytes} {rank : UInt32} :
    FirstEntry (line :: lines) token rank ↔
      LineEntry line token rank ∨ (∀ r, ¬ LineEntry line token r) ∧ FirstEntry lines token rank := by
  constructor
  · rintro ⟨before, l, after, hsplit, hentry, hbefore⟩
    rcases before with _ | ⟨b, before⟩
    · obtain ⟨rfl, -⟩ := List.cons.inj hsplit
      exact Or.inl hentry
    · obtain ⟨rfl, rfl⟩ := List.cons.inj hsplit
      obtain ⟨hline, hbefore⟩ := List.forall_mem_cons.mp hbefore
      exact Or.inr ⟨hline, before, l, after, rfl, hentry, hbefore⟩
  · rintro (hentry | ⟨hline, before, l, after, rfl, hentry, hbefore⟩)
    · exact ⟨[], line, lines, rfl, hentry, List.forall_mem_nil _⟩
    · exact ⟨line :: before, l, after, rfl, hentry, List.forall_mem_cons.mpr ⟨hline, hbefore⟩⟩

theorem find?_iff_firstEntry {lines : List Bytes} {es : List (Bytes × UInt32)}
    (h : List.Forall₂ (fun line e => LineEntry line e.1 e.2) lines es) {token : Bytes}
    {rank : UInt32} :
    (UnorderedMap.empty.emplaceAll es).find? token = some rank ↔ FirstEntry lines token rank := by
  rw [UnorderedMap.find?_emplaceAll, show (UnorderedMap.empty : EncodeDict).find? token = none from rfl,
    Option.none_or]
  induction h with
  | nil => simp [not_firstEntry_nil]
  | @cons line e lines es hentry _ ih =>
    rw [List.find?_cons, firstEntry_cons]
    by_cases htoken : e.1 = token
    · -- the line carries the token, so its rank is the one that stays
      subst htoken
      simp only [decide_true, Option.map_some, Option.some.injEq]
      constructor
      · rintro rfl
        exact Or.inl hentry
      · rintro (hrank | ⟨hno, -⟩)
        · exact (hentry.unique hrank).2
        · exact absurd hentry (hno _)
    · have hno : ∀ r, ¬ LineEntry line token r := fun r hr => htoken (hentry.unique hr).1
      simp only [decide_false, htoken]
      rw [ih]
      constructor
      · exact fun hfirst => Or.inr ⟨hno, hfirst⟩
      · rintro (hrank | ⟨-, hfirst⟩)
        · exact absurd hrank (hno _)
        · exact hfirst

theorem exists_forall₂ {α β : Type} {R : α → β → Prop} {l : List α} (h : ∀ a ∈ l, ∃ b, R a b) :
    ∃ bs, List.Forall₂ R l bs := by
  induction l with
  | nil => exact ⟨[], .nil⟩
  | cons a l ih =>
    obtain ⟨⟨b, hb⟩, htail⟩ := List.forall_mem_cons.mp h
    obtain ⟨bs, hbs⟩ := ih htail
    exact ⟨b :: bs, .cons hb hbs⟩

/-- **The dictionary accounts for the lines before the first empty one**: each
of them is an entry, and a token has the rank of its first line. The loader
throws when one of them is not an entry. -/
theorem loadTiktokenBpe_accounts (order : IterationOrder) (content : Bytes) :
    (∀ line ∈ leadingLines content, ∃ token rank, LineEntry line token rank) ∧
        (∃ dict, loadTiktokenBpe order content = .ret dict ∧ ∀ token rank,
          dict.find? token = some rank ↔ FirstEntry (leadingLines content) token rank) ∨
      (∃ line ∈ leadingLines content, ∀ token rank, ¬ LineEntry line token rank) ∧
        ∃ e, loadTiktokenBpe order content = .throw e := by
  by_cases hall : ∀ line ∈ leadingLines content, ∃ token rank, LineEntry line token rank
  · have hentries : ∀ line ∈ leadingLines content,
        ∃ e : Bytes × UInt32, LineEntry line e.1 e.2 := by
      intro line hline
      obtain ⟨token, rank, hentry⟩ := hall line hline
      exact ⟨(token, rank), hentry⟩
    obtain ⟨es, hes⟩ := exists_forall₂ hentries
    refine Or.inl ⟨hall, (UnorderedMap.empty.emplaceAll es).shuffle order, ?_, ?_⟩
    · rw [loadTiktokenBpe, loadLines_ret hes, Outcome.ret_bind, Outcome.pure_eq]
    · intro token rank
      rw [UnorderedMap.find?_shuffle, find?_iff_firstEntry hes]
  · push Not at hall
    obtain ⟨e, hthrow⟩ := loadLines_throw hall .empty
    exact Or.inr ⟨hall, e, by rw [loadTiktokenBpe, hthrow, Outcome.throw_bind]⟩

/-- A line of the published format: a base64 string, a blank and a decimal
number below 2^31, and nothing else but a carriage return. -/
def PlainLine (line token : Bytes) (rank : Nat) : Prop :=
  ∃ field digits cr, line = field ++ 32 :: (digits ++ cr) ∧ base64Decode field = .ret token ∧
    digits ≠ [] ∧ (∀ c ∈ digits, isDigit c) ∧ cr ∈ [[], [13]] ∧
    rank = ofDigits digits ∧ rank < 2 ^ 31

/-- The lines of the file, without the empty one after a final newline. -/
def fileLines (content : Bytes) : List Bytes :=
  if (content.splitOn 10).getLast? = some [] then (content.splitOn 10).dropLast
  else content.splitOn 10

/-- The dictionary accounts for the whole file. -/
structure AccountsFor (content : Bytes) (dict : EncodeDict) : Prop where
  plain : ∀ line ∈ fileLines content, ∃ token rank, PlainLine line token rank
  distinct : (fileLines content).Pairwise fun line line' => ∀ token token' rank rank',
    PlainLine line token rank → PlainLine line' token' rank' → token ≠ token'
  entries : ∀ token rank, dict.find? token = some rank ↔
    ∃ line ∈ fileLines content, PlainLine line token rank.toNat

/-- Digits and carriage returns are all that follows some blank of the line. -/
def DigitsAfterBlank (l : Bytes) : Prop :=
  ∃ n < l.length, l[n]? = some 32 ∧ (l.drop (n + 1)).all fun c => isDigit c || c = 13

instance (l : Bytes) : Decidable (DigitsAfterBlank l) :=
  inferInstanceAs (Decidable (∃ n < l.length, _ ∧ _))

theorem PlainLine.digitsAfterBlank {line token : Bytes} {rank : Nat}
    (h : PlainLine line token rank) : DigitsAfterBlank line := by
  obtain ⟨field, digits, cr, rfl, -, -, hdigits, hcr, -, -⟩ := h
  refine ⟨field.length, by simp, by simp, ?_⟩
  rw [List.all_eq_true]
  intro c hc
  rw [Bool.or_eq_true, decide_eq_true_eq]
  rw [List.drop_length_add_append, List.drop_one, List.tail_cons, List.mem_append] at hc
  rcases hc with hc | hc
  · exact Or.inl (hdigits c hc)
  · have hcr : cr = [] ∨ cr = [13] := by simpa using hcr
    rcases hcr with rfl | rfl
    · simp at hc
    · exact Or.inr (List.mem_singleton.mp hc)

/-- A line of another kind keeps a file from being accounted for. -/
theorem not_accountsFor_of_line {content : Bytes} (line : Bytes) (hline : line ∈ fileLines content)
    (h : ¬ DigitsAfterBlank line) (dict : EncodeDict) : ¬ AccountsFor content dict := by
  intro haccounts
  obtain ⟨token, rank, hplain⟩ := haccounts.plain line hline
  exact h hplain.digitsAfterBlank

/-- Contents that load although the dictionary does not account for them: an
empty line with another behind it, a number with a suffix, a negative number,
and two lines for one token. -/
theorem loads_beyond_format :
    (∃ dict, loadTiktokenBpe .insertion (str "QQ== 0\n\nQg== 1\n") = .ret dict ∧
      ¬ AccountsFor (str "QQ== 0\n\nQg== 1\n") dict) ∧
    (∃ dict, loadTiktokenBpe .insertion (str "QQ== 0x1\n") = .ret dict ∧
      ¬ AccountsFor (str "QQ== 0x1\n") dict) ∧
    (∃ dict, loadTiktokenBpe .insertion (str "QQ== -1\n") = .ret dict ∧
      ¬ AccountsFor (str "QQ== -1\n") dict) ∧
    (∃ dict, loadTiktokenBpe .insertion (str "QQ== 0\nQQ== 1\n") = .ret dict ∧
      ¬ AccountsFor (str "QQ== 0\nQQ== 1\n") dict) := by
  refine ⟨⟨UnorderedMap.empty.emplaceAll [(str "A", 0)], rfl, ?_⟩,
    ⟨UnorderedMap.empty.emplaceAll [(str "A", 0)], rfl, ?_⟩,
    ⟨UnorderedMap.empty.emplaceAll [(str "A", 4294967295)], rfl, ?_⟩,
    ⟨UnorderedMap.empty.emplaceAll [(str "A", 0)], rfl, ?_⟩⟩
  · exact not_accountsFor_of_line [] (by decide) (by decide) _
  · exact not_accountsFor_of_line (str "QQ== 0x1") (by decide) (by decide) _
  · exact not_accountsFor_of_line (str "QQ== -1") (by decide) (by decide) _
  · intro haccounts
    have hfirst : PlainLine (str "QQ== 0") (str "A") 0 :=
      ⟨str "QQ==", str "0", [], by decide, by decide, by decide, List.all_eq_true.mp (by decide),
        by decide, by decide, by decide⟩
    have hsecond : PlainLine (str "QQ== 1") (str "A") 1 :=
      ⟨str "QQ==", str "1", [], by decide, by decide, by decide, List.all_eq_true.mp (by decide),
        by decide, by decide, by decide⟩
    have hlines : fileLines (str "QQ== 0\nQQ== 1\n") = [str "QQ== 0", str "QQ== 1"] := by decide
    have hdistinct := haccounts.distinct
    rw [hlines, List.pairwise_pair] at hdistinct
    exact hdistinct _ _ _ _ hfirst hsecond rfl

-- ---------------------------------------------------------------------------
-- Written files
-- ---------------------------------------------------------------------------

/-- The decimal digits of a number. -/
def decimal (n : Nat) : Bytes := (Nat.toDigits 10 n).map fun c => UInt8.ofNat c.toNat

inductive LineEnding where
  | lf
  | crlf
  deriving DecidableEq, Repr

/-- What stands before the line feed. -/
def LineEnding.cr : LineEnding → Bytes
  | .lf => []
  | .crlf => [13]

def LineEnding.bytes (eol : LineEnding) : Bytes := eol.cr ++ [10]

/-- The line of an entry: padded base64, a blank, the rank in decimal. -/
def fileLine (e : Bytes × UInt32) : Bytes := base64Encode e.1 ++ 32 :: decimal e.2.toNat

/-- A vocabulary file, with a newline at its end or not. -/
def writeFile (eol : LineEnding) (finalNewline : Bool) : List (Bytes × UInt32) → Bytes
  | [] => []
  | [e] => fileLine e ++ if finalNewline then eol.bytes else []
  | e :: e' :: es => fileLine e ++ (eol.bytes ++ writeFile eol finalNewline (e' :: es))

theorem toNat_of_isDigit {c : Char} (h : c.isDigit) :
    (UInt8.ofNat c.toNat).toNat = c.toNat ∧ 48 ≤ c.toNat ∧ c.toNat ≤ 57 := by
  have hrange : 48 ≤ c.toNat ∧ c.toNat ≤ 57 := Char.isDigit_iff_toNat.mp h
  rw [UInt8.toNat_ofNat']
  omega

theorem isDigit_decimal (n : Nat) : ∀ c ∈ decimal n, isDigit c := by
  intro c hc
  obtain ⟨d, hd, rfl⟩ := List.mem_map.mp hc
  obtain ⟨htoNat, hlo, hhi⟩ :=
    toNat_of_isDigit (Nat.isDigit_of_mem_toDigits (by decide) (by decide) hd)
  simp only [isDigit, Bool.and_eq_true, decide_eq_true_eq, UInt8.le_iff_toNat_le, htoNat]
  exact ⟨hlo, hhi⟩

theorem ofDigits_decimal (n : Nat) : ofDigits (decimal n) = n := by
  have hdigits : ∀ c ∈ Nat.toDigits 10 n, c.isDigit :=
    fun c hc => Nat.isDigit_of_mem_toDigits (by decide) (by decide) hc
  have hfold : ∀ (cs : List Char) (m : Nat), (∀ c ∈ cs, c.isDigit) →
      (cs.map fun c => UInt8.ofNat c.toNat).foldl (fun n d => n * 10 + (d.toNat - 48)) m =
        Nat.ofDigitChars 10 cs m := by
    intro cs
    induction cs with
    | nil => exact fun m _ => rfl
    | cons c cs ih =>
      intro m hcs
      obtain ⟨hc, hcs⟩ := List.forall_mem_cons.mp hcs
      rw [List.map_cons, List.foldl_cons, Nat.ofDigitChars_cons, (toNat_of_isDigit hc).1, ih _ hcs,
        Nat.mul_comm]
      rfl
  rw [ofDigits, decimal, hfold _ _ hdigits, Nat.ofDigitChars_ten_toDigits]

theorem decimal_ne_nil (n : Nat) : decimal n ≠ [] := by
  rw [decimal, Ne, List.map_eq_nil_iff]
  exact Nat.toDigits_ne_nil

/-- The line of an entry is read as the entry, also with a carriage return at
its end. -/
theorem lineEntry_fileLine {e : Bytes × UInt32} (hkey : e.1 ≠ []) (hrank : e.2.toNat < 2 ^ 31)
    {cr : Bytes} (hcr : cr = [] ∨ cr = [13]) : LineEntry (fileLine e ++ cr) e.1 e.2 := by
  have hno : 32 ∉ base64Encode e.1 := fun hmem => mem_encode 32 hmem (by decide)
  have hv : UInt32.ofInt (e.2.toNat : Int) = e.2 := by
    have hlt := e.2.toNat_lt
    rw [UInt32.ofInt, Int.emod_eq_of_lt (by omega) (by omega), Int.toNat_natCast, UInt32.ofNat_toNat]
  refine ⟨base64Encode e.1, decimal e.2.toNat ++ cr, e.2.toNat, ?_, four_le_length_encode hkey,
    fun hmem => hno (List.mem_of_mem_drop hmem), base64Decode_encode e.1, ?_, by omega, by omega,
    hv.symm⟩
  · rw [fileLine, List.append_assoc, List.cons_append]
  · refine ⟨[], [], decimal e.2.toNat, cr, rfl, List.forall_mem_nil _, by simp,
      decimal_ne_nil _, isDigit_decimal _, ?_, ?_⟩
    · rcases hcr with rfl | rfl
      · simp
      · simp [isDigit]
    · rw [ofDigits_decimal]
      rfl

theorem noLineFeed_fileLine (e : Bytes × UInt32) (eol : LineEnding) : 10 ∉ fileLine e ++ eol.cr := by
  rw [fileLine, List.mem_append, List.mem_append, List.mem_cons]
  rintro ((hmem | heq | hmem) | hmem)
  · exact mem_encode 10 hmem (by decide)
  · exact absurd heq (by decide)
  · exact absurd (isDigit_decimal _ 10 hmem) (by decide)
  · rcases eol <;> simp [LineEnding.cr] at hmem

theorem LineEnding.cr_cases (eol : LineEnding) : eol.cr = [] ∨ eol.cr = [13] := by
  rcases eol
  · exact Or.inl rfl
  · exact Or.inr rfl

/-- A line of the file and the lines that follow it. -/
theorem leadingLines_cons {line : Bytes} (hline : line ≠ []) (hno : 10 ∉ line) (rest : Bytes) :
    leadingLines (line ++ 10 :: rest) = line :: leadingLines rest := by
  rw [leadingLines, List.splitOn_append_cons_self_of_not_mem hno,
    List.takeWhile_cons_of_pos (by simpa using hline)]
  rfl

theorem leadingLines_last {line : Bytes} (hline : line ≠ []) (hno : 10 ∉ line) :
    leadingLines line = [line] := by
  rw [leadingLines, List.splitOn_eq_singleton hno, List.takeWhile_cons_of_pos (by simpa using hline)]
  rfl

/-- The lines of a written file are the lines of its entries. -/
theorem leadingLines_writeFile (eol : LineEnding) (finalNewline : Bool)
    {es : List (Bytes × UInt32)} (hes : ∀ e ∈ es, e.1 ≠ [] ∧ e.2.toNat < 2 ^ 31) :
    List.Forall₂ (fun line e => LineEntry line e.1 e.2)
      (leadingLines (writeFile eol finalNewline es)) es := by
  induction es using writeFile.induct with
  | case1 => exact .nil
  | case2 e =>
    obtain ⟨hkey, hrank⟩ := hes e (List.mem_cons_self ..)
    rcases finalNewline
    · have hentry := lineEntry_fileLine hkey hrank (Or.inl rfl)
      rw [writeFile, if_neg (by decide), leadingLines_last hentry.ne_nil (noLineFeed_fileLine e .lf)]
      exact .cons hentry .nil
    · have hentry := lineEntry_fileLine hkey hrank eol.cr_cases
      rw [writeFile, if_pos rfl, LineEnding.bytes, ← List.append_assoc,
        leadingLines_cons hentry.ne_nil (noLineFeed_fileLine e eol)]
      exact .cons hentry .nil
  | case3 e e' es ih =>
    obtain ⟨⟨hkey, hrank⟩, hes⟩ := List.forall_mem_cons.mp hes
    have hentry := lineEntry_fileLine hkey hrank eol.cr_cases
    rw [writeFile, LineEnding.bytes, List.append_assoc, List.singleton_append,
      ← List.append_assoc, leadingLines_cons hentry.ne_nil (noLineFeed_fileLine e eol)]
    exact .cons hentry (ih hes)

/-- **Loading undoes writing**: the dictionary has the written entries and no
others, whatever their order in the file. -/
theorem loadTiktokenBpe_writeFile (dict : EncodeDict)
    (hdict : ∀ e ∈ dict.entries, e.1 ≠ [] ∧ e.2.toNat < 2 ^ 31)
    {es : List (Bytes × UInt32)} (hes : es.Perm dict.entries)
    (eol : LineEnding) (finalNewline : Bool) (order : IterationOrder) :
    ∃ loaded, loadTiktokenBpe order (writeFile eol finalNewline es) = .ret loaded ∧
      loaded.entries.Perm dict.entries := by
  have hlines := leadingLines_writeFile eol finalNewline fun e he => hdict e (hes.mem_iff.mp he)
  have hnodup : (es.map Prod.fst).Nodup := (hes.map Prod.fst).nodup_iff.mpr dict.nodup
  refine ⟨(UnorderedMap.empty.emplaceAll es).shuffle order, ?_, ?_⟩
  · rw [loadTiktokenBpe, loadLines_ret hlines, Outcome.ret_bind, Outcome.pure_eq]
  · refine (order.perm _).trans ?_
    rw [UnorderedMap.entries_emplaceAll_of_nodup hnodup]
    exact hes

theorem loadTiktokenBpe_writeFile_two :
    ∃ loaded, loadTiktokenBpe .insertion
        (writeFile .crlf false [(str "AB", 7), (str "A", 0)]) = .ret loaded ∧
      loaded.entries.Perm [(str "A", 0), (str "AB", 7)] :=
  loadTiktokenBpe_writeFile ⟨[(str "A", 0), (str "AB", 7)], by decide⟩ (by decide)
    (List.Perm.swap _ _ _) .crlf false .insertion

end TiktokenCpp
