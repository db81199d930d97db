import TiktokenCpp.Lib.Backtrack

/-!
# PCRE2 pattern syntax

The part of the PCRE2 pattern language that the split patterns and the joined
special tokens are written in, read under `PCRE2_UTF | PCRE2_UCP`: literal
characters, the escapes `\s \S \r \n \p{L} \p{N}`, a backslash before any
character that is no ASCII letter or digit, classes (none that begins with `:`,
`.` or `=`), groups (capturing, plain, caseless, negative lookahead),
alternation, and the greedy quantifiers
`? * + {m,n}` on one character or class. `parse` answers `none` for everything
else.

`parse_joined` is the fact about the syntax itself: words whose special
characters are escaped and which are joined by `|` parse to the alternation
of the words.
-/

namespace Pcre2

open Backtrack

/-- A member of a character class. -/
inductive ClassItem where
  | char (c : Char)
  | caseless (c : Char)
  | letter
  | number
  | space
  | notSpace
  deriving DecidableEq, Repr

/-- A class of characters: the characters of its items, or all others. -/
structure CharClass where
  negated : Bool
  items : List ClassItem
  deriving DecidableEq, Repr

/-- The character database behind `\p{..}`, `\s` and caseless matching. What
the engine relies on is only that blank, CR and LF are space. -/
structure UnicodeProps where
  letter : Char → Bool
  number : Char → Bool
  space : Char → Bool
  caseEq : Char → Char → Bool
  space_blank : space ' ' = true
  space_cr : space '\r' = true
  space_lf : space '\n' = true

def ClassItem.mem (U : UnicodeProps) : ClassItem → Char → Bool
  | char d, c => c = d
  | caseless d, c => c = d || U.caseEq d c
  | letter, c => U.letter c
  | number, c => U.number c
  | space, c => U.space c
  | notSpace, c => !U.space c

def CharClass.mem (U : UnicodeProps) (k : CharClass) (c : Char) : Bool :=
  k.negated != k.items.any fun i => i.mem U c

/-- The class of one character. -/
def CharClass.lit (c : Char) : CharClass := ⟨false, [.char c]⟩

theorem CharClass.mem_lit (U : UnicodeProps) (a b : Char) :
    (CharClass.lit a).mem U b = true ↔ b = a := by
  simp [CharClass.mem, CharClass.lit, ClassItem.mem]

-- ---------------------------------------------------------------------------
-- Tokens
-- ---------------------------------------------------------------------------

/-- What an opening bracket opens. -/
inductive GroupKind where
  | capture
  | plain
  | caseless
  | notAhead
  deriving DecidableEq, Repr

inductive Tok where
  | cls (k : CharClass)
  | quant (min : Nat) (max : Option Nat)
  | bar
  | opening (kind : GroupKind)
  | closing
  deriving DecidableEq, Repr

/-- The name after `\p`. -/
def readProperty : List Char → Option (ClassItem × List Char)
  | '{' :: c :: '}' :: s =>
    if c = 'L' then some (.letter, s) else if c = 'N' then some (.number, s) else none
  | _ => none

/-- What follows a backslash. -/
def readEscape : List Char → Option (ClassItem × List Char)
  | [] => none
  | c :: s =>
    if c = 'p' then readProperty s
    else if c = 's' then some (.space, s)
    else if c = 'S' then some (.notSpace, s)
    else if c = 'r' then some (.char '\r', s)
    else if c = 'n' then some (.char '\n', s)
    else if c.isAlphanum then none
    else some (.char c, s)

/-- The members of a class, up to its closing bracket. -/
def readItems : Nat → List Char → Option (List ClassItem × List Char)
  | 0, _ => none
  | _, [] => none
  | n + 1, c :: s =>
    if c = ']' then some ([], s)
    else if c = '\\' then do
      let (i, t) ← readEscape s
      let (is, u) ← readItems n t
      return (i :: is, u)
    else if c = '[' ∨ c = '-' then none
    else do
      let (is, u) ← readItems n s
      return (.char c :: is, u)

/-- A class, after its opening bracket. With a colon, a full stop or an equals
sign in front it may be the name of a POSIX class, which is an error here. -/
def readClass (s : List Char) : Option (Tok × List Char) :=
  if s.head? ∈ [some ':', some '.', some '='] then none
  else
    let negated := s.head? = some '^'
    match readItems s.length (if negated then s.tail else s) with
    | some (i :: is, t) => some (.cls ⟨negated, i :: is⟩, t)
    | _ => none

/-- The kind of a group, after its opening bracket. -/
def readOpening : List Char → Option (Tok × List Char)
  | '?' :: ':' :: s => some (.opening .plain, s)
  | '?' :: 'i' :: ':' :: s => some (.opening .caseless, s)
  | '?' :: '!' :: s => some (.opening .notAhead, s)
  | '?' :: _ => none
  | '*' :: _ => none
  | s => some (.opening .capture, s)

/-- The bounds of a quantifier, after its opening brace. -/
def readBounds : List Char → Option (Tok × List Char)
  | a :: ',' :: b :: '}' :: s =>
    if a.isDigit ∧ b.isDigit ∧ a.toNat ≤ b.toNat then
      some (.quant (a.toNat - 48) (some (b.toNat - 48)), s)
    else none
  | _ => none

/-- The first token of a pattern. -/
def nextTok : List Char → Option (Tok × List Char)
  | [] => none
  | c :: s =>
    if c = '\\' then (readEscape s).map fun (i, t) => (.cls ⟨false, [i]⟩, t)
    else if c = '[' then readClass s
    else if c = '(' then readOpening s
    else if c = ')' then some (.closing, s)
    else if c = '|' then some (.bar, s)
    else if c = '?' then some (.quant 0 (some 1), s)
    else if c = '*' then some (.quant 0 none, s)
    else if c = '+' then some (.quant 1 none, s)
    else if c = '{' then readBounds s
    else if c = '^' ∨ c = '$' ∨ c = '.' then none
    else some (.cls (.lit c), s)

/-- The tokens of a pattern of at most `n` tokens. -/
def lex : Nat → List Char → Option (List Tok)
  | _, [] => some []
  | 0, _ => none
  | n + 1, s => do
    let (t, rest) ← nextTok s
    let ts ← lex n rest
    return t :: ts

-- ---------------------------------------------------------------------------
-- Expressions
-- ---------------------------------------------------------------------------

/-- The caseless reading of a class: its characters stand for all their cases. -/
def ClassItem.toCaseless : ClassItem → ClassItem
  | char c => caseless c
  | i => i

def mapClasses (f : CharClass → CharClass) : Regex CharClass → Regex CharClass
  | .eps => .eps
  | .cls k => .cls (f k)
  | .rep k min max => .rep (f k) min max
  | .seq r s => .seq (mapClasses f r) (mapClasses f s)
  | .alt r s => .alt (mapClasses f r) (mapClasses f s)
  | .notAhead r => .notAhead (mapClasses f r)
  | .group r => .group (mapClasses f r)

/-- An open group: its finished alternatives and the items of the current one,
both last first. -/
structure Frame where
  kind : GroupKind
  alts : List (Regex CharClass)
  cur : List (Regex CharClass)

/-- The sequence of items given last first. -/
def seqOf (cur : List (Regex CharClass)) : Regex CharClass :=
  cur.reverse.foldr .seq .eps

/-- The alternation a frame holds. -/
def Frame.body (f : Frame) : Regex CharClass := anyOf (f.alts.reverse ++ [seqOf f.cur])

/-- The expression of a closed group. -/
def Frame.close (f : Frame) : Regex CharClass :=
  match f.kind with
  | .capture => .group f.body
  | .plain => f.body
  | .caseless => mapClasses (fun k => { k with items := k.items.map ClassItem.toCaseless }) f.body
  | .notAhead => .notAhead f.body

/-- Read tokens into the innermost open group `top`, inside the groups `outer`. -/
def parseToks (top : Frame) (outer : List Frame) : List Tok → Option (Regex CharClass)
  | [] =>
    match outer with
    | [] => some top.body
    | _ :: _ => none
  | .cls k :: ts => parseToks { top with cur := .cls k :: top.cur } outer ts
  | .quant min max :: ts =>
    match top.cur with
    | .cls k :: cur => parseToks { top with cur := .rep k min max :: cur } outer ts
    | _ => none
  | .bar :: ts => parseToks { top with alts := seqOf top.cur :: top.alts, cur := [] } outer ts
  | .opening kind :: ts => parseToks ⟨kind, [], []⟩ (top :: outer) ts
  | .closing :: ts =>
    match outer with
    | [] => none
    | f :: fs => parseToks { f with cur := top.close :: f.cur } fs ts

/-- The expression a pattern stands for. -/
def parse (pat : List Char) : Option (Regex CharClass) := do
  parseToks ⟨.plain, [], []⟩ [] (← lex pat.length pat)

-- ---------------------------------------------------------------------------
-- Escaped words
-- ---------------------------------------------------------------------------

/-- The characters with a meaning of their own outside classes. -/
def metachars : List Char := ['\\', '^', '$', '.', '[', '|', '(', ')', '?', '*', '+', '{']

/-- A way to write the character `c` that strips it of any special meaning:
as it is, if it has none, or after a backslash, if it is no letter or digit. -/
def Spells (piece : List Char) (c : Char) : Prop :=
  (piece = [c] ∧ c ∉ metachars) ∨ (piece = ['\\', c] ∧ c.isAlphanum = false)

theorem nextTok_spells {piece : List Char} {c : Char} (h : Spells piece c) (s : List Char) :
    nextTok (piece ++ s) = some (.cls (.lit c), s) := by
  rcases h with ⟨rfl, hc⟩ | ⟨rfl, hc⟩
  · simp only [metachars, List.mem_cons, List.not_mem_nil, or_false, not_or] at hc
    simp [nextTok, hc]
  · have hp : c ≠ 'p' := by rintro rfl; exact absurd hc (by decide)
    have hs : c ≠ 's' := by rintro rfl; exact absurd hc (by decide)
    have hS : c ≠ 'S' := by rintro rfl; exact absurd hc (by decide)
    have hr : c ≠ 'r' := by rintro rfl; exact absurd hc (by decide)
    have hn : c ≠ 'n' := by rintro rfl; exact absurd hc (by decide)
    simp [nextTok, readEscape, hp, hs, hS, hr, hn, hc, CharClass.lit]

/-- `s` lexes to `ts` whatever the bound on the number of tokens, as long as
it is no smaller than the number of characters. -/
def Lexes (s : List Char) (ts : List Tok) : Prop := ∀ n, s.length ≤ n → lex n s = some ts

theorem Lexes.nil : Lexes [] [] := by
  intro n _
  cases n <;> rfl

theorem Lexes.cons {s rest : List Char} {t : Tok} {ts : List Tok}
    (ht : nextTok s = some (t, rest)) (hlen : rest.length < s.length) (h : Lexes rest ts) :
    Lexes s (t :: ts) := by
  intro n hn
  cases n with
  | zero => omega
  | succ n =>
    match s with
    | [] => simp at hlen
    | c :: s =>
      have hrest : lex n rest = some ts := h n (by
        rw [List.length_cons] at hn hlen
        omega)
      simp [lex, ht, hrest]

/-- A word written with `esc` lexes to its characters, each a class. -/
theorem Lexes.word {esc : Char → List Char} {s : List Char} {ts : List Tok} (h : Lexes s ts)
    {w : List Char} (hw : ∀ c ∈ w, Spells (esc c) c) :
    Lexes (w.flatMap esc ++ s) (w.map (fun c => .cls (.lit c)) ++ ts) := by
  induction w with
  | nil => exact h
  | cons c w ih =>
    obtain ⟨hc, hw⟩ := List.forall_mem_cons.mp hw
    rw [List.flatMap_cons, List.append_assoc]
    refine Lexes.cons (nextTok_spells hc _) ?_ (ih hw)
    have hpos : 0 < (esc c).length := by
      rcases hc with ⟨hc, -⟩ | ⟨hc, -⟩ <;> simp [hc]
    simp only [List.length_append]
    omega

/-- The parts of a list joined with a separator. -/
def join {α : Type} (sep : α) : List (List α) → List α
  | [] => []
  | [a] => a
  | a :: b :: rest => a ++ sep :: join sep (b :: rest)

/-- The tokens of words joined by `|`. -/
def joinedToks : List (List Char) → List Tok
  | [] => []
  | [w] => w.map fun c => .cls (.lit c)
  | w :: v :: ws => w.map (fun c => .cls (.lit c)) ++ .bar :: joinedToks (v :: ws)

theorem Lexes.joined {esc : Char → List Char} {s : List Char} {ts : List Tok} (h : Lexes s ts) :
    ∀ {ws : List (List Char)}, (∀ w ∈ ws, ∀ c ∈ w, Spells (esc c) c) →
      Lexes (join '|' (ws.map fun w => w.flatMap esc) ++ s) (joinedToks ws ++ ts)
  | [], _ => h
  | [w], hws => h.word (hws w (List.mem_singleton_self w))
  | w :: v :: ws, hws => by
    obtain ⟨hw, hrest⟩ := List.forall_mem_cons.mp hws
    have htail := Lexes.joined h hrest
    rw [List.map_cons, List.map_cons, join, joinedToks, List.append_assoc, List.append_assoc]
    refine Lexes.word (Lexes.cons ?_ ?_ htail) hw
    · simp [nextTok]
    · simp

theorem seqOf_word (w : List Char) :
    seqOf ((w.map fun c => .cls (.lit c)).reverse) = lit (w.map .lit) := by
  rw [seqOf, List.reverse_reverse]
  induction w with
  | nil => rfl
  | cons c w ih => rw [List.map_cons, List.foldr_cons, ih]; rfl

theorem parseToks_word (kind : GroupKind) (alts cur : List (Regex CharClass)) (outer : List Frame)
    (w : List Char) (ts : List Tok) :
    parseToks ⟨kind, alts, cur⟩ outer (w.map (fun c => .cls (.lit c)) ++ ts) =
      parseToks ⟨kind, alts, (w.map fun c => .cls (.lit c)).reverse ++ cur⟩ outer ts := by
  induction w generalizing cur with
  | nil => rfl
  | cons c w ih =>
    rw [List.map_cons, List.cons_append, parseToks, ih]
    simp

/-- Reading joined words into a fresh group leaves it holding their alternation. -/
theorem parseToks_joined (kind : GroupKind) (outer : List Frame) (ts : List Tok) :
    ∀ (ws : List (List Char)) (alts : List (Regex CharClass)), ws ≠ [] →
      ∃ f : Frame, f.kind = kind ∧
        f.body = anyOf (alts.reverse ++ ws.map fun w => lit (w.map .lit)) ∧
        parseToks ⟨kind, alts, []⟩ outer (joinedToks ws ++ ts) = parseToks f outer ts
  | [], _, h => absurd rfl h
  | [w], alts, _ => by
    refine ⟨_, ?_, ?_, parseToks_word kind alts [] outer w ts⟩
    · rfl
    · rw [Frame.body, List.append_nil, seqOf_word]
      rfl
  | w :: v :: ws, alts, _ => by
    obtain ⟨f, hkind, hbody, hparse⟩ :=
      parseToks_joined kind outer ts (v :: ws) (lit (w.map .lit) :: alts) (List.cons_ne_nil _ _)
    refine ⟨f, hkind, ?_, ?_⟩
    · rw [hbody, List.reverse_cons, List.append_assoc]
      rfl
    · rw [joinedToks, List.append_assoc, parseToks_word, List.append_nil, List.cons_append,
        parseToks, seqOf_word]
      exact hparse

/-- **Escaped words joined by `|` stand for the alternation of the words.** -/
theorem parse_joined {esc : Char → List Char} (ws : List (List Char)) (hne : ws ≠ [])
    (hws : ∀ w ∈ ws, ∀ c ∈ w, Spells (esc c) c) :
    parse (join '|' (ws.map fun w => w.flatMap esc)) =
      some (anyOf (ws.map fun w => lit (w.map .lit))) := by
  have hlex := (Lexes.nil.joined hws) _ (Nat.le_refl _)
  rw [List.append_nil] at hlex
  obtain ⟨f, -, hbody, hparse⟩ := parseToks_joined .plain [] [] ws [] hne
  rw [parse, hlex]
  show parseToks ⟨.plain, [], []⟩ [] (joinedToks ws ++ []) = _
  rw [hparse, parseToks, hbody]
  rfl

/-- Nothing escaped starts like a group option or a verb. -/
theorem readOpening_joined {esc : Char → List Char} {ws : List (List Char)}
    (hws : ∀ w ∈ ws, ∀ c ∈ w, Spells (esc c) c) {s : List Char} (hs : s.head? = some ')') :
    readOpening (join '|' (ws.map fun w => w.flatMap esc) ++ s) =
      some (.opening .capture, join '|' (ws.map fun w => w.flatMap esc) ++ s) := by
  have key (c : Char) (t : List Char) (hq : c ≠ '?') (hstar : c ≠ '*') :
      readOpening (c :: t) = some (.opening .capture, c :: t) := by
    unfold readOpening
    split <;> simp_all
  have hword (w : List Char) (t : List Char) (hw : ∀ c ∈ w, Spells (esc c) c)
      (ht : t.head? = some ')' ∨ t.head? = some '|') :
      readOpening (w.flatMap esc ++ t) = some (.opening .capture, w.flatMap esc ++ t) := by
    cases w with
    | nil =>
      match t, ht with
      | c :: t, Or.inl h => exact key c t (by simp_all) (by simp_all)
      | c :: t, Or.inr h => exact key c t (by simp_all) (by simp_all)
    | cons c w =>
      rw [List.flatMap_cons, List.append_assoc]
      rcases hw c (List.mem_cons_self ..) with ⟨hc, hmeta⟩ | ⟨hc, -⟩
      · simp only [metachars, List.mem_cons, List.not_mem_nil, or_false, not_or] at hmeta
        rw [hc]
        exact key c _ hmeta.2.2.2.2.2.2.2.2.1 hmeta.2.2.2.2.2.2.2.2.2.1
      · rw [hc]
        exact key '\\' _ (by decide) (by decide)
  match ws with
  | [] => exact hword [] s (by simp) (Or.inl hs)
  | [w] => exact hword w s (hws w (List.mem_singleton_self w)) (Or.inl hs)
  | w :: v :: ws =>
    rw [List.map_cons, List.map_cons, join, List.append_assoc]
    exact hword w _ (hws w (List.mem_cons_self ..)) (Or.inr rfl)

/-- The same in a pair of brackets: one capturing group around the alternation. -/
theorem parse_bracketed {esc : Char → List Char} (ws : List (List Char)) (hne : ws ≠ [])
    (hws : ∀ w ∈ ws, ∀ c ∈ w, Spells (esc c) c) :
    parse ('(' :: join '|' (ws.map fun w => w.flatMap esc) ++ [')']) =
      some (.seq (.group (anyOf (ws.map fun w => lit (w.map .lit)))) .eps) := by
  have hclose : Lexes [')'] [.closing] :=
    Lexes.cons (by simp [nextTok]) (by simp) Lexes.nil
  have hopen : nextTok ('(' :: join '|' (ws.map fun w => w.flatMap esc) ++ [')']) =
      some (.opening .capture, join '|' (ws.map fun w => w.flatMap esc) ++ [')']) := by
    rw [List.cons_append, nextTok]
    simpa using readOpening_joined hws rfl
  have hlex := (Lexes.cons hopen (by simp) (hclose.joined hws)) _ (Nat.le_refl _)
  obtain ⟨f, hkind, hbody, hparse⟩ :=
    parseToks_joined .capture [⟨.plain, [], []⟩] [.closing] ws [] hne
  rw [parse, hlex]
  show parseToks ⟨.plain, [], []⟩ [] (.opening .capture :: (joinedToks ws ++ [.closing])) = _
  rw [parseToks, hparse, parseToks, Frame.close, hkind, hbody]
  rfl

-- ---------------------------------------------------------------------------
-- Matching words
-- ---------------------------------------------------------------------------

/-- The alternation of words. -/
def wordsRegex (ws : List (List Char)) : Regex CharClass := anyOf (ws.map fun w => lit (w.map .lit))

theorem mem_ends_wordsRegex {U : UnicodeProps} {ws : List (List Char)} (hne : ws ≠ [])
    {s t : List Char} :
    t ∈ (wordsRegex ws).ends (CharClass.mem U) s ↔ ∃ w ∈ ws, s = w ++ t := by
  rw [wordsRegex, mem_ends_anyOf (by rwa [ne_eq, List.map_eq_nil_iff])]
  constructor
  · rintro ⟨q, hq, ht⟩
    obtain ⟨w, hw, rfl⟩ := List.mem_map.mp hq
    exact ⟨w, hw, (mem_ends_lit (CharClass.mem_lit U)).mp ht⟩
  · rintro ⟨w, hw, hs⟩
    exact ⟨_, List.mem_map.mpr ⟨w, hw, rfl⟩, (mem_ends_lit (CharClass.mem_lit U)).mpr hs⟩

/-- The words in brackets match somewhere in a text that one of them occurs in. -/
theorem exists_ends_bracketed_words {U : UnicodeProps} {ws : List (List Char)} (hne : ws ≠ [])
    (cs : List Char) :
    (∃ a b, cs = a ++ b ∧
        (Regex.seq (.group (wordsRegex ws)) .eps).ends (CharClass.mem U) b ≠ []) ↔
      ∃ w ∈ ws, w <:+: cs := by
  have hends (b : List Char) : (Regex.seq (.group (wordsRegex ws)) .eps).ends (CharClass.mem U) b =
      (wordsRegex ws).ends (CharClass.mem U) b := by
    simp [Regex.ends]
  simp only [hends]
  constructor
  · rintro ⟨a, b, rfl, hb⟩
    obtain ⟨t, ht⟩ := List.exists_mem_of_ne_nil _ hb
    obtain ⟨w, hw, rfl⟩ := (mem_ends_wordsRegex hne).mp ht
    exact ⟨w, hw, a, t, List.append_assoc ..⟩
  · rintro ⟨w, hw, a, t, rfl⟩
    refine ⟨a, w ++ t, List.append_assoc .., ?_⟩
    exact List.ne_nil_of_mem ((mem_ends_wordsRegex hne).mpr ⟨w, hw, rfl⟩)

end Pcre2
