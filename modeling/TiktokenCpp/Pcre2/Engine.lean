import TiktokenCpp.Lib.Utf8
import TiktokenCpp.Pcre2.Pattern

/-!
# The PCRE2 library as a parameter

The program calls two functions of PCRE2, `pcre2_compile` and `pcre2_match`,
always with `PCRE2_UTF | PCRE2_UCP` and without match options. `Pcre2` is any
implementation of the two; `Documented` is what their documentation promises
and all that the results of this development assume of them:

* a pattern of the syntax of `Pcre2.Pattern` compiles, and matching it from a
  character boundary of a well-formed subject reports the first success, in
  backtracking order, at the leftmost position that has one (no resource limit
  is hit, of neither function);
* a subject that is not well-formed UTF-8 is refused with a negative code.

`reference` is an implementation with these properties, so they can be met.
-/

/-- One pair of the output vector: byte offsets into the subject. -/
structure Pcre2Match where
  start : Nat
  end_ : Nat
  deriving DecidableEq, Repr

/-- What `pcre2_match` leaves behind: a code that is not positive, or an output
vector whose first pair is the whole match, followed by the captured groups. -/
inductive MatchResult where
  | error (rc : Int)
  | matched (whole : Pcre2Match) (groups : List Pcre2Match)
  deriving DecidableEq, Repr

/-- An implementation of PCRE2. -/
structure Pcre2 where
  Code : Type
  /-- The compiled pattern, or an error code and the offset of the error. -/
  pcre2_compile : Bytes → Except (Int × Nat) Code
  /-- Match a subject from a start offset. -/
  pcre2_match : Code → Bytes → Nat → MatchResult

namespace Pcre2

open Backtrack Utf8

/-- The code of a match that is not there, `PCRE2_ERROR_NOMATCH`. -/
def errorNoMatch : Int := -1

/-- The code for a subject that is not UTF-8, of the family `PCRE2_ERROR_UTF8_*`. -/
def errorUtf8 : Int := -3

/-- A compiled pattern behaves like the expression `re`: on a subject
`pre ++ suf` matched from the boundary between the two. -/
def Implements (P : Pcre2) (U : UnicodeProps) (code : P.Code) (re : Regex CharClass) : Prop :=
  ∀ pre suf : List Char,
    match search (CharClass.mem U) re suf with
    | none => P.pcre2_match code (encode (pre ++ suf)) (encode pre).length = .error errorNoMatch
    | some f => ∃ groups, groups.length = re.groups ∧
        P.pcre2_match code (encode (pre ++ suf)) (encode pre).length =
          .matched ⟨(encode (pre ++ f.skipped)).length,
            (encode (pre ++ f.skipped ++ f.matched)).length⟩ groups

/-- A subject that is not well-formed UTF-8 is refused. -/
def Refuses (P : Pcre2) : Prop :=
  ∀ (code : P.Code) {subject : Bytes}, ¬ WellFormed subject →
    ∃ rc < 0, P.pcre2_match code subject 0 = .error rc

/-- What the PCRE2 documentation says of the two functions. -/
structure Documented (P : Pcre2) (U : UnicodeProps) : Prop where
  compiles : ∀ {pat : List Char} {re : Regex CharClass}, parse pat = some re →
    ∃ code, P.pcre2_compile (encode pat) = .ok code ∧ P.Implements U code re
  refuses : P.Refuses

theorem Implements.of_search_none {P : Pcre2} {U : UnicodeProps} {code : P.Code}
    {re : Regex CharClass} (h : P.Implements U code re) {pre suf : List Char}
    (hs : search (CharClass.mem U) re suf = none) :
    P.pcre2_match code (encode (pre ++ suf)) (encode pre).length = .error errorNoMatch := by
  have := h pre suf
  rwa [hs] at this

theorem Implements.of_search_some {P : Pcre2} {U : UnicodeProps} {code : P.Code}
    {re : Regex CharClass} (h : P.Implements U code re) {suf : List Char} {f : Found Char}
    (hs : search (CharClass.mem U) re suf = some f) (pre : List Char) :
    ∃ groups, groups.length = re.groups ∧
      P.pcre2_match code (encode (pre ++ suf)) (encode pre).length =
        .matched ⟨(encode (pre ++ f.skipped)).length,
          (encode (pre ++ f.skipped ++ f.matched)).length⟩ groups := by
  have := h pre suf
  rwa [hs] at this

-- ---------------------------------------------------------------------------
-- An implementation
-- ---------------------------------------------------------------------------

/-- The engine that parses a pattern and searches by backtracking. It captures
nothing: its groups are all empty. -/
def reference (U : UnicodeProps) : Pcre2 where
  Code := Regex CharClass
  pcre2_compile pat :=
    match decode? pat >>= parse with
    | some re => .ok re
    | none => .error (101, 0)
  pcre2_match re subject offset :=
    match decode? (subject.drop offset) with
    | none => .error errorUtf8
    | some suf =>
      match search (CharClass.mem U) re suf with
      | none => .error errorNoMatch
      | some f =>
        let start := offset + (encode f.skipped).length
        .matched ⟨start, start + (encode f.matched).length⟩ (List.replicate re.groups ⟨0, 0⟩)

theorem reference_documented (U : UnicodeProps) : (reference U).Documented U where
  compiles := by
    intro pat re hparse
    refine ⟨re, by simp [reference, hparse], ?_⟩
    intro pre suf
    have hdrop : decode? ((encode (pre ++ suf)).drop (encode pre).length) = some suf := by
      rw [encode_append, List.drop_left, decode?_encode]
    cases hs : search (CharClass.mem U) re suf with
    | none => simp only [reference, hdrop, hs]
    | some f =>
      refine ⟨List.replicate re.groups ⟨0, 0⟩, List.length_replicate .., ?_⟩
      simp only [reference, hdrop, hs]
      simp only [encode_append, List.length_append]
  refuses := by
    intro re subject hbad
    refine ⟨errorUtf8, by decide, ?_⟩
    have hnone : decode? subject = none := decode?_eq_none_iff.mpr hbad
    simp only [reference, List.drop_zero, hnone]

/-- A character database for ASCII. -/
def asciiProps : UnicodeProps where
  letter c := c.isAlpha
  number c := c.isDigit
  space c := c.isWhitespace
  caseEq c d := c.toLower = d.toLower
  space_blank := by decide
  space_cr := by decide
  space_lf := by decide

end Pcre2
