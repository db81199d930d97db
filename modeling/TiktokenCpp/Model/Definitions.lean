import Mathlib.Algebra.Group.Int.Defs
import Mathlib.Algebra.Group.Nat.Defs
import Mathlib.Data.List.Lex
import TiktokenCpp.Lib.Containers
import TiktokenCpp.Lib.Outcome
import TiktokenCpp.Lib.Utf8
import TiktokenCpp.Pcre2.Engine

/-!
# Types of the program

`global_define.h`, `registry.h` and `error_handler`: the string sets and
dictionaries, the exceptions, and the pieces of the C++ string library the
rest uses. A `std::string` and a `std::vector<uint8_t>` are both lists of
bytes, so `StringToBytes` and `BytesToString` are the identity. `size_t` has
64 bits.
-/

namespace TiktokenCpp

/-- Bytes are ordered by value, as `char_traits` compares them. -/
instance byteOrder : LinearOrder UInt8 where
  le_refl := UInt8.le_refl
  le_trans _ _ _ := UInt8.le_trans
  le_antisymm _ _ := UInt8.le_antisymm
  le_total := UInt8.le_total
  lt_iff_le_not_ge a b := by
    rw [UInt8.lt_iff_toNat_lt, UInt8.le_iff_toNat_le, UInt8.le_iff_toNat_le]
    omega
  toDecidableLE := inferInstance

-- ---------------------------------------------------------------------------
-- Exceptions
-- ---------------------------------------------------------------------------

/-- The exceptions the program and its libraries throw. -/
inductive Exn where
  | badVariantAccess
  | outOfRange
  | invalidArgument
  | runtimeError (what : Bytes)
  /-- `cppcodec::parse_error` -/
  | parseError
  | pcre2Exception (errCode : UInt32) (errOffset : Nat)
  | unicodeEncoderException
  deriving DecidableEq, Repr

/-- The outcome of a call of the program. -/
abbrev Run := Outcome Exn

-- ---------------------------------------------------------------------------
-- Strings and sizes
-- ---------------------------------------------------------------------------

/-- A string literal. -/
def str (s : String) : Bytes := Utf8.encode s.toList

/-- The C string at `data()`: what stands before the first NUL. -/
def cstr (s : Bytes) : Bytes := s.takeWhile (· ≠ 0)

/-- `std::numeric_limits<size_t>::max()` -/
def sizeMax : Nat := 2 ^ 64 - 1

/-- Subtraction of `size_t`, which wraps. -/
def subSize (a b : Nat) : Nat := if b ≤ a then a - b else 2 ^ 64 - (b - a)

@[simp] theorem subSize_of_le {a b : Nat} (h : b ≤ a) : subSize a b = a - b := if_pos h

/-- `std::string::substr` -/
def substr (s : Bytes) (pos count : Nat) : Run Bytes :=
  if pos ≤ s.length then .ret ((s.drop pos).take count) else .throw .outOfRange

theorem substr_of_le {s : Bytes} {pos count : Nat} (h : pos ≤ s.length) :
    substr s pos count = .ret ((s.drop pos).take count) := if_pos h

/-- `ThrowGeneralException` -/
def throwGeneralException {α : Type} (reason param : Bytes) : Run α :=
  .throw (.runtimeError (cstr (reason ++ param)))

-- ---------------------------------------------------------------------------
-- Dictionaries and sets
-- ---------------------------------------------------------------------------

abbrev StringSet := OrderedSet Bytes
abbrev Utf8StringSet := OrderedSet Bytes

/-- `std::variant<std::string_view, StringSet>` -/
inductive StringSetUnion where
  | view (s : Bytes)
  | set (s : StringSet)

abbrev Utf8StrToInt := UnorderedMap Bytes UInt32
abbrev StrViewToInt := UnorderedMap Bytes UInt32

/-- `std::hash` of a vector of bytes. The bytes and the `int` factor are
converted to `size_t`, where all of it wraps. -/
def hashBytes (va : Bytes) : BitVec 64 :=
  let p : BitVec 64 := 16777619
  let hash := va.foldl (fun hash b => (hash ^^^ b.toBitVec.setWidth 64) * p) 2166136261
  let hash := hash + (hash <<< 13)
  let hash := hash ^^^ (hash >>> 7)
  let hash := hash + (hash <<< 3)
  let hash := hash ^^^ (hash >>> 17)
  hash + (hash <<< 5)

abbrev EncodeDict := UnorderedMap Bytes UInt32
abbrev DecodeDict := UnorderedMap UInt32 Bytes

/-- The parameters of an encoding. -/
structure EncodingParam where
  name : Bytes
  vocabN : Option UInt32
  patStr : Bytes
  bpeUrl : Bytes
  specialTokens : StrViewToInt

-- ---------------------------------------------------------------------------
-- Loops
-- ---------------------------------------------------------------------------

/-- `for (i = start; n more times; ++i) body` -/
def forLoop {σ : Type} (body : Nat → σ → Run σ) : (n i : Nat) → σ → Run σ
  | 0, _, s => .ret s
  | n + 1, i, s => body i s >>= forLoop body n (i + 1)

/-- An invariant that every pass keeps holds when the loop ends. -/
theorem forLoop_ret {σ : Type} {body : Nat → σ → Run σ} (Inv : Nat → σ → Prop) {n i : Nat} {s : σ}
    (hstep : ∀ j s, i ≤ j → j < i + n → Inv j s → ∃ s', body j s = .ret s' ∧ Inv (j + 1) s')
    (h : Inv i s) : ∃ s', forLoop body n i s = .ret s' ∧ Inv (i + n) s' := by
  induction n generalizing i s with
  | zero => exact ⟨s, rfl, h⟩
  | succ n ih =>
    obtain ⟨s₁, hbody, h₁⟩ := hstep i s (Nat.le_refl i) (by omega) h
    obtain ⟨s', hloop, hs'⟩ := ih (fun j s hj hlt => hstep j s (by omega) (by omega)) h₁
    refine ⟨s', ?_, ?_⟩
    · rw [forLoop, hbody, Outcome.ret_bind, hloop]
    · rwa [show i + (n + 1) = i + 1 + n by omega]

/-- A loop throws what its body throws. -/
theorem forLoop_throwsOnly {σ : Type} {body : Nat → σ → Run σ} {P : Exn → Prop}
    (hbody : ∀ i s, (body i s).ThrowsOnly P) (n i : Nat) (s : σ) :
    (forLoop body n i s).ThrowsOnly P := by
  induction n generalizing i s with
  | zero => trivial
  | succ n ih => exact (hbody i s).bind fun s' => ih (i + 1) s'

end TiktokenCpp
