import TiktokenCpp.Model.Definitions

/-!
# Charset conversion

`Utf8String.cpp`: conversions between the charset of the locale, UTF-8 and
UTF-16LE, which feed the input through `iconv` in pieces of at most 64 bytes of
output. `Iconv` is any implementation of the library; `Documented` is what the
results on the tokenizer assume of it. A `std::wstring` is its bytes in memory.
-/

namespace TiktokenCpp

open Utf8

/-- What one call of `iconv` does: its value (`none` is `(size_t)-1`), how many
bytes it takes from the input, what it writes, and the descriptor it leaves. -/
structure IconvResult (Desc : Type) where
  rtn : Option Nat
  consumed : Nat
  produced : Bytes
  desc : Desc

/-- An implementation of iconv. A descriptor that `iconv_open` could not make is
a descriptor on which every call fails. -/
structure Iconv where
  Desc : Type
  iconv_open : (tocode fromcode : Bytes) → Desc
  /-- Convert an input into a buffer of the given size. -/
  iconv : Desc → Bytes → Nat → IconvResult Desc

/-- A call that does not fail has taken the whole input. -/
def Iconv.TakesAll (I : Iconv) : Prop :=
  ∀ {cd : I.Desc} {input : Bytes} {size n : Nat},
    (I.iconv cd input size).rtn = some n → (I.iconv cd input size).consumed = input.length

/-- What is assumed of iconv, for the conversion from the local charset to
UTF-8: a call that does not fail takes all, and ASCII that fits the buffer is
converted to itself. -/
structure Iconv.Documented (I : Iconv) : Prop where
  takes_all : I.TakesAll
  ascii : ∀ {input : Bytes} {size : Nat}, IsAscii input → input.length ≤ size →
    (I.iconv (I.iconv_open (str "UTF-8") (str "")) input size).rtn = some 0 ∧
      (I.iconv (I.iconv_open (str "UTF-8") (str "")) input size).produced = input

/-- The iconv of a platform whose local charset is UTF-8, on valid input: it
copies as much as fits. -/
def Iconv.identity : Iconv where
  Desc := Unit
  iconv_open _ _ := ()
  iconv _ input size :=
    if input.length ≤ size then ⟨some 0, input.length, input, ()⟩
    else ⟨none, size, input.take size, ()⟩

theorem Iconv.identity_documented : Iconv.identity.Documented where
  takes_all := by
    intro cd input size n h
    unfold Iconv.identity at h ⊢
    by_cases hlen : input.length ≤ size
    · simp only [if_pos hlen]
    · simp only [if_neg hlen] at h
      exact absurd h (by simp)
  ascii := by
    intro input size _ hlen
    unfold Iconv.identity
    simp only [if_pos hlen, and_self]

def localBufSize : Nat := 64

section

variable (I : Iconv)

/-- The loop of `UTFStrFromLocalMBCS`, at most `fuel` rounds. -/
def utfStrLoop : (fuel : Nat) → I.Desc → (source output : Bytes) → Run Bytes
  | fuel, cd, source, output =>
    if 0 < source.length then
      match fuel with
      | 0 => .loop
      | fuel + 1 =>
        let r := I.iconv cd source localBufSize
        if r.rtn = none ∨ r.produced.length = 0 then .ret output
        else utfStrLoop fuel r.desc (source.drop r.consumed) (output ++ r.produced)
    else
      .ret output

/-- `UTFStrFromLocalMBCS<char>` -/
def utfStrFromLocalMBCS (fuel : Nat) (coder input : Bytes) : Run Bytes :=
  utfStrLoop I fuel (I.iconv_open coder (str "")) input []

def utf8StrFromLocalMBCS (fuel : Nat) (input : Bytes) : Run Bytes :=
  utfStrFromLocalMBCS I fuel (str "UTF-8") input

/-- `LocalMBCSFromUTFStr<char>` has the same loop. -/
def localMBCSFromUTFStr (fuel : Nat) (coder input : Bytes) : Run Bytes :=
  utfStrLoop I fuel (I.iconv_open (str "") coder) input []

def localMBCSFromUTF8Str (fuel : Nat) (input : Bytes) : Run Bytes :=
  localMBCSFromUTFStr I fuel (str "UTF-8") input

/-- `sizeof(char16_t)` -/
def sizeofChar16 : Nat := 2

/-- The loop of `UTF16LEStrFromUTF8` and `UTF8FromUTF16LEStr`, at most `fuel`
rounds. It does not look at the value of `iconv`. The output takes the buffer as
units of `size` bytes; what does not fill a unit is left out. -/
def transcodeLoop (size : Nat) : (fuel : Nat) → I.Desc → (source output : Bytes) → Run Bytes
  | fuel, cd, source, output =>
    if 0 < source.length then
      match fuel with
      | 0 => .loop
      | fuel + 1 =>
        let r := I.iconv cd source localBufSize
        if r.produced.length = 0 then .ret output
        else
          transcodeLoop size fuel r.desc (source.drop r.consumed)
            (output ++ r.produced.take (r.produced.length / size * size))
    else
      .ret output

/-- `UTF16LEStrFromUTF8`, for a `wchar_t` of the given size. -/
def utf16LEStrFromUTF8 (sizeofWChar fuel : Nat) (input : Bytes) : Run Bytes :=
  transcodeLoop I sizeofWChar fuel (I.iconv_open (str "UTF-16LE") (str "UTF-8")) input []

/-- `UTF8FromUTF16LEStr`. The number of bytes it reads is the length of the
string times `sizeof(char16_t)`. -/
def utf8FromUTF16LEStr (sizeofWChar fuel : Nat) (input : Bytes) : Run Bytes :=
  let inRemain := input.length / sizeofWChar * sizeofChar16
  transcodeLoop I 1 fuel (I.iconv_open (str "UTF-8") (str "UTF-16LE")) (input.take inRemain) []

end

section

variable {I : Iconv}

@[simp] theorem utfStrLoop_nil (fuel : Nat) (cd : I.Desc) (output : Bytes) :
    utfStrLoop I fuel cd [] output = .ret output := by
  cases fuel <;> rfl

/-- One round is enough: a round that does not end the loop takes all. -/
theorem utf8StrFromLocalMBCS_ret (hI : I.TakesAll) {fuel : Nat} (hfuel : 0 < fuel)
    (input : Bytes) : ∃ output, utf8StrFromLocalMBCS I fuel input = .ret output := by
  obtain ⟨fuel, rfl⟩ : ∃ n, fuel = n + 1 := ⟨fuel - 1, by omega⟩
  unfold utf8StrFromLocalMBCS utfStrFromLocalMBCS
  rw [utfStrLoop]
  by_cases hpos : 0 < input.length
  · rw [if_pos hpos]
    dsimp only
    split
    · exact ⟨[], rfl⟩
    · next hgo =>
      obtain ⟨n, hn⟩ := Option.ne_none_iff_exists'.mp (not_or.mp hgo).1
      rw [hI hn, List.drop_length, utfStrLoop_nil]
      exact ⟨_, rfl⟩
  · rw [if_neg hpos]
    exact ⟨[], rfl⟩

/-- A short ASCII string is converted to itself. -/
theorem utf8StrFromLocalMBCS_ascii (hI : I.Documented) {fuel : Nat} (hfuel : 0 < fuel)
    {input : Bytes} (hascii : IsAscii input) (hlen : input.length ≤ localBufSize) :
    utf8StrFromLocalMBCS I fuel input = .ret input := by
  obtain ⟨fuel, rfl⟩ : ∃ n, fuel = n + 1 := ⟨fuel - 1, by omega⟩
  obtain ⟨hrtn, hproduced⟩ := hI.ascii hascii hlen
  unfold utf8StrFromLocalMBCS utfStrFromLocalMBCS
  rw [utfStrLoop]
  by_cases hpos : 0 < input.length
  · rw [if_pos hpos]
    dsimp only
    rw [if_neg (by rw [hrtn, hproduced]; simp; exact List.length_pos_iff.mp hpos),
      hI.takes_all hrtn, hproduced, List.drop_length, utfStrLoop_nil,
      List.nil_append]
  · have hnil : input = [] := List.length_eq_zero_iff.mp (by omega)
    rw [if_neg hpos, hnil]

end

end TiktokenCpp
