import TiktokenCpp.Model.Definitions

/-!
# Base64

`stream_codec` of the vendored cppcodec with the `base64_rfc4648` alphabet.
Decoding collects symbols into blocks of four and stops at the first padding
symbol, NUL or foreign character. All of its errors derive from `parse_error`.
Encoding pads the last block.
-/

namespace TiktokenCpp

/-- What a character means to the decoder (`alphabet_index_info`). -/
inductive AlphabetIndex where
  | index (i : Nat)
  | padding
  | eof
  | invalid
  deriving DecidableEq, Repr

/-- `lookup::for_symbol` -/
def forSymbol (c : UInt8) : AlphabetIndex :=
  if 65 ≤ c ∧ c ≤ 90 then .index (c.toNat - 65)
  else if 97 ≤ c ∧ c ≤ 122 then .index (c.toNat - 97 + 26)
  else if 48 ≤ c ∧ c ≤ 57 then .index (c.toNat - 48 + 52)
  else if c = 43 then .index 62
  else if c = 47 then .index 63
  else if c = 0 then .eof
  else if c = 61 then .padding
  else .invalid

/-- `decode_block` -/
def decodeBlock (a b c d : Nat) : Bytes :=
  let dec := a * 2 ^ 18 + b * 2 ^ 12 + c * 2 ^ 6 + d
  [UInt8.ofNat (dec / 2 ^ 16), UInt8.ofNat (dec / 2 ^ 8), UInt8.ofNat dec]

/-- `decode_tail`; the bits that do not fill a byte are dropped. -/
def decodeTail : List Nat → Run Bytes
  | [a, b] => .ret [UInt8.ofNat (a * 4 + b / 16)]
  | [a, b, c] => .ret [UInt8.ofNat (a * 4 + b / 16), UInt8.ofNat (b % 16 * 16 + c / 4)]
  | _ => .throw .parseError

/-- The characters after the first padding symbol. `last` counts the symbols of
the block, paddings included; the answer is the final count. -/
def readPadding : (last : Nat) → Bytes → Run Nat
  | last, [] => .ret last
  | last, c :: src =>
    match forSymbol c with
    | .eof => .ret last
    | .padding => if last + 1 > 4 then .throw .parseError else readPadding (last + 1) src
    | _ => .throw .parseError

/-- The loop of `stream_codec::decode`, with the symbols of the current block
and the bytes decoded so far. -/
def decodeLoop (block : List Nat) (out : Bytes) : Bytes → Run Bytes
  | [] => if block = [] then .ret out else .throw .parseError
  | c :: src =>
    match forSymbol c with
    | .index d =>
      match block with
      | [x, y, z] => decodeLoop [] (out ++ decodeBlock x y z d) src
      | _ => decodeLoop (block ++ [d]) out src
    | .padding =>
      if block = [] then .throw .parseError
      else do
        let last ← readPadding (block.length + 1) src
        if last = 4 then do
          let tail ← decodeTail block
          return out ++ tail
        else .throw .parseError
    | .eof => if block = [] then .ret out else .throw .parseError
    | .invalid => .throw .parseError

/-- `base64::decode` -/
def base64Decode (encoded : Bytes) : Run Bytes := decodeLoop [] [] encoded

example : base64Decode (str "SGVsbG8=") = .ret (str "Hello") := by decide

-- ---------------------------------------------------------------------------
-- Encoding
-- ---------------------------------------------------------------------------

/-- `base64_rfc4648_alphabet` -/
def alphabet : Bytes := str "ABCDEFGHIJKLMNOPQRSTUVWXYZabcdefghijklmnopqrstuvwxyz0123456789+/"

def symbol (idx : Nat) : UInt8 := alphabet.getD idx 0

def paddingSymbol : UInt8 := 61

/-- `base64::encode`: whole blocks, then a tail with its padding. -/
def base64Encode : Bytes → Bytes
  | [] => []
  | [a] =>
    [symbol (a.toNat / 4), symbol (a.toNat % 4 * 16), paddingSymbol, paddingSymbol]
  | [a, b] =>
    [symbol (a.toNat / 4), symbol (a.toNat % 4 * 16 + b.toNat / 16),
      symbol (b.toNat % 16 * 4), paddingSymbol]
  | a :: b :: c :: src =>
    [symbol (a.toNat / 4), symbol (a.toNat % 4 * 16 + b.toNat / 16),
      symbol (b.toNat % 16 * 4 + c.toNat / 64), symbol (c.toNat % 64)] ++ base64Encode src

/-- The decoder reads an alphabet symbol as its index. -/
theorem forSymbol_symbol {i : Nat} (hi : i < 64) : forSymbol (symbol i) = .index i := by
  have hall : ∀ i < 64, forSymbol (symbol i) = .index i := by decide +kernel
  exact hall i hi

/-- Neither a blank nor a line end is in the alphabet. -/
theorem symbol_mem {i : Nat} (hi : i < 64) : symbol i ∉ [10, 13, 32] := by
  have hall : ∀ i < 64, symbol i ∉ [10, 13, 32] := by decide +kernel
  exact hall i hi

section

variable {i j k l : Nat} (hi : i < 64) (hj : j < 64) (hk : k < 64) (hl : l < 64) (out : Bytes)

include hi hj

theorem decodeLoop_twoSymbols :
    decodeLoop [] out [symbol i, symbol j, paddingSymbol, paddingSymbol] =
      .ret (out ++ [UInt8.ofNat (i * 4 + j / 16)]) := by
  have hpad : forSymbol paddingSymbol = .padding := by decide
  simp [decodeLoop, readPadding, decodeTail, forSymbol_symbol, hi, hj, hpad]

include hk

theorem decodeLoop_threeSymbols :
    decodeLoop [] out [symbol i, symbol j, symbol k, paddingSymbol] =
      .ret (out ++ [UInt8.ofNat (i * 4 + j / 16), UInt8.ofNat (j % 16 * 16 + k / 4)]) := by
  have hpad : forSymbol paddingSymbol = .padding := by decide
  simp [decodeLoop, readPadding, decodeTail, forSymbol_symbol, hi, hj, hk, hpad]

include hl

theorem decodeLoop_block (src : Bytes) :
    decodeLoop [] out ([symbol i, symbol j, symbol k, symbol l] ++ src) =
      decodeLoop [] (out ++ decodeBlock i j k l) src := by
  simp [decodeLoop, forSymbol_symbol, hi, hj, hk, hl]

end

theorem ofNat_eq_byte {n : Nat} {b : UInt8} (h : n % 256 = b.toNat) : UInt8.ofNat n = b := by
  rw [← UInt8.toNat_inj, UInt8.toNat_ofNat']
  exact h

/-- **Decoding inverts encoding**, block by block. -/
theorem decodeLoop_encode (out bs : Bytes) : decodeLoop [] out (base64Encode bs) = .ret (out ++ bs) := by
  induction bs using base64Encode.induct generalizing out with
  | case1 => simp [base64Encode, decodeLoop]
  | case2 a =>
    have ha := a.toNat_lt
    rw [base64Encode, decodeLoop_twoSymbols (by omega) (by omega)]
    rw [ofNat_eq_byte (show (a.toNat / 4 * 4 + a.toNat % 4 * 16 / 16) % 256 = a.toNat by omega)]
  | case3 a b =>
    have ha := a.toNat_lt
    have hb := b.toNat_lt
    rw [base64Encode, decodeLoop_threeSymbols (by omega) (by omega) (by omega)]
    rw [ofNat_eq_byte (b := a) (by omega), ofNat_eq_byte (b := b) (by omega)]
  | case4 a b c src ih =>
    have ha := a.toNat_lt
    have hb := b.toNat_lt
    have hc := c.toNat_lt
    rw [base64Encode, decodeLoop_block (by omega) (by omega) (by omega) (by omega), ih, decodeBlock]
    rw [ofNat_eq_byte (b := a) (by omega), ofNat_eq_byte (b := b) (by omega),
      ofNat_eq_byte (b := c) (by omega), List.append_assoc]
    rfl

theorem base64Decode_encode (bs : Bytes) : base64Decode (base64Encode bs) = .ret bs :=
  decodeLoop_encode [] bs

/-- The encoding of a byte has four characters, the least the loader looks for. -/
theorem four_le_length_encode {bs : Bytes} (hbs : bs ≠ []) : 4 ≤ (base64Encode bs).length := by
  rcases bs with _ | ⟨a, _ | ⟨b, _ | ⟨c, src⟩⟩⟩
  · exact absurd rfl hbs
  all_goals simp [base64Encode]

theorem mem_encode {bs : Bytes} : ∀ c ∈ base64Encode bs, c ∉ [10, 13, 32] := by
  have hpad : paddingSymbol ∉ [10, 13, 32] := by decide
  induction bs using base64Encode.induct with
  | case1 => simp [base64Encode]
  | case2 a =>
    have ha := a.toNat_lt
    have h₀ := symbol_mem (show a.toNat / 4 < 64 by omega)
    have h₁ := symbol_mem (show a.toNat % 4 * 16 < 64 by omega)
    simp only [base64Encode, List.forall_mem_cons]
    exact ⟨h₀, h₁, hpad, hpad, List.forall_mem_nil _⟩
  | case3 a b =>
    have ha := a.toNat_lt
    have hb := b.toNat_lt
    have h₀ := symbol_mem (show a.toNat / 4 < 64 by omega)
    have h₁ := symbol_mem (show a.toNat % 4 * 16 + b.toNat / 16 < 64 by omega)
    have h₂ := symbol_mem (show b.toNat % 16 * 4 < 64 by omega)
    simp only [base64Encode, List.forall_mem_cons]
    exact ⟨h₀, h₁, h₂, hpad, List.forall_mem_nil _⟩
  | case4 a b c src ih =>
    have ha := a.toNat_lt
    have hb := b.toNat_lt
    have hc := c.toNat_lt
    have h₀ := symbol_mem (show a.toNat / 4 < 64 by omega)
    have h₁ := symbol_mem (show a.toNat % 4 * 16 + b.toNat / 16 < 64 by omega)
    have h₂ := symbol_mem (show b.toNat % 16 * 4 + c.toNat / 64 < 64 by omega)
    have h₃ := symbol_mem (show c.toNat % 64 < 64 by omega)
    simp only [base64Encode, List.cons_append, List.nil_append, List.forall_mem_cons]
    exact ⟨h₀, h₁, h₂, h₃, ih⟩

end TiktokenCpp
