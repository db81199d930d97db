import Mathlib.Data.List.Basic
import Mathlib.Data.List.Infix

/-!
# UTF-8 on lists of bytes

Byte strings are lists of `UInt8`. `encode` writes code points, `scan` reads a
byte string from the left, taking a character where one is well formed and a
single bad byte where none is, and `decode?` succeeds when there is no bad
byte. Main results:

* `scan_encode_append`, `flatMap_scan` -- scanning undoes encoding, and loses
  no byte of a string that is not well formed;
* `decode?_eq_some_iff` -- decoding is the partial inverse of encoding;
* `encode_prefix_drop_iff` -- a word occurs in encoded text only at character
  boundaries, where it is a word of the characters.
-/

/-- A byte string. -/
abbrev Bytes := List UInt8

namespace Utf8

/-- The UTF-8 encoding of a list of code points. -/
def encode (cs : List Char) : Bytes := cs.flatMap String.utf8EncodeChar

@[simp] theorem encode_nil : encode [] = [] := rfl

@[simp] theorem encode_cons (c : Char) (cs : List Char) :
    encode (c :: cs) = String.utf8EncodeChar c ++ encode cs := rfl

@[simp] theorem encode_append (a b : List Char) : encode (a ++ b) = encode a ++ encode b :=
  List.flatMap_append

theorem encode_eq_nil {cs : List Char} : encode cs = [] ↔ cs = [] := by
  cases cs with
  | nil => simp
  | cons c cs => simp [String.utf8EncodeChar_ne_nil]

/-- A character takes at least one byte. -/
theorem length_le_length_encode (cs : List Char) : cs.length ≤ (encode cs).length := by
  induction cs with
  | nil => exact Nat.le_refl 0
  | cons c cs ih =>
    have hpos := List.length_pos_iff.mpr (String.utf8EncodeChar_ne_nil (c := c))
    rw [encode_cons, List.length_append, List.length_cons]
    omega

theorem flatten_map_encode (css : List (List Char)) :
    (css.map encode).flatten = encode css.flatten := by
  induction css with
  | nil => rfl
  | cons cs css ih => rw [List.map_cons, List.flatten_cons, List.flatten_cons, encode_append, ih]

/-- A string is well-formed UTF-8 when it encodes some code points. -/
def WellFormed (bs : Bytes) : Prop := ∃ cs, bs = encode cs

/-! ## Reading one character -/

/-- The character a byte string starts with, if it starts with one. -/
def decodeChar? (bs : Bytes) : Option Char := bs.toByteArray.utf8DecodeChar? 0

@[simp] theorem decodeChar?_utf8EncodeChar_append (c : Char) (bs : Bytes) :
    decodeChar? (String.utf8EncodeChar c ++ bs) = some c := by
  rw [decodeChar?, List.toByteArray_append]
  exact ByteArray.utf8DecodeChar?_utf8EncodeChar_append

theorem exists_of_decodeChar?_eq_some {bs : Bytes} {c : Char} (h : decodeChar? bs = some c) :
    ∃ rest, bs = String.utf8EncodeChar c ++ rest := by
  obtain ⟨l, hl⟩ := ByteArray.exists_of_utf8DecodeChar?_eq_some h
  refine ⟨l.data.toList, ?_⟩
  have hdata := congrArg (fun a : ByteArray => a.data.toList) hl
  simpa using hdata

/-! ## Scanning a whole string -/

/-- What a left-to-right reading of a byte string is made of. -/
inductive Piece where
  | char (c : Char)
  | bad (b : UInt8)
  deriving DecidableEq, Repr

/-- The bytes a piece was read from. -/
def Piece.bytes : Piece → Bytes
  | .char c => String.utf8EncodeChar c
  | .bad b => [b]

/-- Read a byte string whose first `k` bytes belong to the last character read. -/
def scanFrom : Nat → Bytes → List Piece
  | _, [] => []
  | k + 1, _ :: bs => scanFrom k bs
  | 0, b :: bs =>
    match decodeChar? (b :: bs) with
    | some c => .char c :: scanFrom (c.utf8Size - 1) bs
    | none => .bad b :: scanFrom 0 bs

/-- Read a byte string from its start. -/
def scan (bs : Bytes) : List Piece := scanFrom 0 bs

theorem scanFrom_eq (k : Nat) (bs : Bytes) : scanFrom k bs = scan (bs.drop k) := by
  induction bs generalizing k with
  | nil => cases k <;> simp [scan, scanFrom]
  | cons b bs ih =>
    cases k with
    | zero => rfl
    | succ k => rw [scanFrom, ih, List.drop_succ_cons]

theorem scan_utf8EncodeChar_append (c : Char) (bs : Bytes) :
    scan (String.utf8EncodeChar c ++ bs) = .char c :: scan bs := by
  have hlen : (String.utf8EncodeChar c).length = c.utf8Size := String.length_utf8EncodeChar c
  obtain ⟨b, tl, hb⟩ := List.exists_cons_of_ne_nil (String.utf8EncodeChar_ne_nil (c := c))
  have hdec : decodeChar? (b :: (tl ++ bs)) = some c := by
    rw [← List.cons_append, ← hb]
    exact decodeChar?_utf8EncodeChar_append c bs
  have htl : c.utf8Size - 1 = tl.length := by
    rw [← hlen, hb]
    simp
  rw [hb, List.cons_append, scan, scanFrom, hdec]
  simp only
  rw [scanFrom_eq, htl, List.drop_left]

theorem scan_bad {b : UInt8} {bs : Bytes} (h : decodeChar? (b :: bs) = none) :
    scan (b :: bs) = .bad b :: scan bs := by
  rw [scan, scanFrom, h]
  rfl

/-- Scanning undoes encoding, whatever follows. -/
theorem scan_encode_append (cs : List Char) (bs : Bytes) :
    scan (encode cs ++ bs) = cs.map .char ++ scan bs := by
  induction cs with
  | nil => rfl
  | cons c cs ih =>
    rw [encode_cons, List.append_assoc, scan_utf8EncodeChar_append, ih]
    rfl

/-- Scanning loses no byte. -/
theorem flatMap_scan (bs : Bytes) : (scan bs).flatMap Piece.bytes = bs := by
  induction hn : bs.length using Nat.strong_induction_on generalizing bs with
  | _ n ih =>
    cases bs with
    | nil => rfl
    | cons b bs =>
      cases hdec : decodeChar? (b :: bs) with
      | none =>
        rw [scan_bad hdec, List.flatMap_cons, ih bs.length (by simp [← hn]) bs rfl]
        rfl
      | some c =>
        obtain ⟨rest, hrest⟩ := exists_of_decodeChar?_eq_some hdec
        have hlt : rest.length < n := by
          rw [← hn, hrest, List.length_append, String.length_utf8EncodeChar]
          have := c.utf8Size_pos
          omega
        rw [hrest, scan_utf8EncodeChar_append, List.flatMap_cons, ih _ hlt rest rfl]
        rfl

/-- A string agrees with a reading outside its bad bytes: it has the characters,
in order and in their places, and anything at all in place of a bad byte. -/
def AgreesOutside : List Piece → Bytes → Prop
  | [], out => out = []
  | .char c :: ps, out => ∃ rest, out = String.utf8EncodeChar c ++ rest ∧ AgreesOutside ps rest
  | .bad _ :: ps, out => ∃ x rest, out = x ++ rest ∧ AgreesOutside ps rest

/-- The empty string agrees only where there is no character to lose. -/
theorem agreesOutside_nil {ps : List Piece} : AgreesOutside ps [] ↔ ∀ c, .char c ∉ ps := by
  induction ps with
  | nil => simp [AgreesOutside]
  | cons p ps ih =>
    cases p with
    | char c =>
      refine iff_of_false ?_ fun h => h c (List.mem_cons_self ..)
      rintro ⟨rest, hout, -⟩
      exact String.utf8EncodeChar_ne_nil (List.append_eq_nil_iff.mp hout.symm).1
    | bad b =>
      have hrest : AgreesOutside (.bad b :: ps) [] ↔ AgreesOutside ps [] := by
        constructor
        · rintro ⟨x, rest, hout, h⟩
          rwa [(List.append_eq_nil_iff.mp hout.symm).2] at h
        · intro h
          exact ⟨[], [], rfl, h⟩
      rw [hrest, ih]
      simp

/-- It starts with every well-formed beginning of the string that was read. -/
theorem AgreesOutside.prefix {cs : List Char} {bs out : Bytes}
    (h : AgreesOutside (scan (encode cs ++ bs)) out) : encode cs <+: out := by
  rw [scan_encode_append] at h
  induction cs generalizing out with
  | nil => exact List.nil_prefix
  | cons c cs ih =>
    obtain ⟨rest, rfl, hrest⟩ := h
    rw [encode_cons]
    exact (List.prefix_append_right_inj _).mpr (ih hrest)

/-- The code points of a reading without bad bytes. -/
def chars? : List Piece → Option (List Char)
  | [] => some []
  | .char c :: ps => (chars? ps).map (c :: ·)
  | .bad _ :: _ => none

theorem chars?_eq_some {ps : List Piece} {cs : List Char} :
    chars? ps = some cs ↔ ps = cs.map .char := by
  induction ps generalizing cs with
  | nil => simp [chars?, eq_comm]
  | cons p ps ih =>
    cases p with
    | bad b => cases cs <;> simp [chars?]
    | char c => cases cs <;> simp [chars?, ih, and_comm]

/-- The code points of a well-formed string. -/
def decode? (bs : Bytes) : Option (List Char) := chars? (scan bs)

@[simp] theorem decode?_encode (cs : List Char) : decode? (encode cs) = some cs := by
  rw [decode?, chars?_eq_some]
  simpa [scan, scanFrom] using scan_encode_append cs []

theorem decode?_eq_some_iff {bs : Bytes} {cs : List Char} :
    decode? bs = some cs ↔ bs = encode cs := by
  refine ⟨fun h => ?_, fun h => h ▸ decode?_encode cs⟩
  have hscan : scan bs = cs.map .char := chars?_eq_some.mp h
  rw [← flatMap_scan bs, hscan, List.flatMap_map]
  rfl

theorem decode?_eq_none_iff {bs : Bytes} : decode? bs = none ↔ ¬ WellFormed bs := by
  rw [Option.eq_none_iff_forall_ne_some]
  constructor
  · rintro h ⟨cs, rfl⟩
    exact h cs (decode?_encode cs)
  · intro h cs hcs
    exact h ⟨cs, decode?_eq_some_iff.mp hcs⟩

instance (bs : Bytes) : Decidable (WellFormed bs) :=
  decidable_of_iff ((decode? bs).isSome = true) <| by
    rw [Option.isSome_iff_ne_none, ne_eq, decode?_eq_none_iff, not_not]

/-! ## Words in a text -/

/-- Encoded text starts with an encoded word when its characters do. -/
theorem encode_prefix_iff (w cs : List Char) : encode w <+: encode cs ↔ w <+: cs := by
  constructor
  · intro h
    induction w generalizing cs with
    | nil => exact List.nil_prefix
    | cons c w ih =>
      obtain ⟨r, hr⟩ := h
      rw [encode_cons, List.append_assoc] at hr
      match cs with
      | [] => simp [String.utf8EncodeChar_ne_nil] at hr
      | d :: cs =>
        -- both sides are read off the same bytes
        have hdecode := decodeChar?_utf8EncodeChar_append c (encode w ++ r)
        rw [hr, encode_cons, decodeChar?_utf8EncodeChar_append, Option.some.injEq] at hdecode
        subst hdecode
        rw [encode_cons] at hr
        exact List.cons_prefix_cons.mpr ⟨rfl, ih cs ⟨r, List.append_cancel_left hr⟩⟩
  · rintro ⟨t, rfl⟩
    rw [encode_append]
    exact List.prefix_append ..

/-- **A word occurs in encoded text only at a character boundary**: its first
byte is no later byte of a character. -/
theorem encode_prefix_drop_iff {w : List Char} (hne : w ≠ []) (cs : List Char) (k : Nat) :
    encode w <+: (encode cs).drop k ↔ ∃ a b, cs = a ++ w ++ b ∧ k = (encode a).length := by
  constructor
  · intro h
    induction cs generalizing k with
    | nil => simp_all [encode_eq_nil]
    | cons c cs ih =>
      rcases Nat.eq_zero_or_pos k with rfl | hk
      · rw [List.drop_zero, encode_prefix_iff] at h
        obtain ⟨b, hb⟩ := h
        exact ⟨[], b, hb.symm, rfl⟩
      · rw [encode_cons, List.drop_append] at h
        rcases Nat.lt_or_ge k (String.utf8EncodeChar c).length with hlt | hge
        · -- inside a character
          exfalso
          obtain ⟨d, w, rfl⟩ := List.exists_cons_of_ne_nil hne
          have hpos := List.length_pos_iff.mpr (String.utf8EncodeChar_ne_nil (c := d))
          rw [List.drop_eq_getElem_cons hlt, encode_cons,
            ← List.drop_zero (l := String.utf8EncodeChar d), List.drop_eq_getElem_cons hpos,
            List.cons_append, List.cons_append, List.cons_prefix_cons] at h
          have hfirst : (String.utf8EncodeChar d)[0].IsUTF8FirstByte :=
            UInt8.isUTF8FirstByte_getElem_utf8EncodeChar.mpr rfl
          rw [h.1, UInt8.isUTF8FirstByte_getElem_utf8EncodeChar] at hfirst
          omega
        · rw [List.drop_eq_nil_of_le hge, List.nil_append] at h
          obtain ⟨a, b, hcs, hlen⟩ := ih _ h
          refine ⟨c :: a, b, by rw [hcs]; rfl, ?_⟩
          rw [encode_cons, List.length_append]
          omega
  · rintro ⟨a, b, rfl, rfl⟩
    rw [List.append_assoc, encode_append, List.drop_left, encode_prefix_iff]
    exact List.prefix_append ..

/-- A word occurs in encoded text where it occurs among the characters. -/
theorem encode_infix_iff (w cs : List Char) : encode w <:+: encode cs ↔ w <:+: cs := by
  constructor
  · rintro ⟨a, b, hab⟩
    by_cases hne : w = []
    · rw [hne]
      exact List.nil_infix
    · have hdrop : encode w <+: (encode cs).drop a.length := by
        rw [← hab, List.append_assoc, List.drop_left]
        exact List.prefix_append ..
      obtain ⟨p, q, hcs, -⟩ := (encode_prefix_drop_iff hne cs a.length).mp hdrop
      exact ⟨p, q, hcs.symm⟩
  · rintro ⟨p, q, rfl⟩
    refine ⟨encode p, encode q, ?_⟩
    rw [encode_append, encode_append]

/-! ## ASCII -/

/-- Every byte is an ASCII byte. -/
def IsAscii (bs : Bytes) : Prop := ∀ b ∈ bs, b.toNat < 128

instance (bs : Bytes) : Decidable (IsAscii bs) := inferInstanceAs (Decidable (∀ b ∈ bs, _))

/-- The code points of an ASCII string. -/
def asciiChars (bs : Bytes) : List Char := bs.map Char.ofUInt8

theorem utf8EncodeChar_ofUInt8 {b : UInt8} (h : b.toNat < 128) :
    String.utf8EncodeChar (Char.ofUInt8 b) = [b] := by
  have hval : (Char.ofUInt8 b).val.toNat = b.toNat := UInt8.toNat_toUInt32 b
  rw [String.utf8EncodeChar]
  simp only [hval]
  rw [if_pos (by omega), UInt8.ofNat_toNat]

theorem encode_asciiChars {bs : Bytes} (h : IsAscii bs) : encode (asciiChars bs) = bs := by
  induction bs with
  | nil => rfl
  | cons b bs ih =>
    have hb : b.toNat < 128 := h b (List.mem_cons_self ..)
    have hrest := ih fun x hx => h x (List.mem_cons_of_mem _ hx)
    rw [asciiChars, List.map_cons, encode_cons, utf8EncodeChar_ofUInt8 hb]
    exact congrArg (b :: ·) hrest

/-- A character above ASCII is encoded in bytes above ASCII. -/
theorem le_of_mem_utf8EncodeChar {c : Char} (hc : 128 ≤ c.val.toNat) :
    ∀ b ∈ String.utf8EncodeChar c, 128 ≤ b.toNat := by
  intro b hb
  have hlead (a k m : Nat) (ha : a < m) (hk : 128 ≤ k) (hk' : k + m ≤ 256) :
      128 ≤ (UInt8.ofNat (a + k)).toNat := by
    rw [UInt8.toNat_ofNat']
    omega
  rw [String.utf8EncodeChar, if_neg (by omega)] at hb
  split at hb
  · simp only [List.mem_cons, List.not_mem_nil, or_false] at hb
    rcases hb with rfl | rfl
    · exact hlead _ 192 32 (Nat.mod_lt _ (by decide)) (by decide) (by decide)
    · exact hlead _ 128 64 (Nat.mod_lt _ (by decide)) (by decide) (by decide)
  · split at hb
    · simp only [List.mem_cons, List.not_mem_nil, or_false] at hb
      rcases hb with rfl | rfl | rfl
      · exact hlead _ 224 16 (Nat.mod_lt _ (by decide)) (by decide) (by decide)
      · exact hlead _ 128 64 (Nat.mod_lt _ (by decide)) (by decide) (by decide)
      · exact hlead _ 128 64 (Nat.mod_lt _ (by decide)) (by decide) (by decide)
    · simp only [List.mem_cons, List.not_mem_nil, or_false] at hb
      rcases hb with rfl | rfl | rfl | rfl
      · exact hlead _ 240 8 (Nat.mod_lt _ (by decide)) (by decide) (by decide)
      · exact hlead _ 128 64 (Nat.mod_lt _ (by decide)) (by decide) (by decide)
      · exact hlead _ 128 64 (Nat.mod_lt _ (by decide)) (by decide) (by decide)
      · exact hlead _ 128 64 (Nat.mod_lt _ (by decide)) (by decide) (by decide)

/-- A character of ASCII is that of its one byte. -/
theorem ofUInt8_ofNat {c : Char} (hc : c.val.toNat < 128) :
    Char.ofUInt8 (UInt8.ofNat c.val.toNat) = c := by
  apply Char.ext
  apply UInt32.toNat_inj.mp
  show (UInt8.ofNat c.val.toNat).toUInt32.toNat = c.val.toNat
  rw [UInt8.toNat_toUInt32, UInt8.toNat_ofNat']
  omega

/-- A character is an ASCII byte, or all bytes of its encoding are above ASCII. -/
theorem ascii_or_high (c : Char) :
    (∃ b : UInt8, b.toNat < 128 ∧ c = Char.ofUInt8 b) ∨
      ∀ b ∈ String.utf8EncodeChar c, 128 ≤ b.toNat := by
  rcases Nat.lt_or_ge c.val.toNat 128 with hc | hc
  · refine Or.inl ⟨UInt8.ofNat c.val.toNat, ?_, (ofUInt8_ofNat hc).symm⟩
    rw [UInt8.toNat_ofNat']
    omega
  · exact Or.inr (le_of_mem_utf8EncodeChar hc)

/-- An ASCII byte in an encoding is a character of its own. -/
theorem mem_encode_ascii {b : UInt8} (hb : b.toNat < 128) {cs : List Char} (h : b ∈ encode cs) :
    Char.ofUInt8 b ∈ cs := by
  obtain ⟨c, hc, hbc⟩ := List.mem_flatMap.mp h
  rcases ascii_or_high c with ⟨x, hx, rfl⟩ | hhigh
  · rw [utf8EncodeChar_ofUInt8 hx, List.mem_singleton] at hbc
    exact hbc ▸ hc
  · have := hhigh b hbc
    omega

/-- A word of ASCII bytes occurs in encoded text only at a character boundary,
and there the characters spell it. -/
theorem ascii_prefix_drop_iff {n : Bytes} (hn : IsAscii n) (hne : n ≠ []) (cs : List Char)
    (k : Nat) :
    n <+: (encode cs).drop k ↔
      ∃ a b, cs = a ++ asciiChars n ++ b ∧ k = (encode a).length := by
  have hchars : asciiChars n ≠ [] := by
    rw [asciiChars, ne_eq, List.map_eq_nil_iff]
    exact hne
  have h := encode_prefix_drop_iff hchars cs k
  rwa [encode_asciiChars hn] at h

end Utf8
