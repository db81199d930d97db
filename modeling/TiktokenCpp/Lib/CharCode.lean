import Mathlib.Data.List.Basic
import TiktokenCpp.Lib.Utf8

/-!
# Character codes and conversion in a bounded buffer

A `CharCode` writes characters as bytes and reads them back. A
`CharConversion` replaces the first character of an input by the bytes of
another code, and `Run` repeats that. `call` is one call of a converter with an
output buffer of limited size: it converts as many whole characters as fit.

Main results:

* `CharCode.writeAll_injective` -- a text determines its characters;
* `CharCode.run_iff` -- a run between two codes, in terms of characters;
* `CharConversion.call_run`, `call_rest` -- what a call converts, and why it
  stops there;
* `CharConversion.call_complete_iff` -- a call is complete exactly when the
  whole conversion fits.
-/

-- ---------------------------------------------------------------------------
-- Codes
-- ---------------------------------------------------------------------------

/-- A stateless character code: no character is written as nothing, and the
first character of an input can be told from what follows. -/
structure CharCode where
  write : Char → Bytes
  read : Bytes → Option (Char × Bytes)
  write_ne_nil : ∀ c, write c ≠ []
  read_eq_some_iff : ∀ {bs rest : Bytes} {c : Char}, read bs = some (c, rest) ↔ bs = write c ++ rest

namespace CharCode

variable (code : CharCode)

/-- A text in the code. -/
def writeAll (cs : List Char) : Bytes := cs.flatMap code.write

@[simp] theorem writeAll_nil : code.writeAll [] = [] := rfl

@[simp] theorem writeAll_cons (c : Char) (cs : List Char) :
    code.writeAll (c :: cs) = code.write c ++ code.writeAll cs := rfl

theorem read_write_append (c : Char) (rest : Bytes) :
    code.read (code.write c ++ rest) = some (c, rest) := code.read_eq_some_iff.mpr rfl

/-- **A text determines its characters**: they are read off one by one. -/
theorem writeAll_injective {cs ds : List Char} (h : code.writeAll cs = code.writeAll ds) :
    cs = ds := by
  induction cs generalizing ds with
  | nil =>
    match ds with
    | [] => rfl
    | d :: ds =>
      rw [writeAll_nil, writeAll_cons] at h
      exact absurd (List.append_eq_nil_iff.mp h.symm).1 (code.write_ne_nil d)
  | cons c cs ih =>
    match ds with
    | [] =>
      rw [writeAll_nil, writeAll_cons] at h
      exact absurd (List.append_eq_nil_iff.mp h).1 (code.write_ne_nil c)
    | d :: ds =>
      rw [writeAll_cons, writeAll_cons] at h
      have hread := code.read_write_append c (code.writeAll cs)
      rw [h, code.read_write_append, Option.some.injEq, Prod.mk.injEq] at hread
      obtain ⟨rfl, hrest⟩ := hread
      rw [ih hrest.symm]

end CharCode

-- ---------------------------------------------------------------------------
-- Conversions
-- ---------------------------------------------------------------------------

/-- A stateless conversion: the bytes that replace the first character of an
input, and the rest of the input. -/
structure CharConversion where
  step : Bytes → Option (Bytes × Bytes)
  out_ne_nil : ∀ {bs out rest : Bytes}, step bs = some (out, rest) → out ≠ []
  takes : ∀ {bs out rest : Bytes}, step bs = some (out, rest) → ∃ p, p ≠ [] ∧ bs = p ++ rest

/-- From one code to another. -/
def CharCode.to (src dst : CharCode) : CharConversion where
  step bs := (src.read bs).map fun (c, rest) => (dst.write c, rest)
  out_ne_nil := by
    intro bs out rest h
    obtain ⟨⟨c, r⟩, -, heq⟩ := Option.map_eq_some_iff.mp h
    cases heq
    exact dst.write_ne_nil c
  takes := by
    intro bs out rest h
    obtain ⟨⟨c, r⟩, hread, heq⟩ := Option.map_eq_some_iff.mp h
    cases heq
    exact ⟨src.write c, src.write_ne_nil c, src.read_eq_some_iff.mp hread⟩

namespace CharConversion

variable {conv : CharConversion}

/-- The conversion of some characters at the start of an input, and the rest. -/
inductive Run (conv : CharConversion) : Bytes → Bytes → Bytes → Prop where
  | nil (s : Bytes) : Run conv s [] s
  | cons {s out s' t rest : Bytes} (hstep : conv.step s = some (out, s')) (hrun : Run conv s' t rest) :
      Run conv s (out ++ t) rest

/-- The conversion of a whole input. -/
def Converts (conv : CharConversion) (s t : Bytes) : Prop := conv.Run s t []

theorem step_nil : conv.step [] = none := by
  rcases hstep : conv.step [] with _ | ⟨out, rest⟩
  · rfl
  · obtain ⟨p, hp, heq⟩ := conv.takes hstep
    exact absurd (List.append_eq_nil_iff.mp heq.symm).1 hp

theorem length_lt_of_step {s out rest : Bytes} (h : conv.step s = some (out, rest)) :
    rest.length < s.length := by
  obtain ⟨p, hp, rfl⟩ := conv.takes h
  have hpos := List.length_pos_iff.mpr hp
  rw [List.length_append]
  omega

theorem Converts.nil_left {t : Bytes} (h : conv.Converts [] t) : t = [] := by
  rcases h with _ | ⟨hstep, -⟩
  · rfl
  · rw [step_nil] at hstep
    cases hstep

theorem Converts.nil_right {s : Bytes} (h : conv.Converts s []) : s = [] := by
  unfold Converts at h
  generalize ht : ([] : Bytes) = t at h
  rcases h with _ | ⟨hstep, -⟩
  · exact ht.symm
  · exact absurd (List.append_eq_nil_iff.mp ht.symm).1 (conv.out_ne_nil hstep)

/-- Runs one after the other. -/
theorem Run.trans {s s' t t' rest : Bytes} (h : conv.Run s t s') (h' : conv.Run s' t' rest) :
    conv.Run s (t ++ t') rest := by
  induction h with
  | nil => exact h'
  | cons hstep _ ih =>
    rw [List.append_assoc]
    exact .cons hstep (ih h')

theorem Run.length_le {s t rest : Bytes} (h : conv.Run s t rest) : rest.length ≤ s.length := by
  induction h with
  | nil => exact Nat.le_refl _
  | cons hstep _ ih =>
    have hlt := length_lt_of_step hstep
    omega

/-- A run that writes something takes something. -/
theorem Run.length_lt {s t rest : Bytes} (h : conv.Run s t rest) (ht : t ≠ []) :
    rest.length < s.length := by
  rcases h with _ | ⟨hstep, hrun⟩
  · exact absurd rfl ht
  · have hlt := length_lt_of_step hstep
    have hle := hrun.length_le
    omega

/-- A run on an input that can be converted is the start of its conversion. -/
theorem Run.converts_rest {s t t' rest : Bytes} (h : conv.Run s t rest) (hs : conv.Converts s t') :
    ∃ t'', t' = t ++ t'' ∧ conv.Converts rest t'' := by
  induction h generalizing t' with
  | nil => exact ⟨t', rfl, hs⟩
  | cons hstep _ ih =>
    rcases hs with _ | ⟨hstep', hrun⟩
    · rw [step_nil] at hstep
      cases hstep
    · rw [hstep, Option.some.injEq, Prod.mk.injEq] at hstep'
      obtain ⟨rfl, rfl⟩ := hstep'
      obtain ⟨t'', rfl, hrest⟩ := ih hrun
      exact ⟨t'', (List.append_assoc ..).symm, hrest⟩

/-- The conversion of an input does not stop short of its end. -/
theorem Converts.eq_nil_of_step {s t : Bytes} (h : conv.Converts s t) (hstep : conv.step s = none) :
    s = [] := by
  rcases h with _ | ⟨hstep', -⟩
  · rfl
  · rw [hstep] at hstep'
    cases hstep'

-- ---------------------------------------------------------------------------
-- One call
-- ---------------------------------------------------------------------------

/-- What a call did: whether it took the whole input, how many bytes it took,
and what it wrote. -/
structure CallResult where
  complete : Bool
  consumed : Nat
  produced : Bytes
  deriving DecidableEq, Repr

/-- Convert at most `fuel` characters into a buffer with `room` bytes left. The
call stops early at a character that does not fit, and where no character can
be read. -/
def callFrom (conv : CharConversion) : (fuel room : Nat) → Bytes → CallResult
  | 0, _, s => ⟨s = [], 0, []⟩
  | fuel + 1, room, s =>
    if s = [] then ⟨true, 0, []⟩
    else
      match conv.step s with
      | none => ⟨false, 0, []⟩
      | some (out, rest) =>
        if out.length ≤ room then
          let r := callFrom conv fuel (room - out.length) rest
          ⟨r.complete, s.length - rest.length + r.consumed, out ++ r.produced⟩
        else ⟨false, 0, []⟩

/-- One call with a buffer of `room` bytes. -/
def call (conv : CharConversion) (room : Nat) (s : Bytes) : CallResult :=
  conv.callFrom s.length room s

/-- Why a call stops: the input is at its end, or its next character cannot be
read or does not fit. -/
def StopsAt (conv : CharConversion) (room : Nat) (r : CallResult) (s : Bytes) : Prop :=
  (r.complete = true ∧ s = []) ∨ (r.complete = false ∧ s ≠ [] ∧ conv.step s = none) ∨
    (r.complete = false ∧ ∃ out rest, conv.step s = some (out, rest) ∧
      room < r.produced.length + out.length)

theorem callFrom_spec {fuel room : Nat} {s : Bytes} (hfuel : s.length ≤ fuel) :
    conv.Run s (conv.callFrom fuel room s).produced (s.drop (conv.callFrom fuel room s).consumed) ∧
      (conv.callFrom fuel room s).produced.length ≤ room ∧
      conv.StopsAt room (conv.callFrom fuel room s) (s.drop (conv.callFrom fuel room s).consumed) := by
  induction fuel generalizing room s with
  | zero =>
    obtain rfl := List.length_eq_zero_iff.mp (Nat.le_zero.mp hfuel)
    exact ⟨.nil _, Nat.zero_le _, Or.inl ⟨rfl, rfl⟩⟩
  | succ fuel ih =>
    rw [callFrom]
    by_cases hs : s = []
    · rw [if_pos hs, hs]
      exact ⟨.nil _, Nat.zero_le _, Or.inl ⟨rfl, rfl⟩⟩
    · rw [if_neg hs]
      rcases hstep : conv.step s with _ | ⟨out, rest⟩
      · exact ⟨.nil _, Nat.zero_le _, Or.inr (Or.inl ⟨rfl, hs, hstep⟩)⟩
      · dsimp only
        by_cases hfit : out.length ≤ room
        · -- the character is converted, and the call goes on with less room
          obtain ⟨p, -, rfl⟩ := conv.takes hstep
          have hlt := length_lt_of_step hstep
          obtain ⟨hrun, hlen, hstop⟩ := @ih (room - out.length) rest (by omega)
          rw [if_pos hfit]
          dsimp only
          have hdrop : (p ++ rest).drop ((p ++ rest).length - rest.length +
              (conv.callFrom fuel (room - out.length) rest).consumed) =
                rest.drop (conv.callFrom fuel (room - out.length) rest).consumed := by
            rw [List.length_append, Nat.add_sub_cancel, List.drop_length_add_append]
          rw [hdrop]
          refine ⟨.cons hstep hrun, ?_, ?_⟩
          · rw [List.length_append]
            omega
          · rcases hstop with h | h | ⟨hcomplete, out', rest', hstep', hroom⟩
            · exact Or.inl h
            · exact Or.inr (Or.inl h)
            · refine Or.inr (Or.inr ⟨hcomplete, out', rest', hstep', ?_⟩)
              rw [List.length_append]
              omega
        · rw [if_neg hfit]
          refine ⟨.nil _, Nat.zero_le _, Or.inr (Or.inr ⟨rfl, out, rest, hstep, ?_⟩)⟩
          rw [List.length_nil]
          omega

section

variable (conv) (room : Nat) (s : Bytes)

/-- What a call writes is the conversion of what it takes. -/
theorem call_run : conv.Run s (conv.call room s).produced (s.drop (conv.call room s).consumed) :=
  (callFrom_spec (Nat.le_refl _)).1

theorem length_call_le : (conv.call room s).produced.length ≤ room :=
  (callFrom_spec (Nat.le_refl _)).2.1

theorem call_stop : conv.StopsAt room (conv.call room s) (s.drop (conv.call room s).consumed) :=
  (callFrom_spec (Nat.le_refl _)).2.2

end

section

variable {room : Nat} {s t out rest : Bytes}

/-- A complete call has taken the whole input. -/
theorem call_of_complete (h : (conv.call room s).complete = true) :
    s.drop (conv.call room s).consumed = [] := by
  rcases call_stop conv room s with ⟨-, hrest⟩ | ⟨hno, -⟩ | ⟨hno, -⟩
  · exact hrest
  · rw [hno] at h
    cases h
  · rw [hno] at h
    cases h

theorem call_produced_of_complete (hs : conv.Converts s t) (h : (conv.call room s).complete = true) :
    (conv.call room s).produced = t := by
  obtain ⟨t', ht, hrest⟩ := (call_run conv room s).converts_rest hs
  rw [call_of_complete h] at hrest
  rw [ht, hrest.nil_left, List.append_nil]

/-- **A call is complete exactly when the whole conversion fits the buffer.** -/
theorem call_complete_iff (hs : conv.Converts s t) :
    (conv.call room s).complete = true ↔ t.length ≤ room := by
  constructor
  · intro h
    rw [← call_produced_of_complete hs h]
    exact length_call_le conv room s
  · intro hlen
    obtain ⟨t', ht, hrest⟩ := (call_run conv room s).converts_rest hs
    rcases call_stop conv room s with
      ⟨hcomplete, -⟩ | ⟨-, hne, hnone⟩ | ⟨-, out, rest, hstep, hroom⟩
    · exact hcomplete
    · exact absurd (hrest.eq_nil_of_step hnone) hne
    · -- the next character belongs to the conversion, so it fits
      obtain ⟨t'', ht', -⟩ := (Run.cons hstep (.nil rest)).converts_rest hrest
      rw [ht, ht', List.length_append, List.length_append, List.length_append] at hlen
      omega

/-- A call with room for the next character writes something. -/
theorem call_produced_ne_nil (hstep : conv.step s = some (out, rest)) (hfit : out.length ≤ room) :
    (conv.call room s).produced ≠ [] := by
  have hlt := length_lt_of_step hstep
  obtain ⟨n, hn⟩ : ∃ n, s.length = n + 1 := ⟨s.length - 1, by omega⟩
  have hs : s ≠ [] := by
    rintro rfl
    cases hn
  rw [call, hn, callFrom, if_neg hs, hstep]
  dsimp only
  rw [if_pos hfit]
  simp [conv.out_ne_nil hstep]

end

end CharConversion

/-- **A run between two codes** takes some characters and writes the same. -/
theorem CharCode.run_iff {src dst : CharCode} {s t rest : Bytes} :
    (src.to dst).Run s t rest ↔ ∃ cs, s = src.writeAll cs ++ rest ∧ t = dst.writeAll cs := by
  constructor
  · intro h
    induction h with
    | nil s => exact ⟨[], rfl, rfl⟩
    | cons hstep _ ih =>
      obtain ⟨⟨c, r⟩, hread, heq⟩ := Option.map_eq_some_iff.mp hstep
      cases heq
      obtain ⟨cs, rfl, rfl⟩ := ih
      refine ⟨c :: cs, ?_, rfl⟩
      rw [src.read_eq_some_iff.mp hread, writeAll_cons, List.append_assoc]
  · rintro ⟨cs, rfl, rfl⟩
    induction cs with
    | nil => exact .nil _
    | cons c cs ih =>
      refine .cons ?_ ih
      show (src.read _).map _ = _
      rw [writeAll_cons, List.append_assoc, src.read_write_append, Option.map_some]

theorem CharCode.converts_writeAll (src dst : CharCode) (cs : List Char) :
    (src.to dst).Converts (src.writeAll cs) (dst.writeAll cs) :=
  run_iff.mpr ⟨cs, (List.append_nil _).symm, rfl⟩

-- ---------------------------------------------------------------------------
-- UTF-8 and UTF-16LE
-- ---------------------------------------------------------------------------

/-- UTF-8. -/
def CharCode.utf8 : CharCode where
  write := String.utf8EncodeChar
  read bs := (Utf8.decodeChar? bs).map fun c => (c, bs.drop c.utf8Size)
  write_ne_nil _ := String.utf8EncodeChar_ne_nil
  read_eq_some_iff := by
    intro bs rest c
    constructor
    · intro h
      obtain ⟨d, hd, heq⟩ := Option.map_eq_some_iff.mp h
      cases heq
      obtain ⟨rest, rfl⟩ := Utf8.exists_of_decodeChar?_eq_some hd
      rw [← String.length_utf8EncodeChar c, List.drop_left]
    · rintro rfl
      rw [Utf8.decodeChar?_utf8EncodeChar_append, Option.map_some, ← String.length_utf8EncodeChar c,
        List.drop_left]

/-- A unit of UTF-16, low byte first. -/
def utf16Unit (u : Nat) : Bytes := [UInt8.ofNat u, UInt8.ofNat (u / 256)]

/-- A character above the basic plane is written as two surrogates. -/
def utf16LEWrite (c : Char) : Bytes :=
  if c.toNat < 0x10000 then utf16Unit c.toNat
  else utf16Unit (0xD800 + (c.toNat - 0x10000) / 0x400) ++
    utf16Unit (0xDC00 + (c.toNat - 0x10000) % 0x400)

/-- The unit that two bytes stand for. -/
def utf16Value (lo hi : UInt8) : Nat := lo.toNat + 256 * hi.toNat

def utf16LERead : Bytes → Option (Char × Bytes)
  | lo :: hi :: rest =>
    let u := utf16Value lo hi
    if 0xD800 ≤ u ∧ u < 0xDC00 then
      match rest with
      | lo' :: hi' :: rest =>
        let v := utf16Value lo' hi'
        if 0xDC00 ≤ v ∧ v < 0xE000 then
          some (Char.ofNat (0x10000 + (u - 0xD800) * 0x400 + (v - 0xDC00)), rest)
        else none
      | _ => none
    else if 0xDC00 ≤ u ∧ u < 0xE000 then none
    else some (Char.ofNat u, rest)
  | _ => none

theorem utf16Unit_value (lo hi : UInt8) : utf16Unit (utf16Value lo hi) = [lo, hi] := by
  have hlo := lo.toNat_lt
  have hhi := hi.toNat_lt
  have h₀ : UInt8.ofNat (utf16Value lo hi) = lo := by
    rw [← UInt8.toNat_inj, UInt8.toNat_ofNat', utf16Value]
    omega
  have h₁ : UInt8.ofNat (utf16Value lo hi / 256) = hi := by
    rw [← UInt8.toNat_inj, UInt8.toNat_ofNat', utf16Value]
    omega
  rw [utf16Unit, h₀, h₁]

theorem utf16Value_unit {u : Nat} (hu : u < 0x10000) :
    utf16Value (UInt8.ofNat u) (UInt8.ofNat (u / 256)) = u := by
  rw [utf16Value, UInt8.toNat_ofNat', UInt8.toNat_ofNat']
  omega

/-- Code points are not surrogates. -/
theorem char_range (c : Char) : c.toNat < 0xD800 ∨ 0xDFFF < c.toNat ∧ c.toNat < 0x110000 := c.valid

theorem toNat_ofNat_of_range {n : Nat} (h : n < 0xD800 ∨ 0xDFFF < n ∧ n < 0x110000) :
    (Char.ofNat n).toNat = n := by
  have hvalid : n.isValidChar := h
  rw [Char.ofNat, dif_pos hvalid]
  rfl

theorem utf16LERead_write_append (c : Char) (rest : Bytes) :
    utf16LERead (utf16LEWrite c ++ rest) = some (c, rest) := by
  have hrange := char_range c
  unfold utf16LEWrite
  by_cases hbmp : c.toNat < 0x10000
  · rw [if_pos hbmp]
    simp only [utf16Unit, List.cons_append, List.nil_append, utf16LERead, utf16Value_unit hbmp]
    rw [if_neg (by omega), if_neg (by omega), Char.ofNat_toNat]
  · have hhigh : 0xD800 + (c.toNat - 0x10000) / 0x400 < 0x10000 := by omega
    have hlow : 0xDC00 + (c.toNat - 0x10000) % 0x400 < 0x10000 := by omega
    have hvalue : 0x10000 + (0xD800 + (c.toNat - 0x10000) / 0x400 - 0xD800) * 0x400 +
        (0xDC00 + (c.toNat - 0x10000) % 0x400 - 0xDC00) = c.toNat := by omega
    rw [if_neg hbmp]
    simp only [utf16Unit, List.cons_append, List.nil_append, utf16LERead, utf16Value_unit hhigh,
      utf16Value_unit hlow]
    rw [if_pos (by omega), if_pos (by omega), hvalue, Char.ofNat_toNat]

theorem eq_write_of_utf16LERead {bs rest : Bytes} {c : Char} (h : utf16LERead bs = some (c, rest)) :
    bs = utf16LEWrite c ++ rest := by
  match bs with
  | [] | [_] => cases h
  | lo :: hi :: bs =>
    have hu : utf16Value lo hi < 0x10000 := by
      have hlo := lo.toNat_lt
      have hhi := hi.toNat_lt
      rw [utf16Value]
      omega
    rw [utf16LERead.eq_def] at h
    dsimp only at h
    by_cases hhigh : 0xD800 ≤ utf16Value lo hi ∧ utf16Value lo hi < 0xDC00
    · rw [if_pos hhigh] at h
      match bs with
      | [] | [_] => cases h
      | lo' :: hi' :: bs =>
        dsimp only at h
        by_cases hlow : 0xDC00 ≤ utf16Value lo' hi' ∧ utf16Value lo' hi' < 0xE000
        · rw [if_pos hlow, Option.some.injEq, Prod.mk.injEq] at h
          obtain ⟨rfl, rfl⟩ := h
          have hn := toNat_ofNat_of_range (n := 0x10000 + (utf16Value lo hi - 0xD800) * 0x400 +
            (utf16Value lo' hi' - 0xDC00)) (by omega)
          have hfirst : 0xD800 + (0x10000 + (utf16Value lo hi - 0xD800) * 0x400 +
              (utf16Value lo' hi' - 0xDC00) - 0x10000) / 0x400 = utf16Value lo hi := by omega
          have hsecond : 0xDC00 + (0x10000 + (utf16Value lo hi - 0xD800) * 0x400 +
              (utf16Value lo' hi' - 0xDC00) - 0x10000) % 0x400 = utf16Value lo' hi' := by omega
          rw [utf16LEWrite, hn, if_neg (by omega), hfirst, hsecond, utf16Unit_value, utf16Unit_value]
          rfl
        · rw [if_neg hlow] at h
          cases h
    · rw [if_neg hhigh] at h
      by_cases hlow : 0xDC00 ≤ utf16Value lo hi ∧ utf16Value lo hi < 0xE000
      · rw [if_pos hlow] at h
        cases h
      · rw [if_neg hlow, Option.some.injEq, Prod.mk.injEq] at h
        obtain ⟨rfl, rfl⟩ := h
        rw [utf16LEWrite, toNat_ofNat_of_range (by omega), if_pos hu, utf16Unit_value]
        rfl

/-- UTF-16, little endian. -/
def CharCode.utf16LE : CharCode where
  write := utf16LEWrite
  read := utf16LERead
  write_ne_nil c := by
    unfold utf16LEWrite utf16Unit
    split <;> simp
  read_eq_some_iff := by
    intro bs rest c
    constructor
    · exact eq_write_of_utf16LERead
    · rintro rfl
      exact utf16LERead_write_append c rest
