import TiktokenCpp.Lib.CharCode
import TiktokenCpp.Model.Charset

/-!
# Conversion in pieces

What the conversion loops make of an `iconv` that keeps its contract for
stateless charsets: it converts as many whole characters as fit the buffer, and
fails when the buffer is full before the input is at its end.

Main results:

* `convertsWhole_iff` -- a conversion from or to the local charset is the
  conversion of the whole string exactly when that fits one buffer;
* `transcodeLoop_spec` -- the loops that do not look at the value of `iconv`
  go on from buffer to buffer;
* `utf16_roundTrip_iff` -- UTF-8 survives the way to UTF-16LE and back exactly
  when `wchar_t` has two bytes, or there is nothing to convert.
-/

namespace TiktokenCpp

open Utf8

/-- The descriptor that `iconv_open` makes performs a conversion: each call does
what the contract says, and the descriptor keeps no state. The value of a call
that does not fail is some count. -/
structure Iconv.Performs (I : Iconv) (tocode fromcode : Bytes) (conv : CharConversion) : Prop where
  rtn : ∀ input size, (I.iconv (I.iconv_open tocode fromcode) input size).rtn = none ↔
    (conv.call size input).complete = false
  consumed : ∀ input size, (I.iconv (I.iconv_open tocode fromcode) input size).consumed =
    (conv.call size input).consumed
  produced : ∀ input size, (I.iconv (I.iconv_open tocode fromcode) input size).produced =
    (conv.call size input).produced
  desc : ∀ input size, (I.iconv (I.iconv_open tocode fromcode) input size).desc =
    I.iconv_open tocode fromcode

-- ---------------------------------------------------------------------------
-- An implementation
-- ---------------------------------------------------------------------------

/-- The code a name stands for where the local charset is UTF-8. -/
def codeNamed (name : Bytes) : CharCode :=
  if name = str "UTF-16LE" then .utf16LE else .utf8

/-- An `iconv` that knows UTF-8 and UTF-16LE. -/
def Iconv.utf : Iconv where
  Desc := CharConversion
  iconv_open tocode fromcode := (codeNamed fromcode).to (codeNamed tocode)
  iconv conv input size :=
    let r := conv.call size input
    ⟨if r.complete then some 0 else none, r.consumed, r.produced, conv⟩

theorem Iconv.utf_performs (tocode fromcode : Bytes) :
    Iconv.utf.Performs tocode fromcode ((codeNamed fromcode).to (codeNamed tocode)) where
  rtn := by
    intro input size
    show (if (((codeNamed fromcode).to (codeNamed tocode)).call size input).complete then some 0
      else none) = none ↔ _
    simp
  consumed _ _ := rfl
  produced _ _ := rfl
  desc _ _ := rfl

-- ---------------------------------------------------------------------------
-- From and to the local charset
-- ---------------------------------------------------------------------------

section

variable {I : Iconv} {tocode fromcode : Bytes} {conv : CharConversion}

/-- **One round decides**: a conversion that fits the buffer is complete after
it, and any other is given up with nothing to show. -/
theorem utfStrLoop_eq (h : I.Performs tocode fromcode conv) {input whole : Bytes}
    (hwhole : conv.Converts input whole) {fuel : Nat} (hfuel : 0 < fuel) :
    utfStrLoop I fuel (I.iconv_open tocode fromcode) input [] =
      .ret (if whole.length ≤ localBufSize then whole else []) := by
  obtain ⟨fuel, rfl⟩ : ∃ n, fuel = n + 1 := ⟨fuel - 1, by omega⟩
  by_cases hinput : input = []
  · subst hinput
    rw [utfStrLoop_nil, hwhole.nil_left, ite_self]
  · rw [utfStrLoop, if_pos (List.length_pos_iff.mpr hinput)]
    dsimp only
    rw [h.produced]
    by_cases hfit : whole.length ≤ localBufSize
    · have hcomplete := (CharConversion.call_complete_iff hwhole).mpr hfit
      have hproduced := CharConversion.call_produced_of_complete hwhole hcomplete
      have hne : whole ≠ [] := by
        rintro rfl
        exact hinput hwhole.nil_right
      have hgo : ¬ ((I.iconv (I.iconv_open tocode fromcode) input localBufSize).rtn = none ∨
          (conv.call localBufSize input).produced.length = 0) := by
        rw [h.rtn, hcomplete, hproduced, List.length_eq_zero_iff]
        simp [hne]
      rw [if_neg hgo, h.consumed, CharConversion.call_of_complete hcomplete, utfStrLoop_nil,
        hproduced, if_pos hfit, List.nil_append]
    · have hfull : (I.iconv (I.iconv_open tocode fromcode) input localBufSize).rtn = none := by
        rw [h.rtn, ← Bool.not_eq_true, CharConversion.call_complete_iff hwhole]
        exact hfit
      rw [if_pos (Or.inl hfull), if_neg hfit]

/-- **A conversion is that of the whole string** exactly when this fits one
buffer, in both directions and for every charset that `coder` may name. -/
theorem convertsWhole_iff {coder input whole : Bytes} (hwhole : conv.Converts input whole)
    {fuel : Nat} (hfuel : 0 < fuel) :
    (I.Performs coder (str "") conv →
      (utfStrFromLocalMBCS I fuel coder input = .ret whole ↔ whole.length ≤ localBufSize)) ∧
    (I.Performs (str "") coder conv →
      (localMBCSFromUTFStr I fuel coder input = .ret whole ↔ whole.length ≤ localBufSize)) := by
  have hiff : (Outcome.ret (if whole.length ≤ localBufSize then whole else []) : Run Bytes) =
      .ret whole ↔ whole.length ≤ localBufSize := by
    rw [Outcome.ret.injEq]
    by_cases hfit : whole.length ≤ localBufSize
    · simp [hfit]
    · rw [if_neg hfit]
      refine iff_of_false ?_ hfit
      rintro rfl
      exact hfit (Nat.zero_le _)
  constructor
  · intro h
    rw [utfStrFromLocalMBCS, utfStrLoop_eq h hwhole hfuel, hiff]
  · intro h
    rw [localMBCSFromUTFStr, utfStrLoop_eq h hwhole hfuel, hiff]

end

/-- Where both charsets are UTF-8 the conversion of a string is the string. -/
theorem converts_utf8_self (cs : List Char) :
    (CharCode.utf8.to CharCode.utf8).Converts (encode cs) (encode cs) :=
  CharCode.converts_writeAll CharCode.utf8 CharCode.utf8 cs

theorem convertsWhole_iff_utf8 :
    utf8StrFromLocalMBCS Iconv.utf 1 (str "héllo") = .ret (str "héllo") ∧
      localMBCSFromUTF8Str Iconv.utf 1 (str "héllo") = .ret (str "héllo") := by
  have hlen : (str "héllo").length ≤ localBufSize := by decide
  exact ⟨((convertsWhole_iff (converts_utf8_self "héllo".toList) Nat.one_pos).1
      (Iconv.utf_performs (str "UTF-8") (str ""))).mpr hlen,
    ((convertsWhole_iff (converts_utf8_self "héllo".toList) Nat.one_pos).2
      (Iconv.utf_performs (str "") (str "UTF-8"))).mpr hlen⟩

/-- 65 letters are lost, both ways. -/
theorem utf8Str_sixtyFive_lost :
    Iconv.utf.Performs (str "UTF-8") (str "") (CharCode.utf8.to CharCode.utf8) ∧
      Iconv.utf.Performs (str "") (str "UTF-8") (CharCode.utf8.to CharCode.utf8) ∧
      (CharCode.utf8.to CharCode.utf8).Converts (List.replicate 65 97) (List.replicate 65 97) ∧
      utf8StrFromLocalMBCS Iconv.utf 2 (List.replicate 65 97) = .ret [] ∧
      localMBCSFromUTF8Str Iconv.utf 2 (List.replicate 65 97) = .ret [] := by
  have hwhole : (CharCode.utf8.to CharCode.utf8).Converts (List.replicate 65 97)
      (List.replicate 65 97) := by
    have hself := converts_utf8_self (List.replicate 65 'a')
    rwa [show encode (List.replicate 65 'a') = List.replicate 65 97 by decide] at hself
  have hto := Iconv.utf_performs (str "UTF-8") (str "")
  have hfrom := Iconv.utf_performs (str "") (str "UTF-8")
  exact ⟨hto, hfrom, hwhole, utfStrLoop_eq hto hwhole Nat.two_pos,
    utfStrLoop_eq hfrom hwhole Nat.two_pos⟩

-- ---------------------------------------------------------------------------
-- The loops that go on when the buffer is full
-- ---------------------------------------------------------------------------

/-- The part of a buffer that makes up units of `size` bytes. -/
def wholeUnits (size : Nat) (buf : Bytes) : Bytes := buf.take (buf.length / size * size)

theorem wholeUnits_of_dvd {size : Nat} {buf : Bytes} (h : size ∣ buf.length) :
    wholeUnits size buf = buf := by
  rw [wholeUnits, Nat.div_mul_cancel h, List.take_length]

section

variable {I : Iconv} {tocode fromcode : Bytes} {conv : CharConversion}

@[simp] theorem transcodeLoop_nil (size fuel : Nat) (cd : I.Desc) (output : Bytes) :
    transcodeLoop I size fuel cd [] output = .ret output := by
  cases fuel <;> rfl

/-- **From buffer to buffer**: the loop ends where no character can be read. What
it puts out is the conversion up to there, cut to whole units in every round. -/
theorem transcodeLoop_spec (h : I.Performs tocode fromcode conv)
    (hsmall : ∀ s out rest, conv.step s = some (out, rest) → out.length ≤ localBufSize)
    (size : Nat) {fuel : Nat} {source : Bytes} (hfuel : source.length ≤ fuel) (output : Bytes) :
    ∃ (chunks : List Bytes) (rest : Bytes),
      transcodeLoop I size fuel (I.iconv_open tocode fromcode) source output =
        .ret (output ++ (chunks.map (wholeUnits size)).flatten) ∧
      conv.Run source chunks.flatten rest ∧ conv.step rest = none ∧
      ∀ chunk ∈ chunks, ∃ s r, conv.Run s chunk r := by
  induction fuel generalizing source output with
  | zero =>
    obtain rfl := List.length_eq_zero_iff.mp (Nat.le_zero.mp hfuel)
    exact ⟨[], [], by simp, .nil _, CharConversion.step_nil, List.forall_mem_nil _⟩
  | succ fuel ih =>
    by_cases hsource : source = []
    · subst hsource
      exact ⟨[], [], by simp, .nil _, CharConversion.step_nil, List.forall_mem_nil _⟩
    · have hcall := CharConversion.call_run conv localBufSize source
      rw [transcodeLoop, if_pos (List.length_pos_iff.mpr hsource)]
      dsimp only
      rw [h.produced, h.consumed, h.desc]
      by_cases hproduced : (conv.call localBufSize source).produced = []
      · -- a character that can be read fits the empty buffer
        have hstep : conv.step source = none := by
          rcases hstep : conv.step source with _ | ⟨out, rest⟩
          · rfl
          · exact absurd hproduced
              (CharConversion.call_produced_ne_nil hstep (hsmall _ _ _ hstep))
        rw [if_pos (List.length_eq_zero_iff.mpr hproduced)]
        exact ⟨[], source, by simp, .nil _, hstep, List.forall_mem_nil _⟩
      · have hlt := hcall.length_lt hproduced
        obtain ⟨chunks, rest, hloop, hrun, hstep, hchunks⟩ :=
          ih (show (source.drop (conv.call localBufSize source).consumed).length ≤ fuel by omega)
            (output ++ wholeUnits size (conv.call localBufSize source).produced)
        rw [if_neg (mt List.length_eq_zero_iff.mp hproduced)]
        refine ⟨(conv.call localBufSize source).produced :: chunks, rest, ?_, ?_, hstep, ?_⟩
        · rw [← wholeUnits, hloop, List.map_cons, List.flatten_cons, List.append_assoc]
        · rw [List.flatten_cons]
          exact hcall.trans hrun
        · exact List.forall_mem_cons.mpr ⟨⟨_, _, hcall⟩, hchunks⟩

/-- An input that can be converted is converted to its end. -/
theorem transcodeLoop_converts (h : I.Performs tocode fromcode conv)
    (hsmall : ∀ s out rest, conv.step s = some (out, rest) → out.length ≤ localBufSize)
    (size : Nat) {fuel : Nat} {source whole : Bytes} (hfuel : source.length ≤ fuel)
    (hwhole : conv.Converts source whole) :
    ∃ chunks : List Bytes,
      transcodeLoop I size fuel (I.iconv_open tocode fromcode) source [] =
        .ret (chunks.map (wholeUnits size)).flatten ∧
      chunks.flatten = whole ∧ ∀ chunk ∈ chunks, ∃ s r, conv.Run s chunk r := by
  obtain ⟨chunks, rest, hloop, hrun, hstep, hchunks⟩ := transcodeLoop_spec h hsmall size hfuel []
  obtain ⟨t, rfl, hrest⟩ := hrun.converts_rest hwhole
  rw [hrest.eq_nil_of_step hstep] at hrest
  exact ⟨chunks, hloop, by rw [hrest.nil_left, List.append_nil], hchunks⟩

end

-- ---------------------------------------------------------------------------
-- UTF-8 to UTF-16LE and back
-- ---------------------------------------------------------------------------

theorem length_utf16LEWrite (c : Char) :
    2 ∣ (utf16LEWrite c).length ∧ (utf16LEWrite c).length ≤ 4 := by
  unfold utf16LEWrite utf16Unit
  split <;> simp

theorem length_writeAll_utf16LE (cs : List Char) :
    2 ∣ (CharCode.utf16LE.writeAll cs).length ∧
      (CharCode.utf16LE.writeAll cs).length ≤ 4 * cs.length := by
  induction cs with
  | nil => simp
  | cons c cs ih =>
    obtain ⟨heven, hle⟩ := length_utf16LEWrite c
    rw [CharCode.writeAll_cons, List.length_append, List.length_cons]
    exact ⟨Nat.dvd_add heven ih.1, by
      have hc : (CharCode.utf16LE.write c).length ≤ 4 := hle
      have hcs := ih.2
      omega⟩

/-- Neither direction writes a character that is larger than the buffer. -/
theorem small_of_step {src dst : CharCode} (hdst : ∀ c, (dst.write c).length ≤ 4) :
    ∀ s out rest, (src.to dst).step s = some (out, rest) → out.length ≤ localBufSize := by
  intro s out rest hstep
  obtain ⟨⟨c, r⟩, -, heq⟩ := Option.map_eq_some_iff.mp hstep
  cases heq
  exact Nat.le_trans (hdst c) (by decide)

theorem map_wholeUnits {size : Nat} {chunks : List Bytes} (h : ∀ chunk ∈ chunks, size ∣ chunk.length) :
    chunks.map (wholeUnits size) = chunks := by
  have hid : ∀ chunk ∈ chunks, wholeUnits size chunk = id chunk :=
    fun chunk hchunk => wholeUnits_of_dvd (h chunk hchunk)
  rw [List.map_congr_left hid, List.map_id]

/-- Cutting never makes a buffer longer. -/
theorem length_map_wholeUnits_le (size : Nat) (chunks : List Bytes) :
    (chunks.map (wholeUnits size)).flatten.length ≤ chunks.flatten.length := by
  induction chunks with
  | nil => exact Nat.le_refl _
  | cons chunk chunks ih =>
    have hle : (wholeUnits size chunk).length ≤ chunk.length := List.length_take_le' _ _
    rw [List.map_cons, List.flatten_cons, List.flatten_cons, List.length_append, List.length_append]
    omega

section

variable {I : Iconv} (hto : I.Performs (str "UTF-16LE") (str "UTF-8") (CharCode.utf8.to CharCode.utf16LE))
  (hfrom : I.Performs (str "UTF-8") (str "UTF-16LE") (CharCode.utf16LE.to CharCode.utf8))

include hto in
/-- The wide string holds at most the units of the text, and with a `wchar_t` of
two bytes it holds all of them. -/
theorem utf16LEStrFromUTF8_spec (size : Nat) {cs : List Char} {fuel : Nat}
    (hfuel : (encode cs).length ≤ fuel) :
    ∃ memory, utf16LEStrFromUTF8 I size fuel (encode cs) = .ret memory ∧
      memory.length ≤ (CharCode.utf16LE.writeAll cs).length ∧
      (size = 2 → memory = CharCode.utf16LE.writeAll cs) := by
  obtain ⟨chunks, hloop, hflat, hchunks⟩ := transcodeLoop_converts hto
    (small_of_step fun c => (length_utf16LEWrite c).2) size hfuel
    (CharCode.converts_writeAll CharCode.utf8 CharCode.utf16LE cs)
  refine ⟨(chunks.map (wholeUnits size)).flatten, hloop, ?_, ?_⟩
  · rw [← hflat]
    exact length_map_wholeUnits_le size chunks
  · rintro rfl
    rw [map_wholeUnits, hflat]
    intro chunk hchunk
    obtain ⟨s, r, hrun⟩ := hchunks chunk hchunk
    obtain ⟨ds, -, rfl⟩ := CharCode.run_iff.mp hrun
    exact (length_writeAll_utf16LE ds).1

include hfrom in
/-- Back in UTF-8: the characters of some beginning of what is read. -/
theorem utf8FromUTF16LEStr_spec (size : Nat) {memory : Bytes} {fuel : Nat}
    (hfuel : memory.length ≤ fuel) :
    ∃ ds rest, utf8FromUTF16LEStr I size fuel memory = .ret (encode ds) ∧
      memory.take (memory.length / size * sizeofChar16) = CharCode.utf16LE.writeAll ds ++ rest ∧
      ∀ cs, memory.take (memory.length / size * sizeofChar16) = CharCode.utf16LE.writeAll cs →
        ds = cs := by
  have hlen : (memory.take (memory.length / size * sizeofChar16)).length ≤ fuel :=
    Nat.le_trans (List.length_take_le' _ _) hfuel
  obtain ⟨chunks, rest, hloop, hrun, hstep, -⟩ := transcodeLoop_spec hfrom
    (small_of_step fun c => by
      rw [show CharCode.utf8.write c = String.utf8EncodeChar c from rfl, String.length_utf8EncodeChar]
      exact Char.utf8Size_le_four c) 1 hlen []
  obtain ⟨ds, hsource, hflat⟩ := CharCode.run_iff.mp hrun
  refine ⟨ds, rest, ?_, hsource, ?_⟩
  · rw [utf8FromUTF16LEStr, hloop, map_wholeUnits fun chunk _ => Nat.one_dvd _, hflat, List.nil_append]
    rfl
  · intro cs hcs
    have hwhole := CharCode.converts_writeAll CharCode.utf16LE CharCode.utf8 cs
    rw [← hcs] at hwhole
    obtain ⟨t, ht, hrest⟩ := hrun.converts_rest hwhole
    rw [hcs, hrest.eq_nil_of_step hstep, List.append_nil] at hsource
    exact (CharCode.utf16LE.writeAll_injective hsource).symm

include hto hfrom in
/-- **UTF-8 to UTF-16LE and back** is the identity exactly when `wchar_t` has two
bytes, or there is nothing to convert. -/
theorem utf16_roundTrip_iff {sizeofWChar : Nat} (hsize : sizeofWChar = 2 ∨ sizeofWChar = 4)
    {s : Bytes} (hs : WellFormed s) {fuel : Nat} (hfuel : 4 * s.length ≤ fuel) :
    (utf16LEStrFromUTF8 I sizeofWChar fuel s >>= utf8FromUTF16LEStr I sizeofWChar fuel) = .ret s ↔
      sizeofWChar = 2 ∨ s = [] := by
  obtain ⟨cs, rfl⟩ := hs
  obtain ⟨heven, hlen⟩ := length_writeAll_utf16LE cs
  have hcs := length_le_length_encode cs
  obtain ⟨memory, hmemory, hle, htwo⟩ :=
    utf16LEStrFromUTF8_spec hto sizeofWChar (show (encode cs).length ≤ fuel by omega)
  obtain ⟨ds, rest, hback, hsource, hall⟩ :=
    utf8FromUTF16LEStr_spec hfrom sizeofWChar (show memory.length ≤ fuel by omega)
  rw [hmemory, Outcome.ret_bind, hback, Outcome.ret.injEq]
  rcases hsize with rfl | rfl
  · refine iff_of_true ?_ (Or.inl rfl)
    rw [hall cs]
    rw [htwo rfl, sizeofChar16, Nat.div_mul_cancel heven, List.take_length]
  · constructor
    · -- the first half of the units cannot hold all characters
      intro heq
      obtain rfl := CharCode.utf8.writeAll_injective heq
      right
      have hhalf := congrArg List.length hsource
      rw [List.length_append, List.length_take, sizeofChar16] at hhalf
      have hnil : CharCode.utf16LE.writeAll ds = CharCode.utf16LE.writeAll [] :=
        List.length_eq_zero_iff.mp (by omega)
      rw [CharCode.utf16LE.writeAll_injective hnil]
      rfl
    · rintro (h | h)
      · cases h
      · obtain rfl := encode_eq_nil.mp h
        have hnil : memory = [] := List.length_eq_zero_iff.mp (by simpa using hle)
        rw [hall [] (by rw [hnil]; rfl)]

theorem utf16_roundTrip_iff_windows :
    (utf16LEStrFromUTF8 Iconv.utf 2 100 (str "héllo") >>= utf8FromUTF16LEStr Iconv.utf 2 100) =
      .ret (str "héllo") :=
  (utf16_roundTrip_iff (Iconv.utf_performs (str "UTF-16LE") (str "UTF-8"))
    (Iconv.utf_performs (str "UTF-8") (str "UTF-16LE")) (Or.inl rfl) ⟨"héllo".toList, rfl⟩
    (by decide)).mpr (Or.inl rfl)

/-- With a `wchar_t` of four bytes two letters come back as one. -/
theorem utf16_roundTrip_linux :
    Iconv.utf.Performs (str "UTF-16LE") (str "UTF-8") (CharCode.utf8.to CharCode.utf16LE) ∧
      Iconv.utf.Performs (str "UTF-8") (str "UTF-16LE") (CharCode.utf16LE.to CharCode.utf8) ∧
      WellFormed (str "ab") ∧
      (utf16LEStrFromUTF8 Iconv.utf 4 100 (str "ab") >>= utf8FromUTF16LEStr Iconv.utf 4 100) =
        .ret (str "a") ∧
      str "a" ≠ str "ab" :=
  ⟨Iconv.utf_performs (str "UTF-16LE") (str "UTF-8"), Iconv.utf_performs (str "UTF-8") (str "UTF-16LE"),
    ⟨"ab".toList, rfl⟩, by decide +kernel, by decide⟩

end

end TiktokenCpp
