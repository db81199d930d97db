import TiktokenCpp.Model.Base64Stream
import TiktokenCpp.Results.Loader

/-!
# The base64 decoder stays in its buffer

The decoder writes through a raw pointer into a vector that was sized from the
length of the text alone, and its array of four keeps the symbols of the block
before. The plain decoder knows neither. The two agree: the bytes of every block
were paid for by the symbols read, and an old symbol is never taken for a stop
character.

Main results:

* `symbolLoop_refines` -- where the first loop ends;
* `streamDecode_eq` -- the two decoders agree on every text;
* `streamDecode_safe` -- no access is out of bounds, and no assertion fails.
-/

namespace TiktokenCpp

/-! ## Indexes -/

/-- The stored value of what a symbol means. -/
def AlphabetIndex.value : AlphabetIndex → Nat
  | .index i => i
  | .padding => paddingIdx
  | .eof => eofIdx
  | .invalid => invalidIdx

/-- The table and the plain decoder read a symbol alike. -/
theorem lookupSymbol_eq (c : UInt8) : lookupSymbol c = (forSymbol c).value := by
  have hall : ∀ n < 256, lookupSymbol (UInt8.ofNat n) = (forSymbol (UInt8.ofNat n)).value := by
    decide +kernel
  have h := hall c.toNat c.toNat_lt
  rwa [UInt8.ofNat_toNat] at h

theorem forSymbol_lt {c : UInt8} {i : Nat} (h : forSymbol c = .index i) : i < 64 := by
  have hall : ∀ n < 256, forSymbol (UInt8.ofNat n) ∈ (List.range 64).map .index ++
      [.padding, .eof, .invalid] := by
    decide +kernel
  have hmem := hall c.toNat c.toNat_lt
  rw [UInt8.ofNat_toNat, h] at hmem
  simpa using hmem

theorem isStopCharacter_index {i : Nat} (h : i < 64) : isStopCharacter i = false := by
  have hall : ∀ i < 64, isStopCharacter i = false := by decide
  exact hall i h

/-- What a cell holds that was not written by a stop character. -/
def Plain (i : Nat) : Prop := i < 64 ∨ i = eofIdx

theorem Plain.ne_invalidIdx {i : Nat} (h : Plain i) : i ≠ invalidIdx := by
  unfold Plain eofIdx at h
  unfold invalidIdx
  omega

theorem Plain.ne_paddingIdx {i : Nat} (h : Plain i) : i ≠ paddingIdx := by
  unfold Plain eofIdx at h
  unfold paddingIdx
  omega

/-! ## Accesses -/

section

variable {α : Type}

theorem readAt_append (xs : List α) (a : α) (ys : List α) :
    readAt (xs ++ a :: ys) xs.length = .ret a := by
  unfold readAt
  rw [List.getElem?_append_right (Nat.le_refl _), Nat.sub_self]
  rfl

theorem writeAt_append (xs : List α) (a b : α) (ys : List α) :
    writeAt (xs ++ a :: ys) xs.length b = .ret (xs ++ b :: ys) := by
  unfold writeAt
  rw [if_pos (by simp), List.set_append_right _ _ (Nat.le_refl _), Nat.sub_self]
  rfl

theorem lt_of_drop {xs : List α} {i : Nat} {a : α} {ys : List α} (h : xs.drop i = a :: ys) :
    i < xs.length := by
  by_contra hge
  rw [List.drop_eq_nil_of_le (Nat.not_lt.mp hge)] at h
  cases h

theorem drop_succ_of_drop {xs : List α} {i : Nat} {a : α} {ys : List α} (h : xs.drop i = a :: ys) :
    xs.drop (i + 1) = ys := by
  rw [← List.drop_drop, h]
  rfl

theorem readAt_of_drop {xs : List α} {i : Nat} {a : α} {ys : List α} (h : xs.drop i = a :: ys) :
    readAt xs i = .ret a := by
  unfold readAt
  rw [← List.head?_drop, h]
  rfl

end

/-- The decoder with its buffer cut into what was written and what is free. -/
def writing (src : Nat) (indexes : List Nat) (ptr : Nat) (out free : Bytes) : DecodeState :=
  ⟨src, indexes, ptr, out ++ free, out.length⟩

section

variable {src ptr : Nat} {indexes : List Nat} {out free : Bytes}

theorem put_writing (f c : UInt8) :
    (writing src indexes ptr out (f :: free)).put c =
      .ret (writing src indexes ptr (out ++ [c]) free) := by
  unfold DecodeState.put writing
  dsimp only
  rw [writeAt_append, Outcome.ret_bind, List.length_append, List.append_assoc]
  rfl

/-- Three free cells take the bytes of a block. -/
theorem decodeBlock_writing {i j k l : Nat} (hj : j < 64) (hk : k < 64) (hl : l < 64)
    (f₁ f₂ f₃ : UInt8) :
    (writing src [i, j, k, l] ptr out (f₁ :: f₂ :: f₃ :: free)).decodeBlock =
      .ret (writing src [i, j, k, l] ptr (out ++ decodeBlock i j k l) free) := by
  have hdec : i <<< 18 ||| j <<< 12 ||| k <<< 6 ||| l = i * 2 ^ 18 + j * 2 ^ 12 + k * 2 ^ 6 + l := by
    have hkl : k <<< 6 ||| l = k * 2 ^ 6 + l := by
      rw [← Nat.shiftLeft_add_eq_or_of_lt (show l < 2 ^ 6 by omega), Nat.shiftLeft_eq]
    have hjkl : j <<< 12 ||| (k * 2 ^ 6 + l) = j * 2 ^ 12 + (k * 2 ^ 6 + l) := by
      rw [← Nat.shiftLeft_add_eq_or_of_lt (show k * 2 ^ 6 + l < 2 ^ 12 by omega), Nat.shiftLeft_eq]
    rw [Nat.or_assoc, Nat.or_assoc, hkl, hjkl, ← Nat.shiftLeft_add_eq_or_of_lt
      (show j * 2 ^ 12 + (k * 2 ^ 6 + l) < 2 ^ 18 by omega), Nat.shiftLeft_eq]
    omega
  have hbyte (n : Nat) : UInt8.ofNat (n &&& 0xFF) = UInt8.ofNat n := by
    rw [← UInt8.toNat_inj, UInt8.toNat_ofNat', UInt8.toNat_ofNat',
      Nat.and_two_pow_sub_one_eq_mod n 8]
    omega
  unfold DecodeState.decodeBlock
  show (Outcome.ret i >>= fun i => Outcome.ret j >>= fun j => Outcome.ret k >>= fun k =>
    Outcome.ret l >>= fun l => _) = _
  simp only [Outcome.ret_bind]
  rw [put_writing, Outcome.ret_bind, put_writing, Outcome.ret_bind, put_writing, hdec, hbyte, hbyte,
    Nat.shiftRight_eq_div_pow, Nat.shiftRight_eq_div_pow, List.append_assoc, List.append_assoc]
  rfl

theorem decodeTail_two {i j : Nat} (hj : j < 64) (old : List Nat) (f : UInt8) :
    (writing src (i :: j :: old) ptr out (f :: free)).decodeTail 2 =
      .ret (writing src (i :: j :: old) ptr (out ++ [UInt8.ofNat (i * 4 + j / 16)]) free) := by
  have hmask : ∀ j < 64, (j &&& 0x30) >>> 4 = j / 16 := by decide
  unfold DecodeState.decodeTail
  show (Outcome.ret i >>= fun i => Outcome.ret j >>= fun j => _) = _
  rw [Outcome.ret_bind, Outcome.ret_bind, put_writing, Outcome.ret_bind, hmask j hj, Nat.shiftLeft_eq]
  rfl

theorem decodeTail_three {i j k : Nat} (hj : j < 64) (hk : k < 64) (old : List Nat) (f₁ f₂ : UInt8) :
    (writing src (i :: j :: k :: old) ptr out (f₁ :: f₂ :: free)).decodeTail 3 =
      .ret (writing src (i :: j :: k :: old) ptr
        (out ++ [UInt8.ofNat (i * 4 + j / 16), UInt8.ofNat (j % 16 * 16 + k / 4)]) free) := by
  have hmask : ∀ j < 64, (j &&& 0x30) >>> 4 = j / 16 := by decide
  have hlow : ∀ j < 64, (j &&& 0xF) <<< 4 = j % 16 * 16 := by decide
  have hhigh : ∀ k < 64, (k &&& 0x3C) >>> 2 = k / 4 := by decide
  unfold DecodeState.decodeTail
  show (Outcome.ret i >>= fun i => Outcome.ret j >>= fun j => _) = _
  rw [Outcome.ret_bind, Outcome.ret_bind, put_writing, Outcome.ret_bind, hmask j hj, Nat.shiftLeft_eq]
  show (Outcome.ret j >>= fun j => Outcome.ret k >>= fun k => _) = _
  rw [Outcome.ret_bind, Outcome.ret_bind, put_writing, hlow j hj, hhigh k hk, List.append_assoc]
  rfl

end

/-! ## The first loop -/

/-- Where the first loop stands. The symbols of the block come first in the
array, and what follows them is old; the bytes written were paid for by the
symbols read, four symbols for three bytes. -/
structure Scanning (encoded : Bytes) (src : Nat) (block old : List Nat) (out free : Bytes) : Prop where
  src_le : src ≤ encoded.length
  cells : block.length + old.length = 4
  old_ne_nil : old ≠ []
  symbols : ∀ i ∈ block, i < 64
  room : out.length + free.length = decodedMaxSize encoded.length
  paid : 4 * out.length + 3 * block.length = 3 * src

section

variable {encoded : Bytes} {src d x : Nat} {block old : List Nat} {out free : Bytes}

/-- One more symbol. -/
theorem Scanning.symbol (h : Scanning encoded src block (x :: old) out free)
    (hlt : src < encoded.length) (hd : d < 64) (hold : old ≠ []) :
    Scanning encoded (src + 1) (block ++ [d]) old out free where
  src_le := hlt
  cells := by
    have hcells := h.cells
    simp only [List.length_append, List.length_cons, List.length_nil] at hcells ⊢
    omega
  old_ne_nil := hold
  symbols i hi := by
    rcases List.mem_append.mp hi with hi | hi
    · exact h.symbols i hi
    · rw [List.mem_singleton.mp hi]
      exact hd
  room := h.room
  paid := by
    have hpaid := h.paid
    simp only [List.length_append, List.length_cons, List.length_nil]
    omega

/-- The fourth symbol of a block: its bytes have room. -/
theorem Scanning.full {i j k : Nat} (h : Scanning encoded src [i, j, k] [x] out free)
    (hlt : src < encoded.length) :
    ∃ f₁ f₂ f₃ rest, free = f₁ :: f₂ :: f₃ :: rest ∧
      Scanning encoded (src + 1) [] [i, j, k, d] (out ++ decodeBlock i j k d) rest := by
  have hpaid := h.paid
  have hroom := h.room
  have hbytes : (decodeBlock i j k d).length = 3 := rfl
  unfold decodedMaxSize encodedBlockSize binaryBlockSize at hroom
  simp only [List.length_cons, List.length_nil] at hpaid
  rcases free with _ | ⟨f₁, _ | ⟨f₂, _ | ⟨f₃, rest⟩⟩⟩
  any_goals
    simp only [List.length_cons, List.length_nil] at hroom
    omega
  refine ⟨f₁, f₂, f₃, rest, rfl, hlt, rfl, List.cons_ne_nil _ _, List.forall_mem_nil _, ?_, ?_⟩
  · unfold decodedMaxSize encodedBlockSize binaryBlockSize
    simp only [List.length_append, List.length_cons, hbytes] at hroom ⊢
    omega
  · simp only [List.length_append, List.length_nil, hbytes]
    omega

end

/-- Why the loop ended, seen in the cell behind the block: the text ended, and
the cell is old, or the cell has a stop character. -/
def Stopped (encoded : Bytes) (src : Nat) (x : Nat) : Prop :=
  encoded.drop src = [] ∧ Plain x ∨
    ∃ c rest, encoded.drop src = c :: rest ∧ x = lookupSymbol c ∧ isStopCharacter x = true

section

variable {encoded : Bytes} {src : Nat} {block old : List Nat} {out free : Bytes}

theorem symbolLoop_end (hrest : encoded.drop src = []) (fuel ptr : Nat) (indexes : List Nat) :
    symbolLoop encoded fuel (writing src indexes ptr out free) =
      .ret (writing src indexes ptr out free) := by
  unfold symbolLoop
  exact if_neg (Nat.not_lt.mpr (List.drop_eq_nil_iff.mp hrest))

/-- A round of the first loop, at a symbol. -/
theorem symbolLoop_symbol {c : UInt8} {rest : Bytes} (hrest : encoded.drop src = c :: rest)
    (fuel x : Nat) :
    symbolLoop encoded (fuel + 1) (writing src (block ++ x :: old) block.length out free) =
      if isStopCharacter (lookupSymbol c) then
        .ret (writing src (block ++ lookupSymbol c :: old) block.length out free)
      else if block.length + 1 = encodedBlockSize then do
        let s ← (writing (src + 1) (block ++ lookupSymbol c :: old) (block.length + 1) out
          free).decodeBlock
        symbolLoop encoded fuel { s with alphabetIndexPtr := 0 }
      else
        symbolLoop encoded fuel (writing (src + 1) (block ++ lookupSymbol c :: old)
          (block.length + 1) out free) := by
  rw [symbolLoop]
  show (if src < encoded.length then readAt encoded src >>= fun c =>
    writeAt (block ++ x :: old) block.length (lookupSymbol c) >>= fun indexes => _ else _) = _
  rw [if_pos (lt_of_drop hrest), readAt_of_drop hrest, Outcome.ret_bind, writeAt_append,
    Outcome.ret_bind]
  rfl

theorem decodeLoop_symbol {c : UInt8} {d : Nat} (hc : forSymbol c = .index d)
    (hblock : block.length + 1 ≠ encodedBlockSize) (rest : Bytes) :
    decodeLoop block out (c :: rest) = decodeLoop (block ++ [d]) out rest := by
  rw [decodeLoop, hc]
  dsimp only
  split
  · exact absurd rfl hblock
  · rfl

theorem decodeLoop_full {c : UInt8} {d : Nat} (hc : forSymbol c = .index d) (i j k : Nat)
    (rest : Bytes) :
    decodeLoop [i, j, k] out (c :: rest) = decodeLoop [] (out ++ decodeBlock i j k d) rest := by
  rw [decodeLoop, hc]

/-- **The first loop**, by induction on its rounds: it ends where the plain
decoder stands at the same block, the same bytes and the same rest. -/
theorem symbolLoop_refines (h : Scanning encoded src block old out free) (hold : ∀ i ∈ old, Plain i)
    {fuel : Nat} (hfuel : encoded.length ≤ src + fuel) :
    ∃ src' block' x old' out' free',
      symbolLoop encoded fuel (writing src (block ++ old) block.length out free) =
        .ret (writing src' (block' ++ x :: old') block'.length out' free') ∧
      Scanning encoded src' block' (x :: old') out' free' ∧ Stopped encoded src' x ∧
      decodeLoop block out (encoded.drop src) = decodeLoop block' out' (encoded.drop src') := by
  induction fuel generalizing src block old out free with
  | zero =>
    obtain ⟨x, old, rfl⟩ := List.exists_cons_of_ne_nil h.old_ne_nil
    have hrest : encoded.drop src = [] := List.drop_eq_nil_of_le hfuel
    exact ⟨src, block, x, old, out, free, symbolLoop_end hrest .., h,
      Or.inl ⟨hrest, hold x (List.mem_cons_self ..)⟩, rfl⟩
  | succ fuel ih =>
    obtain ⟨x, old, rfl⟩ := List.exists_cons_of_ne_nil h.old_ne_nil
    obtain ⟨hx, hold⟩ := List.forall_mem_cons.mp hold
    cases hrest : encoded.drop src with
    | nil =>
      exact ⟨src, block, x, old, out, free, symbolLoop_end hrest .., h, Or.inl ⟨hrest, hx⟩,
        by rw [hrest]⟩
    | cons c rest =>
      have hlt := lt_of_drop hrest
      have hnext := drop_succ_of_drop hrest
      rw [symbolLoop_symbol hrest]
      by_cases hstop : isStopCharacter (lookupSymbol c) = true
      · -- the stop character stays in the cell behind the block
        rw [if_pos hstop]
        refine ⟨src, block, lookupSymbol c, old, out, free, rfl, ?_, ?_, by rw [hrest]⟩
        · exact { h with cells := h.cells, old_ne_nil := List.cons_ne_nil _ _ }
        · exact Or.inr ⟨c, rest, hrest, rfl, hstop⟩
      · obtain ⟨d, hc⟩ : ∃ d, forSymbol c = .index d := by
          rw [lookupSymbol_eq] at hstop
          cases hc : forSymbol c with
          | index d => exact ⟨d, rfl⟩
          | _ =>
            rw [hc] at hstop
            exact absurd (by decide) hstop
        have hd := forSymbol_lt hc
        have hlookup : lookupSymbol c = d := by
          rw [lookupSymbol_eq, hc]
          rfl
        rw [if_neg hstop, hlookup]
        have hcells := h.cells
        rw [List.length_cons] at hcells
        by_cases hfull : block.length + 1 = encodedBlockSize
        · obtain ⟨i, j, k, rfl⟩ := List.length_eq_three.mp (Nat.succ.inj hfull)
          obtain rfl : old = [] := by
            rw [← List.length_eq_zero_iff]
            simp only [List.length_cons, List.length_nil] at hcells
            omega
          obtain ⟨f₁, f₂, f₃, free, rfl, hscan⟩ := h.full (d := d) hlt
          have hblock := h.symbols
          simp only [List.forall_mem_cons] at hblock
          obtain ⟨hi, hj, hk, -⟩ := hblock
          have hplain : ∀ n ∈ [i, j, k, d], Plain n := by
            simp only [List.forall_mem_cons]
            exact ⟨Or.inl hi, Or.inl hj, Or.inl hk, Or.inl hd, List.forall_mem_nil _⟩
          rw [if_pos hfull, List.cons_append, List.cons_append, List.cons_append, List.nil_append,
            decodeBlock_writing hj hk hd, Outcome.ret_bind, decodeLoop_full hc, ← hnext]
          exact ih hscan hplain (by omega)
        · have hne : old ≠ [] := by
            rintro rfl
            exact hfull (by rw [encodedBlockSize]; simpa using hcells)
          have hnextRound := ih (h.symbol hlt hd hne) hold (by omega)
          rw [List.length_append, List.append_assoc] at hnextRound
          rw [if_neg hfull, decodeLoop_symbol hc hfull, ← hnext]
          exact hnextRound

end

/-! ## Padding and tail -/

/-- The buffer holds the bytes, and they fit. -/
def Holds (capacity : Nat) (s : DecodeState) (bs : Bytes) : Prop :=
  ∃ src indexes ptr free, s = writing src indexes ptr bs free ∧ bs.length + free.length = capacity

section

variable {encoded : Bytes} {src : Nat} {block old : List Nat} {out free : Bytes}

theorem paddingLoop_end (hrest : encoded.drop src = []) (fuel last ptr : Nat) (indexes : List Nat) :
    paddingLoop encoded fuel last (writing src indexes ptr out free) =
      .ret (last, writing src indexes ptr out free) := by
  unfold paddingLoop
  exact if_neg (Nat.not_lt.mpr (List.drop_eq_nil_iff.mp hrest))

/-- **The loop over the padding** counts like the plain decoder, with the block
and the bytes as they were. Every symbol it counts was there. -/
theorem paddingLoop_refines (hsrc : src ≤ encoded.length) {fuel : Nat}
    (hfuel : encoded.length ≤ src + fuel) (last x : Nat) :
    Outcome.Agree (fun p n => last ≤ n ∧ n + src ≤ last + encoded.length ∧ ∃ src' x',
        p = (n, writing src' (block ++ x' :: old) block.length out free))
      (paddingLoop encoded fuel last (writing src (block ++ x :: old) block.length out free))
      (readPadding last (encoded.drop src)) := by
  induction fuel generalizing src last x with
  | zero =>
    have hrest : encoded.drop src = [] := List.drop_eq_nil_of_le hfuel
    rw [paddingLoop_end hrest, hrest, readPadding]
    exact .ret ⟨Nat.le_refl _, by omega, src, x, rfl⟩
  | succ fuel ih =>
    cases hrest : encoded.drop src with
    | nil =>
      rw [paddingLoop_end hrest, readPadding]
      exact .ret ⟨Nat.le_refl _, by omega, src, x, rfl⟩
    | cons c rest =>
      have hlt := lt_of_drop hrest
      rw [readPadding, paddingLoop]
      show Outcome.Agree _ (if src < encoded.length then readAt encoded src >>= fun c =>
        writeAt (block ++ x :: old) block.length (lookupSymbol c) >>= fun indexes => _ else _) _
      rw [if_pos hlt, readAt_of_drop hrest, Outcome.ret_bind, writeAt_append, Outcome.ret_bind,
        lookupSymbol_eq]
      dsimp only
      cases hc : forSymbol c with
      | padding =>
        have hne : AlphabetIndex.padding.value ≠ eofIdx := by decide
        have heq : ¬ AlphabetIndex.padding.value ≠ paddingIdx := by decide
        dsimp only
        rw [if_neg hne, if_neg heq]
        by_cases hfull : last + 1 > encodedBlockSize
        · rw [if_pos hfull, if_pos (show last + 1 > 4 from hfull)]
          exact .throw _
        · rw [if_neg hfull, if_neg (show ¬ last + 1 > 4 from hfull), ← drop_succ_of_drop hrest]
          refine (ih hlt (by omega) (last + 1) _).mono ?_
          rintro p n ⟨hle, hcount, hstate⟩
          exact ⟨by omega, by omega, hstate⟩
      | eof =>
        have heq : AlphabetIndex.eof.value = eofIdx := rfl
        rw [if_pos heq]
        show Outcome.Agree _ (writeAt (block ++ eofIdx :: old) block.length paddingIdx >>= fun _ => _) _
        rw [writeAt_append, Outcome.ret_bind]
        exact .ret ⟨Nat.le_refl _, by omega, src + 1, paddingIdx, rfl⟩
      | invalid =>
        have hne : AlphabetIndex.invalid.value ≠ eofIdx := by decide
        have hne' : AlphabetIndex.invalid.value ≠ paddingIdx := by decide
        rw [if_neg hne, if_pos hne']
        exact .throw _
      | index i =>
        have hi := forSymbol_lt hc
        have hplain : Plain (AlphabetIndex.index i).value := Or.inl hi
        have hne : (AlphabetIndex.index i).value ≠ eofIdx := by
          show i ≠ 2 ^ 10
          omega
        rw [if_neg hne, if_pos hplain.ne_paddingIdx]
        exact .throw _

/-- **The tail** of one, two or three symbols. -/
theorem decodeTail_refines (hsymbols : ∀ i ∈ block, i < 64) (hblock : block.length < 4)
    (hne : block ≠ []) (hfree : 2 ≤ free.length) :
    Outcome.Agree (Holds (out.length + free.length))
      ((writing src (block ++ old) block.length out free).decodeTail block.length)
      (decodeTail block >>= fun tail => .ret (out ++ tail)) := by
  obtain ⟨f₁, free, rfl⟩ := List.exists_cons_of_length_pos (show 0 < free.length by omega)
  obtain ⟨f₂, free, rfl⟩ := List.exists_cons_of_length_pos
    (show 0 < free.length by rw [List.length_cons] at hfree; omega)
  match block, hne with
  | [i], _ => exact .throw _
  | [i, j], _ =>
    obtain ⟨-, hj, -⟩ : i < 64 ∧ j < 64 ∧ True := by simpa using hsymbols
    show Outcome.Agree _ (DecodeState.decodeTail (writing src (i :: j :: old) 2 out _) 2) _
    rw [decodeTail_two hj]
    refine .ret ⟨src, _, _, _, rfl, ?_⟩
    simp only [List.length_append, List.length_cons, List.length_nil]
    omega
  | [i, j, k], _ =>
    obtain ⟨-, hj, hk⟩ : i < 64 ∧ j < 64 ∧ k < 64 := by simpa using hsymbols
    show Outcome.Agree _ (DecodeState.decodeTail (writing src (i :: j :: k :: old) 3 out _) 3) _
    rw [decodeTail_three hj hk]
    refine .ret ⟨src, _, _, _, rfl, ?_⟩
    simp only [List.length_append, List.length_cons, List.length_nil]
    omega
  | _ :: _ :: _ :: _ :: _, _ =>
    simp only [List.length_cons] at hblock
    omega

/-! ## The whole decoder -/

theorem readLast_writing (src x : Nat) :
    readLast encoded (writing src (block ++ x :: old) block.length out free) =
      if x = invalidIdx then readAt encoded src >>= fun _ => .throw .parseError
      else if x = paddingIdx then
        if block.length = 0 then .throw .parseError
        else paddingLoop encoded encoded.length (block.length + 1)
          (writing (src + 1) (block ++ x :: old) block.length out free)
      else .ret (block.length, writing (src + 1) (block ++ x :: old) block.length out free) := by
  unfold readLast
  show (readAt (block ++ x :: old) block.length >>= fun idx => _) = _
  rw [readAt_append, Outcome.ret_bind]
  rfl

/-- Without padding there is no tail: a block that was begun is an error. -/
theorem finishBlock_begun {x : Nat} (h : Scanning encoded src block (x :: old) out free) (src' : Nat) :
    Outcome.Agree (Holds (decodedMaxSize encoded.length))
      (finishBlock block.length (writing src' (block ++ x :: old) block.length out free))
      (if block = [] then .ret out else .throw .parseError) := by
  have hcells := h.cells
  rw [List.length_cons] at hcells
  unfold finishBlock
  by_cases hblock : block = []
  · have hzero : block.length = 0 := List.length_eq_zero_iff.mpr hblock
    rw [if_pos hzero, if_pos hblock]
    exact .ret ⟨_, _, _, free, rfl, h.room⟩
  · have hpos := List.length_pos_iff.mpr hblock
    have hfour : block.length ≠ encodedBlockSize := by
      unfold encodedBlockSize
      omega
    rw [if_neg (by omega), if_pos hfour, if_neg hblock]
    exact .throw _

/-- Behind a first padding symbol: four symbols with the padding leave room for
the bytes of the tail. -/
theorem padding_refines {x : Nat} (h : Scanning encoded src block (x :: old) out free)
    (hblock : block ≠ []) {c : UInt8} {rest : Bytes} (hrest : encoded.drop src = c :: rest) :
    Outcome.Agree (Holds (decodedMaxSize encoded.length))
      (paddingLoop encoded encoded.length (block.length + 1)
        (writing (src + 1) (block ++ x :: old) block.length out free) >>= fun p =>
          finishBlock p.1 p.2)
      (readPadding (block.length + 1) rest >>= fun last =>
        if last = 4 then decodeTail block >>= fun tail => .ret (out ++ tail)
        else .throw .parseError) := by
  have hcells := h.cells
  rw [List.length_cons] at hcells
  rw [← drop_succ_of_drop hrest]
  refine (paddingLoop_refines (lt_of_drop hrest) (by omega) (block.length + 1) x).bind ?_
  rintro _ n ⟨hle, hcount, src', x', rfl⟩
  unfold finishBlock
  dsimp only
  have hpos := List.length_pos_iff.mpr hblock
  by_cases hfour : n = 4
  · have hpaid := h.paid
    have hroom := h.room
    unfold decodedMaxSize encodedBlockSize binaryBlockSize at hroom
    have hptr : ¬ encodedBlockSize ≤ block.length := by
      unfold encodedBlockSize
      omega
    have htail : Outcome.Agree (Holds (out.length + free.length))
        ((writing src' (block ++ x' :: old) block.length out free).decodeTail block.length)
        (decodeTail block >>= fun tail => .ret (out ++ tail)) :=
      decodeTail_refines h.symbols (by omega) hblock (by omega)
    rw [h.room] at htail
    have hend : ¬ n ≠ encodedBlockSize := not_not.mpr hfour
    rw [if_neg (by omega), if_neg hend, if_pos hfour]
    show Outcome.Agree _ (if encodedBlockSize ≤ block.length then .abort else _) _
    rw [if_neg hptr]
    exact htail
  · have hend : n ≠ encodedBlockSize := hfour
    rw [if_neg hfour, if_neg (by omega), if_pos hend]
    exact .throw _

/-- Behind the first loop: the padding and the tail. -/
theorem rest_refines {x : Nat} (h : Scanning encoded src block (x :: old) out free)
    (hstop : Stopped encoded src x) :
    Outcome.Agree (Holds (decodedMaxSize encoded.length))
      (readLast encoded (writing src (block ++ x :: old) block.length out free) >>= fun p =>
        finishBlock p.1 p.2)
      (decodeLoop block out (encoded.drop src)) := by
  rw [readLast_writing]
  rcases hstop with ⟨hrest, hplain⟩ | ⟨c, rest, hrest, hx, hstop⟩
  · rw [if_neg hplain.ne_invalidIdx, if_neg hplain.ne_paddingIdx, hrest, decodeLoop]
    exact finishBlock_begun h _
  · rw [lookupSymbol_eq] at hx
    rw [hrest, decodeLoop, readAt_of_drop hrest]
    cases hc : forSymbol c with
    | index i =>
      rw [hc] at hx
      obtain rfl : x = i := hx
      rw [isStopCharacter_index (forSymbol_lt hc)] at hstop
      cases hstop
    | invalid =>
      rw [hc] at hx
      have hval : x = invalidIdx := hx
      rw [if_pos hval]
      exact .throw _
    | eof =>
      rw [hc] at hx
      have hplain : Plain x := Or.inr hx
      rw [if_neg hplain.ne_invalidIdx, if_neg hplain.ne_paddingIdx]
      exact finishBlock_begun h _
    | padding =>
      rw [hc] at hx
      have hval : x = paddingIdx := hx
      have hne : x ≠ invalidIdx := by
        rw [hx]
        decide
      rw [if_neg hne, if_pos hval]
      by_cases hblock : block = []
      · have hzero : block.length = 0 := List.length_eq_zero_iff.mpr hblock
        dsimp only
        rw [if_pos hzero, if_pos hblock]
        exact .throw _
      · have hpos := List.length_pos_iff.mpr hblock
        dsimp only
        rw [if_neg (by omega), if_neg hblock]
        exact padding_refines h hblock hrest

/-- The buffer is cut down to what was written. -/
theorem result_of_agree {capacity : Nat} {x : Run DecodeState} {y : Run Bytes}
    (h : Outcome.Agree (Holds capacity) x y) :
    (x >>= fun s =>
      Outcome.assert (((s.buffer ++ List.replicate s.offset 0).take s.offset).length ≤ capacity) >>=
        fun _ => .ret ((s.buffer ++ List.replicate s.offset 0).take s.offset)) = y ∧
      ∀ bs, y = .ret bs → bs.length ≤ capacity := by
  cases h with
  | @ret s bs h =>
    obtain ⟨src, indexes, ptr, free, rfl, hlen⟩ := h
    have hle : bs.length ≤ capacity := by omega
    have htake : ((writing src indexes ptr bs free).buffer ++
        List.replicate (writing src indexes ptr bs free).offset 0).take
          (writing src indexes ptr bs free).offset = bs := by
      show ((bs ++ free) ++ List.replicate bs.length 0).take bs.length = bs
      rw [List.append_assoc, List.take_left]
    refine ⟨?_, ?_⟩
    · rw [Outcome.ret_bind, htake, decide_eq_true hle]
      rfl
    · rintro _ ⟨⟩
      exact hle
  | throw e => exact ⟨rfl, nofun⟩
  | abort => exact ⟨rfl, nofun⟩
  | ub => exact ⟨rfl, nofun⟩
  | loop => exact ⟨rfl, nofun⟩

/-- **The two decoders agree** on every text, and the bytes fit the buffer. -/
theorem streamDecode_eq (encoded : Bytes) :
    streamDecode encoded = base64Decode encoded ∧
      ∀ bs, base64Decode encoded = .ret bs → bs.length ≤ decodedMaxSize encoded.length := by
  have hstart : Scanning encoded 0 [] [eofIdx, 0, 0, 0] []
      (List.replicate (decodedMaxSize encoded.length) 0) :=
    ⟨Nat.zero_le _, rfl, List.cons_ne_nil _ _, List.forall_mem_nil _, by simp, rfl⟩
  have hold : ∀ i ∈ [eofIdx, 0, 0, 0], Plain i := by
    have hzero : Plain 0 := Or.inl (by omega)
    simp only [List.forall_mem_cons]
    exact ⟨Or.inr rfl, hzero, hzero, hzero, List.forall_mem_nil _⟩
  obtain ⟨src, block, x, old, out, free, hloop, hscan, hstop, hplain⟩ :=
    symbolLoop_refines hstart hold (show encoded.length ≤ 0 + encoded.length by omega)
  have hrest := rest_refines hscan hstop
  rw [← hplain] at hrest
  have hfirst : symbolLoop encoded encoded.length
      ⟨0, [eofIdx, 0, 0, 0], 0, List.replicate (decodedMaxSize encoded.length) 0, 0⟩ = _ := hloop
  obtain ⟨hresult, hle⟩ := result_of_agree hrest
  rw [Outcome.bind_assoc] at hresult
  refine ⟨?_, hle⟩
  unfold streamDecode
  dsimp only
  rw [hfirst, Outcome.ret_bind]
  exact hresult

end

/-- **The decoder in memory is safe.** For every text it does what the plain
decoder does: it returns or throws a `parse_error`, so it makes no access out of
bounds, reaches no `abort` and fails no assertion; and the bytes it returns fit
the buffer. -/
theorem streamDecode_safe (encoded : Bytes) :
    streamDecode encoded = base64Decode encoded ∧ (streamDecode encoded).Finishes ∧
      (∀ e, streamDecode encoded = .throw e → e = .parseError) ∧
      ∀ bs, streamDecode encoded = .ret bs → bs.length ≤ decodedMaxSize encoded.length := by
  obtain ⟨heq, hle⟩ := streamDecode_eq encoded
  rw [heq]
  have hends := decodeLoop_returnsOr [] [] encoded
  exact ⟨rfl, hends.finishes, Outcome.throwsOnly_iff.mp hends.throwsOnly, hle⟩

end TiktokenCpp
