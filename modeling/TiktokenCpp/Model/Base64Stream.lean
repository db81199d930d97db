import TiktokenCpp.Model.Base64

/-!
# Base64 in memory

`stream_codec::decode` once more, as the pointer program that it is: symbols are
looked up in a table, their indexes go through an array of four, and the bytes
go unchecked into a buffer that was sized in advance. Every access through a
pointer ends in `ub` here when it is out of bounds.
-/

namespace TiktokenCpp

-- Values of type `alphabet_index_t` beyond the alphabet.
def paddingIdx : Nat := 2 ^ 8
def invalidIdx : Nat := 2 ^ 9
def eofIdx : Nat := 2 ^ 10

/-- `is_stop_character`: a bit above the lowest eight is set. -/
def isStopCharacter (idx : Nat) : Bool := idx >>> 8 ≠ 0

/-- An entry of the lookup table: the alphabet is searched first (`index_of`). -/
def lookupSymbol (c : UInt8) : Nat :=
  match alphabet.idxOf? c with
  | some i => i
  | none => if c = 0 then eofIdx else if c = paddingSymbol then paddingIdx else invalidIdx

def binaryBlockSize : Nat := 3
def encodedBlockSize : Nat := 4

/-- `decoded_max_size`, for a codec that requires padding. -/
def decodedMaxSize (encodedSize : Nat) : Nat := encodedSize / encodedBlockSize * binaryBlockSize

/-- `*ptr` -/
def readAt {α : Type} (xs : List α) (i : Nat) : Run α :=
  match xs[i]? with
  | some a => .ret a
  | none => .ub

/-- `*ptr = a` -/
def writeAt {α : Type} (xs : List α) (i : Nat) (a : α) : Run (List α) :=
  if i < xs.length then .ret (xs.set i a) else .ub

/-- The variables of `decode`, pointers as offsets. -/
structure DecodeState where
  src : Nat
  alphabetIndexes : List Nat
  alphabetIndexPtr : Nat
  /-- The storage behind `m_buffer`. -/
  buffer : Bytes
  offset : Nat

/-- `data::put` into a vector with direct access. -/
def DecodeState.put (s : DecodeState) (c : UInt8) : Run DecodeState := do
  let buffer ← writeAt s.buffer s.offset c
  return { s with buffer := buffer, offset := s.offset + 1 }

/-- `base64::decode_block` -/
def DecodeState.decodeBlock (s : DecodeState) : Run DecodeState := do
  let i ← readAt s.alphabetIndexes 0
  let j ← readAt s.alphabetIndexes 1
  let k ← readAt s.alphabetIndexes 2
  let l ← readAt s.alphabetIndexes 3
  let dec := i <<< 18 ||| j <<< 12 ||| k <<< 6 ||| l
  let s ← s.put (UInt8.ofNat (dec >>> 16))
  let s ← s.put (UInt8.ofNat (dec >>> 8 &&& 0xFF))
  s.put (UInt8.ofNat (dec &&& 0xFF))

/-- `base64::decode_tail` -/
def DecodeState.decodeTail (s : DecodeState) (idxLen : Nat) : Run DecodeState :=
  if idxLen = 1 then .throw .parseError
  else do
    let i ← readAt s.alphabetIndexes 0
    let j ← readAt s.alphabetIndexes 1
    let s ← s.put (UInt8.ofNat (i <<< 2 + (j &&& 0x30) >>> 4))
    if idxLen = 2 then return s
    else
      let j ← readAt s.alphabetIndexes 1
      let k ← readAt s.alphabetIndexes 2
      s.put (UInt8.ofNat ((j &&& 0xF) <<< 4 + (k &&& 0x3C) >>> 2))

section

variable (encoded : Bytes)

/-- The first loop: it ends at the end of the text or at a stop character, which
is left in the array. -/
def symbolLoop : (fuel : Nat) → DecodeState → Run DecodeState
  | fuel, s =>
    if s.src < encoded.length then
      match fuel with
      | 0 => .loop
      | fuel + 1 => do
        let c ← readAt encoded s.src
        let indexes ← writeAt s.alphabetIndexes s.alphabetIndexPtr (lookupSymbol c)
        let s := { s with alphabetIndexes := indexes }
        if isStopCharacter (lookupSymbol c) then return s
        else
          let s := { s with src := s.src + 1, alphabetIndexPtr := s.alphabetIndexPtr + 1 }
          if s.alphabetIndexPtr = encodedBlockSize then do
            let s ← s.decodeBlock
            symbolLoop fuel { s with alphabetIndexPtr := 0 }
          else symbolLoop fuel s
    else .ret s

/-- The loop over the padding, with `last_index_ptr`. All padding symbols are
stored in the one cell of the first. -/
def paddingLoop : (fuel last : Nat) → DecodeState → Run (Nat × DecodeState)
  | fuel, last, s =>
    if s.src < encoded.length then
      match fuel with
      | 0 => .loop
      | fuel + 1 => do
        let c ← readAt encoded s.src
        let indexes ← writeAt s.alphabetIndexes s.alphabetIndexPtr (lookupSymbol c)
        let s := { s with src := s.src + 1, alphabetIndexes := indexes }
        if lookupSymbol c = eofIdx then do
          let indexes ← writeAt s.alphabetIndexes s.alphabetIndexPtr paddingIdx
          return (last, { s with alphabetIndexes := indexes })
        else if lookupSymbol c ≠ paddingIdx then .throw .parseError
        else if last + 1 > encodedBlockSize then .throw .parseError
        else paddingLoop fuel (last + 1) s
    else .ret (last, s)

/-- What follows the first loop, up to the tail: `last_index_ptr`. -/
def readLast (s : DecodeState) : Run (Nat × DecodeState) := do
  let idx ← readAt s.alphabetIndexes s.alphabetIndexPtr
  if idx = invalidIdx then do
    let _ ← readAt encoded s.src
    .throw .parseError
  else
    let s := { s with src := s.src + 1 }
    if idx = paddingIdx then
      if s.alphabetIndexPtr = 0 then .throw .parseError
      else paddingLoop encoded encoded.length (s.alphabetIndexPtr + 1) s
    else return (s.alphabetIndexPtr, s)

/-- The tail, if a block was begun. -/
def finishBlock (last : Nat) (s : DecodeState) : Run DecodeState :=
  if last = 0 then .ret s
  else if last ≠ encodedBlockSize then .throw .parseError
  else if encodedBlockSize ≤ s.alphabetIndexPtr then .abort
  else s.decodeTail s.alphabetIndexPtr

/-- `codec::decode` into a vector: the buffer is sized, filled and cut down. -/
def streamDecode : Run Bytes := do
  let capacity := decodedMaxSize encoded.length
  let s ← symbolLoop encoded encoded.length ⟨0, [eofIdx, 0, 0, 0], 0, List.replicate capacity 0, 0⟩
  let (last, s) ← readLast encoded s
  let s ← finishBlock last s
  let result := (s.buffer ++ List.replicate s.offset 0).take s.offset
  Outcome.assert (result.length ≤ capacity)
  return result

end

end TiktokenCpp
