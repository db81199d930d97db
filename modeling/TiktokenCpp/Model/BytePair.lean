import TiktokenCpp.Model.Definitions

/-!
# Byte-pair encoding of one word

`InitParts`, `CoreBpe::BytePairMerge` and `CoreBpe::BytePairEncode`. The vector
`parts` holds the start of every segment with the cached rank of the segment
joined to the next one; its last entry is the end of the piece. Every access
that the C++ makes without a check ends in `ub` here when it is out of bounds.
-/

namespace TiktokenCpp

/-- Start of a segment and cached rank of the pair it begins. -/
abbrev Part := Nat × Nat

/-- `m_encoder->at(key)` -/
def EncodeDict.at (encoder : EncodeDict) (key : Bytes) : Run UInt32 :=
  match encoder.find? key with
  | some rank => .ret rank
  | none => .throw .outOfRange

def initParts (size : Nat) : List Part := (List.range (size + 1)).map fun i => (i, sizeMax)

/-- `parts[i]` -/
def partAt (parts : List Part) (i : Nat) : Run Part :=
  match parts[i]? with
  | some p => .ret p
  | none => .ub

/-- `std::vector<uint8_t>(piece.begin() + first, piece.begin() + last)` -/
def byteRange (piece : Bytes) (first last : Nat) : Run Bytes :=
  if first ≤ last ∧ last ≤ piece.length then .ret ((piece.take last).drop first) else .ub

/-- `parts[i].second = rank` -/
def setRank (parts : List Part) (i rank : Nat) : Run (List Part) :=
  if i < parts.length then .ret (parts.modify i fun p => (p.1, rank)) else .ub

/-- `parts.erase(parts.begin() + i)` -/
def erasePart (parts : List Part) (i : Nat) : Run (List Part) :=
  if i < parts.length then .ret (parts.eraseIdx i) else .ub

section

variable (encoder : EncodeDict) (piece : Bytes)

/-- The lambda `get_rank` of `BytePairMerge`. -/
def getRank (parts : List Part) (startIdx skip : Nat) : Run (Option Nat) :=
  if startIdx + skip + 2 < parts.length then do
    let a ← partAt parts startIdx
    let b ← partAt parts (startIdx + skip + 2)
    let key ← byteRange piece a.1 b.1
    return (encoder.find? key).map UInt32.toNat
  else
    return none

/-- The first loop of `BytePairMerge`: rank every pair of adjacent bytes. -/
def initRanks (parts : List Part) : Run (List Part) :=
  forLoop (fun i parts => do
    match ← getRank encoder piece parts i 0 with
    | some rank => setRank parts i rank
    | none => return parts) (subSize parts.length 2) 0 parts

/-- The search for the lowest cached rank: `(min_rank, min_rank_idx)`. -/
def minRank (parts : List Part) : Run (Nat × Nat) :=
  forLoop (fun i best => do
    let p ← partAt parts i
    return if p.2 < best.1 then (p.2, i) else best) (subSize parts.length 1) 0 (sizeMax, 0)

/-- One round of the merge loop; `none` is the `break`. -/
def mergeRound (parts : List Part) : Run (Option (List Part)) := do
  let (minRank, i) ← minRank parts
  if minRank ≠ sizeMax then
    let rank ← getRank encoder piece parts i 1
    let parts ← setRank parts i (rank.getD sizeMax)
    let parts ←
      if 0 < i then do
        let rank ← getRank encoder piece parts (i - 1) 1
        setRank parts (i - 1) (rank.getD sizeMax)
      else
        pure parts
    let parts ← erasePart parts (i + 1)
    return some parts
  else
    return none

/-- `while (parts.size() > 1)`, at most `n` rounds. -/
def mergeLoop : Nat → List Part → Run (List Part)
  | n, parts =>
    if 1 < parts.length then
      match n with
      | 0 => .loop
      | n + 1 => do
        match ← mergeRound encoder piece parts with
        | some parts => mergeLoop n parts
        | none => return parts
    else
      return parts

/-- `parts` after the merge loop. Every round erases an entry, so as many
rounds as the piece has bytes are enough. -/
def mergedParts : Run (List Part) := do
  let parts ← initRanks encoder piece (initParts piece.length)
  mergeLoop encoder piece piece.length parts

def bytePairMerge (f : Nat × Nat → Run UInt32) : Run (List UInt32) := do
  let parts ← mergedParts encoder piece
  forLoop (fun i out => do
    let p ← partAt parts i
    let q ← partAt parts (i + 1)
    let token ← f (p.1, q.1)
    return out ++ [token]) (subSize parts.length 1) 0 []

def bytePairEncode : Run (List UInt32) :=
  if piece.length = 1 then do
    let token ← EncodeDict.at encoder piece
    return [token]
  else
    bytePairMerge encoder piece fun p => do
      let key ← byteRange piece p.1 p.2
      EncodeDict.at encoder key

end

end TiktokenCpp
