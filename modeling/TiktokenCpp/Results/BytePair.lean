import TiktokenCpp.Lib.GreedyMerge
import TiktokenCpp.Model.BytePair

/-!
# The incremental merge refines the naive one

`BytePairMerge` keeps a rank cached for every pair of adjacent segments and
re-ranks only the two pairs next to a merge. The invariant that carries the
proof says that `parts` is a function of the segmentation: `partsOf` lists the
boundaries of the segments with the rank each pair has *now*. One round of the
code takes `partsOf segs` to `partsOf` of what one round of the naive algorithm
of `Lib.GreedyMerge` makes of `segs` (`mergeRound_partsOf`), so whole runs agree
(`mergedParts_eq`), and so do the tokens (`bytePairEncode_eq_naive`).
-/

namespace TiktokenCpp

open GreedyMerge

section

variable (encoder : EncodeDict)

/-- The rank of a word: its token id. -/
def rankOf (word : Bytes) : Option Nat := (encoder.find? word).map UInt32.toNat

theorem rankOf_lt {word : Bytes} {r : Nat} (h : rankOf encoder word = some r) : r < sizeMax := by
  rw [rankOf, Option.map_eq_some_iff] at h
  obtain ⟨v, -, rfl⟩ := h
  have := v.toNat_lt
  unfold sizeMax
  omega

/-- The rank of the first two segments joined. -/
def pairRank : List Bytes → Option Nat
  | a :: b :: _ => rankOf encoder (a ++ b)
  | _ => none

/-- The vector `parts` of a segmentation that starts at offset `off`. -/
def partsOf : Nat → List Bytes → List Part
  | off, [] => [(off, sizeMax)]
  | off, a :: segs => (off, (pairRank encoder (a :: segs)).getD sizeMax) :: partsOf (off + a.length) segs

/-- The one-byte segments every run starts from. -/
def singletons (piece : Bytes) : List Bytes := piece.map fun b => [b]

/-- The segmentation naive byte-pair encoding ends with. -/
def naiveSegments (piece : Bytes) : List Bytes :=
  merge (rankOf encoder) piece.length (singletons piece)

/-- The ids of a list of segments; a segment without one is `out_of_range`. -/
def lookupAll : List Bytes → Run (List UInt32)
  | [] => .ret []
  | s :: segs => do
    let token ← EncodeDict.at encoder s
    let tokens ← lookupAll segs
    return token :: tokens

/-- Naive byte-pair encoding. -/
def naiveEncode (piece : Bytes) : Run (List UInt32) := lookupAll encoder (naiveSegments encoder piece)

-- ---------------------------------------------------------------------------
-- Boundaries
-- ---------------------------------------------------------------------------

/-- The offset of segment `i`. -/
def offsetOf (segs : List Bytes) (i : Nat) : Nat := (segs.take i).flatten.length

@[simp] theorem length_partsOf (off : Nat) (segs : List Bytes) :
    (partsOf encoder off segs).length = segs.length + 1 := by
  induction segs generalizing off with
  | nil => rfl
  | cons a segs ih => rw [partsOf, List.length_cons, ih, List.length_cons]

/-- Entry `i` of `parts` is the offset of segment `i` with the rank of the pair
that starts there. -/
theorem getElem?_partsOf {off i : Nat} {segs : List Bytes} (hi : i ≤ segs.length) :
    (partsOf encoder off segs)[i]? =
      some (off + offsetOf segs i, (pairRank encoder (segs.drop i)).getD sizeMax) := by
  induction segs generalizing off i with
  | nil =>
    have : i = 0 := by simpa using hi
    subst this
    rfl
  | cons a segs ih =>
    cases i with
    | zero => rfl
    | succ i =>
      rw [partsOf, List.getElem?_cons_succ, ih (by simpa using hi)]
      simp only [offsetOf, List.take_succ_cons, List.flatten_cons, List.length_append,
        List.drop_succ_cons, Nat.add_assoc]

theorem pairRank_drop {segs : List Bytes} {i : Nat} :
    pairRank encoder (segs.drop i) =
      if i + 2 ≤ segs.length then rankOf encoder ((segs.drop i).take 2).flatten else none := by
  match hd : segs.drop i with
  | [] =>
    have := congrArg List.length hd
    rw [List.length_drop, List.length_nil] at this
    rw [if_neg (by omega)]
    rfl
  | [a] =>
    have := congrArg List.length hd
    rw [List.length_drop, List.length_singleton] at this
    rw [if_neg (by omega)]
    rfl
  | a :: b :: rest =>
    have := congrArg List.length hd
    rw [List.length_drop, List.length_cons, List.length_cons] at this
    rw [if_pos (by omega)]
    simp [pairRank]

/-- The bytes between two boundaries are the segments between them. -/
theorem byteRange_offsets {segs : List Bytes} {i j : Nat} (hij : i ≤ j) (hj : j ≤ segs.length) :
    byteRange segs.flatten (offsetOf segs i) (offsetOf segs j) =
      .ret ((segs.drop i).take (j - i)).flatten := by
  have hsplit : segs.take j = segs.take i ++ (segs.drop i).take (j - i) := by
    conv => lhs; rw [← List.take_append_drop i segs]
    rw [List.take_append, List.take_take, Nat.min_eq_right hij, List.length_take,
      Nat.min_eq_left (by omega)]
  have htake : segs.flatten.take (offsetOf segs j) = (segs.take j).flatten := by
    have h : ((segs.take j).flatten ++ (segs.drop j).flatten).take (segs.take j).flatten.length =
        (segs.take j).flatten := List.take_left
    rwa [← List.flatten_append, List.take_append_drop] at h
  have hle : offsetOf segs i ≤ offsetOf segs j := by
    rw [offsetOf, offsetOf, hsplit, List.flatten_append, List.length_append]
    omega
  have hlen : offsetOf segs j ≤ segs.flatten.length := by
    have := congrArg List.length htake
    rw [List.length_take, offsetOf] at this
    rw [offsetOf]
    omega
  rw [byteRange, if_pos ⟨hle, hlen⟩, htake, hsplit, List.flatten_append]
  congr 1
  exact List.drop_left' rfl

/-- `parts` has the boundaries of `segs`, whatever ranks it caches. -/
def Boundaries (parts : List Part) (segs : List Bytes) : Prop :=
  parts.length = segs.length + 1 ∧
    ∀ i ≤ segs.length, ∃ r, parts[i]? = some (offsetOf segs i, r)

theorem boundaries_partsOf (segs : List Bytes) : Boundaries (partsOf encoder 0 segs) segs := by
  refine ⟨length_partsOf encoder 0 segs, ?_⟩
  intro i hi
  rw [getElem?_partsOf encoder hi, Nat.zero_add]
  exact ⟨_, rfl⟩

theorem Boundaries.modify {parts : List Part} {segs : List Bytes} (h : Boundaries parts segs)
    (i r : Nat) : Boundaries (parts.modify i fun p => (p.1, r)) segs := by
  refine ⟨by rw [List.length_modify, h.1], ?_⟩
  intro j hj
  obtain ⟨r', hr'⟩ := h.2 j hj
  rw [List.getElem?_modify, hr']
  by_cases hij : i = j
  · exact ⟨r, by simp [hij]⟩
  · exact ⟨r', by simp [hij]⟩

/-- `get_rank` reads the rank of `skip + 2` segments joined. -/
theorem getRank_of_boundaries {parts : List Part} {segs : List Bytes} (h : Boundaries parts segs)
    (i skip : Nat) :
    getRank encoder segs.flatten parts i skip =
      .ret (if i + skip + 2 ≤ segs.length then
        rankOf encoder ((segs.drop i).take (skip + 2)).flatten else none) := by
  rw [getRank, h.1]
  by_cases hlt : i + skip + 2 ≤ segs.length
  · obtain ⟨r₁, h₁⟩ := h.2 i (by omega)
    obtain ⟨r₂, h₂⟩ := h.2 (i + skip + 2) hlt
    rw [if_pos (by omega), if_pos hlt, partAt, h₁, Outcome.ret_bind, partAt, h₂,
      Outcome.ret_bind, byteRange_offsets (by omega) hlt, Outcome.ret_bind,
      show i + skip + 2 - i = skip + 2 by omega]
    rfl
  · rw [if_neg (by omega), if_neg hlt]
    rfl

-- ---------------------------------------------------------------------------
-- The search for the lowest rank
-- ---------------------------------------------------------------------------

/-- The best pair among the first `i` as the code remembers it. -/
def bestSoFar (best : Option (Nat × Nat)) : Nat × Nat :=
  match best with
  | some (i, r) => (r, i)
  | none => (sizeMax, 0)

/-- The last segment starts no pair. -/
theorem lowest_ranks (segs : List Bytes) :
    lowest (pairRanks (rankOf encoder) segs ++ [none]) =
      lowest (pairRanks (rankOf encoder) segs) := by
  rw [lowest_concat]
  cases lowest (pairRanks (rankOf encoder) segs) <;> rfl

theorem pairRank_eq_getElem? {segs : List Bytes} {i : Nat} (hi : i < segs.length) :
    (pairRanks (rankOf encoder) segs ++ [none])[i]? = some (pairRank encoder (segs.drop i)) := by
  induction segs generalizing i with
  | nil => simp at hi
  | cons a segs ih =>
    cases segs with
    | nil =>
      have : i = 0 := by simpa using hi
      subst this
      rfl
    | cons b rest =>
      cases i with
      | zero => rfl
      | succ i => exact ih (by simpa using hi)

/-- Looking at one more pair does what the comparison of the loop does. -/
theorem bestSoFar_concat {ranks : List (Option Nat)} {r : Option Nat}
    (hlt : ∀ v, some v ∈ ranks ++ [r] → v < sizeMax) :
    bestSoFar (lowest (ranks ++ [r])) =
      if r.getD sizeMax < (bestSoFar (lowest ranks)).1 then (r.getD sizeMax, ranks.length)
      else bestSoFar (lowest ranks) := by
  have hold : ∀ p, lowest ranks = some p → p.2 < sizeMax := by
    intro p hp
    have hmem := List.mem_of_getElem? (lowest_spec hp).1
    exact hlt p.2 (List.mem_append_left _ hmem)
  rw [lowest_concat]
  cases r with
  | none =>
    cases hlow : lowest ranks with
    | none => rfl
    | some p =>
      have hp := hold p hlow
      have hnot : ¬ (none : Option Nat).getD sizeMax < (bestSoFar (some p)).1 := by
        show ¬ sizeMax < p.2
        omega
      rw [if_neg hnot]
  | some v =>
    have hv : v < sizeMax := hlt v (by simp)
    cases hlow : lowest ranks with
    | none =>
      have hless : (some v).getD sizeMax < (bestSoFar none).1 := hv
      rw [if_pos hless]
      rfl
    | some p =>
      by_cases hvp : v < p.2
      · have hless : (some v).getD sizeMax < (bestSoFar (some p)).1 := hvp
        simp only [if_pos hvp]
        rw [if_pos hless]
        rfl
      · have hnot : ¬ (some v).getD sizeMax < (bestSoFar (some p)).1 := hvp
        simp only [if_neg hvp]
        rw [if_neg hnot]

theorem ranks_lt {segs : List Bytes} {v : Nat}
    (h : some v ∈ pairRanks (rankOf encoder) segs) : v < sizeMax := by
  obtain ⟨k, hk⟩ := List.mem_iff_getElem?.mp h
  obtain ⟨a, b, -, -, hr⟩ := getElem?_pairRanks.mp hk
  exact rankOf_lt encoder hr.symm

theorem minRank_partsOf (segs : List Bytes) :
    minRank (partsOf encoder 0 segs) =
      .ret (bestSoFar (lowest (pairRanks (rankOf encoder) segs))) := by
  set ranks := pairRanks (rankOf encoder) segs ++ [none] with hranks
  have hlen : subSize (partsOf encoder 0 segs).length 1 = segs.length := by simp
  have hstep : ∀ i best, 0 ≤ i → i < 0 + segs.length →
      best = bestSoFar (lowest (ranks.take i)) →
      ∃ best', (do
        let p ← partAt (partsOf encoder 0 segs) i
        return if p.2 < best.1 then (p.2, i) else best : Run (Nat × Nat)) = .ret best' ∧
        best' = bestSoFar (lowest (ranks.take (i + 1))) := by
    intro i best _ hi hbest
    rw [Nat.zero_add] at hi
    have hget : ranks[i]? = some (pairRank encoder (segs.drop i)) := pairRank_eq_getElem? encoder hi
    have htake : ranks.take (i + 1) = ranks.take i ++ [pairRank encoder (segs.drop i)] := by
      rw [List.take_add_one, hget, Option.toList_some]
    have hlenTake : (ranks.take i).length = i := by
      rw [List.length_take, hranks, List.length_append, length_pairRanks, List.length_singleton]
      omega
    refine ⟨_, ?_, rfl⟩
    rw [partAt, getElem?_partsOf encoder (by omega), htake, bestSoFar_concat, hlenTake, hbest]
    · rfl
    · intro v hv
      rw [← htake] at hv
      have hv := List.mem_of_mem_take hv
      rw [hranks, List.mem_append] at hv
      rcases hv with hv | hv
      · exact ranks_lt encoder hv
      · simp at hv
  have hinit : (sizeMax, 0) = bestSoFar (lowest (ranks.take 0)) := rfl
  obtain ⟨best, hloop, hbest⟩ := forLoop_ret
    (fun i best => best = bestSoFar (lowest (ranks.take i))) hstep hinit
  have htake : lowest (ranks.take (0 + segs.length)) = lowest (pairRanks (rankOf encoder) segs) := by
    cases segs with
    | nil => rfl
    | cons a segs =>
      rw [List.take_of_length_le, hranks, lowest_ranks]
      rw [hranks, List.length_append, length_pairRanks, List.length_cons, List.length_singleton]
      omega
  rw [minRank, hlen, hloop, hbest, htake]

-- ---------------------------------------------------------------------------
-- One round
-- ---------------------------------------------------------------------------

/-- What a merge at `i` does to `parts`, given the two new ranks. -/
def fuse (i r r' : Nat) (parts : List Part) : List Part :=
  let parts := parts.modify i fun p => (p.1, r)
  let parts := if 0 < i then parts.modify (i - 1) fun p => (p.1, r') else parts
  parts.eraseIdx (i + 1)

/-- The new ranks are those of the merged segmentation, so `parts` is again
the vector of a segmentation. The induction walks to the merge; only the last
two steps of the walk touch an entry. -/
theorem fuse_partsOf (off i : Nat) (segs : List Bytes) (hi : i + 1 < segs.length) :
    fuse i ((pairRank encoder ((mergeAt i segs).drop i)).getD sizeMax)
        ((pairRank encoder ((mergeAt i segs).drop (i - 1))).getD sizeMax) (partsOf encoder off segs) =
      partsOf encoder off (mergeAt i segs) := by
  induction segs generalizing off i with
  | nil => simp at hi
  | cons a segs ih =>
    obtain ⟨b, rest, rfl⟩ : ∃ b rest, segs = b :: rest := by
      cases segs with
      | nil => simp at hi
      | cons b rest => exact ⟨b, rest, rfl⟩
    match i with
    | 0 => simp [fuse, partsOf, mergeAt, Nat.add_assoc]
    | 1 =>
      obtain ⟨c, rest, rfl⟩ : ∃ c rest', rest = c :: rest' := by
        cases rest with
        | nil => simp at hi
        | cons c rest => exact ⟨c, rest, rfl⟩
      simp [fuse, partsOf, mergeAt, Nat.add_assoc]
    | i + 2 =>
      have hrec := ih (off + a.length) (i + 1) (by simp at hi ⊢; omega)
      rw [mergeAt, partsOf.eq_2 _ off a (mergeAt (i + 1) (b :: rest)), ← hrec]
      simp [fuse, mergeAt, pairRank, partsOf]

/-- The first segments of a merged segmentation, in terms of the old ones. -/
theorem pairRank_mergeAt_drop {segs : List Bytes} {i : Nat} (hi : i + 1 < segs.length) :
    pairRank encoder ((mergeAt i segs).drop i) =
      if i + 3 ≤ segs.length then rankOf encoder ((segs.drop i).take 3).flatten else none := by
  induction segs generalizing i with
  | nil => simp at hi
  | cons a segs ih =>
    cases i with
    | zero =>
      match segs with
      | [] => simp at hi
      | [b] => simp [mergeAt, pairRank]
      | b :: c :: rest => simp [mergeAt, pairRank]
    | succ i =>
      rw [mergeAt, List.drop_succ_cons, ih (by simpa using hi)]
      simp

theorem pairRank_mergeAt_drop_pred {segs : List Bytes} {i : Nat} (hpos : 0 < i)
    (hi : i + 1 < segs.length) :
    pairRank encoder ((mergeAt i segs).drop (i - 1)) =
      rankOf encoder ((segs.drop (i - 1)).take 3).flatten := by
  induction segs generalizing i with
  | nil => simp at hi
  | cons a segs ih =>
    match i with
    | 1 =>
      match segs with
      | b :: c :: rest => simp [mergeAt, pairRank]
      | [_] | [] => simp at hi
    | i + 2 =>
      have := ih (i := i + 1) (by omega) (by simpa using hi)
      simpa [mergeAt] using this

/-- **One round of the code is one naive round.** -/
theorem mergeRound_partsOf (segs : List Bytes) :
    mergeRound encoder segs.flatten (partsOf encoder 0 segs) =
      .ret ((bestPair (rankOf encoder) segs).map fun i => partsOf encoder 0 (mergeAt i segs)) := by
  rw [mergeRound, minRank_partsOf, Outcome.ret_bind]
  cases hlow : lowest (pairRanks (rankOf encoder) segs) with
  | none => simp [bestPair, hlow, bestSoFar]
  | some p =>
    obtain ⟨i, r⟩ := p
    have hbest : bestPair (rankOf encoder) segs = some i := by rw [bestPair, hlow]; rfl
    obtain ⟨a, b, r₀, -, hb, hr₀, -⟩ := bestPair_spec hbest
    have hi : i + 1 < segs.length := bestPair_lt hbest
    have hr : r < sizeMax := by
      obtain ⟨c, d, -, -, hcd⟩ := getElem?_pairRanks.mp (lowest_spec hlow).1
      exact rankOf_lt encoder hcd.symm
    have hbound := boundaries_partsOf encoder segs
    have hfuse := fuse_partsOf encoder 0 i segs hi
    rw [pairRank_mergeAt_drop encoder hi] at hfuse
    have hne : r ≠ sizeMax := by omega
    rw [show bestSoFar (some (i, r)) = (r, i) from rfl, hbest, Option.map_some, ← hfuse]
    show (if r ≠ sizeMax then _ else _) = _
    rw [if_pos hne, getRank_of_boundaries encoder hbound, Outcome.ret_bind, setRank,
      if_pos (by rw [length_partsOf]; omega), Outcome.ret_bind]
    rcases Nat.eq_zero_or_pos i with rfl | hpos
    · rw [if_neg (Nat.lt_irrefl 0), Outcome.pure_eq, Outcome.ret_bind]
      beta_reduce
      rw [erasePart, if_pos (by rw [List.length_modify, length_partsOf]; omega)]
      rfl
    · rw [pairRank_mergeAt_drop_pred encoder hpos hi, if_pos hpos,
        getRank_of_boundaries encoder (hbound.modify i _), if_pos (by omega), Outcome.ret_bind,
        setRank, if_pos (by rw [List.length_modify, length_partsOf]; omega), Outcome.ret_bind]
      beta_reduce
      rw [erasePart, if_pos (by rw [List.length_modify, List.length_modify, length_partsOf]; omega),
        fuse, if_pos hpos]
      rfl

-- ---------------------------------------------------------------------------
-- The whole run
-- ---------------------------------------------------------------------------

theorem offsetOf_singletons {piece : Bytes} {i : Nat} (hi : i ≤ piece.length) :
    offsetOf (singletons piece) i = i := by
  induction piece generalizing i with
  | nil =>
    have : i = 0 := by simpa using hi
    subst this
    rfl
  | cons b piece ih =>
    cases i with
    | zero => rfl
    | succ i =>
      have hrec := ih (i := i) (by simpa using hi)
      unfold offsetOf singletons at hrec ⊢
      rw [List.map_cons, List.take_succ_cons, List.flatten_cons, List.length_append, hrec,
        List.length_singleton]
      omega

@[simp] theorem length_singletons (piece : Bytes) : (singletons piece).length = piece.length :=
  List.length_map ..

@[simp] theorem flatten_singletons (piece : Bytes) : (singletons piece).flatten = piece := by
  induction piece with
  | nil => rfl
  | cons b piece ih =>
    unfold singletons at ih ⊢
    rw [List.map_cons, List.flatten_cons, ih]
    rfl

/-- `parts` after `i` passes of the first loop: the first `i` pairs are ranked. -/
def RankedUpTo (piece : Bytes) (i : Nat) (parts : List Part) : Prop :=
  parts.length = piece.length + 1 ∧
    ∀ k ≤ piece.length, parts[k]? =
      some (k, if k < i then (pairRank encoder ((singletons piece).drop k)).getD sizeMax
        else sizeMax)

theorem RankedUpTo.boundaries {piece : Bytes} {i : Nat} {parts : List Part}
    (h : RankedUpTo encoder piece i parts) : Boundaries parts (singletons piece) := by
  refine ⟨by rw [h.1, length_singletons], ?_⟩
  intro k hk
  rw [length_singletons] at hk
  rw [h.2 k hk, offsetOf_singletons hk]
  exact ⟨_, rfl⟩

theorem rankedUpTo_initParts (piece : Bytes) :
    RankedUpTo encoder piece 0 (initParts piece.length) := by
  refine ⟨by simp [initParts], ?_⟩
  intro k hk
  rw [initParts, List.getElem?_map, List.getElem?_range (by omega), if_neg (Nat.not_lt_zero k)]
  rfl

/-- One pass ranks one more pair. -/
theorem RankedUpTo.step {piece : Bytes} {i : Nat} {parts : List Part}
    (h : RankedUpTo encoder piece i parts) (hi : i < piece.length) :
    ∃ parts', (do
      match ← getRank encoder piece parts i 0 with
      | some rank => setRank parts i rank
      | none => return parts) = .ret parts' ∧ RankedUpTo encoder piece (i + 1) parts' := by
  have hget := getRank_of_boundaries encoder h.boundaries i 0
  rw [flatten_singletons, Nat.add_zero, Nat.zero_add, ← pairRank_drop] at hget
  rw [hget, Outcome.ret_bind]
  cases hpair : pairRank encoder ((singletons piece).drop i) with
  | none =>
    refine ⟨parts, rfl, h.1, ?_⟩
    intro k hk
    rw [h.2 k hk]
    by_cases hki : k = i
    · subst hki
      rw [if_neg (Nat.lt_irrefl k), if_pos (Nat.lt_succ_self k), hpair]
      rfl
    · by_cases hlt : k < i
      · rw [if_pos hlt, if_pos (by omega)]
      · rw [if_neg hlt, if_neg (by omega)]
  | some r =>
    refine ⟨parts.modify i fun p => (p.1, r), ?_, ?_, ?_⟩
    · show setRank parts i r = _
      rw [setRank, h.1, if_pos (by omega)]
    · rw [List.length_modify, h.1]
    · intro k hk
      rw [List.getElem?_modify, h.2 k hk]
      by_cases hki : i = k
      · subst hki
        simp [hpair]
      · have hiff : k < i ↔ k < i + 1 := by omega
        simp [hki, hiff]

/-- The first loop ranks every pair of adjacent bytes. The last byte and the
end of the piece begin no pair, and the loop leaves their sentinels alone. -/
theorem initRanks_eq {piece : Bytes} (hpiece : piece ≠ []) :
    initRanks encoder piece (initParts piece.length) =
      .ret (partsOf encoder 0 (singletons piece)) := by
  have hpos : 0 < piece.length := List.length_pos_iff.mpr hpiece
  have hbound : subSize (initParts piece.length).length 2 = piece.length - 1 := by
    have hlen := (rankedUpTo_initParts encoder piece).1
    rw [hlen, subSize_of_le (by omega)]
    omega
  obtain ⟨parts, hloop, hparts⟩ := forLoop_ret (RankedUpTo encoder piece)
    (n := piece.length - 1) (i := 0) (fun i parts _ hi h => h.step encoder (by omega))
    (rankedUpTo_initParts encoder piece)
  have hrun : initRanks encoder piece (initParts piece.length) = .ret parts := by
    rw [initRanks, hbound]
    exact hloop
  rw [hrun]
  congr 1
  apply List.ext_getElem?
  intro k
  by_cases hk : k ≤ piece.length
  · rw [hparts.2 k hk, getElem?_partsOf encoder (by rwa [length_singletons]),
      offsetOf_singletons hk, Nat.zero_add, Nat.zero_add]
    by_cases hlt : k < piece.length - 1
    · rw [if_pos hlt]
    · rw [if_neg hlt, pairRank_drop, length_singletons, if_neg (by omega)]
      rfl
  · rw [List.getElem?_eq_none (by rw [hparts.1]; omega),
      List.getElem?_eq_none (by rw [length_partsOf, length_singletons]; omega)]

/-- The merge loop is the naive loop on the segments. -/
theorem mergeLoop_partsOf (n : Nat) (segs : List Bytes) (hn : segs.length ≤ n) :
    mergeLoop encoder segs.flatten n (partsOf encoder 0 segs) =
      .ret (partsOf encoder 0 (merge (rankOf encoder) n segs)) := by
  induction n generalizing segs with
  | zero =>
    have : segs = [] := List.length_eq_zero_iff.mp (by omega)
    subst this
    rfl
  | succ n ih =>
    rw [mergeLoop, length_partsOf]
    by_cases hempty : segs = []
    · subst hempty
      rfl
    · have hpos : 0 < segs.length := List.length_pos_iff.mpr hempty
      rw [if_pos (by omega)]
      show (mergeRound encoder segs.flatten (partsOf encoder 0 segs) >>= _) = _
      rw [mergeRound_partsOf, Outcome.ret_bind, merge]
      cases hbest : bestPair (rankOf encoder) segs with
      | none => rfl
      | some i =>
        have hlen := length_mergeAt (bestPair_lt hbest)
        have hrec := ih (mergeAt i segs) (by omega)
        rw [flatten_mergeAt] at hrec
        exact hrec

/-- **What the merge loop ends with.** -/
theorem mergedParts_eq {piece : Bytes} (hpiece : piece ≠ []) :
    mergedParts encoder piece = .ret (partsOf encoder 0 (naiveSegments encoder piece)) := by
  have hloop := mergeLoop_partsOf encoder piece.length (singletons piece)
    (by rw [length_singletons])
  rw [flatten_singletons] at hloop
  rw [mergedParts, initRanks_eq encoder hpiece, Outcome.ret_bind, hloop]
  rfl

theorem flatten_naiveSegments (piece : Bytes) : (naiveSegments encoder piece).flatten = piece := by
  rw [naiveSegments, merge_flatten, flatten_singletons]

-- ---------------------------------------------------------------------------
-- Tokens
-- ---------------------------------------------------------------------------

/-- The pairs of adjacent boundaries. -/
def boundaryPairs : List Part → List (Nat × Nat)
  | p :: q :: parts => (p.1, q.1) :: boundaryPairs (q :: parts)
  | _ => []

/-- Calls of `f` on a list of ranges, one after the other. -/
def emitAll (f : Nat × Nat → Run UInt32) : List (Nat × Nat) → Run (List UInt32)
  | [] => .ret []
  | p :: ps => do
    let token ← f p
    let tokens ← emitAll f ps
    return token :: tokens

/-- The last loop of `BytePairMerge` calls `f` on the ranges of the segments. -/
theorem emitLoop (f : Nat × Nat → Run UInt32) (parts : List Part) {n i : Nat}
    (hn : i + n + 1 = parts.length) (out : List UInt32) :
    forLoop (fun i out => do
        let p ← partAt parts i
        let q ← partAt parts (i + 1)
        let token ← f (p.1, q.1)
        return out ++ [token]) n i out =
      (emitAll f (boundaryPairs (parts.drop i)) >>= fun tokens => .ret (out ++ tokens)) := by
  induction n generalizing i out with
  | zero =>
    obtain ⟨p, hp⟩ := List.length_eq_one_iff.mp (show (parts.drop i).length = 1 by
      rw [List.length_drop]
      omega)
    rw [hp]
    show Outcome.ret out = .ret (out ++ [])
    rw [List.append_nil]
  | succ n ih =>
    have hi : i < parts.length := by omega
    have hi' : i + 1 < parts.length := by omega
    have hrec := ih (i := i + 1) (by omega)
    rw [forLoop, partAt, List.getElem?_eq_getElem hi, Outcome.ret_bind, partAt,
      List.getElem?_eq_getElem hi', Outcome.ret_bind, List.drop_eq_getElem_cons hi,
      List.drop_eq_getElem_cons hi', boundaryPairs, ← List.drop_eq_getElem_cons hi', emitAll]
    cases f (parts[i].1, parts[i + 1].1) with
    | ret token =>
      refine (hrec (out ++ [token])).trans ?_
      rw [Outcome.ret_bind, Outcome.bind_assoc]
      refine Outcome.bind_congr ?_
      intro tokens _
      rw [List.append_assoc]
      rfl
    | _ => rfl

theorem bytePairMerge_eq_emitAll {piece : Bytes} {parts : List Part}
    (hmerged : mergedParts encoder piece = .ret parts) (hpos : 0 < parts.length)
    (f : Nat × Nat → Run UInt32) :
    bytePairMerge encoder piece f = emitAll f (boundaryPairs parts) := by
  have hemit := emitLoop f parts (n := parts.length - 1) (i := 0) (by omega) []
  rw [bytePairMerge, hmerged, Outcome.ret_bind, subSize_of_le (by omega)]
  refine hemit.trans ?_
  rw [List.drop_zero]
  cases emitAll f (boundaryPairs parts) <;> rfl

theorem partsOf_eq_cons (off : Nat) (segs : List Bytes) :
    ∃ r parts, partsOf encoder off segs = (off, r) :: parts := by
  match segs with
  | [] => exact ⟨_, _, rfl⟩
  | _ :: _ => exact ⟨_, _, rfl⟩

theorem boundaryPairs_partsOf_cons (off : Nat) (a : Bytes) (segs : List Bytes) :
    boundaryPairs (partsOf encoder off (a :: segs)) =
      (off, off + a.length) :: boundaryPairs (partsOf encoder (off + a.length) segs) := by
  obtain ⟨r, parts, hparts⟩ := partsOf_eq_cons encoder (off + a.length) segs
  rw [partsOf, hparts, boundaryPairs]

theorem byteRange_mid (pre a rest : Bytes) :
    byteRange (pre ++ (a ++ rest)) pre.length (pre.length + a.length) = .ret a := by
  have htake : (pre ++ (a ++ rest)).take (pre.length + a.length) = pre ++ a := by
    rw [← List.append_assoc]
    exact List.take_left' List.length_append
  rw [byteRange, if_pos (by simp only [List.length_append]; omega), htake, List.drop_left]

/-- With the lookup of `BytePairEncode` for `f`, the segments are looked up. -/
theorem emitAll_partsOf (pre : Bytes) (segs : List Bytes) :
    emitAll (fun p => do
        let key ← byteRange (pre ++ segs.flatten) p.1 p.2
        EncodeDict.at encoder key) (boundaryPairs (partsOf encoder pre.length segs)) =
      lookupAll encoder segs := by
  induction segs generalizing pre with
  | nil => rfl
  | cons a segs ih =>
    have hrec := ih (pre ++ a)
    rw [List.length_append, List.append_assoc, ← List.flatten_cons] at hrec
    rw [boundaryPairs_partsOf_cons, emitAll, hrec, List.flatten_cons, byteRange_mid]
    rfl

theorem bytePairMerge_eq {piece : Bytes} (hpiece : piece ≠ []) :
    bytePairMerge encoder piece (fun p => do
      let key ← byteRange piece p.1 p.2
      EncodeDict.at encoder key) = naiveEncode encoder piece := by
  have hemit := emitAll_partsOf encoder [] (naiveSegments encoder piece)
  rw [List.nil_append, flatten_naiveSegments, List.length_nil] at hemit
  rw [bytePairMerge_eq_emitAll encoder (mergedParts_eq encoder hpiece) (by rw [length_partsOf]; omega),
    hemit, naiveEncode]

theorem bytePairEncode_eq {piece : Bytes} (hpiece : piece ≠ []) :
    bytePairEncode encoder piece = naiveEncode encoder piece := by
  rw [bytePairEncode]
  by_cases hone : piece.length = 1
  · -- a single byte is looked up without the loops
    obtain ⟨b, rfl⟩ := List.length_eq_one_iff.mp hone
    rfl
  · rw [if_neg hone, bytePairMerge_eq encoder hpiece]

theorem lookupAll_finishes (segs : List Bytes) : (lookupAll encoder segs).Finishes := by
  induction segs with
  | nil => trivial
  | cons s segs ih =>
    rw [lookupAll]
    refine Outcome.Finishes.bind ?_ fun token _ => Outcome.Finishes.bind ih fun tokens _ => Outcome.finishes_ret _
    unfold EncodeDict.at
    split <;> trivial

/-- A word is encoded or refused; the loops of the merge come to an end. -/
theorem bytePairEncode_finishes {piece : Bytes} (hpiece : piece ≠ []) :
    (bytePairEncode encoder piece).Finishes := by
  rw [bytePairEncode_eq encoder hpiece]
  exact lookupAll_finishes encoder _

-- ---------------------------------------------------------------------------
-- The cache, round by round
-- ---------------------------------------------------------------------------

/-- The segments whose boundaries are in `parts`. -/
def segmentsOf (piece : Bytes) : List Part → List Bytes
  | p :: q :: parts => (piece.take q.1).drop p.1 :: segmentsOf piece (q :: parts)
  | _ => []

/-- Entry `i` caches the rank of segments `i` and `i + 1` joined, or the
sentinel when they have none. -/
def CacheCoherent (piece : Bytes) (parts : List Part) : Prop :=
  ∀ (i : Nat) (p : Part), parts[i]? = some p →
    p.2 = (pairRank encoder ((segmentsOf piece parts).drop i)).getD sizeMax

/-- The values of `parts` at the start of a round of the merge loop. -/
inductive RoundStart (piece : Bytes) : List Part → Prop where
  | first {parts : List Part} (hrun : initRanks encoder piece (initParts piece.length) = .ret parts) :
      RoundStart piece parts
  | next {parts parts' : List Part} (hprev : RoundStart piece parts)
      (hrun : mergeRound encoder piece parts = .ret (some parts')) : RoundStart piece parts'

theorem segmentsOf_partsOf (pre : Bytes) (segs : List Bytes) :
    segmentsOf (pre ++ segs.flatten) (partsOf encoder pre.length segs) = segs := by
  induction segs generalizing pre with
  | nil => rfl
  | cons a segs ih =>
    have hrec := ih (pre ++ a)
    rw [List.length_append, List.append_assoc, ← List.flatten_cons] at hrec
    obtain ⟨r, parts, hparts⟩ := partsOf_eq_cons encoder (pre.length + a.length) segs
    rw [partsOf, hparts, segmentsOf, ← hparts, hrec]
    congr 1
    have htake : (pre ++ a ++ segs.flatten).take (pre ++ a).length = pre ++ a := List.take_left
    rw [List.length_append, List.append_assoc] at htake
    rw [List.flatten_cons, htake]
    exact List.drop_left' rfl

/-- Every round starts from the vector of a segmentation of the piece. -/
theorem RoundStart.eq_partsOf {piece : Bytes} (hpiece : piece ≠ []) {parts : List Part}
    (h : RoundStart encoder piece parts) :
    ∃ segs, segs.flatten = piece ∧ parts = partsOf encoder 0 segs := by
  induction h with
  | first hrun =>
    rw [initRanks_eq encoder hpiece] at hrun
    exact ⟨singletons piece, flatten_singletons piece, (Outcome.ret.inj hrun).symm⟩
  | next _ hrun ih =>
    obtain ⟨segs, rfl, rfl⟩ := ih
    rw [mergeRound_partsOf] at hrun
    obtain ⟨i, -, rfl⟩ := Option.map_eq_some_iff.mp (Outcome.ret.inj hrun)
    exact ⟨mergeAt i segs, flatten_mergeAt i segs, rfl⟩

theorem cacheCoherent_partsOf (segs : List Bytes) :
    CacheCoherent encoder segs.flatten (partsOf encoder 0 segs) := by
  intro i p hp
  have hsegs := segmentsOf_partsOf encoder [] segs
  rw [List.nil_append, List.length_nil] at hsegs
  have hi : i ≤ segs.length := by
    have := (List.getElem?_eq_some_iff.mp hp).1
    rw [length_partsOf] at this
    omega
  rw [getElem?_partsOf encoder hi] at hp
  rw [hsegs, ← Option.some.inj hp]

/-- **The incremental merge is naive byte-pair encoding.** The code returns, or
throws, what the naive algorithm does; every round starts with a coherent
cache; and the merge loop ends on the naive segmentation, where no two adjacent
segments join to a key. -/
theorem bytePairEncode_eq_naive {piece : Bytes} (hpiece : piece ≠ []) :
    bytePairEncode encoder piece = naiveEncode encoder piece ∧
      (∀ parts, RoundStart encoder piece parts →
        (segmentsOf piece parts).flatten = piece ∧ CacheCoherent encoder piece parts) ∧
      ∃ parts, mergedParts encoder piece = .ret parts ∧
        segmentsOf piece parts = naiveSegments encoder piece ∧
        Terminal (rankOf encoder) (segmentsOf piece parts) := by
  refine ⟨bytePairEncode_eq encoder hpiece, ?_, ?_⟩
  · intro parts hround
    obtain ⟨segs, hflat, rfl⟩ := hround.eq_partsOf encoder hpiece
    have hsegs := segmentsOf_partsOf encoder [] segs
    rw [List.nil_append, List.length_nil, hflat] at hsegs
    refine ⟨by rw [hsegs, hflat], ?_⟩
    rw [← hflat]
    exact cacheCoherent_partsOf encoder segs
  · have hsegs := segmentsOf_partsOf encoder [] (naiveSegments encoder piece)
    rw [List.nil_append, List.length_nil, flatten_naiveSegments] at hsegs
    refine ⟨_, mergedParts_eq encoder hpiece, hsegs, ?_⟩
    rw [hsegs, naiveSegments]
    exact merge_terminal (by rw [length_singletons]; omega)

/-- A dictionary in which joining two bytes opens the way to a longer merge. -/
def abDict : EncodeDict :=
  UnorderedMap.empty.emplaceAll [(str "a", 0), (str "b", 1), (str "ab", 2), (str "abab", 3)]

theorem bytePairEncode_eq_naive_abab : bytePairEncode abDict (str "ababa") = .ret [3, 0] :=
  (bytePairEncode_eq_naive abDict (by decide : str "ababa" ≠ [])).1.trans (by decide)

end

end TiktokenCpp
