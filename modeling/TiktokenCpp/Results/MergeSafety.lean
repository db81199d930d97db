import TiktokenCpp.Results.BytePair

/-!
# The merge loop stays in bounds

Every value that the vector `parts` takes during `BytePairMerge` cuts the piece
into segments: its boundaries increase strictly from the start of the piece to
its end, the last entry keeps the sentinel, and a segment is one byte or a key.
A change of a rank touches none of this, as long as it is not the rank of the
last entry; an erasure makes one segment of two whose concatenation is a key.

## Results

* `Tiles.setRank`      -- the assignments to `parts[i].second` keep the tiling.
* `RoundStart.tiled`   -- so do the rounds, down to at least two entries.
* `Visited.tiles`      -- so every value of the vector tiles the piece.
* `bytePairMerge_safe` -- no access is out of bounds, whatever `f` is, and
  `m_encoder->at` fails on single bytes only.
-/

namespace TiktokenCpp

open GreedyMerge

section

variable (encoder : EncodeDict)

/-- A segment is a single byte or a key of the dictionary. -/
def ByteOrKey (s : Bytes) : Prop := s.length = 1 ∨ ∃ rank, encoder.find? s = some rank

/-- `parts` cuts the piece into segments. -/
structure Tiles (piece : Bytes) (parts : List Part) : Prop where
  increasing : (parts.map Prod.fst).Pairwise (· < ·)
  first : (parts.map Prod.fst).head? = some 0
  last : parts.getLast? = some (piece.length, sizeMax)
  two_le : 2 ≤ parts.length
  segments : ∀ s ∈ segmentsOf piece parts, ByteOrKey encoder s
  flatten : (segmentsOf piece parts).flatten = piece

-- ---------------------------------------------------------------------------
-- Segmentations
-- ---------------------------------------------------------------------------

/-- Segments that are not empty are one byte or a key. -/
def GoodSegments (segs : List Bytes) : Prop := ∀ s ∈ segs, s ≠ [] ∧ ByteOrKey encoder s

theorem goodSegments_singletons (piece : Bytes) : GoodSegments encoder (singletons piece) := by
  intro s hs
  obtain ⟨b, -, rfl⟩ := List.mem_map.mp hs
  exact ⟨List.cons_ne_nil b [], Or.inl rfl⟩

/-- Merging the chosen pair makes a key. -/
theorem GoodSegments.mergeAt {segs : List Bytes} (h : GoodSegments encoder segs) {i : Nat}
    (hbest : bestPair (rankOf encoder) segs = some i) : GoodSegments encoder (mergeAt i segs) := by
  obtain ⟨a, b, r, ha, hb, hr, -⟩ := bestPair_spec hbest
  intro s hs
  rcases mem_mergeAt ha hb hs with rfl | hmem
  · have hne := (h a (List.mem_of_getElem? ha)).1
    obtain ⟨rank, hrank, -⟩ := Option.map_eq_some_iff.mp hr
    exact ⟨List.append_ne_nil_of_left_ne_nil hne b, Or.inr ⟨rank, hrank⟩⟩
  · exact h s hmem

theorem le_of_mem_partsOf {off : Nat} {segs : List Bytes} {p : Part}
    (hp : p ∈ partsOf encoder off segs) : off ≤ p.1 := by
  induction segs generalizing off with
  | nil =>
    obtain rfl := List.mem_singleton.mp hp
    exact Nat.le_refl _
  | cons a segs ih =>
    rcases List.mem_cons.mp hp with rfl | hmem
    · exact Nat.le_refl _
    · exact Nat.le_of_add_right_le (ih hmem)

theorem pairwise_partsOf (off : Nat) {segs : List Bytes} (hne : ∀ s ∈ segs, s ≠ []) :
    ((partsOf encoder off segs).map Prod.fst).Pairwise (· < ·) := by
  induction segs generalizing off with
  | nil => exact List.pairwise_singleton _ _
  | cons a segs ih =>
    obtain ⟨ha, hrest⟩ := List.forall_mem_cons.mp hne
    have hpos := List.length_pos_iff.mpr ha
    rw [partsOf, List.map_cons]
    refine List.pairwise_cons.mpr ⟨?_, ih (off + a.length) hrest⟩
    intro x hx
    obtain ⟨p, hp, rfl⟩ := List.mem_map.mp hx
    have hle := le_of_mem_partsOf encoder hp
    show off < p.1
    omega

theorem getLast?_partsOf (off : Nat) (segs : List Bytes) :
    (partsOf encoder off segs).getLast? = some (off + segs.flatten.length, sizeMax) := by
  rw [List.getLast?_eq_getElem?, length_partsOf, Nat.add_sub_cancel,
    getElem?_partsOf encoder (Nat.le_refl segs.length), offsetOf, List.take_length, List.drop_length]
  rfl

/-- The vector of a segmentation cuts the piece into its segments. -/
theorem tiles_partsOf {segs : List Bytes} (hne : segs ≠ []) (h : GoodSegments encoder segs) :
    Tiles encoder segs.flatten (partsOf encoder 0 segs) where
  increasing := pairwise_partsOf encoder 0 fun s hs => (h s hs).1
  first := by
    obtain ⟨a, rest, rfl⟩ := List.exists_cons_of_ne_nil hne
    rfl
  last := by
    rw [getLast?_partsOf, Nat.zero_add]
  two_le := by
    have hpos := List.length_pos_iff.mpr hne
    rw [length_partsOf]
    omega
  segments := by
    have hsegs := segmentsOf_partsOf encoder [] segs
    rw [List.nil_append, List.length_nil] at hsegs
    rw [hsegs]
    exact fun s hs => (h s hs).2
  flatten := by
    have hsegs := segmentsOf_partsOf encoder [] segs
    rw [List.nil_append, List.length_nil] at hsegs
    rw [hsegs]

-- ---------------------------------------------------------------------------
-- Changes of a rank
-- ---------------------------------------------------------------------------

variable {encoder} {piece : Bytes}

theorem segmentsOf_congr {parts parts' : List Part}
    (h : parts'.map Prod.fst = parts.map Prod.fst) : segmentsOf piece parts' = segmentsOf piece parts := by
  induction parts generalizing parts' with
  | nil =>
    obtain rfl := List.map_eq_nil_iff.mp h
    rfl
  | cons p parts ih =>
    obtain ⟨p', rest', rfl, hp, hrest⟩ := List.map_eq_cons_iff.mp h
    match parts, rest', hrest with
    | [], [], _ => rfl
    | q :: parts, q' :: rest', hrest =>
      have hq : q'.1 = q.1 := (List.cons.inj hrest).1
      rw [segmentsOf, segmentsOf, ih hrest, hp, hq]

/-- The tiling depends on the boundaries and on the last entry only. -/
theorem Tiles.congr {parts parts' : List Part} (h : Tiles encoder piece parts)
    (hfst : parts'.map Prod.fst = parts.map Prod.fst) (hlast : parts'.getLast? = parts.getLast?) :
    Tiles encoder piece parts' where
  increasing := hfst ▸ h.increasing
  first := hfst ▸ h.first
  last := hlast ▸ h.last
  two_le := by
    have hlen := congrArg List.length hfst
    rw [List.length_map, List.length_map] at hlen
    rw [hlen]
    exact h.two_le
  segments := segmentsOf_congr hfst ▸ h.segments
  flatten := segmentsOf_congr hfst ▸ h.flatten

/-- `parts[i].second = rank` keeps the tiling, if `i` is not the last entry. -/
theorem Tiles.setRank {parts parts' : List Part} (h : Tiles encoder piece parts) {i rank : Nat}
    (hi : i + 1 < parts.length) (hset : setRank parts i rank = .ret parts') :
    Tiles encoder piece parts' ∧ parts'.length = parts.length := by
  rw [TiktokenCpp.setRank, if_pos (by omega), Outcome.ret.injEq] at hset
  subst hset
  refine ⟨h.congr ?_ ?_, List.length_modify ..⟩
  · apply List.ext_getElem?
    intro k
    rw [List.getElem?_map, List.getElem?_map, List.getElem?_modify]
    by_cases hk : i = k
    · simp [hk, Function.comp_def]
    · simp [hk]
  · have hne : i ≠ parts.length - 1 := by omega
    rw [List.getLast?_eq_getElem?, List.getLast?_eq_getElem?, List.length_modify,
      List.getElem?_modify]
    simp only [if_neg hne, id_map']

-- ---------------------------------------------------------------------------
-- Every value of the vector
-- ---------------------------------------------------------------------------

/-- The value of `parts` where a round begins is the vector of a segmentation
into single bytes and keys. -/
theorem RoundStart.goodSegments (hpiece : piece ≠ []) {parts : List Part}
    (h : RoundStart encoder piece parts) :
    ∃ segs, segs ≠ [] ∧ segs.flatten = piece ∧ GoodSegments encoder segs ∧
      parts = partsOf encoder 0 segs := by
  induction h with
  | first hrun =>
    rw [initRanks_eq encoder hpiece] at hrun
    refine ⟨singletons piece, ?_, flatten_singletons piece, goodSegments_singletons encoder piece,
      (Outcome.ret.inj hrun).symm⟩
    exact mt List.map_eq_nil_iff.mp hpiece
  | next _ hrun ih =>
    obtain ⟨segs, -, rfl, hgood, rfl⟩ := ih
    rw [mergeRound_partsOf] at hrun
    obtain ⟨i, hbest, rfl⟩ := Option.map_eq_some_iff.mp (Outcome.ret.inj hrun)
    refine ⟨mergeAt i segs, ?_, flatten_mergeAt i segs, hgood.mergeAt encoder hbest, rfl⟩
    -- what is not empty before a merge has at least one segment after it
    intro hnil
    have hflat := flatten_mergeAt i segs
    rw [hnil] at hflat
    exact hpiece hflat.symm

theorem RoundStart.tiled (hpiece : piece ≠ []) {parts : List Part}
    (h : RoundStart encoder piece parts) : Tiles encoder piece parts := by
  obtain ⟨segs, hne, rfl, hgood, rfl⟩ := h.goodSegments hpiece
  exact tiles_partsOf encoder hne hgood

/-- Where a round begins, the entry with the lowest rank is not the last but one. -/
theorem RoundStart.minRank_lt (hpiece : piece ≠ []) {parts : List Part}
    (h : RoundStart encoder piece parts) {r i : Nat} (hmin : minRank parts = .ret (r, i))
    (hr : r ≠ sizeMax) : i + 2 < parts.length := by
  obtain ⟨segs, -, rfl, -, rfl⟩ := h.goodSegments hpiece
  rw [minRank_partsOf, Outcome.ret.injEq] at hmin
  cases hlow : lowest (pairRanks (rankOf encoder) segs) with
  | none =>
    rw [hlow] at hmin
    exact absurd (congrArg Prod.fst hmin).symm hr
  | some p =>
    rw [hlow] at hmin
    have hi : p.1 = i := congrArg Prod.snd hmin
    have hbest : bestPair (rankOf encoder) segs = some i := by
      rw [bestPair, hlow, Option.map_some, hi]
    have hlt := bestPair_lt hbest
    rw [length_partsOf]
    omega

variable (encoder)

/-- The values of `parts` in the course of `BytePairMerge`: after some passes of
the first loop, where a round begins, and after each of its assignments. -/
inductive Visited (piece : Bytes) : List Part → Prop where
  | ranking {n : Nat} {parts : List Part} (hn : n ≤ subSize (piece.length + 1) 2)
      (hrun : forLoop (fun i parts => do
        match ← getRank encoder piece parts i 0 with
        | some rank => setRank parts i rank
        | none => return parts) n 0 (initParts piece.length) = .ret parts) :
      Visited piece parts
  | round {parts : List Part} (hstart : RoundStart encoder piece parts) : Visited piece parts
  | assigned {parts parts' : List Part} {r i : Nat} {rank : Option Nat}
      (hstart : RoundStart encoder piece parts) (hmin : minRank parts = .ret (r, i))
      (hr : r ≠ sizeMax) (hrank : getRank encoder piece parts i 1 = .ret rank)
      (hset : setRank parts i (rank.getD sizeMax) = .ret parts') : Visited piece parts'
  | reassigned {parts parts' parts'' : List Part} {r i : Nat} {rank rank' : Option Nat}
      (hstart : RoundStart encoder piece parts) (hmin : minRank parts = .ret (r, i))
      (hr : r ≠ sizeMax) (hrank : getRank encoder piece parts i 1 = .ret rank)
      (hset : setRank parts i (rank.getD sizeMax) = .ret parts') (hi : 0 < i)
      (hrank' : getRank encoder piece parts' (i - 1) 1 = .ret rank')
      (hset' : setRank parts' (i - 1) (rank'.getD sizeMax) = .ret parts'') : Visited piece parts''

variable {encoder}

theorem tiles_initParts (hpiece : piece ≠ []) : Tiles encoder piece (initParts piece.length) := by
  have htiles := tiles_partsOf encoder (mt List.map_eq_nil_iff.mp hpiece)
    (goodSegments_singletons encoder piece)
  rw [← singletons, flatten_singletons] at htiles
  refine htiles.congr ?_ ?_
  · apply List.ext_getElem?
    intro k
    by_cases hk : k ≤ piece.length
    · rw [List.getElem?_map, List.getElem?_map, (rankedUpTo_initParts encoder piece).2 k hk,
        getElem?_partsOf encoder (by rwa [length_singletons]), offsetOf_singletons hk, Nat.zero_add]
      rfl
    · rw [List.getElem?_eq_none (by simp [initParts]; omega),
        List.getElem?_eq_none (by rw [List.length_map, length_partsOf, length_singletons]; omega)]
  · rw [htiles.last, List.getLast?_eq_getElem?, (rankedUpTo_initParts encoder piece).1,
      Nat.add_sub_cancel, (rankedUpTo_initParts encoder piece).2 piece.length (Nat.le_refl _),
      if_neg (Nat.not_lt_zero _)]

/-- Every value of the vector cuts the piece into segments. -/
theorem Visited.tiles (hpiece : piece ≠ []) {parts : List Part} (h : Visited encoder piece parts) :
    Tiles encoder piece parts := by
  induction h with
  | @ranking n parts hn hrun =>
    have hpos := List.length_pos_iff.mpr hpiece
    rw [subSize_of_le (by omega)] at hn
    -- a pass ranks one more pair, by an assignment or not at all
    have hstep : ∀ i parts, 0 ≤ i → i < 0 + n →
        RankedUpTo encoder piece i parts ∧ Tiles encoder piece parts →
        ∃ parts', (do
          match ← getRank encoder piece parts i 0 with
          | some rank => setRank parts i rank
          | none => return parts) = .ret parts' ∧
          RankedUpTo encoder piece (i + 1) parts' ∧ Tiles encoder piece parts' := by
      rintro i parts - hi ⟨hranked, htiles⟩
      obtain ⟨parts', hassign, hranked'⟩ := hranked.step encoder (show i < piece.length by omega)
      refine ⟨parts', hassign, hranked', ?_⟩
      obtain ⟨rank, -, hassign⟩ := Outcome.bind_eq_ret.mp hassign
      match rank, hassign with
      | some rank, hassign => exact (htiles.setRank (by rw [hranked.1]; omega) hassign).1
      | none, hassign => exact Outcome.ret.inj hassign ▸ htiles
    obtain ⟨parts', hloop, -, htiles⟩ := forLoop_ret
      (fun i parts => RankedUpTo encoder piece i parts ∧ Tiles encoder piece parts) hstep
      ⟨rankedUpTo_initParts encoder piece, tiles_initParts hpiece⟩
    rw [hrun, Outcome.ret.injEq] at hloop
    exact hloop ▸ htiles
  | round hstart => exact hstart.tiled hpiece
  | assigned hstart hmin hr _ hset =>
    have hi := hstart.minRank_lt hpiece hmin hr
    exact ((hstart.tiled hpiece).setRank (by omega) hset).1
  | reassigned hstart hmin hr _ hset _ _ hset' =>
    have hi := hstart.minRank_lt hpiece hmin hr
    obtain ⟨htiles, hlen⟩ := (hstart.tiled hpiece).setRank (by omega) hset
    exact (htiles.setRank (by omega) hset').1

-- ---------------------------------------------------------------------------
-- The calls of `f`
-- ---------------------------------------------------------------------------

theorem mergeLoop_roundStart {n : Nat} {parts parts' : List Part}
    (h : RoundStart encoder piece parts) (hrun : mergeLoop encoder piece n parts = .ret parts') :
    RoundStart encoder piece parts' := by
  induction n generalizing parts with
  | zero =>
    rw [mergeLoop] at hrun
    split at hrun
    · simp at hrun
    · exact Outcome.ret.inj hrun ▸ h
  | succ n ih =>
    rw [mergeLoop] at hrun
    split at hrun
    · obtain ⟨next, hround, hrun⟩ := Outcome.bind_eq_ret.mp hrun
      rcases next with _ | next
      · exact Outcome.ret.inj hrun ▸ h
      · exact ih (.next h hround) hrun
    · exact Outcome.ret.inj hrun ▸ h

/-- What the merge loop ends with is a value of `parts` like the others. -/
theorem visited_of_mergedParts {parts : List Part} (h : mergedParts encoder piece = .ret parts) :
    Visited encoder piece parts := by
  obtain ⟨start, hstart, hloop⟩ := Outcome.bind_eq_ret.mp h
  exact .round (mergeLoop_roundStart (.first hstart) hloop)

/-- The ranges between adjacent boundaries are those of the segments. -/
theorem byteRange_of_mem_boundaryPairs (pre : Bytes) {segs : List Bytes} {p : Nat × Nat}
    (hp : p ∈ boundaryPairs (partsOf encoder pre.length segs)) :
    ∃ s ∈ segs, byteRange (pre ++ segs.flatten) p.1 p.2 = .ret s := by
  induction segs generalizing pre with
  | nil => simp [partsOf, boundaryPairs] at hp
  | cons a segs ih =>
    rw [boundaryPairs_partsOf_cons] at hp
    rcases List.mem_cons.mp hp with rfl | hp
    · exact ⟨a, List.mem_cons_self .., byteRange_mid pre a segs.flatten⟩
    · rw [← List.length_append] at hp
      obtain ⟨s, hs, hrange⟩ := ih (pre ++ a) hp
      rw [List.append_assoc] at hrange
      exact ⟨s, List.mem_cons_of_mem a hs, hrange⟩

/-- A segment that is no key is a single byte. -/
theorem ByteOrKey.of_throw {s : Bytes} (h : ByteOrKey encoder s) {e : Exn}
    (hthrow : EncodeDict.at encoder s = .throw e) : s.length = 1 ∧ encoder.find? s = none := by
  unfold EncodeDict.at at hthrow
  cases hfind : encoder.find? s with
  | some rank =>
    rw [hfind] at hthrow
    simp at hthrow
  | none =>
    rcases h with hone | ⟨rank, hrank⟩
    · exact ⟨hone, rfl⟩
    · rw [hfind] at hrank
      simp at hrank

variable (encoder)

/-- **The merge loop stays in bounds and cuts its input into segments.** Every
value of `parts` tiles the piece; no round goes out of bounds; the loop ends,
whatever `f` is, with a call of `f` on the range of each segment in turn, and
`m_encoder->at` throws at a segment only if it is a single byte and no key. -/
theorem bytePairMerge_safe (hpiece : piece ≠ []) :
    (∀ parts, Visited encoder piece parts → Tiles encoder piece parts) ∧
    (∀ parts, RoundStart encoder piece parts →
      ∃ next, mergeRound encoder piece parts = .ret next) ∧
    ∃ parts, mergedParts encoder piece = .ret parts ∧ Visited encoder piece parts ∧
      (∀ f, bytePairMerge encoder piece f = emitAll f (boundaryPairs parts)) ∧
      ∀ p ∈ boundaryPairs parts, ∃ s ∈ segmentsOf piece parts, byteRange piece p.1 p.2 = .ret s ∧
        ∀ e, EncodeDict.at encoder s = .throw e → s.length = 1 ∧ encoder.find? s = none := by
  refine ⟨fun parts h => h.tiles hpiece, ?_, ?_⟩
  · intro parts hstart
    obtain ⟨segs, -, rfl, -, rfl⟩ := hstart.goodSegments hpiece
    exact ⟨_, mergeRound_partsOf encoder segs⟩
  · have hmerged := mergedParts_eq encoder hpiece
    have hvisited := visited_of_mergedParts hmerged
    have htiles := hvisited.tiles hpiece
    have hsegs := segmentsOf_partsOf encoder [] (naiveSegments encoder piece)
    rw [List.nil_append, List.length_nil, flatten_naiveSegments] at hsegs
    refine ⟨_, hmerged, hvisited, ?_, ?_⟩
    · intro f
      exact bytePairMerge_eq_emitAll encoder hmerged (by rw [length_partsOf]; omega) f
    · intro p hp
      obtain ⟨s, hs, hrange⟩ := byteRange_of_mem_boundaryPairs [] hp
      rw [List.nil_append, flatten_naiveSegments] at hrange
      have hmem : s ∈ segmentsOf piece (partsOf encoder 0 (naiveSegments encoder piece)) := by
        rwa [hsegs]
      exact ⟨s, hmem, hrange, fun e hthrow => (htiles.segments s hmem).of_throw hthrow⟩

theorem bytePairMerge_safe_ababa :
    ∃ parts, mergedParts abDict (str "ababa") = .ret parts ∧ Visited abDict (str "ababa") parts ∧
      (∀ f, bytePairMerge abDict (str "ababa") f = emitAll f (boundaryPairs parts)) ∧
      ∀ p ∈ boundaryPairs parts, ∃ s ∈ segmentsOf (str "ababa") parts,
        byteRange (str "ababa") p.1 p.2 = .ret s ∧
        ∀ e, EncodeDict.at abDict s = .throw e → s.length = 1 ∧ abDict.find? s = none :=
  (bytePairMerge_safe abDict (by decide : str "ababa" ≠ [])).2.2

end

end TiktokenCpp
