import TiktokenCpp.Lib.MatchGrowth
import TiktokenCpp.Results.Chunks
import TiktokenCpp.Results.Segmentation

/-!
# Text that is appended to

When text is put behind a text, all its words but the last two stay what they
are, for both split patterns of the registry: a contraction may grow together
from two words, and so may a line end and the blanks behind it when a further
line end follows. So the tokens of the other words can be given out before the
rest of the text is there.

Main results:

* `words_appended` -- the words of the longer text;
* `encodeOrdinary_appended` -- tokens that no text put behind can change.
-/

namespace TiktokenCpp

open Utf8 Backtrack Pcre2

/-- What the character database says of white space: it is no letter, no number
and no apostrophe in any case. -/
structure PlainSpaces (U : UnicodeProps) : Prop where
  letter : ∀ c, U.space c = true → U.letter c = false
  number : ∀ c, U.space c = true → U.number c = false
  quote : ∀ c, U.space c = true → c ≠ '\'' ∧ U.caseEq '\'' c = false

section

variable {U : UnicodeProps} {front more : List Char}

-- ---------------------------------------------------------------------------
-- A front that is not short
-- ---------------------------------------------------------------------------

/-- The front is short or white space. -/
def Little (U : UnicodeProps) (front : List Char) : Prop :=
  front.length ≤ 2 ∨ ∀ c ∈ front, U.space c = true

theorem mem_spaces (c : Char) : spaces.mem U c = U.space c := by
  simp [spaces, CharClass.mem, ClassItem.mem]

theorem space_of_lineEnds {c : Char} (h : lineEnds.mem U c = true) : U.space c = true := by
  simp only [lineEnds, CharClass.mem, ClassItem.mem] at h
  have hc : c = '\r' ∨ c = '\n' := by simpa using h
  rcases hc with rfl | rfl
  · exact U.space_cr
  · exact U.space_lf

/-- When the part of a pattern notices more text, it matches the whole front
first, or the front is little. -/
def Noticed (U : UnicodeProps) (front more : List Char) (r : Regex CharClass) : Prop :=
  Keeps (CharClass.mem U) r front more ∨ (r.ends (CharClass.mem U) front).head? = some [] ∨
    Little U front

theorem noticed_short {r : Regex CharClass} (hblind : r.Blind (CharClass.mem U) more) {n : Nat}
    (hn : r.maxLen = some n) (hle : n ≤ 3) : Noticed U front more r := by
  refine (keeps_or_short hblind hn front).imp_right ?_
  intro h
  exact Or.inr (Or.inl (by omega))

theorem noticed_run {k k' : CharClass} {q : Regex CharClass}
    (hq : ∀ v, (q.ends (CharClass.mem U) v).head? = some (v.dropWhile (q.reads (CharClass.mem U))))
    (hblind : q.Blind (CharClass.mem U) more) :
    Noticed U front more (.seq (.rep k 0 (some 1)) (.seq (.rep k' 1 none) q)) := by
  refine (run_grows hq hblind front).imp_right (Or.imp_right ?_)
  intro h
  exact Or.inl (by omega)

theorem noticed_spaces {r : Regex CharClass} (hblind : r.Blind (CharClass.mem U) more)
    (hreads : ∀ c, r.reads (CharClass.mem U) c = true → U.space c = true) : Noticed U front more r := by
  refine (keeps_or_reads hblind front).imp_right ?_
  intro h
  exact Or.inr (Or.inr fun c hc => hreads c (h c hc))

theorem noticed_spaceRuns : ∀ r ∈ spaceRuns, Noticed U front more r := by
  unfold spaceRuns
  rw [List.forall_mem_cons, List.forall_mem_singleton]
  refine ⟨?_, ?_⟩
  · refine (lookahead_grows front).imp_right ?_
    intro h
    exact Or.inr (Or.inr fun c hc => mem_spaces (U := U) c ▸ h c hc)
  · refine noticed_spaces ⟨trivial, trivial⟩ ?_
    intro c hc
    rw [← mem_spaces]
    simpa [concat, Regex.reads] using hc

theorem contractions_quote : ∀ w ∈ contractions, w.head? = some '\'' ∧ w.length ≤ 3 := by decide

-- ---------------------------------------------------------------------------
-- White space
-- ---------------------------------------------------------------------------

theorem lit_quote_ends {f : Char → CharClass} {w : List Char} (hw : w.head? = some '\'') {c : Char}
    (hc : (f '\'').mem U c = false) (s : List Char) :
    (lit (w.map f)).ends (CharClass.mem U) (c :: s) = [] := by
  cases w with
  | nil => cases hw
  | cons d w =>
    obtain rfl : d = '\'' := by simpa using hw
    exact lit_ends_eq_nil hc _

/-- A run of something else than white space finds nothing in white space. -/
theorem run_ends_spaces {s : List Char} (hs : ∀ c ∈ s, U.space c = true) {r q : Regex CharClass}
    {k : CharClass} (hk : ∀ c, U.space c = true → k.mem U c = false) {max : Option Nat} :
    (Regex.seq r (.seq (.rep k 1 max) q)).ends (CharClass.mem U) s = [] :=
  seq_rep_ends_eq_nil fun c hc => hk c (hs c hc)

theorem letters_spaces (hU : PlainSpaces U) (c : Char) (hc : U.space c = true) :
    letters.mem U c = false := by
  simp [letters, CharClass.mem, ClassItem.mem, hU.letter c hc]

theorem numbers_spaces (hU : PlainSpaces U) (c : Char) (hc : U.space c = true) :
    numbers.mem U c = false := by
  simp [numbers, CharClass.mem, ClassItem.mem, hU.number c hc]

theorem others_spaces (c : Char) (hc : U.space c = true) : others.mem U c = false := by
  simp [others, CharClass.mem, ClassItem.mem, hc]

/-- White space is matched to its end. -/
theorem head?_spaceRuns {c : Char} {s : List Char} (hs : ∀ x ∈ c :: s, U.space x = true) :
    ((anyOf spaceRuns).ends (CharClass.mem U) (c :: s)).head? = some [] := by
  have hall : ∀ x ∈ c :: s, CharClass.mem U spaces x = true := fun x hx => by
    rw [mem_spaces]
    exact hs x hx
  have hrun : ((Regex.rep spaces 1 none).ends (CharClass.mem U) (c :: s)).head? = some [] := by
    show (repEnds (CharClass.mem U spaces) 1 none (c :: s)).head? = _
    obtain ⟨hc, hrest⟩ := List.forall_mem_cons.mp hall
    rw [repEnds, if_pos ⟨hc, by simp⟩, if_neg Nat.one_ne_zero, List.append_nil]
    exact (head?_repEnds _ s).trans (by rw [List.dropWhile_eq_nil_iff.mpr hrest])
  unfold spaceRuns
  rw [anyOf, Regex.ends, List.head?_append]
  -- at the end of the text the lookahead holds
  have hfirst : ((concat [.rep spaces 1 none,
      .notAhead (concat [.cls ⟨false, [.notSpace]⟩])]).ends (CharClass.mem U) (c :: s)).head? =
        some [] := head?_flatMap_of_head? hrun rfl
  rw [hfirst]
  rfl

/-- A text that is matched to its end is one word. -/
theorem length_words_whole {re : Regex CharClass} (hmin : 1 ≤ re.minLen) {c : Char} {s : List Char}
    (h : (re.ends (CharClass.mem U) (c :: s)).head? = some []) (n : Nat) :
    (words (CharClass.mem U) re n (c :: s)).length ≤ 1 := by
  cases n with
  | zero => exact Nat.zero_le _
  | succ n =>
    rw [words, search_of_head? h]
    dsimp only
    rw [words_nil hmin]
    exact Nat.le_refl 1

-- ---------------------------------------------------------------------------
-- The patterns
-- ---------------------------------------------------------------------------

/-- What the words of a text that grows rest on. -/
structure Appendable (U : UnicodeProps) (re : Regex CharClass) : Prop where
  grows : ∀ front more, (re.ends (CharClass.mem U) (front ++ more)).head? =
      (re.ends (CharClass.mem U) front).head?.map (· ++ more) ∨
    (re.ends (CharClass.mem U) front).head? = some [] ∨ Little U front
  spaces : ∀ s, (∀ c ∈ s, U.space c = true) → ∀ n, (words (CharClass.mem U) re n s).length ≤ 2

theorem appendable_r50k (hU : PlainSpaces U) : Appendable U r50kRegex where
  grows := by
    intro front more
    refine anyOf_grows ?_
    intro r hr
    rw [List.mem_append, List.mem_append] at hr
    rcases hr with (hr | hr) | hr
    · obtain ⟨w, hw, rfl⟩ := List.mem_map.mp hr
      refine noticed_short (blind_lit _ _) (maxLen_lit _) ?_
      rw [List.length_map]
      exact (contractions_quote w hw).2
    · simp only [List.mem_cons, List.not_mem_nil, or_false] at hr
      rcases hr with rfl | rfl | rfl <;> exact noticed_run head?_eps trivial
    · exact noticed_spaceRuns r hr
  spaces := by
    intro s hs n
    cases s with
    | nil =>
      rw [words_nil (by decide)]
      exact Nat.zero_le 2
    | cons c s =>
      refine (length_words_whole (by decide) ?_ n).trans (Nat.le_succ 1)
      unfold r50kRegex
      rw [anyOf_append_ends ?_ (by simp [spaceRuns]), head?_spaceRuns hs]
      intro r hr
      rw [List.mem_append] at hr
      rcases hr with hr | hr
      · obtain ⟨w, hw, rfl⟩ := List.mem_map.mp hr
        refine lit_quote_ends (contractions_quote w hw).1 ?_ s
        rw [← Bool.not_eq_true, CharClass.mem_lit]
        exact (hU.quote c (hs c (List.mem_cons_self ..))).1
      · simp only [List.mem_cons, List.not_mem_nil, or_false] at hr
        rcases hr with rfl | rfl | rfl
        · exact run_ends_spaces hs (letters_spaces hU)
        · exact run_ends_spaces hs (numbers_spaces hU)
        · exact run_ends_spaces hs others_spaces

/-- `\s*[\r\n]+` -/
def lineEndRun : Regex CharClass := concat [.rep spaces 0 none, .rep lineEnds 1 none]

/-- The parts of `cl100kRegex` in front of it. -/
def visibleRuns : List (Regex CharClass) :=
  [ concat [anyOf (contractions.map fun w => lit (w.map fun c => ⟨false, [.caseless c]⟩))],
    concat [.rep ⟨true, [.char '\r', .char '\n', .letter, .number]⟩ 0 (some 1),
      .rep letters 1 none],
    concat [.rep numbers 1 (some 3)],
    concat [.rep (.lit ' ') 0 (some 1), .rep others 1 none, .rep lineEnds 0 none] ]

theorem visibleRuns_ends (hU : PlainSpaces U) {c : Char} {s : List Char}
    (hs : ∀ x ∈ c :: s, U.space x = true) :
    ∀ r ∈ visibleRuns, r.ends (CharClass.mem U) (c :: s) = [] := by
  unfold visibleRuns
  rw [List.forall_mem_cons, List.forall_mem_cons, List.forall_mem_cons, List.forall_mem_singleton]
  refine ⟨?_, run_ends_spaces hs (letters_spaces hU), ?_, run_ends_spaces hs others_spaces⟩
  · rw [List.eq_nil_iff_forall_not_mem]
    intro t ht
    obtain ⟨u, hu, -⟩ := List.mem_flatMap.mp ht
    obtain ⟨r, hr, hu⟩ := (mem_ends_anyOf (by decide)).mp hu
    obtain ⟨w, hw, rfl⟩ := List.mem_map.mp hr
    obtain ⟨hne, hcase⟩ := hU.quote c (hs c (List.mem_cons_self ..))
    have hclass : CharClass.mem U ⟨false, [.caseless '\'']⟩ c = false := by
      simp [CharClass.mem, ClassItem.mem, hne, hcase]
    rw [lit_quote_ends (contractions_quote w hw).1 hclass s] at hu
    exact absurd hu List.not_mem_nil
  · have hrep : (Regex.rep numbers 1 (some 3)).ends (CharClass.mem U) (c :: s) = [] :=
      rep_ends_eq_nil fun x hx => numbers_spaces hU x (hs x hx)
    show ((Regex.rep numbers 1 (some 3)).ends (CharClass.mem U) (c :: s)).flatMap _ = []
    rw [hrep, List.flatMap_nil]

/-- On white space the pattern is its last three parts. -/
theorem cl100k_ends_spaces (hU : PlainSpaces U) {c : Char} {s : List Char}
    (hs : ∀ x ∈ c :: s, U.space x = true) :
    cl100kRegex.ends (CharClass.mem U) (c :: s) =
      lineEndRun.ends (CharClass.mem U) (c :: s) ++
        (anyOf spaceRuns).ends (CharClass.mem U) (c :: s) :=
  anyOf_append_ends (visibleRuns_ends hU hs) (List.cons_ne_nil lineEndRun spaceRuns)

theorem appendable_cl100k (hU : PlainSpaces U) : Appendable U cl100kRegex where
  grows := by
    intro front more
    refine anyOf_grows ?_
    intro r hr
    rw [List.mem_append] at hr
    rcases hr with hr | hr
    · simp only [List.mem_cons, List.not_mem_nil, or_false] at hr
      rcases hr with rfl | rfl | rfl | rfl | rfl
      · refine noticed_short (n := 3) ⟨blind_anyOf ?_, trivial⟩ (by decide) (Nat.le_refl 3)
        intro r hr
        obtain ⟨w, -, rfl⟩ := List.mem_map.mp hr
        exact blind_lit _ _
      · exact noticed_run head?_eps trivial
      · exact noticed_short ⟨trivial, trivial⟩ rfl (Nat.le_refl 3)
      · exact noticed_run (head?_rep_eps lineEnds) ⟨trivial, trivial⟩
      · refine noticed_spaces ⟨trivial, trivial, trivial⟩ ?_
        intro c hc
        have hclass : spaces.mem U c = true ∨ lineEnds.mem U c = true := by
          simpa [concat, Regex.reads] using hc
        rw [mem_spaces] at hclass
        exact hclass.elim id space_of_lineEnds
    · exact noticed_spaceRuns r hr
  spaces := by
    -- without line ends it is one word
    have hplain (s : List Char) (hs : ∀ c ∈ s, U.space c = true)
        (hno : ∀ c ∈ s, lineEnds.mem U c = false) (n : Nat) :
        (words (CharClass.mem U) cl100kRegex n s).length ≤ 1 := by
      cases s with
      | nil =>
        rw [words_nil (by decide)]
        exact Nat.zero_le 1
      | cons c s =>
        refine length_words_whole (by decide) ?_ n
        have hnone : lineEndRun.ends (CharClass.mem U) (c :: s) = [] := seq_rep_ends_eq_nil hno
        rw [cl100k_ends_spaces hU hs, hnone, List.nil_append, head?_spaceRuns hs]
    intro s hs n
    have hall : ∀ x ∈ s, CharClass.mem U spaces x = true := fun x hx => by
      rw [mem_spaces]
      exact hs x hx
    have hgive : ((∀ c ∈ s, lineEnds.mem U c = false) ∧ lineEndRun.ends (CharClass.mem U) s = []) ∨
        ∃ v, (lineEndRun.ends (CharClass.mem U) s).head? = some v ∧ v <:+ s ∧
          ∀ c ∈ v, lineEnds.mem U c = false := head?_give_back hall
    rcases hgive with ⟨hno, -⟩ | ⟨v, hv, hsuffix, hno⟩
    · exact (hplain s hs hno n).trans (Nat.le_succ 1)
    · cases s with
      | nil =>
        rw [words_nil (by decide)]
        exact Nat.zero_le 2
      | cons c s =>
        cases n with
        | zero => exact Nat.zero_le 2
        | succ n =>
          have hhead : (cl100kRegex.ends (CharClass.mem U) (c :: s)).head? = some v := by
            rw [cl100k_ends_spaces hU hs, List.head?_append, hv]
            rfl
          rw [words, search_of_head? hhead]
          dsimp only
          have hrest := hplain v (fun x hx => hs x (hsuffix.subset hx)) hno n
          rw [List.length_cons]
          omega

theorem appendable_of_compile {E : Platform} (hE : E.Documented U) (hU : PlainSpaces U)
    {pattern : Bytes} (hpattern : RegistryPattern pattern) {code : E.pcre2.Code}
    (h : compile E (cstr pattern) = .ret code) :
    ∃ re, E.pcre2.Implements U code re ∧ Splits U re ∧ Appendable U re := by
  rcases implements_of_compile hE hpattern h with himpl | himpl
  · exact ⟨_, himpl, splits_r50k U, appendable_r50k hU⟩
  · exact ⟨_, himpl, splits_cl100k U, appendable_cl100k hU⟩

-- ---------------------------------------------------------------------------
-- Words and tokens
-- ---------------------------------------------------------------------------

/-- **All words but the last two stay.** -/
theorem words_appended {re : Regex CharClass} (hsplits : Splits U re) (happ : Appendable U re)
    {n m : Nat} (hn : front.length ≤ n) (hm : (front ++ more).length ≤ m) :
    ∃ ws, words (CharClass.mem U) re m (front ++ more) =
      (words (CharClass.mem U) re n front).take
        ((words (CharClass.mem U) re n front).length - 2) ++ ws := by
  refine words_grow hsplits.covers hsplits.minLen ?_ hn hm
  intro front hlong
  rcases happ.grows front more with h | hwhole | hshort | hspaces
  · exact h
  · -- one word only
    cases front with
    | nil =>
      rw [words_nil hsplits.minLen] at hlong
      simp at hlong
    | cons c front =>
      have := length_words_whole hsplits.minLen hwhole (c :: front).length
      omega
  · have := length_words_le hsplits.covers hsplits.minLen (Nat.le_refl front.length)
    omega
  · have := happ.spaces front hspaces front.length
    omega

variable {E : Platform}

/-- **Text can be appended to.** All words of a text but the last two are words
of every text that goes on with it, and `EncodeOrdinary` of that text encodes
them first; so their tokens are settled. -/
theorem encodeOrdinary_appended (hE : E.Documented U) (hU : PlainSpaces U) {newFuel : Nat}
    (hnew : 0 < newFuel) {name : Bytes} {tok : TikToken E}
    (hget : getEncoding E newFuel name = .ret tok) {text : Bytes} (hwell : WellFormed text) {fuel : Nat}
    (hfuel : text.length ≤ fuel) :
    ∃ settled last, utf8WordsSpliter tok.corebpe fuel text = .ret (settled ++ last) ∧
      last.length ≤ 2 ∧ ∀ more, WellFormed more → ∀ fuel', (text ++ more).length ≤ fuel' →
        ∃ ws, utf8WordsSpliter tok.corebpe fuel' (text ++ more) = .ret (settled ++ ws) ∧
          tok.encodeOrdinary fuel' (text ++ more) =
            (encodeWords tok.corebpe settled >>= fun kept =>
              encodeWords tok.corebpe ws >>= fun rest => .ret (kept ++ rest)) := by
  obtain ⟨param, -, hregistered, -, hcompiled, -⟩ := compiled_of_getEncoding hE hnew hget
  obtain ⟨re, himpl, hsplits, happ⟩ := appendable_of_compile hE hU hregistered.pattern hcompiled
  obtain ⟨cs, rfl⟩ := hwell
  have hn : cs.length ≤ fuel := (length_le_length_encode cs).trans hfuel
  have hwords {cs : List Char} {fuel : Nat} (hn : cs.length ≤ fuel) :
      utf8WordsSpliter tok.corebpe fuel (encode cs) =
        .ret ((words (CharClass.mem U) re fuel cs).map encode) := by
    have hloop := spliterLoop_encode himpl hsplits [] cs hn []
    rwa [List.nil_append, List.nil_append, encode_nil, List.length_nil] at hloop
  let k := (words (CharClass.mem U) re fuel cs).length - 2
  refine ⟨((words (CharClass.mem U) re fuel cs).take k).map encode,
    ((words (CharClass.mem U) re fuel cs).drop k).map encode, ?_, ?_, ?_⟩
  · rw [← List.map_append, List.take_append_drop]
    exact hwords hn
  · rw [List.length_map, List.length_drop]
    omega
  · rintro more ⟨ds, rfl⟩ fuel' hfuel'
    rw [← encode_append] at hfuel' ⊢
    have hm : (cs ++ ds).length ≤ fuel' := (length_le_length_encode _).trans hfuel'
    obtain ⟨ws, hws⟩ := words_appended hsplits happ hn hm
    refine ⟨ws.map encode, ?_, ?_⟩
    · rw [hwords hm, hws, List.map_append]
    · rw [encodeOrdinary_eq, encodeOrdinaryNative_words himpl hsplits hm, hws, List.map_append,
        encodeWords_append]

end

theorem asciiProps_plainSpaces : PlainSpaces asciiProps := by
  have hcases (c : Char) (hc : asciiProps.space c = true) :
      c = ' ' ∨ c = '\t' ∨ c = '\r' ∨ c = '\n' := by
    simpa [asciiProps, Char.isWhitespace, or_assoc] using hc
  constructor <;>
    intro c hc <;>
    rcases hcases c hc with rfl | rfl | rfl | rfl <;>
    decide

theorem encodeOrdinary_appended_two :
    ∃ tok, getEncoding (filePlatform (str "QQ== 0\nQg== 1\n")) 1 (str "cl100k_base") = .ret tok ∧
      ∃ settled last, utf8WordsSpliter tok.corebpe 8 (str "AB AB AB") = .ret (settled ++ last) ∧
        last.length ≤ 2 ∧ ∀ more, WellFormed more → ∀ fuel', (str "AB AB AB" ++ more).length ≤ fuel' →
          ∃ ws, utf8WordsSpliter tok.corebpe fuel' (str "AB AB AB" ++ more) = .ret (settled ++ ws) ∧
            tok.encodeOrdinary fuel' (str "AB AB AB" ++ more) =
              (encodeWords tok.corebpe settled >>= fun kept =>
                encodeWords tok.corebpe ws >>= fun rest => .ret (kept ++ rest)) := by
  obtain ⟨tok, hget⟩ := getEncoding_two
  exact ⟨tok, hget, encodeOrdinary_appended (filePlatform_documented _) asciiProps_plainSpaces
    Nat.one_pos hget (wellFormed_str _) (by decide)⟩

/-- The last two words can both change. -/
example :
    words (CharClass.mem asciiProps) r50kRegex 4 "a'r".toList = ["a", "'", "r"].map (·.toList) ∧
      words (CharClass.mem asciiProps) r50kRegex 4 "a're".toList = ["a", "'re"].map (·.toList) := by
  decide +kernel

end TiktokenCpp
