import TiktokenCpp.Results.Startup

/-!
# Interrupted downloads

A transfer that breaks off, or a disk that is full, leaves a leading part of the
vocabulary file, and the loader does not know the size of a file. It loads the
entries of the whole lines as they are. The line the file breaks off in is an
error, unless a digit of its rank is there: then its token is loaded with the
leading digits of the rank.

Main results:

* `readEntry_torn` -- a line that breaks off;
* `load_torn` -- a file that breaks off;
* `interrupted_download` -- what is loaded at any start after such a download.
-/

namespace TiktokenCpp

/-! ## Leading parts -/

theorem prefix_append_cases {α : Type} {c a b : List α} (h : c <+: a ++ b) :
    c <+: a ∨ ∃ t, c = a ++ t ∧ t <+: b := by
  obtain ⟨rest, heq⟩ := h
  rcases List.append_eq_append_iff.mp heq with ⟨a', ha, -⟩ | ⟨c', hc, hb⟩
  · exact Or.inl ⟨a', ha.symm⟩
  · exact Or.inr ⟨c', hc, rest, hb.symm⟩

theorem foldl_ofDigits (ds : Bytes) (n : Nat) :
    ds.foldl (fun n d => n * 10 + (d.toNat - 48)) n = n * 10 ^ ds.length + ofDigits ds := by
  induction ds generalizing n with
  | nil => simp [ofDigits]
  | cons d ds ih =>
    rw [ofDigits, List.foldl_cons, List.foldl_cons, ih, ih (0 * 10 + (d.toNat - 48)),
      List.length_cons, Nat.pow_succ, Nat.zero_mul, Nat.zero_add, Nat.add_mul, Nat.mul_assoc,
      Nat.mul_comm 10, Nat.add_assoc]

theorem ofDigits_append (ds ds' : Bytes) :
    ofDigits (ds ++ ds') = ofDigits ds * 10 ^ ds'.length + ofDigits ds' := by
  rw [ofDigits, List.foldl_append, foldl_ofDigits]
  rfl

theorem ofDigits_lt {ds : Bytes} (hds : ∀ d ∈ ds, isDigit d) : ofDigits ds < 10 ^ ds.length := by
  induction ds with
  | nil => exact Nat.one_pos
  | cons d ds ih =>
    obtain ⟨hd, hds⟩ := List.forall_mem_cons.mp hds
    have hlt := ih hds
    have hdigit : d.toNat - 48 ≤ 9 := by
      simp only [isDigit, Bool.and_eq_true, decide_eq_true_eq, UInt8.le_iff_toNat_le] at hd
      have h57 : (57 : UInt8).toNat = 57 := rfl
      omega
    have hmul := Nat.mul_le_mul_right (10 ^ ds.length) hdigit
    have hone : ofDigits [d] = d.toNat - 48 := by simp [ofDigits]
    rw [← List.singleton_append, ofDigits_append, hone, List.singleton_append, List.length_cons,
      Nat.pow_succ]
    omega

/-- The leading digits of a number. -/
theorem ofDigits_take {ds : Bytes} (hds : ∀ d ∈ ds, isDigit d) (n : Nat) :
    ofDigits (ds.take n) = ofDigits ds / 10 ^ (ds.length - n) := by
  have hsplit := ofDigits_append (ds.take n) (ds.drop n)
  have hlt : ofDigits (ds.drop n) < 10 ^ (ds.drop n).length :=
    ofDigits_lt fun d hd => hds d (List.mem_of_mem_drop hd)
  rw [List.take_append_drop, List.length_drop] at hsplit
  rw [List.length_drop] at hlt
  rw [hsplit, Nat.mul_comm, Nat.mul_add_div (Nat.pow_pos (by decide)), Nat.div_eq_of_lt hlt,
    Nat.add_zero]

/-! ## A line that breaks off -/

/-- What the loader makes of a leading part of the line of an entry. -/
inductive Torn (e : Bytes × UInt32) (eol : LineEnding) : Bytes → Run (Bytes × UInt32) → Prop where
  | noBlank {part : Bytes} (h : part <+: base64Encode e.1) :
      Torn e eol part (.throw (.runtimeError (str "invaid token encoding file format!")))
  | noDigit : Torn e eol (base64Encode e.1 ++ [32]) (.throw .invalidArgument)
  | digits {text : Bytes} (hne : text ≠ []) (h : text <+: decimal e.2.toNat ++ eol.cr) :
      Torn e eol (base64Encode e.1 ++ 32 :: text)
        (.ret (e.1, UInt32.ofNat
          (e.2.toNat / 10 ^ ((decimal e.2.toNat).length - text.length))))

theorem noBlank_encode (key : Bytes) : 32 ∉ base64Encode key :=
  fun hmem => mem_encode 32 hmem (by decide)

theorem findSpace_none {line : Bytes} (h : 32 ∉ line) (pos : Nat) : findSpace line pos = none := by
  rw [findSpace, Option.map_eq_none_iff, List.findIdx?_eq_none_iff]
  intro c hc
  exact decide_eq_false fun heq => h (heq ▸ List.mem_of_mem_drop hc)

/-- The leading digits of a rank, with a carriage return after all of them. -/
theorem stoi_torn {n : Nat} (hn : n < 2 ^ 31) (eol : LineEnding) {text : Bytes} (hne : text ≠ [])
    (h : text <+: decimal n ++ eol.cr) :
    stoi text = .ret ((n / 10 ^ ((decimal n).length - text.length) : Nat) : Int) := by
  have hdigits := isDigit_decimal n
  have hle : n / 10 ^ ((decimal n).length - text.length) ≤ n := Nat.div_le_self _ _
  have hvalue := ofDigits_take hdigits text.length
  rw [ofDigits_decimal] at hvalue
  rw [stoi_eq_ret_iff]
  refine ⟨?_, by omega, by omega⟩
  rcases prefix_append_cases h with htext | ⟨cr, rfl, hcr⟩
  · have htake : text = (decimal n).take text.length := List.prefix_iff_eq_take.mp htext
    refine ⟨[], [], text, [], ?_, List.forall_mem_nil _, by simp, hne,
      fun c hc => hdigits c (htext.subset hc), by simp, ?_⟩
    · rw [List.append_nil]
      rfl
    · rw [← hvalue, ← htake]
      rfl
  · -- all digits are there
    have hrest : ∀ c ∈ cr.head?, ¬ isDigit c := by
      intro c hc
      have hmem := hcr.subset (List.mem_of_mem_head? hc)
      rcases eol
      · cases hmem
      · obtain rfl := List.mem_singleton.mp hmem
        decide
    have hzero : (decimal n).length - (decimal n ++ cr).length = 0 := by
      rw [List.length_append]
      omega
    refine ⟨[], [], decimal n, cr, rfl, List.forall_mem_nil _, by simp, decimal_ne_nil n, hdigits,
      hrest, ?_⟩
    rw [hzero, Nat.pow_zero, Nat.div_one, ofDigits_decimal]
    rfl

theorem ofInt_natCast {n : Nat} (hn : n < 2 ^ 32) : UInt32.ofInt (n : Int) = UInt32.ofNat n := by
  rw [UInt32.ofInt, Int.emod_eq_of_lt (by omega) (by omega), Int.toNat_natCast]

theorem readEntry_torn {e : Bytes × UInt32} (hkey : e.1 ≠ []) (hrank : e.2.toNat < 2 ^ 31)
    {eol : LineEnding} {part : Bytes} (h : part <+: fileLine e ++ eol.cr) :
    Torn e eol part (readEntry part) := by
  have hread (text : Bytes) : readEntry (base64Encode e.1 ++ 32 :: text) =
      stoi text >>= fun rank => .ret (e.1, UInt32.ofInt rank) := by
    rw [readEntry_fields (four_le_length_encode hkey)
      (fun hmem => noBlank_encode e.1 (List.mem_of_mem_drop hmem)), base64Decode_encode,
      Outcome.ret_bind]
  rw [fileLine, List.append_assoc, List.cons_append] at h
  rcases prefix_append_cases h with hpart | ⟨rest, rfl, hrest⟩
  · have hno : 32 ∉ part := fun hmem => noBlank_encode e.1 (hpart.subset hmem)
    rw [readEntry, findSpace_none hno]
    exact .noBlank hpart
  · rcases List.prefix_cons_iff.mp hrest with rfl | ⟨text, rfl, htext⟩
    · rw [List.append_nil, readEntry, findSpace_none (noBlank_encode e.1)]
      exact .noBlank (List.prefix_refl _)
    · rw [hread]
      by_cases hne : text = []
      · subst hne
        exact .noDigit
      · have hle := Nat.div_le_self e.2.toNat (10 ^ ((decimal e.2.toNat).length - text.length))
        rw [stoi_torn hrank eol hne htext, Outcome.ret_bind, ofInt_natCast (by omega)]
        exact .digits hne htext

/-! ## A file that breaks off -/

/-- The lines of entries, with their ends. -/
def rows (eol : LineEnding) (es : List (Bytes × UInt32)) : Bytes :=
  es.flatMap fun e => fileLine e ++ eol.bytes

theorem rows_cons (eol : LineEnding) (e : Bytes × UInt32) (es : List (Bytes × UInt32)) (tail : Bytes) :
    rows eol (e :: es) ++ tail = (fileLine e ++ eol.cr) ++ 10 :: (rows eol es ++ tail) := by
  simp [rows, LineEnding.bytes]

/-- Where a written file breaks off: after the whole lines of `done`, in the
line of the next entry. -/
theorem prefix_writeFile {eol : LineEnding} {finalNewline : Bool} {es : List (Bytes × UInt32)}
    {content : Bytes} (h : content <+: writeFile eol finalNewline es) :
    ∃ done rest part, es = done ++ rest ∧ content = rows eol done ++ part ∧
      (part = [] ∨ ∃ e rest', rest = e :: rest' ∧ part <+: fileLine e ++ eol.cr) := by
  induction es using writeFile.induct generalizing content with
  | case1 =>
    obtain rfl := List.prefix_nil.mp h
    exact ⟨[], [], [], rfl, rfl, Or.inl rfl⟩
  | case2 e =>
    rcases prefix_append_cases h with hpart | ⟨part, rfl, hpart⟩
    · exact ⟨[], [e], content, rfl, rfl, Or.inr ⟨e, [], rfl, hpart.trans (List.prefix_append _ _)⟩⟩
    · -- the line is whole, and what follows it is at most its end
      have hend : part <+: eol.cr ++ [10] := by
        rcases finalNewline
        · rw [List.prefix_nil.mp hpart]
          exact List.nil_prefix
        · exact hpart
      rcases List.prefix_concat_iff.mp hend with rfl | hcr
      · refine ⟨[e], [], [], rfl, ?_, Or.inl rfl⟩
        rw [rows_cons, List.append_assoc]
        rfl
      · exact ⟨[], [e], fileLine e ++ part, rfl, rfl,
          Or.inr ⟨e, [], rfl, (List.prefix_append_right_inj _).mpr hcr⟩⟩
  | case3 e e' es ih =>
    rw [writeFile, ← List.append_assoc] at h
    rcases prefix_append_cases h with hrow | ⟨content', rfl, hcontent⟩
    · rw [LineEnding.bytes, ← List.append_assoc] at hrow
      rcases List.prefix_concat_iff.mp hrow with rfl | hpart
      · refine ⟨[e], e' :: es, [], rfl, ?_, Or.inl rfl⟩
        rw [rows_cons]
        rfl
      · exact ⟨[], e :: e' :: es, content, rfl, rfl, Or.inr ⟨e, _, rfl, hpart⟩⟩
    · obtain ⟨done, rest, part, hes, rfl, hpart⟩ := ih hcontent
      refine ⟨e :: done, rest, part, ?_, ?_, hpart⟩
      · rw [hes, List.cons_append]
      · rw [rows_cons, LineEnding.bytes, List.append_assoc, List.append_assoc, List.append_assoc]
        rfl

/-- The loop over the lines of entries, and on with the rest. -/
theorem loadLines_append {lines : List Bytes} {es : List (Bytes × UInt32)}
    (h : List.Forall₂ (fun line e => LineEntry line e.1 e.2) lines es) (rest : List Bytes)
    (dict : EncodeDict) : loadLines (lines ++ rest) dict = loadLines rest (dict.emplaceAll es) := by
  induction h generalizing dict with
  | nil => rfl
  | cons hentry _ ih =>
    rw [List.cons_append, loadLines_cons hentry.ne_nil, readEntry_eq_ret_iff.mpr hentry,
      Outcome.ret_bind, ih]
    rfl

theorem splitOn_rows {eol : LineEnding} (es : List (Bytes × UInt32)) {part : Bytes}
    (hpart : 10 ∉ part) :
    (rows eol es ++ part).splitOn 10 = es.map (fun e => fileLine e ++ eol.cr) ++ [part] := by
  induction es with
  | nil => exact List.splitOn_eq_singleton hpart
  | cons e es ih =>
    rw [rows_cons, List.splitOn_append_cons_self_of_not_mem (noLineFeed_fileLine e eol), ih]
    rfl

/-- **A file that breaks off**: the entries of its whole lines, and what the
loader makes of the line it breaks off in. -/
theorem load_torn {es : List (Bytes × UInt32)} (hes : ∀ e ∈ es, e.1 ≠ [] ∧ e.2.toNat < 2 ^ 31)
    {eol : LineEnding} {finalNewline : Bool} {content : Bytes}
    (h : content <+: writeFile eol finalNewline es) (order : IterationOrder) :
    ∃ done rest, es = done ++ rest ∧
      (content = rows eol done ∧ loadTiktokenBpe order content =
          .ret ((UnorderedMap.empty.emplaceAll done).shuffle order) ∨
        ∃ e rest' part out, rest = e :: rest' ∧ content = rows eol done ++ part ∧
          Torn e eol part out ∧ loadTiktokenBpe order content = out >>= fun e' =>
            .ret ((UnorderedMap.empty.emplaceAll (done ++ [e'])).shuffle order)) := by
  obtain ⟨done, rest, part, rfl, rfl, hpart⟩ := prefix_writeFile h
  have hlines : List.Forall₂ (fun line e => LineEntry line e.1 e.2)
      (done.map fun e => fileLine e ++ eol.cr) done := by
    rw [List.forall₂_map_left_iff, List.forall₂_same]
    intro e he
    obtain ⟨hkey, hrank⟩ := hes e (List.mem_append_left _ he)
    exact lineEntry_fileLine hkey hrank eol.cr_cases
  have hload (hno : 10 ∉ part) : loadTiktokenBpe order (rows eol done ++ part) =
      loadLines [part] (UnorderedMap.empty.emplaceAll done) >>= fun dict =>
        .ret (dict.shuffle order) := by
    rw [loadTiktokenBpe, splitOn_rows done hno, loadLines_append hlines]
    rfl
  refine ⟨done, rest, rfl, ?_⟩
  by_cases hnil : part = []
  · subst hnil
    refine Or.inl ⟨List.append_nil _, ?_⟩
    rw [hload List.not_mem_nil]
    rfl
  · obtain ⟨e, rest', rfl, htorn⟩ := hpart.resolve_left hnil
    obtain ⟨hkey, hrank⟩ := hes e (by simp)
    refine Or.inr ⟨e, rest', part, readEntry part, rfl, rfl, readEntry_torn hkey hrank htorn, ?_⟩
    rw [hload fun hmem => noLineFeed_fileLine e eol (htorn.subset hmem), loadLines_cons hnil,
      Outcome.bind_assoc]
    refine Outcome.bind_congr fun e' _ => ?_
    rw [loadLines, Outcome.ret_bind, UnorderedMap.emplaceAll, UnorderedMap.emplaceAll,
      List.foldl_append]
    rfl

/-! ## A download that breaks off -/

/-- The file holds a leading part of what was sent. -/
theorem received_isPrefix (content : Bytes) (chunks : List (Bytes × WriteOutcome)) :
    received content chunks <+: content ++ wholeContent chunks := by
  induction chunks generalizing content with
  | nil => exact List.prefix_append _ _
  | cons c chunks ih =>
    obtain ⟨data, outcome⟩ := c
    have hwhole : wholeContent ((data, outcome) :: chunks) = data ++ wholeContent chunks := rfl
    rw [hwhole, ← List.append_assoc]
    rcases outcome with _ | lost
    · exact ih (content ++ data)
    · rw [received]
      by_cases hdata : data = []
      · rw [if_pos hdata, hdata, List.append_nil]
        exact ih content
      · rw [if_neg hdata]
        exact (List.take_prefix _ _).trans (List.prefix_append _ _)

/-- What the loader may end in after a download that broke off: one of its two
errors, or a dictionary of published tokens, all of them but at most one with
their ranks. The one that is `torn` has the leading digits of its rank. -/
inductive LoadedPart (dict : EncodeDict) : Run (Option EncodeDict) → Prop where
  | badFormat : LoadedPart dict (.throw (.runtimeError (str "invaid token encoding file format!")))
  | badNumber : LoadedPart dict (.throw .invalidArgument)
  | loaded {part : EncodeDict} (torn : Option Bytes)
      (h : ∀ token rank, part.find? token = some rank → ∃ rank', dict.find? token = some rank' ∧
        (rank = rank' ∨ torn = some token ∧ ∃ k, rank.toNat = rank'.toNat / 10 ^ k)) :
      LoadedPart dict (.ret (some part))

theorem loadedPart_torn {dict : EncodeDict} {es : List (Bytes × UInt32)} (hes : es.Perm dict.entries)
    (hdict : ∀ e ∈ dict.entries, e.1 ≠ [] ∧ e.2.toNat < 2 ^ 31) {eol : LineEnding}
    {finalNewline : Bool} {content : Bytes} (h : content <+: writeFile eol finalNewline es)
    (order : IterationOrder) :
    LoadedPart dict (loadTiktokenBpe order content >>= fun dict => .ret (some dict)) := by
  have hpublished : ∀ e ∈ es, dict.find? e.1 = some e.2 :=
    fun e he => UnorderedMap.find?_eq_some_iff.mpr (hes.mem_iff.mp he)
  obtain ⟨done, rest, rfl, hcases⟩ := load_torn (fun e he => hdict e (hes.mem_iff.mp he)) h order
  rcases hcases with ⟨-, hload⟩ | ⟨e, rest', part, out, rfl, -, htorn, hload⟩
  · rw [hload, Outcome.ret_bind]
    refine .loaded none ?_
    intro token rank hfind
    rw [UnorderedMap.find?_shuffle] at hfind
    have hmem := UnorderedMap.mem_of_find?_emplaceAll hfind
    exact ⟨rank, hpublished _ (List.mem_append_left _ hmem), Or.inl rfl⟩
  · rw [hload]
    cases htorn with
    | noBlank h => exact .badFormat
    | noDigit => exact .badNumber
    | digits hne htext =>
      rw [Outcome.ret_bind, Outcome.ret_bind]
      refine .loaded (some e.1) ?_
      intro token rank hfind
      rw [UnorderedMap.find?_shuffle] at hfind
      rcases List.mem_append.mp (UnorderedMap.mem_of_find?_emplaceAll hfind) with hmem | hmem
      · exact ⟨rank, hpublished _ (List.mem_append_left _ hmem), Or.inl rfl⟩
      · obtain ⟨rfl, rfl⟩ := Prod.mk.inj (List.mem_singleton.mp hmem)
        refine ⟨e.2, hpublished e (by simp), Or.inr ⟨rfl, _, UInt32.toNat_ofNat_of_lt' ?_⟩⟩
        exact lt_of_le_of_lt (Nat.div_le_self _ _) e.2.toNat_lt

/-- **Starts after a download that broke off.** If the file of an encoding is
not there and the first start gets a leading part of a written vocabulary,
whatever of it the disk takes, then at any later start the loader fails, or
loads published tokens of which at most one has a wrong rank. -/
theorem interrupted_download {E : Platform} {name : Bytes} (hname : name ∈ listEncodingNames)
    {param : EncodingParam} (hparam : getEncodingParam E.order name = .ret param) (dict : EncodeDict)
    (hdict : ∀ e ∈ dict.entries, e.1 ≠ [] ∧ e.2.toNat < 2 ^ 31) {es : List (Bytes × UInt32)}
    (hes : es.Perm dict.entries) (eol : LineEnding) (finalNewline : Bool)
    (hmissing : E.cache (cacheFileName name) = none) {network : Bytes → DownloadEnv}
    (hopens : (network name).opens = true)
    (hsent : wholeContent ((network name).delivered param.bpeUrl none) <+:
      writeFile eol finalNewline es) (networks : List (Bytes → DownloadEnv)) :
    LoadedPart dict
      (getTiktokenEncoding (E.after (network :: networks)).cache E.order name) := by
  have hfetched : fetchedBy network E.order name =
      some (received [] ((network name).delivered param.bpeUrl none)) := by
    rw [fetchedBy, bpeUrlOf_eq hparam, DownloadEnv.fetched, if_pos hopens]
  have hprefix := (received_isPrefix [] ((network name).delivered param.bpeUrl none)).trans hsent
  unfold getTiktokenEncoding
  rw [show name ++ str ".tiktoken" = cacheFileName name from rfl,
    after_cache hname hmissing hfetched networks]
  exact loadedPart_torn hes hdict hprefix E.order

/-- The connection breaks off (code 18) in the number of the second line. -/
theorem interrupted_download_partial :
    LoadedPart ⟨[(str "A", 0), (str "AB", 71)], by decide⟩
      (getTiktokenEncoding (plainPlatform.after
        [fun _ => onlineEnv [(str "QQ== 0\n", .complete), (str "QUI= 7", .complete)] 18]).cache
        .insertion (str "cl100k_base")) :=
  interrupted_download (E := plainPlatform) (by decide)
    (show getEncodingParam .insertion (str "cl100k_base") = .ret cl100kParam from rfl)
    ⟨[(str "A", 0), (str "AB", 71)], by decide⟩ (by decide) (List.Perm.refl _) .lf true rfl rfl
    (by decide) []

end TiktokenCpp
