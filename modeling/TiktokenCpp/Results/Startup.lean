import TiktokenCpp.Lib.Session
import TiktokenCpp.Lib.WriteOnce
import TiktokenCpp.Model.Startup
import TiktokenCpp.Results.Download
import TiktokenCpp.Results.Loader
import TiktokenCpp.Results.Vocabulary

/-!
# Starts of the program

The cache over any number of starts, each with its own network and disk. A
start only downloads what is not there, and a download that could open its file
leaves an entry, so the cache is a write-once store: what the first download of
an encoding left in its file is there at every later start.

Main results:

* `starts_cache` -- the cache after any number of starts;
* `first_failure_stays` -- a first download that got nothing makes an encoding
  unusable at every later start;
* `starts_decode_encode` -- a first download that got the file makes an
  encoding that decodes what it encodes.
-/

namespace TiktokenCpp

open Utf8 Pcre2

/-! ## One download -/

/-- What a download leaves in a file that was not there. -/
def DownloadEnv.fetched (env : DownloadEnv) (url : Bytes) : Option Bytes :=
  if env.opens = true then some (received [] (env.delivered url none)) else none

/-- The answer of a download. -/
def DownloadEnv.answer (env : DownloadEnv) (url : Bytes) : Bool :=
  env.opens && decide (env.Succeeds url none)

/-- A download into a cache without the file. -/
theorem downloadEncoding_eq (env : DownloadEnv) {order : IterationOrder} {name : Bytes}
    {param : EncodingParam} (hparam : getEncodingParam order name = .ret param) {cache : Cache}
    (hmissing : cache (cacheFileName name) = none) :
    downloadEncoding env order name none cache =
      (.ret (env.answer param.bpeUrl),
        WriteOnce.fill cache (WriteOnce.single (cacheFileName name) (env.fetched param.bpeUrl))) := by
  obtain ⟨hrtn, hcontent⟩ := downloadTo_eq env param.bpeUrl none
  have hcache (content : Bytes) : (fun f => if f = cacheFileName name then some content else cache f) =
      WriteOnce.fill cache (WriteOnce.single (cacheFileName name) (some content)) := by
    funext f
    by_cases hf : f = cacheFileName name
    · rw [if_pos hf, hf, WriteOnce.fill_single_self, hmissing, Option.none_or]
    · rw [if_neg hf, WriteOnce.fill_single_of_ne _ hf]
  rw [downloadEncoding, hparam, Outcome.ret_bindState, downloadFile, DownloadEnv.answer,
    DownloadEnv.fetched]
  by_cases hopens : env.opens = true
  · rcases hdown : downloadTo env param.bpeUrl ((none : Option Bytes).getD []) {} with ⟨rtn, file⟩
    rw [hdown] at hrtn hcontent
    dsimp only at hrtn hcontent
    rw [if_pos hopens, if_pos hopens]
    have hanswer : decide (env.Succeeds param.bpeUrl none) = rtn := by
      rw [Bool.eq_iff_iff, decide_eq_true_iff, hrtn]
    dsimp only
    rw [hcontent, hcache, hopens, Bool.true_and, hanswer]
  · rw [if_neg hopens, if_neg hopens, Bool.eq_false_iff.mpr hopens, WriteOnce.fill_single_none,
      Bool.false_and]

/-! ## The loop -/

/-- The registered encodings that are downloaded when they are not there. -/
theorem cacheFileName_inj {name name' : Bytes} (h : cacheFileName name = cacheFileName name') :
    name = name' :=
  List.append_cancel_right h

/-- Where an encoding is downloaded from. -/
def bpeUrlOf (order : IterationOrder) (name : Bytes) : Bytes :=
  ((sEncodingParam order).dropLast.find? fun p => p.name = name).elim [] EncodingParam.bpeUrl

theorem bpeUrlOf_eq {order : IterationOrder} {name : Bytes} {param : EncodingParam}
    (h : getEncodingParam order name = .ret param) : bpeUrlOf order name = param.bpeUrl := by
  unfold getEncodingParam at h
  unfold bpeUrlOf
  split at h
  · next p hp =>
    obtain rfl := Outcome.ret.inj h
    rw [hp]
    rfl
  · cases h

section

variable (network : Bytes → DownloadEnv) (order : IterationOrder)

/-- What a start makes of the encoding when its file is not there. -/
def fetchedBy (name : Bytes) : Option Bytes := (network name).fetched (bpeUrlOf order name)

/-- The line about an encoding. -/
def report (cache : Cache) (name : Bytes) : Bytes :=
  if isLocalEncodingCacheExisted cache name then []
  else str "Downloading encoding file for " ++ name ++ str "..." ++
    ((if (network name).answer (bpeUrlOf order name) then str "successfully!" else str "failed!") ++
      str "\n")

/-- What the loop offers to the cache. -/
def offers (names : List Bytes) : List Cache :=
  names.map fun name => WriteOnce.single (cacheFileName name) (fetchedBy network order name)

/-- **The loop fills the cache.** It does not throw, and says of every file that
was not there whether its transfer succeeded. -/
theorem downloadLoop_eq (names : List Bytes) (hnames : ∀ name ∈ names, name ∈ registryNames)
    (hnodup : names.Nodup) (s : StartState) :
    downloadLoop network order names s =
      (.ret (), ⟨WriteOnce.run s.cache (offers network order names),
        s.output ++ names.flatMap (report network order s.cache)⟩) := by
  induction names generalizing s with
  | nil =>
    rw [downloadLoop, List.flatMap_nil, List.append_nil]
    rfl
  | cons name names ih =>
    obtain ⟨hname, hnames⟩ := List.forall_mem_cons.mp hnames
    obtain ⟨hnew, hnodup⟩ := List.nodup_cons.mp hnodup
    obtain ⟨param, -, -, hparam⟩ := getEncodingParam_of_mem hname order
    have hrun (cache : Cache) : WriteOnce.run cache (offers network order (name :: names)) =
        WriteOnce.run (WriteOnce.fill cache
          (WriteOnce.single (cacheFileName name) (fetchedBy network order name)))
            (offers network order names) := rfl
    rw [downloadLoop, List.flatMap_cons, hrun]
    rcases hentry : s.cache (cacheFileName name) with _ | content
    · have hmissing : isLocalEncodingCacheExisted s.cache name = false := by
        rw [isLocalEncodingCacheExisted, hentry, Option.isSome_none]
      have hanswer : report network order s.cache name =
          str "Downloading encoding file for " ++ name ++ str "..." ++
            ((if (network name).answer param.bpeUrl then str "successfully!" else str "failed!") ++
              str "\n") := by
        rw [report, hmissing, if_neg Bool.false_ne_true, bpeUrlOf_eq hparam]
      -- the other files are as they were
      have hreports : names.flatMap (report network order s.cache) = names.flatMap
          (report network order (WriteOnce.fill s.cache
            (WriteOnce.single (cacheFileName name) (fetchedBy network order name)))) := by
        refine List.flatMap_congr ?_
        intro other hother
        have hne : cacheFileName other ≠ cacheFileName name := by
          intro hfile
          exact hnew (cacheFileName_inj hfile ▸ hother)
        unfold report isLocalEncodingCacheExisted
        rw [WriteOnce.fill_single_of_ne _ hne]
      rw [hmissing, if_neg Bool.false_ne_true, hreports, hanswer]
      dsimp only [StartState.print]
      rw [downloadEncoding_eq (network name) hparam hentry]
      dsimp only
      rw [Outcome.ret_bindState, ih hnames hnodup, fetchedBy, bpeUrlOf_eq hparam]
      simp only [List.append_assoc]
    · have hexists : isLocalEncodingCacheExisted s.cache name = true := by
        rw [isLocalEncodingCacheExisted, hentry, Option.isSome_some]
      rw [hexists, if_pos rfl, ih hnames hnodup, WriteOnce.fill_single_of_some hentry, report,
        hexists, if_pos rfl, List.nil_append]

/-- **One start**: it ends, and the cache takes what was fetched. -/
theorem start_eq (cache : Cache) :
    start order cache network =
      ((.ret (), listEncodingNames.flatMap (report network order cache)),
        WriteOnce.run cache (offers network order listEncodingNames)) := by
  have hloop := downloadLoop_eq network order listEncodingNames (fun name hname => hname) (by decide)
    ⟨cache, []⟩
  rw [List.nil_append] at hloop
  unfold start downloadMissing
  rw [hloop]

end

/-! ## Any number of starts -/

section

variable (order : IterationOrder) (cache : Cache) (networks : List (Bytes → DownloadEnv))

theorem session_start_cache :
    (Session.session (start order) cache networks).2 =
      WriteOnce.run cache (networks.flatMap fun network => offers network order listEncodingNames) := by
  induction networks generalizing cache with
  | nil => rfl
  | cons network networks ih =>
    rw [Session.session, ih, start_eq, List.flatMap_cons, WriteOnce.run_append]

theorem session_start_replies :
    ∀ reply ∈ (Session.session (start order) cache networks).1, reply.1 = .ret () := by
  induction networks generalizing cache with
  | nil => exact List.forall_mem_nil _
  | cons network networks ih =>
    rw [Session.session, start_eq]
    exact List.forall_mem_cons.mpr ⟨rfl, ih _⟩

/-- The offers of a start at the file of a listed encoding. -/
theorem findSome?_offers (network : Bytes → DownloadEnv) {name : Bytes}
    (hname : name ∈ listEncodingNames) :
    ((offers network order listEncodingNames).findSome? fun offer => offer (cacheFileName name)) =
      fetchedBy network order name := by
  have hrun : WriteOnce.run (fun _ => none) (offers network order listEncodingNames)
      (cacheFileName name) = Option.or none (fetchedBy network order name) :=
    WriteOnce.run_singles _ _ (fun _ _ _ _ => cacheFileName_inj) hname
  rw [WriteOnce.run_apply, Option.none_or, Option.none_or] at hrun
  exact hrun

theorem session_start_entry {name : Bytes} (hname : name ∈ listEncodingNames) :
    (Session.session (start order) cache networks).2 (cacheFileName name) =
      (cache (cacheFileName name)).or
        (networks.findSome? fun network => fetchedBy network order name) := by
  rw [session_start_cache, WriteOnce.run_flatMap_apply]
  simp only [findSome?_offers order _ hname]

/-- **The cache after any number of starts.** The download loop never throws, so
no start ends in its `catch`. The file of an encoding holds what it held at
first, or else what the first of its downloads left that could open it; other
files stay as they are. -/
theorem starts_cache :
    (∀ network s, (downloadLoop network order listEncodingNames s).1 = .ret ()) ∧
    (∀ reply ∈ (Session.session (start order) cache networks).1, reply.1 = .ret ()) ∧
    (∀ name ∈ listEncodingNames,
      (Session.session (start order) cache networks).2 (cacheFileName name) =
        (cache (cacheFileName name)).or
          (networks.findSome? fun network => fetchedBy network order name)) ∧
    ∀ file, (∀ name ∈ listEncodingNames, file ≠ cacheFileName name) →
      (Session.session (start order) cache networks).2 file = cache file := by
  refine ⟨fun network s => congrArg Prod.fst (downloadLoop_eq network order listEncodingNames
      (fun name hname => hname) (by decide) s), session_start_replies order cache networks,
    fun name hname => session_start_entry order cache networks hname, ?_⟩
  intro file hfile
  rw [session_start_cache]
  refine WriteOnce.run_of_forall_none cache ?_
  intro offer hoffer
  obtain ⟨network, -, hoffer⟩ := List.mem_flatMap.mp hoffer
  obtain ⟨name, hname, rfl⟩ := List.mem_map.mp hoffer
  exact if_neg (hfile name hname)

end

/-! ## Objects from the cache -/

section

variable {E : Platform} {U : UnicodeProps}

/-- The platform after a number of starts. -/
def Platform.after (E : Platform) (networks : List (Bytes → DownloadEnv)) : Platform :=
  E.withCache (Session.session (start E.order) E.cache networks).2

theorem Platform.Documented.after (hE : E.Documented U) (networks : List (Bytes → DownloadEnv)) :
    (E.after networks).Documented U :=
  ⟨hE.pcre2, hE.iconv⟩

/-- What the first start left in a file that was not there stays. -/
theorem after_cache {name : Bytes} (hname : name ∈ listEncodingNames)
    (hmissing : E.cache (cacheFileName name) = none) {network : Bytes → DownloadEnv}
    {content : Bytes} (hfetched : fetchedBy network E.order name = some content)
    (networks : List (Bytes → DownloadEnv)) :
    (E.after (network :: networks)).cache (cacheFileName name) = some content := by
  show (Session.session (start E.order) E.cache (network :: networks)).2 _ = _
  rw [session_start_entry _ _ _ hname, hmissing, Option.none_or, List.findSome?_cons, hfetched]

/-- With a file that loads, `GetEncoding` is the rest of the constructor. -/
theorem getEncoding_of_load {fuel : Nat} {name : Bytes} {param : EncodingParam}
    (hname : param.name = name) (hparam : getEncodingParam E.order name = .ret param)
    {content : Bytes} (hcontent : E.cache (cacheFileName name) = some content) {dict : EncodeDict}
    (hload : loadTiktokenBpe E.order content = .ret dict) :
    getEncoding E fuel name = TikToken.fromEncoder E fuel param dict := by
  have hget : getTiktokenEncoding E.cache E.order param.name = .ret (some dict) := by
    unfold getTiktokenEncoding
    rw [hname, show name ++ str ".tiktoken" = cacheFileName name from rfl, hcontent]
    dsimp only
    rw [hload]
    rfl
  rw [getEncoding, hparam, Outcome.ret_bind, TikToken.new, hget, Outcome.ret_bind]

end

/-! ## A first download that got nothing -/

section

variable {E : Platform} {U : UnicodeProps} {self : CoreBpe E}

/-- Without a vocabulary the first word of a text throws. -/
theorem encodeWords_of_empty (hempty : ∀ k, self.encoder.find? k = none) {ws : List Bytes}
    (hws : ∀ w ∈ ws, w ≠ []) (hne : ws ≠ []) : encodeWords self ws = .throw .outOfRange := by
  obtain ⟨w, ws, rfl⟩ := List.exists_cons_of_ne_nil hne
  have hw := hws w (List.mem_cons_self ..)
  have hsegs : naiveSegments self.encoder w ≠ [] := by
    intro hnil
    have hflat := flatten_naiveSegments self.encoder w
    rw [hnil] at hflat
    exact hw hflat.symm
  obtain ⟨seg, segs, hcons⟩ := List.exists_cons_of_ne_nil hsegs
  have hword : encodeWord self w = .throw .outOfRange := by
    unfold encodeWord
    rw [hempty w]
    dsimp only
    rw [bytePairEncode_eq self.encoder hw, naiveEncode, hcons, lookupAll, EncodeDict.at, hempty seg]
    rfl
  rw [encodeWords, hword, Outcome.throw_bind]

/-- An object without a vocabulary encodes no text but the empty one. -/
theorem encodeOrdinary_of_empty (hE : E.Documented U) {param : EncodingParam}
    (hparam : param ∈ (sEncodingParam E.order).dropLast) {encoder : EncodeDict}
    (hempty : ∀ k, encoder.find? k = none) {newFuel : Nat} (hnew : 0 < newFuel) {tok : TikToken E}
    (htok : TikToken.fromEncoder E newFuel param encoder = .ret tok) {text : Bytes}
    (hwell : WellFormed text) (htext : text ≠ []) {fuel : Nat} (hfuel : text.length ≤ fuel) :
    tok.encodeOrdinary fuel text = .throw .outOfRange := by
  obtain ⟨cs, rfl⟩ := hwell
  obtain ⟨hbuilt, hcompiled, -⟩ :=
    built_of_fromEncoder hE (registry_specialKind E.order param hparam).1 hnew htok
  obtain ⟨re, himpl, hsplits⟩ := splits_of_compile hE ⟨_, param, hparam, rfl⟩ hcompiled
  obtain ⟨ws, hws, hflat, hne⟩ := utf8WordsSpliter_encode himpl hsplits
    ((length_le_length_encode cs).trans hfuel)
  have hsome : ws ≠ [] := by
    rintro rfl
    exact htext hflat.symm
  rw [← hbuilt.encoder] at hempty
  rw [TikToken.encodeOrdinary, encodeOrdinaryNative, hws, Outcome.ret_bind,
    encodeWords_of_empty hempty hne hsome]
  rfl

/-- The assertions of the constructor on an empty vocabulary. -/
theorem checkVocab_empty {order : IterationOrder} {param : EncodingParam}
    (hparam : param ∈ (sEncodingParam order).dropLast) (hvocab : param.vocabN ≠ none) :
    checkVocab param.vocabN (UnorderedMap.empty.shuffle order) param.specialTokens = .abort := by
  have hsize {V : Type} (m : UnorderedMap Bytes V) : (m.shuffle order).size = m.size :=
    (order.perm m.entries).length_eq
  simp only [sEncodingParam, List.dropLast, List.mem_cons, List.not_mem_nil, or_false] at hparam
  rcases hparam with rfl | rfl | rfl | rfl
  · simp only [checkVocab, hsize]
    rfl
  · simp only [checkVocab, hsize]
    rfl
  · exact absurd rfl hvocab
  · exact absurd rfl hvocab

/-- **A first download that got nothing stays.** If the first start could open
the file of an encoding and then received nothing, no later start makes up for
it: `GetEncoding` fails an assertion, or makes an object that encodes no text
but the empty one. -/
theorem first_failure_stays (hE : E.Documented U) {name : Bytes} (hname : name ∈ listEncodingNames)
    (hmissing : E.cache (cacheFileName name) = none) {network : Bytes → DownloadEnv}
    (hnothing : fetchedBy network E.order name = some []) (networks : List (Bytes → DownloadEnv))
    {newFuel : Nat} (hnew : 0 < newFuel) :
    ∃ param, getEncodingParam E.order name = .ret param ∧
      (param.vocabN ≠ none → getEncoding (E.after (network :: networks)) newFuel name = .abort) ∧
      (param.vocabN = none → ∃ tok,
        getEncoding (E.after (network :: networks)) newFuel name = .ret tok ∧
        ∀ text, WellFormed text → text ≠ [] → ∀ fuel, text.length ≤ fuel →
          tok.encodeOrdinary fuel text = .throw .outOfRange) := by
  obtain ⟨param, hmem, hparamName, hparam⟩ := getEncodingParam_of_mem hname E.order
  have hget : getEncoding (E.after (network :: networks)) newFuel name =
      TikToken.fromEncoder _ newFuel param (UnorderedMap.empty.shuffle E.order) :=
    getEncoding_of_load (E := E.after (network :: networks)) hparamName hparam
      (after_cache hname hmissing hnothing networks) rfl
  refine ⟨param, hparam, ?_, ?_⟩
  · intro hvocab
    rw [hget, TikToken.fromEncoder, checkVocab_empty hmem hvocab]
    rfl
  · intro hvocab
    obtain ⟨tok, htok⟩ := fromEncoder_ret (hE.after (network :: networks)) param
      (UnorderedMap.empty.shuffle E.order) (registry_specialKind E.order param hmem).1
      ⟨_, param, hmem, rfl⟩ (by rw [hvocab]; rfl) hnew
    refine ⟨tok, by rw [hget, htok], ?_⟩
    intro text hwell htext fuel hfuel
    refine encodeOrdinary_of_empty (hE.after (network :: networks)) hmem ?_ hnew htok hwell htext hfuel
    intro k
    rw [UnorderedMap.find?_shuffle]
    rfl

end

/-- A host that is not found at the first start; at the second one the file is
there to be fetched. -/
theorem first_failure_stays_offline :
    ∃ param, getEncodingParam plainPlatform.order (str "cl100k_base") = .ret param ∧
      (param.vocabN ≠ none → getEncoding (plainPlatform.after [fun _ => onlineEnv [] 6,
        fun _ => onlineEnv [(str "QQ== 0\n", .complete)] curleOk]) 1 (str "cl100k_base") = .abort) ∧
      (param.vocabN = none → ∃ tok, getEncoding (plainPlatform.after [fun _ => onlineEnv [] 6,
          fun _ => onlineEnv [(str "QQ== 0\n", .complete)] curleOk]) 1 (str "cl100k_base") = .ret tok ∧
        ∀ text, WellFormed text → text ≠ [] → ∀ fuel, text.length ≤ fuel →
          tok.encodeOrdinary fuel text = .throw .outOfRange) :=
  first_failure_stays plainPlatform_documented (by decide) rfl rfl
    [fun _ => onlineEnv [(str "QQ== 0\n", .complete)] curleOk] Nat.one_pos

/-! ## A first download that got the file -/

section

variable {E : Platform} {U : UnicodeProps}

/-- The assertions of the constructor see the size of the dictionary only. -/
theorem checkVocab_perm {encoder encoder' : EncodeDict}
    (hperm : encoder.entries.Perm encoder'.entries) (vocabN : Option UInt32) (special : StrViewToInt) :
    checkVocab vocabN encoder special = checkVocab vocabN encoder' special := by
  have hsize : encoder.size = encoder'.size := hperm.length_eq
  unfold checkVocab maxTokenValue getMaxTokenValue
  rw [hsize]

/-- What a download leaves that succeeds and loses nothing. -/
theorem fetchedBy_of_takesAll {network : Bytes → DownloadEnv} {order : IterationOrder} {name : Bytes}
    {param : EncodingParam} (hparam : getEncodingParam order name = .ret param)
    (hopens : (network name).opens = true)
    (htakes : TakesAll ((network name).delivered param.bpeUrl none)) :
    fetchedBy network order name = some (wholeContent ((network name).delivered param.bpeUrl none)) := by
  have hreceived := (received_eq_iff [] _).mpr htakes
  rw [List.nil_append] at hreceived
  rw [fetchedBy, bpeUrlOf_eq hparam, DownloadEnv.fetched, if_pos hopens, hreceived]

/-- An object with a vocabulary of all bytes and distinct ranks decodes what it
encodes. -/
theorem fromEncoder_decode_encode (hE : E.Documented U) {param : EncodingParam}
    (hparam : param ∈ (sEncodingParam E.order).dropLast) {encoder : EncodeDict}
    (hcheck : checkVocab param.vocabN encoder param.specialTokens = .ret ())
    (hbytes : HasAllBytes encoder) (hranks : DistinctValues encoder) {newFuel : Nat}
    (hnew : 0 < newFuel) :
    ∃ tok, TikToken.fromEncoder E newFuel param encoder = .ret tok ∧
      ∀ text, WellFormed text → ∀ fuel, text.length ≤ fuel →
        ∃ tokens, tok.encodeOrdinary fuel text = .ret tokens ∧ (tok.decode tokens).1 = text := by
  have hkind := (registry_specialKind E.order param hparam).1
  obtain ⟨tok, htok⟩ := fromEncoder_ret hE param encoder hkind ⟨_, param, hparam, rfl⟩ hcheck hnew
  obtain ⟨hbuilt, hcompiled, -⟩ := built_of_fromEncoder hE hkind hnew htok
  obtain ⟨re, himpl, hsplits⟩ := splits_of_compile hE ⟨_, param, hparam, rfl⟩ hcompiled
  rw [← hbuilt.encoder] at hbytes hranks
  refine ⟨tok, htok, ?_⟩
  rintro text ⟨cs, rfl⟩ fuel hfuel
  obtain ⟨tokens, htokens, htokenizes⟩ := encodeOrdinaryNative_tokenizes himpl hsplits hbytes
    ((length_le_length_encode cs).trans hfuel)
  refine ⟨tokens, ?_, by rw [decode_fresh hbuilt.decoder, htokenizes.decoded hranks]⟩
  rw [TikToken.encodeOrdinary, htokens]
  rfl

/-- **From the published file to decoded text.** If the file of an encoding is
not there and the first start gets the whole of a written vocabulary, then after
any later starts `GetEncoding` returns an object, and what it encodes it decodes. -/
theorem starts_decode_encode (hE : E.Documented U) {name : Bytes} (hname : name ∈ listEncodingNames)
    {param : EncodingParam} (hparam : getEncodingParam E.order name = .ret param)
    (dict : EncodeDict) (hdict : ∀ e ∈ dict.entries, e.1 ≠ [] ∧ e.2.toNat < 2 ^ 31)
    (hbytes : HasAllBytes dict) (hranks : DistinctValues dict)
    (hcheck : checkVocab param.vocabN dict param.specialTokens = .ret ())
    {es : List (Bytes × UInt32)} (hes : es.Perm dict.entries) (eol : LineEnding)
    (finalNewline : Bool) (hmissing : E.cache (cacheFileName name) = none)
    {network : Bytes → DownloadEnv} (hopens : (network name).opens = true)
    (htakes : TakesAll ((network name).delivered param.bpeUrl none))
    (hwhole : wholeContent ((network name).delivered param.bpeUrl none) =
      writeFile eol finalNewline es)
    (networks : List (Bytes → DownloadEnv)) {newFuel : Nat} (hnew : 0 < newFuel) :
    ∃ tok, getEncoding (E.after (network :: networks)) newFuel name = .ret tok ∧
      ∀ text, WellFormed text → ∀ fuel, text.length ≤ fuel →
        ∃ tokens, tok.encodeOrdinary fuel text = .ret tokens ∧ (tok.decode tokens).1 = text := by
  obtain ⟨param', hmem, hparamName, hparam'⟩ := getEncodingParam_of_mem hname E.order
  obtain rfl : param = param' := Outcome.ret.inj (hparam.symm.trans hparam')
  -- the file loads as the vocabulary
  have hlines := leadingLines_writeFile eol finalNewline fun e he => hdict e (hes.mem_iff.mp he)
  have hload : loadTiktokenBpe E.order (writeFile eol finalNewline es) =
      .ret ((UnorderedMap.empty.emplaceAll es).shuffle E.order) := by
    rw [loadTiktokenBpe, loadLines_ret hlines, Outcome.ret_bind, Outcome.pure_eq]
  have hperm : ((UnorderedMap.empty.emplaceAll es).shuffle E.order).entries.Perm dict.entries := by
    have hnodup : (es.map Prod.fst).Nodup := (hes.map Prod.fst).nodup_iff.mpr dict.nodup
    refine (E.order.perm _).trans ?_
    rw [UnorderedMap.entries_emplaceAll_of_nodup hnodup]
    exact hes
  have hfind (w : Bytes) := UnorderedMap.find?_perm hperm w
  have hfetched := fetchedBy_of_takesAll hparam hopens htakes
  rw [hwhole] at hfetched
  rw [getEncoding_of_load (E := E.after (network :: networks)) hparamName hparam
    (after_cache hname hmissing hfetched networks) hload]
  refine fromEncoder_decode_encode (hE.after (network :: networks)) hmem
    ((checkVocab_perm hperm _ _).trans hcheck) ?_ ?_ hnew
  · intro b
    rw [hfind]
    exact hbytes b
  · intro k k' v hk hk'
    rw [hfind] at hk hk'
    exact hranks k k' v hk hk'

end

/-- The network that has the vocabulary of the single bytes. -/
def byteNetwork : Bytes → DownloadEnv :=
  fun _ => onlineEnv [(writeFile .crlf false byteDict.entries, .complete)] curleOk

theorem starts_decode_encode_bytes :
    ∃ tok, getEncoding (plainPlatform.after [byteNetwork, fun _ => onlineEnv [] 6]) 1
        (str "cl100k_base") = .ret tok ∧
      ∀ text, WellFormed text → ∀ fuel, text.length ≤ fuel →
        ∃ tokens, tok.encodeOrdinary fuel text = .ret tokens ∧ (tok.decode tokens).1 = text := by
  have hdict : ∀ e ∈ byteDict.entries, e.1 ≠ [] ∧ e.2.toNat < 2 ^ 31 := by
    intro e he
    obtain ⟨i, hi, hkey, hrank⟩ := find?_byteDict.mp (UnorderedMap.find?_eq_some_iff.mpr he)
    rw [hkey, hrank, UInt32.toNat_ofNat']
    exact ⟨List.cons_ne_nil _ _, by omega⟩
  have hdelivered : (byteNetwork (str "cl100k_base")).delivered cl100kParam.bpeUrl none =
      [(writeFile .crlf false byteDict.entries, .complete)] := if_pos ⟨rfl, rfl⟩
  have htakes : TakesAll ((byteNetwork (str "cl100k_base")).delivered cl100kParam.bpeUrl none) := by
    rw [hdelivered]
    exact List.forall_mem_singleton.mpr (Or.inl rfl)
  have hwhole : wholeContent ((byteNetwork (str "cl100k_base")).delivered cl100kParam.bpeUrl none) =
      writeFile .crlf false byteDict.entries := by
    rw [hdelivered, wholeContent, List.map_singleton, List.flatten_singleton]
  exact starts_decode_encode plainPlatform_documented (by decide)
    (show getEncodingParam .insertion (str "cl100k_base") = .ret cl100kParam from rfl) byteDict hdict
    byteDict_hasAllBytes byteDict_distinct rfl (List.Perm.refl _) .crlf false rfl rfl htakes hwhole
    [fun _ => onlineEnv [] 6] Nat.one_pos

end TiktokenCpp
