import TiktokenCpp.Model.Download
import TiktokenCpp.Results.Models

/-!
# Downloads

A download writes straight into the cache entry. Opening the file throws away
what was there, the callback reports every chunk as taken, and nothing removes
the file when the transfer fails.

Main results:

* `curlEasyPerform_eq` -- the callback never ends a transfer;
* `received_eq_iff` -- the stream has all chunks exactly when it takes each;
* `atomic_iff` -- when a download is atomic on the cache;
* `exists_after_download` -- a failed download counts as a cached file.
-/

namespace TiktokenCpp

-- ---------------------------------------------------------------------------
-- What the stream receives
-- ---------------------------------------------------------------------------

/-- The bytes in the file after a transfer: those of all chunks, up to the
first that the stream cannot take. -/
def received (content : Bytes) : List (Bytes × WriteOutcome) → Bytes
  | [] => content
  | (data, .complete) :: chunks => received (content ++ data) chunks
  | (data, .fails lost) :: chunks =>
    if data = [] then received content chunks
    else (content ++ data).take (content.length + data.length - (lost + 1))

/-- The stream takes every chunk whole. -/
def TakesAll (chunks : List (Bytes × WriteOutcome)) : Prop :=
  ∀ c ∈ chunks, c.2 = .complete ∨ c.1 = []

instance (chunks : List (Bytes × WriteOutcome)) : Decidable (TakesAll chunks) :=
  inferInstanceAs (Decidable (∀ c ∈ chunks, c.2 = .complete ∨ c.1 = []))

/-- All chunks of a transfer, one after the other. -/
def wholeContent (chunks : List (Bytes × WriteOutcome)) : Bytes := (chunks.map Prod.fst).flatten

/-- **The file has every byte exactly when the stream takes every chunk.** -/
theorem received_eq_iff (content : Bytes) (chunks : List (Bytes × WriteOutcome)) :
    received content chunks = content ++ wholeContent chunks ↔ TakesAll chunks := by
  induction chunks generalizing content with
  | nil => simp [received, wholeContent, TakesAll]
  | cons c chunks ih =>
    obtain ⟨data, outcome⟩ := c
    have hwhole : wholeContent ((data, outcome) :: chunks) = data ++ wholeContent chunks := rfl
    rw [hwhole, TakesAll, List.forall_mem_cons, ← TakesAll]
    rcases outcome with _ | lost
    · rw [received, ← List.append_assoc, ih]
      simp
    · rw [received]
      by_cases hdata : data = []
      · rw [if_pos hdata, hdata, List.nil_append, ih]
        simp
      · -- the failed write loses a byte, and nothing is written after it
        rw [if_neg hdata]
        refine iff_of_false ?_ (by simp [hdata])
        intro heq
        have hlen := congrArg List.length heq
        have hpos := List.length_pos_iff.mpr hdata
        simp only [List.length_take, List.length_append] at hlen
        omega

/-- One call of the callback on a stream without exceptions. -/
theorem httpWriteData_eq (data : Bytes) (outcome : WriteOutcome) {os : OFStream}
    (hexc : os.exceptions = false) :
    httpWriteData data outcome os =
      (data.length, if os.bad then os else os.put data outcome) := by
  have hkeep : (if os.bad then os else os.put data outcome).exceptions = false := by
    split
    · exact hexc
    · unfold OFStream.put
      split
      · exact hexc
      · split <;> exact hexc
  simp [httpWriteData, OFStream.write, hkeep]

theorem curlEasyPerform_cons (code : CurlCode) (data : Bytes) (outcome : WriteOutcome)
    (chunks : List (Bytes × WriteOutcome)) {os : OFStream} (hexc : os.exceptions = false) :
    curlEasyPerform code ((data, outcome) :: chunks) os =
      curlEasyPerform code chunks (if os.bad then os else os.put data outcome) := by
  rw [curlEasyPerform, httpWriteData_eq data outcome hexc]
  exact if_pos rfl

/-- A bad stream stays as it is, and the callback goes on taking chunks. -/
theorem curlEasyPerform_bad (code : CurlCode) (chunks : List (Bytes × WriteOutcome))
    (os : OFStream) (hbad : os.bad = true) (hexc : os.exceptions = false) :
    curlEasyPerform code chunks os = (code, os) := by
  induction chunks with
  | nil => rfl
  | cons c chunks ih => rw [curlEasyPerform_cons _ _ _ _ hexc, if_pos hbad, ih]

/-- **The callback never ends a transfer**: without exceptions of the stream
curl's own result code comes back, whatever the stream did with the chunks. -/
theorem curlEasyPerform_eq (code : CurlCode) (chunks : List (Bytes × WriteOutcome))
    (os : OFStream) (hgood : os.bad = false) (hexc : os.exceptions = false) :
    (curlEasyPerform code chunks os).1 = code ∧
      (curlEasyPerform code chunks os).2.content = received os.content chunks := by
  induction chunks generalizing os with
  | nil => exact ⟨rfl, rfl⟩
  | cons c chunks ih =>
    obtain ⟨data, outcome⟩ := c
    rw [curlEasyPerform_cons _ _ _ _ hexc, if_neg (by simp [hgood])]
    rcases outcome with _ | lost
    · exact ih _ hgood hexc
    · rw [OFStream.put, received]
      by_cases hdata : data = []
      · rw [if_pos hdata, if_pos hdata]
        exact ih _ hgood hexc
      · -- from here on the stream is bad
        have hbad := curlEasyPerform_bad code chunks { os with
          content := (os.content ++ data).take (os.content.length + data.length - (lost + 1))
          bad := true } rfl hexc
        rw [if_neg hdata, if_neg hdata, hbad]
        exact ⟨rfl, rfl⟩

-- ---------------------------------------------------------------------------
-- The download
-- ---------------------------------------------------------------------------

section

variable (env : DownloadEnv) (url : Bytes) (proxy : Option Bytes)

/-- The transfer that curl is asked for; an empty proxy is none. -/
def DownloadEnv.request : Transfer :=
  env.transfer url (if proxy.getD [] = [] then none else some (proxy.getD []))

/-- Curl starts and the transfer ends in `CURLE_OK`. -/
def DownloadEnv.Succeeds : Prop :=
  env.globalInit = true ∧ env.easyInit = true ∧ (env.request url proxy).code = curleOk

instance : Decidable (env.Succeeds url proxy) :=
  inferInstanceAs (Decidable (_ ∧ _ ∧ _))

/-- The chunks that are handed over; none if curl does not start. -/
def DownloadEnv.delivered : List (Bytes × WriteOutcome) :=
  if env.globalInit = true ∧ env.easyInit = true then (env.request url proxy).chunks else []

/-- The result and the file of a download whose file could be opened. -/
theorem downloadTo_eq :
    ((downloadTo env url (proxy.getD []) {}).1 = true ↔ env.Succeeds url proxy) ∧
      (downloadTo env url (proxy.getD []) {}).2.content = received [] (env.delivered url proxy) := by
  unfold downloadTo DownloadEnv.Succeeds DownloadEnv.delivered
  by_cases hglobal : env.globalInit = true
  · by_cases heasy : env.easyInit = true
    · obtain ⟨hcode, hcontent⟩ := curlEasyPerform_eq (env.request url proxy).code
        (env.request url proxy).chunks {} rfl rfl
      have hboth : env.globalInit = true ∧ env.easyInit = true := ⟨hglobal, heasy⟩
      rw [if_pos hglobal, if_pos heasy, if_pos hboth]
      refine ⟨?_, hcontent⟩
      rw [show env.request url proxy = env.transfer url _ from rfl] at hcode ⊢
      simp [hglobal, heasy, hcode]
    · simp [hglobal, heasy, received]
  · simp [hglobal, received]

end

/-- The outcome of an atomic download: `true` and the whole content of a
transfer that ended in `CURLE_OK`, or `false` and the entry as it was. -/
def Atomic (env : DownloadEnv) (url : Bytes) (proxy : Option Bytes) (name : Bytes)
    (before : Cache) (out : Run Bool × Cache) : Prop :=
  out.1 = .ret true ∧ env.Succeeds url proxy ∧
      out.2 (cacheFileName name) = some (wholeContent (env.delivered url proxy)) ∨
    out.1 = .ret false ∧ out.2 (cacheFileName name) = before (cacheFileName name)

/-- **A download is atomic on the cache** exactly when the file does not open,
when it succeeds and the stream takes every chunk, or when it fails and the
entry held before just what the stream takes of the failed transfer. -/
theorem atomic_iff (env : DownloadEnv) (order : IterationOrder) {name : Bytes}
    {param : EncodingParam} (hparam : getEncodingParam order name = .ret param)
    (proxy : Option Bytes) (before : Cache) :
    Atomic env param.bpeUrl proxy name before (downloadEncoding env order name proxy before) ↔
      env.opens = false ∨
      (env.Succeeds param.bpeUrl proxy ∧ TakesAll (env.delivered param.bpeUrl proxy)) ∨
      (¬ env.Succeeds param.bpeUrl proxy ∧
        before (cacheFileName name) = some (received [] (env.delivered param.bpeUrl proxy))) := by
  obtain ⟨hrtn, hcontent⟩ := downloadTo_eq env param.bpeUrl proxy
  rw [downloadEncoding, hparam, Outcome.ret_bindState, downloadFile, Atomic]
  by_cases hopens : env.opens = true
  · have hwhole := received_eq_iff [] (env.delivered param.bpeUrl proxy)
    rw [List.nil_append] at hwhole
    rcases hdown : downloadTo env param.bpeUrl (proxy.getD []) {} with ⟨rtn, file⟩
    rw [hdown] at hrtn hcontent
    rw [if_pos hopens]
    dsimp only at hrtn hcontent ⊢
    rw [if_pos rfl, hcontent, Option.some.injEq, hwhole]
    by_cases hsucc : env.Succeeds param.bpeUrl proxy
    · obtain rfl := hrtn.mpr hsucc
      simp [hopens, hsucc]
    · obtain rfl := Bool.eq_false_iff.mpr (mt hrtn.mp hsucc)
      simp [hopens, hsucc, eq_comm]
  · rw [if_neg hopens]
    simp [hopens]

/-- A machine on which the file opens and curl starts. -/
def onlineEnv (chunks : List (Bytes × WriteOutcome)) (code : CurlCode) : DownloadEnv where
  opens := true
  globalInit := true
  easyInit := true
  transfer _ _ := ⟨chunks, code⟩

/-- The entry of `r50k_base` in the registry. -/
def r50kEntry : EncodingParam := (sEncodingParam .insertion).head (by simp [sEncodingParam])

theorem atomic_iff_r50k :
    Atomic (onlineEnv [(str "QQ== 0\n", .complete)] curleOk) r50kEntry.bpeUrl none (str "r50k_base")
      (fun _ => none)
      (downloadEncoding (onlineEnv [(str "QQ== 0\n", .complete)] curleOk) .insertion
        (str "r50k_base") none fun _ => none) :=
  (atomic_iff (onlineEnv [(str "QQ== 0\n", .complete)] curleOk) .insertion
    (show getEncodingParam .insertion (str "r50k_base") = .ret r50kEntry from rfl) none
    fun _ => none).mpr (Or.inr (Or.inl ⟨by decide, by decide⟩))

/-- A host that is not found (code 6) leaves an empty file in place of a good one, and
a full disk an incomplete file together with `true`. -/
theorem downloadEncoding_not_atomic :
    (∃ out, downloadEncoding (onlineEnv [] 6) .insertion (str "r50k_base") none
        (fun _ => some (str "QQ== 0\n")) = out ∧
      out.1 = .ret false ∧ out.2 (cacheFileName (str "r50k_base")) = some [] ∧
      ¬ Atomic (onlineEnv [] 6) r50kEntry.bpeUrl none (str "r50k_base")
        (fun _ => some (str "QQ== 0\n")) out) ∧
    (∃ out, downloadEncoding (onlineEnv [(str "QQ== 0\n", .fails 1)] curleOk) .insertion
        (str "r50k_base") none (fun _ => none) = out ∧
      out.1 = .ret true ∧ out.2 (cacheFileName (str "r50k_base")) = some (str "QQ== ") ∧
      ¬ Atomic (onlineEnv [(str "QQ== 0\n", .fails 1)] curleOk) r50kEntry.bpeUrl none
        (str "r50k_base") (fun _ => none) out) := by
  refine ⟨⟨_, rfl, by rfl, by rfl, ?_⟩, ⟨_, rfl, by rfl, by rfl, ?_⟩⟩
  · rintro (⟨htrue, -⟩ | ⟨-, hsame⟩)
    · exact absurd htrue (by decide)
    · exact absurd hsame (by decide)
  · rintro (⟨-, -, hwhole⟩ | ⟨hfalse, -⟩)
    · exact absurd hwhole (by decide)
    · exact absurd hfalse (by decide)

/-- An encoding that the registry does not know throws and leaves the cache. -/
theorem downloadEncoding_unknown (env : DownloadEnv) (order : IterationOrder) {name : Bytes}
    (hname : name ∉ registryNames) (proxy : Option Bytes) (before : Cache) :
    ∃ e, downloadEncoding env order name proxy before = (.throw e, before) := by
  have hthrow : ∃ e, getEncodingParam order name = .throw e := by
    have hno := getEncodingParam_of_not_mem hname order
    unfold getEncodingParam at hno ⊢
    split
    · next param heq =>
      rw [heq] at hno
      exact absurd rfl (hno param)
    · exact ⟨_, rfl⟩
  obtain ⟨e, he⟩ := hthrow
  exact ⟨e, by rw [downloadEncoding, he]; rfl⟩

/-- A download whose file opens leaves an entry behind, also when it fails. -/
theorem exists_after_download (env : DownloadEnv) (order : IterationOrder) {name : Bytes}
    {param : EncodingParam} (hparam : getEncodingParam order name = .ret param)
    (proxy : Option Bytes) (before : Cache) (hopens : env.opens = true) :
    isLocalEncodingCacheExisted (downloadEncoding env order name proxy before).2 name = true := by
  rw [downloadEncoding, hparam, Outcome.ret_bindState, downloadFile, if_pos hopens]
  simp [isLocalEncodingCacheExisted]

/-- An atomic download that fails makes no entry. -/
theorem Atomic.exists_iff {env : DownloadEnv} {url name : Bytes} {proxy : Option Bytes}
    {before : Cache} {out : Run Bool × Cache} (h : Atomic env url proxy name before out)
    (hfails : out.1 = .ret false) :
    isLocalEncodingCacheExisted out.2 name = isLocalEncodingCacheExisted before name := by
  rcases h with ⟨htrue, -⟩ | ⟨-, hsame⟩
  · rw [htrue] at hfails
    cases hfails
  · rw [isLocalEncodingCacheExisted, hsame, isLocalEncodingCacheExisted]

theorem downloadFile_frame (env : DownloadEnv) (url proxy : Bytes) {pathname file : Bytes}
    (cache : Cache) (hfile : file ≠ pathname) :
    (downloadFile env url proxy pathname cache).2 file = cache file := by
  unfold downloadFile
  split
  · exact if_neg hfile
  · rfl

/-- Only the entry of the encoding changes. -/
theorem downloadEncoding_frame (env : DownloadEnv) (order : IterationOrder) (name : Bytes)
    (proxy : Option Bytes) (before : Cache) {file : Bytes} (hfile : file ≠ cacheFileName name) :
    (downloadEncoding env order name proxy before).2 file = before file := by
  rw [downloadEncoding]
  rcases getEncodingParam order name with param | e | _ | _ | _
  · exact downloadFile_frame env _ _ before hfile
  all_goals rfl

end TiktokenCpp
