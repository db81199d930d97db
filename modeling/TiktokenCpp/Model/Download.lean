import TiktokenCpp.Model.Registry
import TiktokenCpp.Model.Utils

/-!
# Downloads

The download functions of `tiktoken.cpp`. The output stream and curl are the
environment: `DownloadEnv` says whether the file opens, whether curl starts, in
which chunks a transfer hands over its data and how it ends, and which of the
chunks the stream cannot write out.
-/

namespace TiktokenCpp

-- ---------------------------------------------------------------------------
-- Output streams
-- ---------------------------------------------------------------------------

/-- What becomes of the bytes given to a good stream. A write that fails loses
the last `lost + 1` bytes of all it was given so far. -/
inductive WriteOutcome where
  | complete
  | fails (lost : Nat)
  deriving DecidableEq, Repr

/-- `std::ios_base::failure` -/
inductive IosFailure where
  | failure
  deriving DecidableEq, Repr

/-- A `std::ofstream`: what has reached the file, the badbit, and whether the
badbit is in the exception mask. -/
structure OFStream where
  content : Bytes := []
  bad : Bool := false
  exceptions : Bool := false
  deriving DecidableEq, Repr

/-- The bytes go to the file. No bytes are no failure. -/
def OFStream.put (os : OFStream) (data : Bytes) : WriteOutcome → OFStream
  | .complete => { os with content := os.content ++ data }
  | .fails lost =>
    if data = [] then os
    else { os with
      content := (os.content ++ data).take (os.content.length + data.length - (lost + 1))
      bad := true }

/-- `std::ostream::write`; a bad stream writes nothing. -/
def OFStream.write (os : OFStream) (data : Bytes) (outcome : WriteOutcome) :
    Except IosFailure Unit × OFStream :=
  let os := if os.bad then os else os.put data outcome
  (if os.bad ∧ os.exceptions then .error .failure else .ok (), os)

-- ---------------------------------------------------------------------------
-- Transfers
-- ---------------------------------------------------------------------------

abbrev CurlCode := Nat

def curleOk : CurlCode := 0
def curleWriteError : CurlCode := 23

/-- A transfer as the server and the network make it: the chunks, each with
what the stream can do with it, and how it ends when all of them are taken. -/
structure Transfer where
  chunks : List (Bytes × WriteOutcome)
  code : CurlCode

structure DownloadEnv where
  /-- The file can be opened for writing. -/
  opens : Bool
  /-- `curl_global_init` answers `CURLE_OK`. -/
  globalInit : Bool
  /-- `curl_easy_init` gives a handle. -/
  easyInit : Bool
  transfer : (url : Bytes) → (proxy : Option Bytes) → Transfer

/-- `HttpWriteData`: the number of bytes it took. -/
def httpWriteData (data : Bytes) (outcome : WriteOutcome) (os : OFStream) : Nat × OFStream :=
  match os.write data outcome with
  | (.ok (), os) => (data.length, os)
  | (.error _, os) => (0, os)

/-- `curl_easy_perform` with this callback. A callback that takes another number
of bytes than it was given ends the transfer. -/
def curlEasyPerform (code : CurlCode) : List (Bytes × WriteOutcome) → OFStream → CurlCode × OFStream
  | [], os => (code, os)
  | (data, outcome) :: chunks, os =>
    match httpWriteData data outcome os with
    | (count, os) =>
      if count = data.length then curlEasyPerform code chunks os else (curleWriteError, os)

/-- `DownloadFile` after the file is open. -/
def downloadTo (env : DownloadEnv) (url proxy : Bytes) (file : OFStream) : Bool × OFStream :=
  if env.globalInit then
    if env.easyInit then
      let t := env.transfer url (if proxy = [] then none else some proxy)
      match curlEasyPerform t.code t.chunks file with
      | (code, file) => (code = curleOk, file)
    else (false, file)
  else (false, file)

/-- `DownloadFile`. Opening the file truncates it. -/
def downloadFile (env : DownloadEnv) (url proxy pathname : Bytes) (cache : Cache) : Bool × Cache :=
  if env.opens then
    match downloadTo env url proxy {} with
    | (rtn, file) => (rtn, fun f => if f = pathname then some file.content else cache f)
  else (false, cache)

/-- The name of a file in the cache. -/
def cacheFileName (name : Bytes) : Bytes := name ++ str ".tiktoken"

def isLocalEncodingCacheExisted (cache : Cache) (encodingName : Bytes) : Bool :=
  (cache (cacheFileName encodingName)).isSome

def downloadEncoding (env : DownloadEnv) (order : IterationOrder) (name : Bytes)
    (proxy : Option Bytes) (cache : Cache) : Run Bool × Cache :=
  (getEncodingParam order name).bindState cache fun param =>
    match downloadFile env param.bpeUrl (proxy.getD []) (cacheFileName name) cache with
    | (rtn, cache) => (.ret rtn, cache)

end TiktokenCpp
