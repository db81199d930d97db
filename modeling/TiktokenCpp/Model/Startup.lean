import TiktokenCpp.Model.Download
import TiktokenCpp.Model.TokenEncoding

/-!
# The start of the program

`ListEncodingNames` of `tiktoken.cpp` and the first `try` block of `main` in
`token_test/main.cpp`: every listed encoding that is not in the cache is
downloaded. Each download finds its own network and disk. What `main` does after
this block, with an object for `cl100k_base`, is not part of a start here.
-/

namespace TiktokenCpp

def sEncodingNames : List Bytes :=
  [str "r50k_base", str "p50k_base", str "p50k_edit", str "cl100k_base"]

def listEncodingNames : List Bytes := sEncodingNames.foldl (fun names name => names ++ [name]) []

/-- The cache directory and what was printed so far. -/
structure StartState where
  cache : Cache
  output : Bytes

/-- `std::cout << text` -/
def StartState.print (s : StartState) (text : Bytes) : StartState :=
  { s with output := s.output ++ text }

section

variable (network : Bytes → DownloadEnv) (order : IterationOrder)

/-- The loop of `main` over the names. -/
def downloadLoop : (names : List Bytes) → StartState → Run Unit × StartState
  | [], s => (.ret (), s)
  | name :: names, s =>
    if isLocalEncodingCacheExisted s.cache name then downloadLoop names s
    else
      let s := s.print (str "Downloading encoding file for " ++ name ++ str "...")
      match downloadEncoding (network name) order name none s.cache with
      | (rtn, cache) =>
        rtn.bindState { s with cache := cache } fun rtn =>
          downloadLoop names (StartState.print { s with cache := cache }
            ((if rtn then str "successfully!" else str "failed!") ++ str "\n"))

/-- The loop and its `catch (...)`. -/
def downloadMissing (s : StartState) : Run Unit × StartState :=
  match downloadLoop network order listEncodingNames s with
  | (.throw _, s) => (.ret (), s.print (str "Downloading exception occured\n"))
  | (r, s) => (r, s)

end

/-- One start of the program, up to the end of its downloads: what they print,
and the cache they leave. -/
def start (order : IterationOrder) (cache : Cache) (network : Bytes → DownloadEnv) :
    (Run Unit × Bytes) × Cache :=
  match downloadMissing network order ⟨cache, []⟩ with
  | (r, s) => ((r, s.output), s.cache)

/-- The platform with another cache. -/
def Platform.withCache (E : Platform) (cache : Cache) : Platform := { E with cache := cache }

end TiktokenCpp
