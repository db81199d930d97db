import TiktokenCpp.Model.Base64
import TiktokenCpp.Model.Charset

/-!
# The vocabulary loader and the string helpers

`utils.cpp` and `utils.h`. The cache directory is a function from file names to
contents; a file that exists but cannot be read has no contents.
-/

namespace TiktokenCpp

-- ---------------------------------------------------------------------------
-- The loader
-- ---------------------------------------------------------------------------

/-- `isspace` in the C locale. -/
def isSpace (c : UInt8) : Bool := c = 32 || (9 ≤ c && c ≤ 13)

def isDigit (c : UInt8) : Bool := 48 ≤ c && c ≤ 57

/-- The number a string of decimal digits stands for. -/
def ofDigits (ds : Bytes) : Nat := ds.foldl (fun n d => n * 10 + (d.toNat - 48)) 0

/-- `std::stoi`: leading space, an optional sign, digits; the rest is ignored. -/
def stoi (s : Bytes) : Run Int :=
  let s := s.dropWhile isSpace
  let negative := s.head? = some 45
  let s := if s.head? = some 45 ∨ s.head? = some 43 then s.tail else s
  let digits := s.takeWhile isDigit
  if digits = [] then .throw .invalidArgument
  else
    let n : Int := ofDigits digits
    let v := if negative then -n else n
    if -2 ^ 31 ≤ v ∧ v < 2 ^ 31 then .ret v else .throw .outOfRange

/-- `line.find(' ', pos)` -/
def findSpace (line : Bytes) (pos : Nat) : Option Nat :=
  ((line.drop pos).findIdx? (· = 32)).map (· + pos)

/-- The loop of `LoadTiktokenBpe` over the lines of the file. It ends at the
first empty line; the end of the file is one, or comes after the last line. -/
def loadLines : List Bytes → EncodeDict → Run EncodeDict
  | [], dict => .ret dict
  | line :: lines, dict =>
    if line = [] then .ret dict
    else
      match findSpace line 4 with
      | none => .throw (.runtimeError (str "invaid token encoding file format!"))
      | some spacePos => do
        let token ← base64Decode (line.take spacePos)
        let rank ← stoi (line.drop (spacePos + 1))
        loadLines lines (dict.emplace token (UInt32.ofInt rank))

/-- `LoadTiktokenBpe` on a file with the given contents. -/
def loadTiktokenBpe (order : IterationOrder) (content : Bytes) : Run EncodeDict := do
  let dict ← loadLines (content.splitOn 10) .empty
  return dict.shuffle order

/-- The files of the cache directory. -/
abbrev Cache := Bytes → Option Bytes

/-- `GetTiktokenEncoding`; `none` is the null pointer. -/
def getTiktokenEncoding (cache : Cache) (order : IterationOrder) (name : Bytes) :
    Run (Option EncodeDict) :=
  match cache (name ++ str ".tiktoken") with
  | some content => do
    let dict ← loadTiktokenBpe order content
    return some dict
  | none => .ret none

-- ---------------------------------------------------------------------------
-- Binary search
-- ---------------------------------------------------------------------------

section

variable {τ σ : Type} [Inhabited σ] (value : τ → Int) (token : τ → σ) (container : List τ)
  (target : Int)

/-- The loop of `BinarySearch`, at most `fuel` rounds. After it comes
`return decltype(T::token){}`, an optional that holds the default token. -/
def binarySearchLoop : (fuel left right : Nat) → Run (Option σ)
  | fuel, left, right =>
    if left < right then
      match fuel with
      | 0 => .loop
      | fuel + 1 =>
        let mid := left + (right - left) / 2
        match container[mid]? with
        | none => .ub
        | some x =>
          if value x = target then .ret (some (token x))
          else if target < value x then binarySearchLoop fuel left mid
          else if value x < target then binarySearchLoop fuel (mid + 1) right
          else binarySearchLoop fuel left right
    else .ret (some default)

/-- `BinarySearch` over elements with the members `value` and `token`. -/
def binarySearch (fuel : Nat) : Run (Option σ) :=
  binarySearchLoop value token container target fuel 0 container.length

end

-- ---------------------------------------------------------------------------
-- String helpers
-- ---------------------------------------------------------------------------

/-- The characters of the class in `EscapeRegex` other than white space. -/
def escapedChars : Bytes := str "-[]{}()*+?.,^$|#"

/-- What `EscapeRegex` makes of one character. A backslash is not escaped. -/
def escapeChar (c : UInt8) : Bytes :=
  if c ∈ escapedChars ∨ isSpace c then [92, c] else [c]

def escapeRegex (s : Bytes) : Bytes := s.flatMap escapeChar

/-- `Utf8StrsetFromStrSet`, where `elems` is what is left to convert. -/
def utf8StrsetLoop (I : Iconv) (fuel : Nat) : (elems : List Bytes) → Utf8StringSet → Run Utf8StringSet
  | [], utf8Set => .ret utf8Set
  | si :: elems, utf8Set => do
    let s ← utf8StrFromLocalMBCS I fuel si
    utf8StrsetLoop I fuel elems (utf8Set.insert s)

def utf8StrsetFromStrSet (I : Iconv) (fuel : Nat) (strSet : StringSet) : Run Utf8StringSet :=
  utf8StrsetLoop I fuel strSet.elems .empty

/-- The conversion of a set comes to an end. -/
theorem utf8StrsetLoop_ret {I : Iconv} (hI : I.TakesAll) {fuel : Nat} (hfuel : 0 < fuel)
    (elems : List Bytes) (acc : Utf8StringSet) :
    ∃ out, utf8StrsetLoop I fuel elems acc = .ret out := by
  induction elems generalizing acc with
  | nil => exact ⟨acc, rfl⟩
  | cons si elems ih =>
    obtain ⟨s, hs⟩ := utf8StrFromLocalMBCS_ret hI hfuel si
    obtain ⟨out, hout⟩ := ih (acc.insert s)
    exact ⟨out, by rw [utf8StrsetLoop, hs, Outcome.ret_bind, hout]⟩

/-- Short ASCII strings of the set are in the result. -/
theorem utf8StrsetLoop_mem {I : Iconv} (hI : I.Documented) {fuel : Nat} (hfuel : 0 < fuel)
    {elems : List Bytes} {acc out : Utf8StringSet}
    (hout : utf8StrsetLoop I fuel elems acc = .ret out) :
    (∀ s ∈ acc, s ∈ out) ∧
      ∀ s ∈ elems, Utf8.IsAscii s → s.length ≤ localBufSize → s ∈ out := by
  induction elems generalizing acc with
  | nil =>
    obtain rfl : acc = out := Outcome.ret.inj hout
    exact ⟨fun s hs => hs, by simp⟩
  | cons si elems ih =>
    obtain ⟨s, hs⟩ := utf8StrFromLocalMBCS_ret hI.takes_all hfuel si
    rw [utf8StrsetLoop, hs, Outcome.ret_bind] at hout
    obtain ⟨hacc, hmem⟩ := ih hout
    constructor
    · intro t ht
      exact hacc t (OrderedSet.mem_insert.mpr (Or.inr ht))
    · intro t ht hascii hlen
      rcases List.mem_cons.mp ht with rfl | ht
      · rw [utf8StrFromLocalMBCS_ascii hI hfuel hascii hlen] at hs
        exact hacc t (OrderedSet.mem_insert.mpr (Or.inl (Outcome.ret.inj hs)))
      · exact hmem t ht hascii hlen

theorem utf8StrsetFromStrSet_ret {I : Iconv} (hI : I.TakesAll) {fuel : Nat} (hfuel : 0 < fuel)
    (strSet : StringSet) : ∃ out, utf8StrsetFromStrSet I fuel strSet = .ret out :=
  utf8StrsetLoop_ret hI hfuel strSet.elems .empty

theorem utf8StrsetFromStrSet_mem {I : Iconv} (hI : I.Documented) {fuel : Nat} (hfuel : 0 < fuel)
    {strSet : StringSet} {out : Utf8StringSet}
    (hout : utf8StrsetFromStrSet I fuel strSet = .ret out) {s : Bytes} (hs : s ∈ strSet)
    (hascii : Utf8.IsAscii s) (hlen : s.length ≤ localBufSize) : s ∈ out :=
  (utf8StrsetLoop_mem hI hfuel hout).2 s hs hascii hlen

end TiktokenCpp
