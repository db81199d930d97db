import TiktokenCpp.Results.Exceptions
import TiktokenCpp.Results.RoundTrip

/-!
# The arguments of `Encode`

Each of the two arguments is a string or a set, and the string `"all"` has a
meaning of its own. For any other string `Encode` reads the set that is not
there. `accepts_iff` says that these arguments are the only ones it does not
accept: with `"all"` or a set, `std::bad_variant_access` is never thrown.
-/

namespace TiktokenCpp

/-! ## The two sets -/

/-- The arguments that `Encode` handles: `"all"`, or a set. -/
def StringSetUnion.Documented : StringSetUnion → Prop
  | .view s => s = str "all"
  | .set _ => True

instance (arg : StringSetUnion) : Decidable arg.Documented :=
  match arg with
  | .view s => inferInstanceAs (Decidable (s = str "all"))
  | .set _ => inferInstanceAs (Decidable True)

/-- The set of such an argument, where `"all"` is the set `all`. -/
def StringSetUnion.elements (all : StringSet) : StringSetUnion → StringSet
  | .view _ => all
  | .set s => s

/-- What an argument is meant to say: a string other than `"all"` is the set of
this string, and the empty string, which a default-constructed argument holds,
is the empty set. -/
def StringSetUnion.meaning : StringSetUnion → StringSetUnion
  | .view s =>
    if s = str "all" then .view s
    else if s = [] then .set .empty
    else .set (OrderedSet.empty.insert s)
  | .set s => .set s

section

variable {arg : StringSetUnion}

theorem meaning_of_documented (harg : arg.Documented) : arg.meaning = arg := by
  match arg with
  | .view s => exact if_pos harg
  | .set s => rfl

theorem setOr_documented (harg : arg.Documented) (all : StringSet) :
    arg.setOr all = .ret (arg.elements all) := by
  unfold StringSetUnion.setOr
  match arg with
  | .view s =>
    have hall : (StringSetUnion.view s).isAll = true := decide_eq_true harg
    rw [if_pos hall]
    rfl
  | .set s => rfl

theorem setOr_not_documented (harg : ¬ arg.Documented) (all : StringSet) :
    arg.setOr all = .throw .badVariantAccess := by
  unfold StringSetUnion.setOr
  match arg with
  | .view s =>
    have hall : (StringSetUnion.view s).isAll = false := decide_eq_false harg
    rw [hall]
    rfl
  | .set s => exact absurd trivial harg

end

section

variable {E : Platform} {tok : TikToken E} {allowed disallowed : StringSetUnion}

/-- The set of disallowed names that the check looks for. -/
def TikToken.disallowedSet (tok : TikToken E) (allowed disallowed : StringSetUnion) : StringSet :=
  disallowed.elements (tok.specialTokensSet.difference (allowed.elements tok.specialTokensSet))

theorem argumentSets_documented (hallowed : allowed.Documented) (hdisallowed : disallowed.Documented) :
    tok.argumentSets allowed disallowed =
      .ret (allowed.elements tok.specialTokensSet, tok.disallowedSet allowed disallowed) := by
  unfold TikToken.argumentSets
  rw [setOr_documented hallowed, Outcome.ret_bind, setOr_documented hdisallowed]
  rfl

theorem argumentSets_not_documented (h : ¬ (allowed.Documented ∧ disallowed.Documented)) :
    tok.argumentSets allowed disallowed = .throw .badVariantAccess := by
  unfold TikToken.argumentSets
  by_cases hallowed : allowed.Documented
  · have hdisallowed : ¬ disallowed.Documented := fun hd => h ⟨hallowed, hd⟩
    rw [setOr_documented hallowed, Outcome.ret_bind, setOr_not_documented hdisallowed]
    rfl
  · rw [setOr_not_documented hallowed]
    rfl

/-- Any other string ends the call before it looks at the text. -/
theorem encode_not_documented (h : ¬ (allowed.Documented ∧ disallowed.Documented)) (fuel : Nat)
    (text : Bytes) :
    tok.encode fuel text allowed disallowed = (.throw .badVariantAccess, tok) := by
  unfold TikToken.encode TikToken.encodeSetup
  rw [argumentSets_not_documented h]
  rfl

/-! ## Exceptions of the rest -/

/-- The call does not throw `std::bad_variant_access`. -/
abbrev NoBadAccess {α : Type} (out : Run α) : Prop := out.ThrowsOnly (· ≠ .badVariantAccess)

theorem checkDisallowed_noBadAccess (text : Bytes) (set : StringSet) :
    NoBadAccess (checkDisallowed E text set) := by
  unfold checkDisallowed
  split
  · refine Outcome.ThrowsOnly.bind ?_ ?_
    · unfold compile
      split
      · trivial
      · simp [Outcome.ThrowsOnly]
    · intro regex
      split
      · simp [Outcome.ThrowsOnly]
      · trivial
  · trivial

/-- The conversion of the allowed set throws nothing. -/
theorem utf8StrsetFromStrSet_throwsOnly (P : Exn → Prop) (I : Iconv) (fuel : Nat) (set : StringSet) :
    (utf8StrsetFromStrSet I fuel set).ThrowsOnly P := by
  have hconvert (n : Nat) (cd : I.Desc) (source output : Bytes) :
      (utfStrLoop I n cd source output).ThrowsOnly P := by
    induction n generalizing cd source output with
    | zero =>
      unfold utfStrLoop
      split <;> trivial
    | succ n ih =>
      unfold utfStrLoop
      dsimp only
      split
      · split
        · trivial
        · exact ih _ _ _
      · trivial
  have hloop (elems : List Bytes) (acc : Utf8StringSet) :
      (utf8StrsetLoop I fuel elems acc).ThrowsOnly P := by
    induction elems generalizing acc with
    | nil => trivial
    | cons si elems ih => exact (hconvert fuel _ si []).bind fun s => ih (acc.insert s)
  exact hloop set.elems .empty

/-- What `EncodeNative` throws is passed on. -/
theorem encodeNative_catch_throwsOnly (self : CoreBpe E) (text : Bytes) (set : Utf8StringSet)
    (fuel : Nat) :
    OnlyOutOfRange (catchUnicode encodeNativeUtf16 (encodeNative self text set fuel).1) := by
  have hnative := encodeNative_throwsOnly self text set fuel
  unfold catchUnicode
  split
  · trivial
  · exact hnative

theorem encode_noBadAccess (hallowed : allowed.Documented) (hdisallowed : disallowed.Documented)
    (fuel : Nat) (text : Bytes) : NoBadAccess (tok.encode fuel text allowed disallowed).1 := by
  unfold TikToken.encode TikToken.encodeSetup
  rw [argumentSets_documented hallowed hdisallowed, Outcome.ret_bind]
  refine Outcome.ThrowsOnly.bindState ?_ ?_
  · exact (checkDisallowed_noBadAccess text _).bind fun _ =>
      utf8StrsetFromStrSet_throwsOnly _ E.iconv fuel _
  · intro set
    exact (encodeNative_catch_throwsOnly tok.corebpe text set fuel).mono fun e he => by simp [he]

/-! ## Which arguments are accepted -/

/-- `Encode` takes the two arguments as they are meant: it does not throw
`std::bad_variant_access`, and either argument can be replaced by its meaning. -/
structure Accepts (tok : TikToken E) (fuel : Nat) (text : Bytes)
    (allowed disallowed : StringSetUnion) : Prop where
  noBadAccess : (tok.encode fuel text allowed disallowed).1 ≠ .throw .badVariantAccess
  allowed_meaning :
    tok.encode fuel text allowed disallowed = tok.encode fuel text allowed.meaning disallowed
  disallowed_meaning :
    tok.encode fuel text allowed disallowed = tok.encode fuel text allowed disallowed.meaning

/-- **`Encode` accepts `"all"` and sets, and nothing else.** -/
theorem accepts_iff (tok : TikToken E) (fuel : Nat) (text : Bytes)
    (allowed disallowed : StringSetUnion) :
    Accepts tok fuel text allowed disallowed ↔ allowed.Documented ∧ disallowed.Documented := by
  constructor
  · intro haccepts
    by_contra hno
    have hthrow := haccepts.noBadAccess
    rw [encode_not_documented hno] at hthrow
    exact hthrow rfl
  · rintro ⟨hallowed, hdisallowed⟩
    refine ⟨?_, ?_, ?_⟩
    · intro hthrow
      exact Outcome.throwsOnly_iff.mp (encode_noBadAccess hallowed hdisallowed fuel text) _ hthrow rfl
    · rw [meaning_of_documented hallowed]
    · rw [meaning_of_documented hdisallowed]

end

/-- The call `Encode("<|endoftext|>", {"<|endoftext|>"})`. -/
theorem encode_endoftext_not_accepted :
    ∃ tok : TikToken plainPlatform, TikToken.fromEncoder plainPlatform 1 r50kParam byteDict = .ret tok ∧
      ¬ Accepts tok 14 (str "<|endoftext|>") (.view (str "<|endoftext|>")) (.view (str "all")) := by
  obtain ⟨tok, htok⟩ := fromEncoder_byteDict
  refine ⟨tok, htok, fun haccepts => haccepts.noBadAccess ?_⟩
  rw [encode_not_documented (by decide)]

end TiktokenCpp
