import TiktokenCpp.Lib.BitMixing
import TiktokenCpp.Model.Definitions

/-!
# The hash of byte vectors

`encode_dict` hashes its keys with the specialisation of `std::hash` in
`global_define.h`. Every step of it is a bijection of the machine words, so the
collisions of the hash are those of its state: what follows two vectors neither
makes nor hides a collision of them, and vectors that differ in one byte, wherever
it stands, never collide (`hashBytes_collision`).
-/

namespace TiktokenCpp

open Function BitMixing

/-- The state of the loop after some bytes. -/
def hashState (start : BitVec 64) (va : Bytes) : BitVec 64 :=
  va.foldl (fun hash b => (hash ^^^ b.toBitVec.setWidth 64) * 16777619) start

/-- What is done after the loop. -/
def hashFinish (hash : BitVec 64) : BitVec 64 :=
  let hash := hash + (hash <<< 13)
  let hash := hash ^^^ (hash >>> 7)
  let hash := hash + (hash <<< 3)
  let hash := hash ^^^ (hash >>> 17)
  hash + (hash <<< 5)

theorem hashBytes_eq (va : Bytes) : hashBytes va = hashFinish (hashState 2166136261 va) := rfl

theorem hashState_append (start : BitVec 64) (va vb : Bytes) :
    hashState start (va ++ vb) = hashState (hashState start va) vb := List.foldl_append

theorem hashState_injective (va : Bytes) : Injective fun start => hashState start va := by
  refine foldl_injective ?_ va
  intro b
  exact (mul_injective (by decide)).comp (xor_injective _)

theorem hashFinish_injective : Injective hashFinish := by
  have h13 := add_shiftLeft_injective (w := 64) (k := 13) (by decide)
  have h7 := xor_ushiftRight_injective (w := 64) (k := 7) (by decide)
  have h3 := add_shiftLeft_injective (w := 64) (k := 3) (by decide)
  have h17 := xor_ushiftRight_injective (w := 64) (k := 17) (by decide)
  have h5 := add_shiftLeft_injective (w := 64) (k := 5) (by decide)
  exact h5.comp (h17.comp (h3.comp (h7.comp h13)))

/-- One byte after a state. -/
theorem hashState_byte_injective (start : BitVec 64) : Injective fun b : UInt8 => hashState start [b] := by
  intro x y h
  have hxor : start ^^^ x.toBitVec.setWidth 64 = start ^^^ y.toBitVec.setWidth 64 :=
    mul_injective (c := (16777619 : BitVec 64)) (by decide) h
  have hwide := (BitVec.xor_right_inj start).mp hxor
  have hbits := congrArg (BitVec.setWidth 8) hwide
  rw [BitVec.setWidth_setWidth_of_le _ (by decide), BitVec.setWidth_setWidth_of_le _ (by decide)] at hbits
  exact UInt8.toBitVec_inj.mp (by simpa using hbits)

/-- **The collisions of the hash**: bytes put behind two vectors change nothing
about whether these collide, and vectors that differ in one byte do not. -/
theorem hashBytes_collision (va vb rest : Bytes) (x y : UInt8) :
    (hashBytes (va ++ rest) = hashBytes (vb ++ rest) ↔ hashBytes va = hashBytes vb) ∧
      (hashBytes (va ++ x :: rest) = hashBytes (va ++ y :: rest) ↔ x = y) := by
  simp only [hashBytes_eq, hashFinish_injective.eq_iff]
  refine ⟨?_, ?_⟩
  · rw [hashState_append, hashState_append]
    exact (hashState_injective rest).eq_iff
  · have hbyte (z : UInt8) : hashState 2166136261 (va ++ z :: rest) =
        hashState (hashState (hashState 2166136261 va) [z]) rest := by
      rw [← hashState_append, ← hashState_append, List.singleton_append]
    rw [hbyte, hbyte, (hashState_injective rest).eq_iff]
    exact (hashState_byte_injective _).eq_iff

end TiktokenCpp
