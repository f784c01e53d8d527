import NdnRepo.Lib.Octets

/-!
# Type-length-value blocks

A block is a type, a length and a value.  Types and lengths are variable-length
integers: one octet below 253, else a marker and 2, 4 or 8 octets.
-/

namespace Tlv

open Octets

/-- A variable-length integer. -/
def writeVar (v : ℕ) : List UInt8 :=
  if v < 253 then toBe 1 v
  else if v < 2 ^ 16 then 253 :: toBe 2 v
  else if v < 2 ^ 32 then 254 :: toBe 4 v
  else 255 :: toBe 8 v

/-- A block. -/
def write (typ : ℕ) (value : List UInt8) : List UInt8 :=
  writeVar typ ++ (writeVar value.length ++ value)

/-- The octets after the first one of a variable-length integer. -/
def extraOctets (first : UInt8) : ℕ :=
  if first.toNat < 253 then 0
  else if first.toNat = 253 then 2
  else if first.toNat = 254 then 4
  else 8

/-- The integer some octets start with, and what comes after it. -/
def readVar : List UInt8 → Option (ℕ × List UInt8)
  | [] => none
  | first :: rest =>
      let extra := extraOctets first
      if extra = 0 then some (first.toNat, rest)
      else if extra ≤ rest.length then some (ofBe (rest.take extra), rest.drop extra)
      else none

/-- The block some octets start with, and what comes after it. -/
def read (octets : List UInt8) : Option (ℕ × List UInt8 × List UInt8) := do
  let (typ, rest) ← readVar octets
  let (length, rest) ← readVar rest
  if length ≤ rest.length then some (typ, rest.take length, rest.drop length) else none

/-- Reading an integer consumes octets. -/
theorem readVar_lt {octets rest : List UInt8} {v : ℕ} (h : readVar octets = some (v, rest)) :
    rest.length < octets.length := by
  cases octets with
  | nil => cases h
  | cons first tail =>
      simp only [readVar] at h
      split at h
      · cases h
        exact Nat.lt_succ_self _
      · split at h
        · cases h
          simp only [List.length_drop, List.length_cons]
          omega
        · cases h

/-- Reading a block consumes octets. -/
theorem read_lt {octets value rest : List UInt8} {typ : ℕ}
    (h : read octets = some (typ, value, rest)) : rest.length < octets.length := by
  simp only [read, bind, Option.bind_eq_some_iff, Prod.exists] at h
  obtain ⟨t, afterType, ht, l, afterLength, hl, h⟩ := h
  have htype := readVar_lt ht
  have hlength := readVar_lt hl
  split at h
  · cases h
    simp only [List.length_drop]
    omega
  · cases h

/-! ## Reading what was written -/

/-- The octets after a first one that says how many they are. -/
theorem readVar_cons {first : UInt8} {extra v : ℕ} (hfirst : extraOctets first = extra)
    (hextra : extra ≠ 0) (hv : v < 256 ^ extra) (rest : List UInt8) :
    readVar (first :: (toBe extra v ++ rest)) = some (v, rest) := by
  have hlen : (toBe extra v).length = extra := toBe_length extra v
  have htake : (toBe extra v ++ rest).take extra = toBe extra v := List.take_left' hlen
  have hdrop : (toBe extra v ++ rest).drop extra = rest := List.drop_left' hlen
  have hle : extra ≤ (toBe extra v ++ rest).length := by rw [List.length_append]; omega
  simp only [readVar, hfirst, hextra, if_false, hle, if_true, htake, hdrop, ofBe_toBe_of_lt hv]

theorem readVar_writeVar {v : ℕ} (hv : v < 2 ^ 64) (rest : List UInt8) :
    readVar (writeVar v ++ rest) = some (v, rest) := by
  unfold writeVar
  split
  next h =>
    have hv : (UInt8.ofNat v).toNat = v := by simp; omega
    have hone : toBe 1 v ++ rest = UInt8.ofNat v :: rest := by simp [toBe]
    simp [hone, readVar, extraOctets, hv, h]
  next =>
    split
    next h => exact readVar_cons (by decide) (by decide) (by norm_num at h ⊢; omega) rest
    next =>
      split
      next h => exact readVar_cons (by decide) (by decide) (by norm_num at h ⊢; omega) rest
      next => exact readVar_cons (by decide) (by decide) (by norm_num at hv ⊢; omega) rest

/-- A block is read back with what comes after it. -/
theorem read_write {typ : ℕ} {value : List UInt8} (htyp : typ < 2 ^ 64)
    (hvalue : value.length < 2 ^ 64) (rest : List UInt8) :
    read (write typ value ++ rest) = some (typ, value, rest) := by
  have htype := readVar_writeVar htyp (writeVar value.length ++ (value ++ rest))
  have hlength := readVar_writeVar hvalue (value ++ rest)
  simp [read, write, List.append_assoc, htype, hlength]

theorem length_le_write (typ : ℕ) (value : List UInt8) :
    value.length ≤ (write typ value).length := by
  simp only [write, List.length_append]
  omega

end Tlv
