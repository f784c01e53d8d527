import NdnRepo.Lib.Octets

/-!
# Names, bytes and digests

What the repository uses of crates that are not part of it.  A name type has the
canonical order (the order of `name_key`, which is also `Name`'s own), prefix
tests, an `append` and a printed form.  SHA-256 is a function from bytes to 32
octets of which nothing else is known.

`Components` names are lists of components.  `shortSha2` knows the digests of a few
short strings.  These run the model on small inputs.
-/

namespace NdnRepo

/-- `bytes::Bytes` and `Vec<u8>`. -/
abbrev Bytes := List UInt8

/-- `[u8; 32]`. -/
abbrev Digest := List.Vector UInt8 32

/-- The `sha2` crate. -/
class Sha2 where
  /-- The SHA-256 digest of some bytes. -/
  sha256 : Bytes → Digest

export Sha2 (sha256)

/-- What is used of `ndn_packet::Name`.  The order is the canonical one, which
`name_key` preserves. -/
class NdnName (Name : Type) extends LinearOrder Name where
  /-- `Name::root`. -/
  root : Name
  /-- `Name::append` of a generic component. -/
  append : Name → Bytes → Name
  /-- `name.has_prefix(under)`. -/
  hasPrefix : Name → Name → Bool
  /-- `Display`. -/
  display : Name → String

export NdnName (append hasPrefix display)

instance NdnName.transCmp {Name : Type} [NdnName Name] :
    Std.TransCmp (compare : Name → Name → Ordering) := inferInstance

/-- `usize` bounds aside, a length fits `u32` when it is below this. -/
def u32Bound : ℕ := 2 ^ 32

/-! ## Small inputs -/

/-- Names as lists of components, each its type, its length and its octets.  The
canonical order compares these lists entry by entry. -/
abbrev Components := List (List ℕ)

instance : NdnName Components :=
  { (inferInstance : LinearOrder (List (List ℕ))) with
    root := []
    append := fun name c => name ++ [8 :: c.length :: c.map UInt8.toNat]
    hasPrefix := fun name under => under.isPrefixOf name
    display := fun name =>
      String.join (name.map fun c => "/" ++ String.ofList ((c.drop 2).map Char.ofNat)) }

/-- The octets of a digest, read from a number. -/
def digestOf (v : ℕ) : Digest := ⟨Octets.toBe 32 v, Octets.toBe_length 32 v⟩

/-- The digests of the octets 1, 2 and 3 and of three pairs of them. -/
@[reducible] def shortSha2 : Sha2 := ⟨fun bytes =>
  match bytes with
  | [1] => digestOf 0x4bf5122f344554c53bde2ebb8cd2b7e3d1600ad631c385a5d7cce23c7785459a
  | [2] => digestOf 0xdbc1b4c900ffe48d575b5da5c638040125f65db0fe3e24494b76ea986457d986
  | [3] => digestOf 0x084fed08b978af4d7d196a7446a86b58009e636b611db16211b65a9aadff29c5
  | [1, 2] => digestOf 0xa12871fee210fb8619291eaea194581cbd2531e4b23759d225f6806923f63222
  | [2, 3] => digestOf 0xee9040f65c341855e070ff438eb0ea9d5b831b2a2c270fb7ef592d750408e3b3
  | [3, 1] => digestOf 0x67294d0eff78c6dbf4ae91576d495f81ca8f9967119cff318132f79d41285dfc
  | _ => digestOf 0⟩

end NdnRepo
