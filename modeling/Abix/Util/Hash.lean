import Abix.Model.ABI

/-! The one hash engine behind every identity and digest. -/
namespace Abix.Util
open Abix.Model

def fnv1aOffsetBasis : UInt64 := 14695981039346656037

def fnv1aPrime : UInt64 := 1099511628211

def canonicalHiPrime : UInt64 := 14029467366897019727

structure CanonicalState where
  lo : UInt64
  hi : UInt64
  deriving DecidableEq

def canonicalHashBegin (domain : UInt64) : CanonicalState := ⟨fnv1aOffsetBasis ^^^ domain, fnv1aPrime + domain⟩

def canonicalHashByte (state : CanonicalState) (byte : UInt8) : CanonicalState where
  lo := (state.lo ^^^ byte.toUInt64) * fnv1aPrime
  hi := (state.hi ^^^ (byte.toUInt64 + 31)) * canonicalHiPrime

def canonicalHashBytes (state : CanonicalState) (data : List UInt8) : CanonicalState :=
  data.foldl canonicalHashByte state

def CanonicalState.hash (state : CanonicalState) : Hash128 := ⟨state.lo, state.hi⟩

def canonicalHash (data : List UInt8) (domain : UInt64) : Hash128 :=
  (canonicalHashBytes (canonicalHashBegin domain) data).hash

theorem canonicalHashBytes_append (state : CanonicalState) (xs ys : List UInt8) :
    canonicalHashBytes state (xs ++ ys) = canonicalHashBytes (canonicalHashBytes state xs) ys := List.foldl_append

end Abix.Util
