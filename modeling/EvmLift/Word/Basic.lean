/-!
# Machine words

The machine computes on words of 256 bits. A word is an unsigned number, and the
same bits read in two's complement are a signed one. This module fixes the type,
its signed reading, and its size in bytes.
-/

namespace EvmLift

/-- A 256-bit machine word. -/
abbrev Word := BitVec 256

namespace Word

/-- The number whose big-endian base 256 digits are `bytes`. -/
def natOfBytes (bytes : List UInt8) : Nat :=
  bytes.foldl (fun value byte => value * 256 + byte.toNat) 0

/-- The word written by `bytes` in big-endian order. Of more than 32 bytes the
last 32 count. -/
def ofBytes (bytes : List UInt8) : Word :=
  BitVec.ofNat 256 (natOfBytes bytes)

/-- The least number of bits that hold the word; zero needs none. -/
def bitSize (value : Word) : Nat :=
  if value = 0 then 0 else value.toNat.log2 + 1

/-- The least number of bytes that hold the word; zero needs none. -/
def byteSize (value : Word) : Nat :=
  (value.bitSize + 7) / 8

/-- Whether the signed reading of the word is below zero. -/
def isNegative (value : Word) : Bool :=
  value.msb

/-- The distance of the signed reading from zero. The least signed word is its own
magnitude, which is right as an unsigned number. -/
def magnitude (value : Word) : Word :=
  if value.isNegative then -value else value

/-- One for a condition that holds and zero for one that does not. -/
def ofCondition (holds : Bool) : Word :=
  if holds then 1 else 0

end Word

end EvmLift
