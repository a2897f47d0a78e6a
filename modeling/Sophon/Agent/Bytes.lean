/-
Byte access of the agent's packet decoders: indexing, slicing and the big- and
little-endian reads of `public::bytes` (`agent/crates/public/src/bytes.rs`).

A buffer is a list of bytes.  Indexing or slicing outside it panics, and so does the
`assert!(bs.len() >= 2)` (or `4`) of a read; each of these is `none` here.
-/
import Mathlib

namespace Sophon.Agent

/-- `buf[off]`. -/
def byteAt (buf : List UInt8) (off : Nat) : Option Nat :=
  if off < buf.length then some (buf.getD off 0).toNat else none

@[simp] theorem byteAt_eq_some {buf : List UInt8} {off b : Nat} :
    byteAt buf off = some b ↔ off < buf.length ∧ (buf.getD off 0).toNat = b := by
  unfold byteAt
  split
  · simp_all
  · simp only [reduceCtorEq, false_iff, not_and]
    omega

@[simp] theorem byteAt_eq_none {buf : List UInt8} {off : Nat} :
    byteAt buf off = none ↔ buf.length ≤ off := by
  unfold byteAt
  split <;> simp_all

/-- `bytes::read_u16_be(&buf[off..])`: the slice and the two bytes must be there. -/
def readU16Be (buf : List UInt8) (off : Nat) : Option Nat :=
  if off + 2 ≤ buf.length then some ((buf.getD off 0).toNat * 256 + (buf.getD (off + 1) 0).toNat)
  else none

@[simp] theorem readU16Be_eq_none {buf : List UInt8} {off : Nat} :
    readU16Be buf off = none ↔ buf.length < off + 2 := by
  unfold readU16Be
  split <;> simp_all

/-- `bytes::read_u16_le(&buf[off..])`. -/
def readU16Le (buf : List UInt8) (off : Nat) : Option Nat :=
  if off + 2 ≤ buf.length then some ((buf.getD (off + 1) 0).toNat * 256 + (buf.getD off 0).toNat)
  else none

/-- `bytes::read_u32_be(&buf[off..])`. -/
def readU32Be (buf : List UInt8) (off : Nat) : Option Nat :=
  if off + 4 ≤ buf.length then
    some ((List.range 4).foldl (fun acc i => acc * 256 + (buf.getD (off + i) 0).toNat) 0)
  else none

/-- The bytes of an ASCII text. -/
def asciiBytes (cs : List Char) : List UInt8 := cs.map fun c => c.toNat.toUInt8

/-- `&buf[from..]`. -/
def sliceFrom (buf : List UInt8) (start : Nat) : Option (List UInt8) :=
  if start ≤ buf.length then some (buf.drop start) else none

/-- `&buf[a..b]`. -/
def sliceRange (buf : List UInt8) (a b : Nat) : Option (List UInt8) :=
  if a ≤ b ∧ b ≤ buf.length then some ((buf.drop a).take (b - a)) else none

theorem sliceRange_of_le {buf : List UInt8} {a b : Nat} (hab : a ≤ b) (hb : b ≤ buf.length) :
    sliceRange buf a b = some ((buf.drop a).take (b - a)) :=
  if_pos ⟨hab, hb⟩

theorem sliceRange_zero {buf : List UInt8} {b : Nat} (hb : b ≤ buf.length) :
    sliceRange buf 0 b = some (buf.take b) := by
  rw [sliceRange_of_le (Nat.zero_le b) hb, List.drop_zero, Nat.sub_zero]

end Sophon.Agent
