import ArcGraph.Basic
import ArcGraph.Foundation.Bytes
import Mathlib.Data.UInt

/-!
# Node and relationship records

The fixed-size rows of the record pages. Both codecs check nothing but the layout
version in the low bits of the flags; a record carries the proof that its version is
the current one, so that it reads back as it was written.
-/

namespace ArcGraph.Records
open Foundation List

def recordVersion : UInt8 := 1

def versionMask : UInt8 := 7

variable (row : Bytes) (off : Nat)

/-- The number of `w` bytes at `off` of a row. -/
def fieldAt (w : Nat) : Nat := leValue ((row.drop off).take w)

def u32At : UInt32 := UInt32.ofNat (fieldAt row off 4)

def u64At : UInt64 := UInt64.ofNat (fieldAt row off 8)

variable (n : UInt32)

def u32Bytes : Bytes := leBytes 4 n.toNat

def u64Bytes (n : UInt64) : Bytes := leBytes 8 n.toNat

def flagsBytes (flags : UInt8) : Bytes := [flags, 0, 0, 0]

@[simp] theorem length_flagsBytes (flags : UInt8) : (flagsBytes flags).length = 4 := by
  simp [flagsBytes]

@[simp] theorem length_u32Bytes : (u32Bytes n).length = 4 := length_leBytes ..

@[simp] theorem length_u64Bytes (n : UInt64) : (u64Bytes n).length = 8 := length_leBytes ..

@[simp] theorem ofNat_leValue_u32Bytes : UInt32.ofNat (leValue (u32Bytes n)) = n := by
  rw [u32Bytes, leValue_leBytes 4 _ n.toNat_lt, UInt32.ofNat_toNat]

@[simp] theorem ofNat_leValue_u64Bytes (n : UInt64) : UInt64.ofNat (leValue (u64Bytes n)) = n := by
  rw [u64Bytes, leValue_leBytes 8 _ n.toNat_lt, UInt64.ofNat_toNat]

variable {a : Bytes} {w : Nat}

theorem fieldAt_append_right {off : Nat} (h : a.length ≤ off) (b : Bytes) (w : Nat) :
    fieldAt (a ++ b) off w = fieldAt b (off - a.length) w := by
  rw [fieldAt, drop_append, drop_eq_nil_of_le h, nil_append, fieldAt]

theorem fieldAt_append_left (h : a.length = w) (b : Bytes) : fieldAt (a ++ b) 0 w = leValue a := by
  rw [fieldAt, drop_zero, take_append_of_le_length h.ge, take_of_length_le h.le]

theorem fieldAt_self (h : a.length = w) : fieldAt a 0 w = leValue a := by
  rw [fieldAt, drop_zero, take_of_length_le h.le]

structure NodeRecord where
  id : UInt64
  labelId : UInt32
  flags : UInt8
  propertyRef : UInt64
  inlineU32a : UInt32
  inlineU32b : UInt32
  vectorRef : UInt64
  outTelRef : UInt64
  inTelRef : UInt64
  createdLsn : UInt64
  version_eq : flags &&& versionMask = recordVersion
deriving DecidableEq

namespace NodeRecord

def size : Nat := 64

variable (r : NodeRecord)

def toBytes : Bytes :=
  u64Bytes r.id ++ (u32Bytes r.labelId ++ (flagsBytes r.flags ++ (u64Bytes r.propertyRef ++
    (u32Bytes r.inlineU32a ++ (u32Bytes r.inlineU32b ++ (u64Bytes r.vectorRef ++
      (u64Bytes r.outTelRef ++ (u64Bytes r.inTelRef ++ u64Bytes r.createdLsn))))))))

/-- The error is the version found. -/
def fromBytes : Except UInt8 NodeRecord :=
  let flags := row.getD 12 0
  if h : flags &&& versionMask = recordVersion then
    .ok
      { id := u64At row 0
        labelId := u32At row 8
        flags := flags
        propertyRef := u64At row 16
        inlineU32a := u32At row 24
        inlineU32b := u32At row 28
        vectorRef := u64At row 32
        outTelRef := u64At row 40
        inTelRef := u64At row 48
        createdLsn := u64At row 56
        version_eq := h }
  else .error (flags &&& versionMask)

theorem length_toBytes : r.toBytes.length = size := by
  simp [toBytes, size]

theorem fromBytes_toBytes : fromBytes r.toBytes = .ok r := by
  have hflags : r.toBytes.getD 12 0 = r.flags := by
    simp [toBytes, flagsBytes]
  unfold fromBytes
  simp only [hflags, r.version_eq, dite_true]
  simp [toBytes, u64At, u32At, fieldAt_append_right, fieldAt_append_left, fieldAt_self]

end NodeRecord

/-- The weight is the bit pattern of the source's `f32`. -/
structure RelRecord where
  id : UInt64
  typeId : UInt32
  flags : UInt8
  srcId : UInt64
  dstId : UInt64
  propertyRef : UInt64
  inlineU32a : UInt32
  inlineU32b : UInt32
  createdLsn : UInt64
  expiredLsn : UInt64
  weight : UInt32
  version_eq : flags &&& versionMask = recordVersion
deriving DecidableEq

namespace RelRecord

def size : Nat := 96

variable (r : RelRecord)

def toBytes : Bytes :=
  u64Bytes r.id ++ (u32Bytes r.typeId ++ (flagsBytes r.flags ++ (u64Bytes r.srcId ++
    (u64Bytes r.dstId ++ (u64Bytes r.propertyRef ++ (u32Bytes r.inlineU32a ++
      (u32Bytes r.inlineU32b ++ (u64Bytes r.createdLsn ++ (u64Bytes r.expiredLsn ++
        (u32Bytes r.weight ++ replicate 28 0))))))))))

def fromBytes : Except UInt8 RelRecord :=
  let flags := row.getD 12 0
  if h : flags &&& versionMask = recordVersion then
    .ok
      { id := u64At row 0
        typeId := u32At row 8
        flags := flags
        srcId := u64At row 16
        dstId := u64At row 24
        propertyRef := u64At row 32
        inlineU32a := u32At row 40
        inlineU32b := u32At row 44
        createdLsn := u64At row 48
        expiredLsn := u64At row 56
        weight := u32At row 64
        version_eq := h }
  else .error (flags &&& versionMask)

theorem length_toBytes : r.toBytes.length = size := by
  simp [toBytes, size]

theorem fromBytes_toBytes : fromBytes r.toBytes = .ok r := by
  have hflags : r.toBytes.getD 12 0 = r.flags := by
    simp [toBytes, flagsBytes]
  unfold fromBytes
  simp only [hflags, r.version_eq, dite_true]
  simp [toBytes, u64At, u32At, fieldAt_append_right, fieldAt_append_left]

end RelRecord
end ArcGraph.Records
