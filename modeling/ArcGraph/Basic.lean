import Mathlib.Algebra.Order.Ring.Nat

/-!
# Shared vocabulary

LSNs are natural numbers throughout. The source's 64-bit counter panics when it
is exhausted; the model's has no end.
-/

namespace ArcGraph

abbrev TenantId := UInt64

namespace TenantId

/-- The tenant that owns the index root pointers. -/
def system : TenantId := 0

end TenantId

abbrev MvccKey := UInt64

abbrev VersionKey := TenantId × MvccKey

abbrev Bytes := List UInt8

def pageSize : Nat := 8192

/-- A write of one key, under any tenant. `value = none` is a tombstone. -/
structure SideChannelWrite where
  tenantId : TenantId
  key : MvccKey
  value : Option Bytes
deriving DecidableEq

def SideChannelWrite.versionKey (w : SideChannelWrite) : VersionKey := (w.tenantId, w.key)

/-- The contiguous LSNs one commit owns. `RedoLsnRange::new` rejects the ranges
that the two fields exclude. -/
@[ext] structure RedoLsnRange where
  base : Nat
  «end» : Nat
  base_pos : 0 < base
  base_le_end : base ≤ «end»
deriving DecidableEq

namespace RedoLsnRange

def new (base stop : Nat) : Option RedoLsnRange :=
  if h : base = 0 ∨ stop < base then none
  else some ⟨base, stop, by omega, by omega⟩

/-- The range of `op_count` operations whose last LSN is `commitLsn`. -/
def endingAt (commitLsn opCount : Nat) : Option RedoLsnRange :=
  let width := max opCount 1
  if commitLsn < width - 1 then none else new (commitLsn - (width - 1)) commitLsn

variable (r : RedoLsnRange)

def commitLsn : Nat := r.end

def predecessor : Nat := r.base - 1

def len : Nat := r.end - r.base + 1

def opLsn (index : Nat) : Option Nat :=
  if r.len ≤ index then none else some (r.base + index)

/-- `LsnCounter::allocate_range`: the LSNs after `last`, one for each operation and
one for a commit without operations. The new counter value is the range's end. -/
def allocate (last opCount : Nat) : RedoLsnRange where
  base := last + 1
  «end» := last + max opCount 1
  base_pos := by omega
  base_le_end := by omega

end RedoLsnRange
end ArcGraph
