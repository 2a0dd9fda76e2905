import Mathlib.Algebra.Order.Ring.Nat

/-!
# Little-endian numbers as byte lists
-/

namespace ArcGraph.Foundation

/-- The `w` low bytes of `n`, least significant first. -/
def leBytes : Nat → Nat → List UInt8
  | 0, _ => []
  | w + 1, n => UInt8.ofNat (n % 256) :: leBytes w (n / 256)

def leValue : List UInt8 → Nat
  | [] => 0
  | b :: rest => b.toNat + 256 * leValue rest

@[simp] theorem length_leBytes (w n : Nat) : (leBytes w n).length = w := by
  induction w generalizing n with
  | zero => rfl
  | succ w ih => simp [leBytes, ih]

theorem leValue_lt (bs : List UInt8) : leValue bs < 256 ^ bs.length := by
  induction bs with
  | nil => simp [leValue]
  | cons b rest ih =>
    have hb : b.toNat < 256 := b.toNat_lt
    have hpow : 256 ^ (rest.length + 1) = 256 * 256 ^ rest.length := by
      rw [Nat.pow_succ, Nat.mul_comm]
    simp only [leValue, List.length_cons, hpow]
    omega

theorem leValue_leBytes (w n : Nat) (h : n < 256 ^ w) : leValue (leBytes w n) = n := by
  induction w generalizing n with
  | zero =>
    have hn : n = 0 := by simpa using h
    simp [leBytes, leValue, hn]
  | succ w ih =>
    have hdiv : n / 256 < 256 ^ w := by
      refine Nat.div_lt_of_lt_mul ?_
      rwa [Nat.pow_succ, Nat.mul_comm] at h
    have hbyte : (UInt8.ofNat (n % 256)).toNat = n % 256 := by
      simp
    simp only [leBytes, leValue, ih _ hdiv, hbyte]
    omega

theorem leValue_eq_zero {bs : List UInt8} (h : leValue bs = 0) : bs = List.replicate bs.length 0 := by
  induction bs with
  | nil => rfl
  | cons b rest ih =>
    have hb : b.toNat = 0 ∧ leValue rest = 0 := by
      simp only [leValue] at h
      omega
    have hzero : b = 0 := UInt8.toNat.inj hb.1
    rw [List.length_cons, List.replicate_succ, ← ih hb.2, hzero]

@[simp] theorem leValue_replicate_zero (n : Nat) : leValue (List.replicate n 0) = 0 := by
  induction n with
  | zero => rfl
  | succ n ih => simp [List.replicate_succ, leValue, ih]

end ArcGraph.Foundation
