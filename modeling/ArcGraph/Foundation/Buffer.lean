import ArcGraph.Foundation.Bytes

/-!
# Byte buffers addressed by offset

A buffer is a function from offsets to bytes. A range that is written reads back as
what was written, and a range apart from it reads as before.
-/

namespace ArcGraph.Foundation

def Buffer := Nat → UInt8

namespace Buffer

/-- The ranges of `len` bytes at `off` and of `len'` bytes at `off'` share no byte. -/
def Apart (off len off' len' : Nat) : Prop := off + len ≤ off' ∨ off' + len' ≤ off

theorem Apart.symm {off len off' len' : Nat} (h : Apart off len off' len') :
    Apart off' len' off len := Or.symm h

def zero : Buffer := fun _ => 0

variable (b : Buffer)

def read (off len : Nat) : List UInt8 := (List.range len).map fun i => b (off + i)

def write (off : Nat) (bs : List UInt8) : Buffer := fun i =>
  if off ≤ i ∧ i < off + bs.length then bs.getD (i - off) 0 else b i

/-- Zero the bytes from `start` to before `stop`. -/
def clear (start stop : Nat) : Buffer := fun i =>
  if start ≤ i ∧ i < stop then 0 else b i

/-- The little-endian number of `w` bytes at `off`. -/
def uintAt (off w : Nat) : Nat := leValue (b.read off w)

variable {b b' : Buffer} {off len off' start stop w n : Nat} {bs : List UInt8}

@[simp] theorem length_read : (b.read off len).length = len := by
  simp [read]

theorem read_congr (h : ∀ i, off ≤ i → i < off + len → b i = b' i) :
    b.read off len = b'.read off len := by
  refine List.map_congr_left fun i hi => ?_
  have hlt := List.mem_range.mp hi
  exact h _ (by omega) (by omega)

theorem read_write_self : (b.write off bs).read off bs.length = bs := by
  refine List.ext_getElem (by simp) fun i hi hi' => ?_
  simp [read, write, hi']

theorem read_write_apart (h : Apart off len off' bs.length) :
    (b.write off' bs).read off len = b.read off len := by
  refine read_congr fun i hi hi' => ?_
  unfold Apart at h
  exact if_neg (by omega)

theorem read_clear_apart (h : off + len ≤ start ∨ stop ≤ off) :
    (b.clear start stop).read off len = b.read off len := by
  refine read_congr fun i hi hi' => ?_
  exact if_neg (by omega)

theorem uintAt_write_self (h : n < 256 ^ w) : (b.write off (leBytes w n)).uintAt off w = n := by
  have hread : (b.write off (leBytes w n)).read off (leBytes w n).length = leBytes w n :=
    read_write_self
  rw [length_leBytes] at hread
  rw [uintAt, hread, leValue_leBytes w n h]

theorem uintAt_write_apart (h : Apart off w off' bs.length) :
    (b.write off' bs).uintAt off w = b.uintAt off w := by
  rw [uintAt, read_write_apart h, uintAt]

theorem uintAt_clear_apart (h : off + w ≤ start ∨ stop ≤ off) :
    (b.clear start stop).uintAt off w = b.uintAt off w := by
  rw [uintAt, read_clear_apart h, uintAt]

theorem uintAt_clear_self (hstart : start ≤ off) (hstop : off + w ≤ stop) :
    (b.clear start stop).uintAt off w = 0 := by
  have hread : (b.clear start stop).read off w = List.replicate w 0 := by
    refine List.ext_getElem (by simp) fun i hi hi' => ?_
    have hw : i < w := by simpa using hi
    have hrange : start ≤ off + i ∧ off + i < stop := by omega
    simp [read, clear, hrange]
  rw [uintAt, hread, leValue_replicate_zero]

end Buffer
end ArcGraph.Foundation
