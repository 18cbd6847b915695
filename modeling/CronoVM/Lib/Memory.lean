import Mathlib.Algebra.Ring.Nat
import Mathlib.Logic.Function.Basic
import Mathlib.Tactic.Common

/-!
# Flat byte memory

Bytes, 32-bit words, their little-endian layout, and an array of bytes with a size. Every write is a `Mem.blit`, so that what a write
changes and what it keeps is said once.
-/

namespace CronoVM

abbrev Byte : Type := BitVec 8

abbrev Word : Type := BitVec 32

/-- Equality of bytes is that of bit vectors. -/
instance : LawfulBEq Byte := inferInstanceAs (LawfulBEq (BitVec 8))

/-! ## Little-endian layout -/

/-- The word whose bytes are `b 0` (the least significant) to `b 3`. -/
def leWord (b : Nat → Byte) : Word :=
  (b 0).setWidth 32 ||| ((b 1).setWidth 32 <<< 8) ||| ((b 2).setWidth 32 <<< 16) ||| ((b 3).setWidth 32 <<< 24)

/-- The half word whose bytes are `b 0` and `b 1`. -/
def leHalf (b : Nat → Byte) : BitVec 16 := (b 0).setWidth 16 ||| ((b 1).setWidth 16 <<< 8)

/-- Byte `k` of a word, the least significant first. -/
def leByte (w : Word) (k : Nat) : Byte := w.extractLsb' (8 * k) 8

/-- Byte `k` of a half word. -/
def leByteH (h : BitVec 16) (k : Nat) : Byte := h.extractLsb' (8 * k) 8

/-- A word is its four bytes. -/
@[simp] theorem leWord_leByte (w : Word) : leWord (leByte w) = w := by
  apply BitVec.eq_of_getLsbD_eq
  intro i hi
  simp only [leWord, leByte, BitVec.getLsbD_or, BitVec.getLsbD_setWidth, BitVec.getLsbD_shiftLeft, BitVec.getLsbD_extractLsb']
  grind

/-- The bytes of a word made of four bytes are these. -/
theorem leByte_leWord (b : Nat → Byte) {k : Nat} (hk : k < 4) : leByte (leWord b) k = b k := by
  have hcases : k = 0 ∨ k = 1 ∨ k = 2 ∨ k = 3 := by omega
  apply BitVec.eq_of_getLsbD_eq
  intro i hi
  rcases hcases with rfl | rfl | rfl | rfl <;>
    simp only [leWord, leByte, BitVec.getLsbD_or, BitVec.getLsbD_setWidth, BitVec.getLsbD_shiftLeft,
      BitVec.getLsbD_extractLsb'] <;>
    grind

/-- A word depends on its four bytes only. -/
theorem leWord_congr {b c : Nat → Byte} (h : ∀ k, k < 4 → b k = c k) : leWord b = leWord c := by
  unfold leWord
  rw [h 0 (by omega), h 1 (by omega), h 2 (by omega), h 3 (by omega)]

/-! ## Memory -/

/-- An array of `size` bytes; `byte` beyond the size is memory that belongs to somebody else. -/
structure Mem where
  size : Nat
  byte : Nat → Byte

namespace Mem

variable (m : Mem)

/-- Write `n` bytes at `p`: byte `p + k` becomes `f k`. -/
def blit (p n : Nat) (f : Nat → Byte) : Mem :=
  { m with byte := fun i => if p ≤ i ∧ i < p + n then f (i - p) else m.byte i }

def word (p : Nat) : Word := leWord fun k => m.byte (p + k)

def half (p : Nat) : BitVec 16 := leHalf fun k => m.byte (p + k)

def setWord (p : Nat) (w : Word) : Mem := m.blit p 4 (leByte w)

def setHalf (p : Nat) (h : BitVec 16) : Mem := m.blit p 2 (leByteH h)

def setByte (p : Nat) (b : Byte) : Mem := m.blit p 1 fun _ => b

/-- `memmove(dst, src, n)`: the bytes of the source as they were before the first write. -/
def move (dst src n : Nat) : Mem := m.blit dst n fun k => m.byte (src + k)

@[simp] theorem blit_size (p n : Nat) (f : Nat → Byte) : (m.blit p n f).size = m.size := rfl

/-- The bytes after a range is written. -/
theorem blit_byte (p n : Nat) (f : Nat → Byte) (i : Nat) :
    (m.blit p n f).byte i = if p ≤ i ∧ i < p + n then f (i - p) else m.byte i := rfl

/-- The bytes below the range stay. -/
theorem blit_byte_of_lt {p n i : Nat} (f : Nat → Byte) (h : i < p) : (m.blit p n f).byte i = m.byte i :=
  if_neg (by omega)

/-- The bytes above it stay. -/
theorem blit_byte_of_ge {p n i : Nat} (f : Nat → Byte) (h : p + n ≤ i) : (m.blit p n f).byte i = m.byte i :=
  if_neg (by omega)

/-- The bytes of the range. -/
theorem blit_byte_add {p n k : Nat} (f : Nat → Byte) (h : k < n) : (m.blit p n f).byte (p + k) = f k := by
  rw [blit_byte, if_pos (by omega), Nat.add_sub_cancel_left]

/-- Only the first `n` bytes of `f` matter. -/
theorem blit_congr {p n : Nat} {f g : Nat → Byte} (h : ∀ k, k < n → f k = g k) : m.blit p n f = m.blit p n g := by
  simp only [blit, mk.injEq, true_and]
  funext i
  by_cases hi : p ≤ i ∧ i < p + n
  · rw [if_pos hi, if_pos hi, h _ (by omega)]
  · rw [if_neg hi, if_neg hi]

/-- An empty range writes nothing. -/
theorem blit_zero (p : Nat) (f : Nat → Byte) : m.blit p 0 f = m := by
  simp only [blit]
  congr 1
  funext i
  exact if_neg (by omega)

@[simp] theorem setWord_size (p : Nat) (w : Word) : (m.setWord p w).size = m.size := rfl

@[simp] theorem setHalf_size (p : Nat) (h : BitVec 16) : (m.setHalf p h).size = m.size := rfl

@[simp] theorem setByte_size (p : Nat) (b : Byte) : (m.setByte p b).size = m.size := rfl

@[simp] theorem move_size (d s n : Nat) : (m.move d s n).size = m.size := rfl

/-- A word written is the word read back. -/
@[simp] theorem word_setWord (p : Nat) (w : Word) : (m.setWord p w).word p = w := by
  rw [word, ← leWord_leByte w]
  exact leWord_congr fun k hk => by rw [leWord_leByte, setWord, blit_byte_add _ _ hk]

/-- A write elsewhere leaves a word as it was. -/
theorem word_blit_of_disjoint {p n q : Nat} (f : Nat → Byte) (h : q + 4 ≤ p ∨ p + n ≤ q) :
    (m.blit p n f).word q = m.word q :=
  leWord_congr fun k hk => by
    rcases h with h | h
    · exact m.blit_byte_of_lt f (by omega)
    · exact m.blit_byte_of_ge f (by omega)

/-- A word beside the one that is stored stays. -/
theorem word_setWord_of_disjoint {p q : Nat} (w : Word) (h : q + 4 ≤ p ∨ p + 4 ≤ q) :
    (m.setWord p w).word q = m.word q :=
  m.word_blit_of_disjoint _ h

/-- What lies outside the array is the same before and after. -/
def SameOutside (m m' : Mem) : Prop := m'.size = m.size ∧ ∀ i, m.size ≤ i → m'.byte i = m.byte i

@[simp] theorem sameOutside_refl : m.SameOutside m := ⟨rfl, fun _ _ => rfl⟩

/-- A write inside the array changes nothing outside it. -/
theorem sameOutside_blit {p n : Nat} (f : Nat → Byte) (h : p + n ≤ m.size) : m.SameOutside (m.blit p n f) :=
  ⟨rfl, fun _ hi => m.blit_byte_of_ge f (by omega)⟩

end Mem

end CronoVM
