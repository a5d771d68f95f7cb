import Xv6.Param

/-! Disk blocks as arrays of `BSIZE` bytes, and the little-endian 16-bit and 32-bit fields that
`log.c` and `fs.c` read and write in them through a cast of `bp->data`. -/

namespace Xv6

abbrev Block := Vector UInt8 BSIZE

namespace Block

/-- The block that `memset(data, 0, BSIZE)` leaves. -/
def zero : Block := Vector.replicate BSIZE 0

/-- Byte `i` of a block; the code never reads past the end. -/
def byte (b : Block) (i : Nat) : UInt8 := if h : i < BSIZE then b[i] else 0

def ofBytes (f : Nat → UInt8) : Block := Vector.ofFn fun i => f i

@[simp] theorem byte_ofBytes (f : Nat → UInt8) (i : Nat) :
    (ofBytes f).byte i = if i < BSIZE then f i else 0 := by
  unfold byte ofBytes
  split
  · simp
  · rfl

@[simp] theorem byte_zero (i : Nat) : zero.byte i = 0 := by
  unfold byte zero
  split
  · simp
  · rfl

/-- The `w`-byte little-endian number at byte `off`. -/
def num (b : Block) (off : Nat) : Nat → Nat
  | 0 => 0
  | w + 1 => (b.byte off).toNat + 256 * num b (off + 1) w

/-- Store the low `w` bytes of `v` at byte `off`. -/
def setNum (b : Block) (off w v : Nat) : Block :=
  ofBytes fun i => if off ≤ i ∧ i < off + w then UInt8.ofNat (v / 256 ^ (i - off)) else b.byte i

theorem num_lt (b : Block) (off w : Nat) : b.num off w < 256 ^ w := by
  induction w generalizing off with
  | zero => simp [num]
  | succ w ih =>
    have hb := (b.byte off).toNat_lt
    have := ih (off + 1)
    rw [num, pow_succ]
    omega

theorem num_congr {a b : Block} {off w : Nat}
    (h : ∀ i, off ≤ i → i < off + w → a.byte i = b.byte i) : a.num off w = b.num off w := by
  induction w generalizing off with
  | zero => rfl
  | succ w ih =>
    rw [num, num, h off (le_refl _) (by omega), ih fun i h1 h2 => h i (by omega) (by omega)]

theorem num_zero (off w : Nat) : zero.num off w = 0 := by
  induction w generalizing off with
  | zero => rfl
  | succ w ih => simp [num, ih]

theorem byte_setNum (b : Block) (off w v i : Nat) : (b.setNum off w v).byte i =
    if off ≤ i ∧ i < off + w ∧ i < BSIZE then UInt8.ofNat (v / 256 ^ (i - off)) else b.byte i := by
  unfold setNum
  rw [byte_ofBytes]
  by_cases hi : i < BSIZE
  · simp [hi]
  · simp [hi, byte]

theorem num_of_bytes {b : Block} {v : Nat} (off w k : Nat)
    (h : ∀ j < w, b.byte (off + j) = UInt8.ofNat (v / 256 ^ (k + j))) :
    b.num off w = v / 256 ^ k % 256 ^ w := by
  induction w generalizing off k with
  | zero => simp [num, Nat.mod_one]
  | succ w ih =>
    have h0 := h 0 (by omega)
    rw [add_zero, add_zero] at h0
    rw [num, h0, ih (off + 1) (k + 1) fun j hj => by
      have := h (j + 1) (by omega)
      rwa [show off + (j + 1) = off + 1 + j by omega,
        show k + (j + 1) = k + 1 + j by omega] at this]
    rw [UInt8.toNat_ofNat', pow_succ 256 k, ← Nat.div_div_eq_div_mul, pow_succ 256 w,
      mul_comm (256 ^ w), Nat.mod_mul]

theorem num_setNum_same (b : Block) {off w : Nat} (v : Nat) (h : off + w ≤ BSIZE) :
    (b.setNum off w v).num off w = v % 256 ^ w := by
  rw [num_of_bytes (v := v) off w 0 fun j hj => ?_]
  · simp
  · rw [byte_setNum, if_pos (by omega)]
    congr 3
    omega

theorem num_setNum_ne (b : Block) {off off' w w' : Nat} (v : Nat)
    (h : off' + w' ≤ off ∨ off + w ≤ off') :
    (b.setNum off w v).num off' w' = b.num off' w' := by
  apply num_congr
  intro i h1 h2
  rw [byte_setNum, if_neg (by omega)]

/-- Word `i` of a block read as an array of 32-bit integers. -/
def word (b : Block) (i : Nat) : Nat := b.num (4 * i) 4

def setWord (b : Block) (i v : Nat) : Block := b.setNum (4 * i) 4 v

@[simp] theorem word_zero (i : Nat) : zero.word i = 0 := num_zero _ _

theorem word_setWord_same (b : Block) {i v : Nat} (hi : i < 256) (hv : v < 2 ^ 32) :
    (b.setWord i v).word i = v := by
  rw [word, setWord, num_setNum_same _ _ (by simp only [BSIZE]; omega)]
  exact Nat.mod_eq_of_lt hv

theorem word_setWord_ne (b : Block) {i j : Nat} (v : Nat) (h : j ≠ i) :
    (b.setWord i v).word j = b.word j :=
  num_setNum_ne _ _ (by omega)

end Block

theorem and_shift_eq_zero (x i : Nat) : x &&& 1 <<< i = 0 ↔ x.testBit i = false := by
  rw [Nat.one_shiftLeft, Nat.and_two_pow]
  cases x.testBit i <;> simp

def toInt (w : Nat) : Int := Int.bmod w (2 ^ 32)

theorem toInt_of_lt {w : Nat} (h : w < 2 ^ 31) : toInt w = w := by
  unfold toInt
  rw [Int.bmod_eq_of_le] <;> omega

end Xv6
