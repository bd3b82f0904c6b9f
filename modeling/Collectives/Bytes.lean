/-!
# Bytes and little-endian words

Messages are lists of bytes. Numbers cross the wire in a fixed number of bytes,
least significant first. `ofLittleEndian_littleEndian` says that a number that fits
is read back, `littleEndian_ofLittleEndian` that every byte string is the wire form
of the number it spells.
-/

namespace Collectives

/-- A message, or any other string of bytes. -/
abbrev Bytes := List UInt8

/-- The low `width` bytes of a number, least significant first. -/
def littleEndian : Nat → Nat → Bytes
  | 0, _ => []
  | width + 1, n => UInt8.ofNat n :: littleEndian width (n / 256)

/-- The number that a byte string spells, least significant byte first. -/
def ofLittleEndian : Bytes → Nat
  | [] => 0
  | b :: bs => b.toNat + 256 * ofLittleEndian bs

/-- The first number that does not fit in `width` bytes. -/
def wordLimit (width : Nat) : Nat := 1 <<< (8 * width)

@[simp] theorem wordLimit_zero : wordLimit 0 = 1 := rfl

theorem wordLimit_succ (width : Nat) : wordLimit (width + 1) = wordLimit width * 256 := by
  rw [wordLimit, Nat.mul_succ, Nat.shiftLeft_add, Nat.shiftLeft_eq]
  rfl

@[simp] theorem littleEndian_zero (n : Nat) : littleEndian 0 n = [] := rfl

@[simp] theorem littleEndian_succ (width n : Nat) :
    littleEndian (width + 1) n = UInt8.ofNat n :: littleEndian width (n / 256) := rfl

@[simp] theorem ofLittleEndian_nil : ofLittleEndian [] = 0 := rfl

@[simp] theorem ofLittleEndian_cons (b : UInt8) (bs : Bytes) :
    ofLittleEndian (b :: bs) = b.toNat + 256 * ofLittleEndian bs := rfl

theorem length_littleEndian (width n : Nat) : (littleEndian width n).length = width := by
  induction width generalizing n with
  | zero => rfl
  | succ width ih => rw [littleEndian_succ, List.length_cons, ih]

/-- Only the part of the number that fits survives the wire. -/
theorem ofLittleEndian_littleEndian (width n : Nat) :
    ofLittleEndian (littleEndian width n) = n % wordLimit width := by
  induction width generalizing n with
  | zero => simp [Nat.mod_one]
  | succ width ih =>
    rw [littleEndian_succ, ofLittleEndian_cons, ih, wordLimit_succ, Nat.mul_comm (wordLimit width),
      Nat.mod_mul]
    simp

theorem ofLittleEndian_lt (bs : Bytes) : ofLittleEndian bs < wordLimit bs.length := by
  induction bs with
  | nil => simp
  | cons b bs ih =>
    have hb := b.toNat_lt
    rw [ofLittleEndian_cons, List.length_cons, wordLimit_succ]
    omega

/-- Every byte string is the wire form of the number it spells. -/
theorem littleEndian_ofLittleEndian (bs : Bytes) :
    littleEndian bs.length (ofLittleEndian bs) = bs := by
  induction bs with
  | nil => rfl
  | cons b bs ih =>
    have hb := b.toNat_lt
    have hdiv : (b.toNat + 256 * ofLittleEndian bs) / 256 = ofLittleEndian bs := by omega
    have hmod : UInt8.ofNat (b.toNat + 256 * ofLittleEndian bs) = b := by
      apply UInt8.toNat.inj
      rw [UInt8.toNat_ofNat']
      omega
    rw [List.length_cons, ofLittleEndian_cons, littleEndian_succ, hdiv, ih, hmod]

end Collectives
