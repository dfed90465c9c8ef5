import Mathlib.Data.List.Basic
import Mathlib.Tactic.Ring

/-! Little-endian numbers in a byte list.

`encode w n` is the `w` low bytes of `n`, least significant first, which is what
copying a machine integer of `w` bytes into a buffer leaves there; `decode` reads
such a list back. The two are inverse up to the width: a number that fits comes
back, and a list of `w` bytes is the encoding of the number it denotes. -/
namespace Foundation.LittleEndian

def encode : Nat → Nat → List UInt8
  | 0, _ => []
  | w + 1, n => UInt8.ofNat n :: encode w (n / 256)

def decode : List UInt8 → Nat
  | [] => 0
  | b :: bs => b.toNat + 256 * decode bs

@[simp] theorem encode_length (w n : Nat) : (encode w n).length = w := by
  induction w generalizing n with
  | zero => rfl
  | succ w ih => simp only [encode, List.length_cons, ih]

theorem encode_take (w n k : Nat) : (encode w n).take k = encode (min k w) n := by
  induction w generalizing n k with
  | zero => rw [encode, List.take_nil, Nat.min_zero, encode]
  | succ w ih =>
    cases k with
    | zero => rw [List.take_zero, Nat.zero_min, encode]
    | succ k => rw [encode, List.take_succ_cons, ih, Nat.succ_min_succ, encode]

theorem decode_lt (bs : List UInt8) : decode bs < 256 ^ bs.length := by
  induction bs with
  | nil => simp [decode]
  | cons b bs ih =>
    have hb := b.toNat_lt
    simp only [decode, List.length_cons, Nat.pow_succ]
    omega

/-- Writing and reading back keeps the low `w` bytes. -/
theorem decode_encode_mod (w n : Nat) : decode (encode w n) = n % 256 ^ w := by
  induction w generalizing n with
  | zero => simp [encode, decode, Nat.mod_one]
  | succ w ih =>
    have hbyte : (UInt8.ofNat n).toNat = n % 256 := by simp
    rw [encode, decode, ih, hbyte, Nat.pow_succ, Nat.mul_comm (256 ^ w) 256, Nat.mod_mul]

theorem decode_encode {w n : Nat} (h : n < 256 ^ w) : decode (encode w n) = n := by
  rw [decode_encode_mod, Nat.mod_eq_of_lt h]

/-- Every byte list is the encoding of the number it denotes. -/
theorem encode_decode (bs : List UInt8) : encode bs.length (decode bs) = bs := by
  induction bs with
  | nil => rfl
  | cons b bs ih =>
    have hb := b.toNat_lt
    have hlow : UInt8.ofNat (b.toNat + 256 * decode bs) = b := by
      apply UInt8.toNat_inj.mp
      simp only [UInt8.toNat_ofNat']
      omega
    have hhigh : (b.toNat + 256 * decode bs) / 256 = decode bs := by omega
    rw [List.length_cons, decode, encode, hlow, hhigh, ih]

end Foundation.LittleEndian
