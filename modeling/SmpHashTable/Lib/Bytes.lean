import Mathlib.Data.UInt
import Mathlib.Tactic.Ring

/-!
# Little-endian fields

A machine word of `k` bytes, lowest byte first, and how it is read back.
-/

namespace Bytes

/-- The `k` low bytes of `w`, lowest first. -/
def le : ℕ → ℕ → List UInt8
  | 0, _ => []
  | k + 1, w => UInt8.ofNat w :: le k (w / 256)

/-- The word that the bytes spell, lowest first. -/
def ofLe : List UInt8 → ℕ
  | [] => 0
  | b :: bs => b.toNat + 256 * ofLe bs

@[simp] theorem length_le (k w : ℕ) : (le k w).length = k := by
  induction k generalizing w with
  | zero => rfl
  | succ k ih => rw [le, List.length_cons, ih]

theorem ofLe_le (k w : ℕ) : ofLe (le k w) = w % 256 ^ k := by
  induction k generalizing w with
  | zero => rw [le, ofLe, pow_zero, Nat.mod_one]
  | succ k ih =>
      have hbyte : (UInt8.ofNat w).toNat = w % 256 := UInt8.toNat_ofNat'
      rw [le, ofLe, ih, hbyte, pow_succ' 256 k, Nat.mod_mul]

theorem ofLe_lt (bs : List UInt8) : ofLe bs < 256 ^ bs.length := by
  induction bs with
  | nil => rw [ofLe, List.length_nil, pow_zero]; exact one_pos
  | cons b bs ih =>
      have hb : b.toNat < 256 := b.toNat_lt
      rw [ofLe, List.length_cons, pow_succ']
      omega

theorem le_ofLe (bs : List UInt8) : le bs.length (ofLe bs) = bs := by
  induction bs with
  | nil => rfl
  | cons b bs ih =>
      have hb : b.toNat < 256 := b.toNat_lt
      have hhead : UInt8.ofNat (b.toNat + 256 * ofLe bs) = b := by
        apply UInt8.toNat_inj.mp
        have hbyte : (UInt8.ofNat (b.toNat + 256 * ofLe bs)).toNat
            = (b.toNat + 256 * ofLe bs) % 256 := UInt8.toNat_ofNat'
        rw [hbyte]
        omega
      have htail : (b.toNat + 256 * ofLe bs) / 256 = ofLe bs := by omega
      rw [List.length_cons, le, ofLe, hhead, htail, ih]

end Bytes
