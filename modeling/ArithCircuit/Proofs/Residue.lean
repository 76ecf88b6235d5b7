import ArithCircuit.Residue.Basic
import Mathlib.FieldTheory.Finite.Basic

/-! Residues under their own operations are a commutative ring, and a field when the modulus is
prime. The laws are carried over from `ZMod p`; the operations stay those of the library, so every
statement about the ring is one about what a circuit computes. -/
namespace ArithCircuit.Residue

variable {p : Nat}

/-- The same class in the integers modulo `p`. -/
def toZMod (a : Residue p) : ZMod p := (a.val : ZMod p)

theorem toZMod_injective : Function.Injective (toZMod (p := p)) := by
  intro a b h
  apply Residue.ext
  have hVal := congrArg ZMod.val h
  rwa [toZMod, toZMod, ZMod.val_natCast_of_lt a.isLt, ZMod.val_natCast_of_lt b.isLt] at hVal

@[simp] theorem toZMod_add (a b : Residue p) : toZMod (a + b) = toZMod a + toZMod b := by
  simp [toZMod, val_add]

@[simp] theorem toZMod_mul (a b : Residue p) : toZMod (a * b) = toZMod a * toZMod b := by
  simp [toZMod, val_mul]

@[simp] theorem toZMod_neg (a : Residue p) : toZMod (-a) = -toZMod a := by
  simp [toZMod, val_neg, Nat.cast_sub a.isLt.le]

@[simp] theorem toZMod_sub (a b : Residue p) : toZMod (a - b) = toZMod a - toZMod b := by
  simp [toZMod, val_sub, Nat.cast_sub b.isLt.le, sub_eq_add_neg]

variable [Modulus p]

@[simp] theorem toZMod_zero : toZMod (0 : Residue p) = 0 := by
  simp [toZMod, val_zero]

@[simp] theorem toZMod_one : toZMod (1 : Residue p) = 1 := by
  simp [toZMod, val_one]

instance : CommRing (Residue p) where
  add_assoc a b c := toZMod_injective (by simp [add_assoc])
  zero_add a := toZMod_injective (by simp)
  add_zero a := toZMod_injective (by simp)
  add_comm a b := toZMod_injective (by simp [add_comm])
  mul_assoc a b c := toZMod_injective (by simp [mul_assoc])
  one_mul a := toZMod_injective (by simp)
  mul_one a := toZMod_injective (by simp)
  mul_comm a b := toZMod_injective (by simp [mul_comm])
  left_distrib a b c := toZMod_injective (by simp [mul_add])
  right_distrib a b c := toZMod_injective (by simp [add_mul])
  zero_mul a := toZMod_injective (by simp)
  mul_zero a := toZMod_injective (by simp)
  neg_add_cancel a := toZMod_injective (by simp)
  sub_eq_add_neg a b := toZMod_injective (by simp [sub_eq_add_neg])
  nsmul := nsmulRec
  zsmul := zsmulRec

/-- Only zero has a representative of no bits. -/
theorem fitsIn_zero_iff (a : Residue p) : a.fitsIn 0 = true ↔ a = 0 := by
  simp only [fitsIn, Nat.not_lt_zero, decide_false, Bool.or_false, beq_iff_eq]
  exact ⟨fun h => Residue.ext (h.trans val_zero.symm), fun h => h ▸ val_zero⟩

/-- The embedding into the integers modulo `p` respects the ring structure. -/
def toZModHom : Residue p →+* ZMod p where
  toFun := toZMod
  map_zero' := toZMod_zero
  map_one' := toZMod_one
  map_add' := toZMod_add
  map_mul' := toZMod_mul

/-- Square and multiply computes the power, as long as there are digits enough for the exponent. -/
theorem powDigits_eq (digits : Nat) (a : Residue p) (n : Nat) (hDigits : n < 2 ^ digits) :
    powDigits digits a n = a ^ n := by
  induction digits generalizing a n with
  | zero =>
      have hn : n = 0 := by omega
      simp [powDigits, hn]
  | succ digits ih =>
      have hHalf : n / 2 < 2 ^ digits := by rw [pow_succ] at hDigits; omega
      have hHigh : powDigits digits (a * a) (n / 2) = a ^ (2 * (n / 2)) := by
        rw [ih (a * a) (n / 2) hHalf, ← pow_two, ← pow_mul]
      simp only [powDigits, hHigh]
      split_ifs with hOdd
      · rw [← pow_succ']
        congr 1
        omega
      · congr 1
        omega

theorem pow_eq (a : Residue p) (n : Nat) : a.pow n = a ^ n :=
  powDigits_eq _ a n Nat.lt_log2_self

/-- The inverse is one: by Fermat's theorem the power `p - 2` undoes a nonzero residue. -/
theorem mul_inv_cancel_of_ne_zero [hp : Fact p.Prime] {a : Residue p} (ha : a ≠ 0) :
    a * a⁻¹ = 1 := by
  have hInv : a⁻¹ = a ^ (p - 2) := (if_neg ha).trans (pow_eq a (p - 2))
  have hExp : p - 2 + 1 = p - 1 := by have := hp.out.two_le; omega
  have hNonzero : toZMod a ≠ 0 := fun h => ha (toZMod_injective (h.trans toZMod_zero.symm))
  apply toZMod_injective
  rw [hInv, ← pow_succ', hExp, toZMod_one]
  exact (map_pow toZModHom a (p - 1)).trans (ZMod.pow_card_sub_one_eq_one hNonzero)

instance [Fact p.Prime] : Field (Residue p) where
  inv_zero := if_pos rfl
  mul_inv_cancel _ := mul_inv_cancel_of_ne_zero
  exists_pair_ne := by
    refine ⟨0, 1, fun h => ?_⟩
    have hZMod := congrArg toZMod h
    rw [toZMod_zero, toZMod_one] at hZMod
    exact zero_ne_one hZMod
  nnqsmul := _
  qsmul := _

end ArithCircuit.Residue
