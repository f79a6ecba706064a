import Mathlib.NumberTheory.LegendreSymbol.Basic

/-!
# snarky-bn382: the square test of the field stubs

`camlsnark_bn382_fp_is_square` and `camlsnark_bn382_fq_is_square` decide
whether a field element is a square by Euler's criterion:

    let s0 = x_.pow(Fp_params::MODULUS_MINUS_ONE_DIV_TWO);
    s0.is_zero() || s0.is_one()

Both fields are prime fields `ZMod p`; their moduli are constants of the
algebra crate, so `p` stays a parameter.

**Results.**
* `fieldIsSquare_iff`: over any prime field the test accepts exactly the
  squares, zero included.
-/

namespace SnarkyBn382

variable {p : Nat}

/-- The body shared by the two `is_square` stubs: `x^((p - 1) / 2)` is zero
or one. -/
def fieldIsSquare (x : ZMod p) : Bool :=
  let s0 := x ^ ((p - 1) / 2)
  s0 == 0 || s0 == 1

/-- `camlsnark_bn382_fp_is_square`. -/
def camlsnarkBn382FpIsSquare (x : ZMod p) : Bool :=
  fieldIsSquare x

/-- `camlsnark_bn382_fq_is_square`. -/
def camlsnarkBn382FqIsSquare (x : ZMod p) : Bool :=
  fieldIsSquare x

/-- Euler's criterion as the stubs compute it: over a prime field the test
accepts exactly the squares.  Zero passes through `s0.is_zero()`, and for
`p = 2` the exponent is `0`, where every element is a square. -/
theorem fieldIsSquare_iff
    (hp : p.Prime)
    (x : ZMod p) :
    fieldIsSquare x = true ↔ IsSquare x := by
  haveI := Fact.mk hp
  rcases eq_or_ne x 0 with rfl | hx
  · simp only [fieldIsSquare, isSquare_zero, iff_true, Bool.or_eq_true, beq_iff_eq]
    rcases Nat.eq_zero_or_pos ((p - 1) / 2) with h | h
    · simp [h]
    · simp [zero_pow h.ne']
  · have hpow : x ^ ((p - 1) / 2) = 1 ↔ x ^ (p / 2) = 1 := by
      rcases hp.eq_two_or_odd' with rfl | ⟨k, rfl⟩
      · simpa using ZMod.pow_card_sub_one_eq_one hx
      · rw [show (2 * k + 1 - 1) / 2 = (2 * k + 1) / 2 by omega]
    simp [fieldIsSquare, pow_ne_zero _ hx, hpow, ZMod.euler_criterion p hx]

theorem fieldIsSquare_iff_seven :
    Nat.Prime 7 ∧ (fieldIsSquare (3 : ZMod 7) = true ↔ IsSquare (3 : ZMod 7)) :=
  ⟨by decide, fieldIsSquare_iff (by decide) 3⟩

example : fieldIsSquare (2 : ZMod 7) = true ∧ fieldIsSquare (3 : ZMod 7) = false := by
  decide

end SnarkyBn382
