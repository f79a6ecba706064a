import Mathlib

/-!
# snarky-bn382: the domain size policy `ceil_pow2`

`ceil_pow2` sizes every constraint matrix of the crate: `rows_to_csmat` pads
its row list to `ceil_pow2(v.len())` rows and columns.

**Code.**  `res` starts at `1` and doubles while `x > res`.  The doubling is
`usize` arithmetic, modelled as Rust's checked doubling: an overflow is a
panic (`none`).  Once `res = 2^63` the next doubling overflows, so at most 64
guard checks are ever made and the fuel of `ceilPow2Loop` never runs out
before the loop exits or overflows.

**Spec.**  `leastPow2 x = 2 ^ clog 2 x` is the least power of two that is at
least `max x 1`: the contract the spec gives the domain size policy.

**Results.**
* `ceilPow2_eq`: `ceil_pow2 x` is `leastPow2 x` when `x ≤ 2^63` and overflows
  otherwise.
* `ceilPow2_least_pow2`: below the overflow edge the loop returns a power of
  two that is at least `x`, below `2x` when `x ≥ 1`, and the least such.
-/

namespace SnarkyBn382

/-- One past `usize::MAX` on the 64-bit targets the crate is built for. -/
def usizeLimit : Nat := 2 ^ 64

/-- The loop `while x > res { res *= 2 }` of `ceil_pow2`, making at most
`fuel` guard checks; `none` is an overflowing doubling. -/
def ceilPow2Loop (x : Nat) : Nat → Nat → Option Nat
  | 0, _ => none
  | fuel + 1, res =>
      if x > res then
        if res * 2 < usizeLimit then ceilPow2Loop x fuel (res * 2) else none
      else
        some res

/-- `ceil_pow2`: `res` stays a power of two below `2^64`, so 64 guard checks
cover every run of the loop. -/
def ceilPow2 (x : Nat) : Option Nat :=
  ceilPow2Loop x 64 1

/-- The least power of two that is at least `max x 1`. -/
def leastPow2 (x : Nat) : Nat :=
  2 ^ Nat.clog 2 x

theorem le_leastPow2
    (x : Nat) :
    x ≤ leastPow2 x :=
  Nat.le_pow_clog Nat.one_lt_two x

theorem leastPow2_isPowerOfTwo
    (x : Nat) :
    (leastPow2 x).isPowerOfTwo :=
  ⟨Nat.clog 2 x, rfl⟩

theorem leastPow2_pos
    (x : Nat) :
    0 < leastPow2 x :=
  Nat.two_pow_pos _

/-- No power of two at least `max x 1` lies below `leastPow2 x`. -/
theorem leastPow2_le
    {x k : Nat}
    (hk : x ≤ 2 ^ k) :
    leastPow2 x ≤ 2 ^ k :=
  Nat.pow_le_pow_right Nat.zero_lt_two ((Nat.le_pow_iff_clog_le Nat.one_lt_two).1 hk)

theorem leastPow2_mono
    {x y : Nat}
    (h : x ≤ y) :
    leastPow2 x ≤ leastPow2 y :=
  leastPow2_le (le_trans h (le_leastPow2 y))

theorem leastPow2_lt_two_mul
    {x : Nat}
    (hx : 1 ≤ x) :
    leastPow2 x < 2 * x := by
  rcases Nat.lt_or_ge x 2 with hx1 | hx2
  · have : x = 1 := by omega
    subst this
    simp [leastPow2, Nat.clog_one_right]
  · have hpos : 0 < Nat.clog 2 x := Nat.clog_pos Nat.one_lt_two hx2
    have hpred := Nat.pow_pred_clog_lt_self Nat.one_lt_two (show 1 < x by omega)
    calc leastPow2 x
        = 2 * 2 ^ (Nat.clog 2 x).pred := by
          rw [leastPow2, ← Nat.pow_succ', Nat.succ_pred_eq_of_pos hpos]
      _ < 2 * x := by omega

theorem leastPow2_le_pow63
    {x : Nat}
    (hx : x ≤ 2 ^ 63) :
    Nat.clog 2 x ≤ 63 :=
  (Nat.le_pow_iff_clog_le Nat.one_lt_two).1 hx

/-- From `res = 2^j` the loop doubles up to `leastPow2 x` without overflow,
provided the fuel covers the remaining guard checks. -/
theorem ceilPow2Loop_of_le
    {x : Nat}
    (h63 : Nat.clog 2 x ≤ 63) :
    ∀ (fuel j : Nat),
      j ≤ Nat.clog 2 x →
      Nat.clog 2 x < j + fuel →
      ceilPow2Loop x fuel (2 ^ j) = some (leastPow2 x)
  | 0, j, hj, hf => by omega
  | fuel + 1, j, hj, hf => by
      by_cases hx : x > 2 ^ j
      · have hlt : j < Nat.clog 2 x := by
          by_contra hle
          exact absurd (Nat.le_pow_clog Nat.one_lt_two x |>.trans
            (Nat.pow_le_pow_right Nat.zero_lt_two (by omega))) (not_le.2 hx)
        have hfit : 2 ^ j * 2 < usizeLimit := by
          rw [← Nat.pow_succ, usizeLimit]
          exact Nat.pow_lt_pow_right Nat.one_lt_two (by omega)
        rw [ceilPow2Loop, if_pos hx, if_pos hfit, ← Nat.pow_succ]
        exact ceilPow2Loop_of_le h63 fuel (j + 1) hlt (by omega)
      · have hle : Nat.clog 2 x ≤ j :=
          (Nat.le_pow_iff_clog_le Nat.one_lt_two).1 (not_lt.1 hx)
        rw [ceilPow2Loop, if_neg hx, leastPow2, show Nat.clog 2 x = j by omega]

/-- Past `2^63` the loop reaches `res = 2^63` and its next doubling
overflows. -/
theorem ceilPow2Loop_of_lt
    {x : Nat}
    (hx : 2 ^ 63 < x) :
    ∀ (fuel j : Nat), j + fuel ≤ 64 → ceilPow2Loop x fuel (2 ^ j) = none
  | 0, _, _ => rfl
  | fuel + 1, j, h => by
      have hgt : x > 2 ^ j :=
        lt_of_le_of_lt (Nat.pow_le_pow_right Nat.zero_lt_two (by omega)) hx
      rw [ceilPow2Loop, if_pos hgt]
      split
      · rw [← Nat.pow_succ]
        exact ceilPow2Loop_of_lt hx fuel (j + 1) (by omega)
      · rfl

/-- The spec lemma of `ceil_pow2`. -/
theorem ceilPow2_eq
    (x : Nat) :
    ceilPow2 x = if x ≤ 2 ^ 63 then some (leastPow2 x) else none := by
  have h : ceilPow2 x = ceilPow2Loop x 64 (2 ^ 0) := rfl
  split
  · next hx =>
      have h63 := leastPow2_le_pow63 hx
      rw [h]
      exact ceilPow2Loop_of_le h63 64 0 (Nat.zero_le _) (by omega)
  · next hx =>
      rw [h]
      exact ceilPow2Loop_of_lt (by omega) 64 0 (by omega)

theorem ceilPow2_of_le
    {x : Nat}
    (hx : x ≤ 2 ^ 63) :
    ceilPow2 x = some (leastPow2 x) := by
  rw [ceilPow2_eq, if_pos hx]

/-- A successful `ceil_pow2` returns `leastPow2`. -/
theorem ceilPow2_eq_some
    {x N : Nat}
    (h : ceilPow2 x = some N) :
    N = leastPow2 x := by
  rw [ceilPow2_eq] at h
  split at h
  · exact (Option.some.inj h).symm
  · cases h

theorem dvd_of_isPowerOfTwo
    {X H : Nat}
    (hX : X.isPowerOfTwo)
    (hH : H.isPowerOfTwo)
    (hle : X ≤ H) :
    X ∣ H := by
  obtain ⟨a, rfl⟩ := hX
  obtain ⟨b, rfl⟩ := hH
  exact Nat.pow_dvd_pow 2 ((Nat.pow_le_pow_iff_right (by omega)).1 hle)

/-- Below the overflow edge the doubling loop of `ceil_pow2` terminates with
no overflowing doubling and returns the least power of two `≥ max x 1`. -/
theorem ceilPow2_least_pow2
    (x : Nat)
    (hx : x ≤ 2 ^ 63) :
    ∃ res, ceilPow2 x = some res ∧
      res.isPowerOfTwo ∧
      x ≤ res ∧
      (1 ≤ x → res < 2 * x) ∧
      ∀ k, max x 1 ≤ 2 ^ k → res ≤ 2 ^ k :=
  ⟨leastPow2 x, ceilPow2_of_le hx, leastPow2_isPowerOfTwo x, le_leastPow2 x,
    leastPow2_lt_two_mul, fun _ hk => leastPow2_le (by omega)⟩

theorem ceilPow2_least_pow2_five :
    ∃ res, ceilPow2 5 = some res ∧
      res.isPowerOfTwo ∧
      5 ≤ res ∧
      (1 ≤ 5 → res < 2 * 5) ∧
      ∀ k, max 5 1 ≤ 2 ^ k → res ≤ 2 ^ k :=
  ceilPow2_least_pow2 5 (by decide)

example : ceilPow2 5 = some 8 := by decide

end SnarkyBn382
