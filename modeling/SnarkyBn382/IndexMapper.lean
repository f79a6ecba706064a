import Mathlib

/-!
# snarky-bn382: the index mapper

`index_to_witness_position` sends a flat constraint-system index (the
constant `0`, public inputs `1 .. p - 1`, auxiliary inputs from `p` on) to a
position of the witness domain `H`; `witness_position_to_index` goes back.

**Layout.**  Positions are cut into blocks of `r = h_to_x_ratio` positions.
Block `k` holds flat index `k` at offset `0` when `k < p`, and its offsets
`1 .. r - 1` hold the auxiliary inputs `(r - 1) * k .. (r - 1) * k + r - 2`.
`layoutPosition` and `layoutIndex` state this layout as total functions.

**Code.**  Both functions return `none` on a panic: a division or remainder
by zero, and the failed `assert_eq!` that ends `index_to_witness_position`.
`usize` values are natural numbers here; `h_to_x_ratio - 1` at zero is the
debug build's underflow panic, which the saturating `0 - 1 = 0` sends to the
same division-by-zero `none`.

**Results.**
* `indexToWitnessPosition_eq`: for `r ≥ 1` and `i < p ∨ r ≥ 2` the code
  returns `layoutPosition`, so its assertion never fires; otherwise it panics
  (`indexToWitnessPosition_isSome_iff`).
* `layoutIndex_layoutPosition`, `layoutPosition_layoutIndex_iff`: the two
  layout maps are inverse on the image `{k * r | k < p} ∪ {w | w % r ≠ 0}`.
* `indexToWitnessPosition_injective`: whatever the code returns, its
  assertion makes the map injective.
* `public_fit_iff`, `auxiliary_fit_iff`: the first `X` blocks hold the `p`
  public indices when `p ≤ X`, and `(r - 1) * X` auxiliary ones.
-/

namespace SnarkyBn382

/-- `witness_position_to_index`; `none` where `w % h_to_x_ratio` divides by
zero. -/
def witnessPositionToIndex (publicInputs hToXRatio w : Nat) : Option Nat :=
  if hToXRatio = 0 then none
  else if w % hToXRatio = 0 then some (w / hToXRatio)
  else
    let m := hToXRatio - 1
    let auxIndexModM := (w - 1) % hToXRatio
    let auxIndexOverM := ((w - 1) - auxIndexModM) / hToXRatio
    let auxIndex := auxIndexModM + m * auxIndexOverM
    some (auxIndex + publicInputs)

/-- The `res` of `index_to_witness_position`, before its `assert_eq!`;
`none` where `aux_index / m` divides by zero. -/
def witnessPositionOf (publicInputs hToXRatio i : Nat) : Option Nat :=
  if i < publicInputs then some (i * hToXRatio)
  else
    let m := hToXRatio - 1
    if m = 0 then none
    else
      let auxIndex := i - publicInputs
      let block := auxIndex / m
      let intraBlock := auxIndex % m
      some (hToXRatio * block + 1 + intraBlock)

/-- `index_to_witness_position`: `res`, checked by
`assert_eq!(witness_position_to_index(public_inputs, h_to_x_ratio, res), i)`. -/
def indexToWitnessPosition (publicInputs hToXRatio i : Nat) : Option Nat := do
  let res ← witnessPositionOf publicInputs hToXRatio i
  let back ← witnessPositionToIndex publicInputs hToXRatio res
  if back = i then some res else none

/-- The block layout: public index `i` opens block `i`; auxiliary index
`a = i - p` sits in block `a / (r - 1)` at offset `1 + a % (r - 1)`. -/
def layoutPosition (p r i : Nat) : Nat :=
  if i < p then r * i else r * ((i - p) / (r - 1)) + (1 + (i - p) % (r - 1))

/-- The flat index at position `w = r * q + s`: `q` when `s = 0`, auxiliary
index `(r - 1) * q + (s - 1)` otherwise. -/
def layoutIndex (p r w : Nat) : Nat :=
  if w % r = 0 then w / r else p + ((r - 1) * (w / r) + (w % r - 1))

/-- Position `r * q + s` with `s < r` lies in block `q` at offset `s`. -/
theorem block_div_mod
    {r q s : Nat}
    (hs : s < r) :
    (r * q + s) / r = q ∧ (r * q + s) % r = s :=
  ⟨by rw [Nat.mul_add_div (by omega), Nat.div_eq_of_lt hs, Nat.add_zero],
    by rw [Nat.mul_add_mod, Nat.mod_eq_of_lt hs]⟩

theorem witnessPositionToIndex_eq
    {p r w : Nat}
    (hr : 0 < r) :
    witnessPositionToIndex p r w = some (layoutIndex p r w) := by
  simp only [witnessPositionToIndex, layoutIndex, if_neg (Nat.pos_iff_ne_zero.1 hr)]
  split
  · rfl
  · next hs =>
      have hlt := Nat.mod_lt w hr
      have hw : w - 1 = r * (w / r) + (w % r - 1) := by
        have := Nat.div_add_mod w r
        omega
      obtain ⟨-, hmod⟩ := block_div_mod (q := w / r) (show w % r - 1 < r by omega)
      rw [hw, hmod, Nat.add_sub_cancel, Nat.mul_div_cancel_left _ hr]
      congr 1
      omega

theorem witnessPositionToIndex_eq_none_iff
    {p r w : Nat} :
    witnessPositionToIndex p r w = none ↔ r = 0 := by
  rcases Nat.eq_zero_or_pos r with rfl | hr
  · simp [witnessPositionToIndex]
  · simp [witnessPositionToIndex_eq hr, Nat.pos_iff_ne_zero.1 hr]

theorem witnessPositionOf_eq
    {p r i : Nat}
    (h : i < p ∨ 2 ≤ r) :
    witnessPositionOf p r i = some (layoutPosition p r i) := by
  simp only [witnessPositionOf, layoutPosition]
  split
  · rw [Nat.mul_comm]
  · rw [if_neg (by omega), Nat.add_assoc]

theorem witnessPositionOf_eq_none
    {p r i : Nat}
    (hi : p ≤ i)
    (hr : r ≤ 1) :
    witnessPositionOf p r i = none := by
  simp only [witnessPositionOf, if_neg (Nat.not_lt.2 hi), if_pos (show r - 1 = 0 by omega)]

/-- An auxiliary position is `r * q + s` with `1 ≤ s < r`. -/
theorem layoutPosition_aux
    {p r i : Nat}
    (hr : 2 ≤ r)
    (hi : p ≤ i) :
    layoutPosition p r i / r = (i - p) / (r - 1) ∧
      layoutPosition p r i % r = 1 + (i - p) % (r - 1) ∧
      1 + (i - p) % (r - 1) < r := by
  have hs : 1 + (i - p) % (r - 1) < r := by
    have := Nat.mod_lt (i - p) (show 0 < r - 1 by omega)
    omega
  rw [layoutPosition, if_neg (Nat.not_lt.2 hi)]
  exact ⟨(block_div_mod hs).1, (block_div_mod hs).2, hs⟩

/-- `layoutIndex` undoes `layoutPosition` wherever the code computes it. -/
theorem layoutIndex_layoutPosition
    {p r i : Nat}
    (hr : 0 < r)
    (h : i < p ∨ 2 ≤ r) :
    layoutIndex p r (layoutPosition p r i) = i := by
  by_cases hi : i < p
  · simp [layoutPosition, layoutIndex, hi, Nat.mul_mod_right, Nat.mul_div_cancel_left _ hr]
  · obtain ⟨hdiv, hmod, -⟩ := layoutPosition_aux (h.resolve_left hi) (Nat.not_lt.1 hi)
    rw [layoutIndex, hmod, if_neg (by omega), hdiv]
    have := Nat.div_add_mod (i - p) (r - 1)
    omega

/-- The image of the layout: the leading slots of the first `p` blocks and
every non-leading slot. -/
def InLayoutImage (p r w : Nat) : Prop :=
  (∃ k < p, w = k * r) ∨ w % r ≠ 0

/-- `layoutPosition` undoes `layoutIndex` exactly on the image. -/
theorem layoutPosition_layoutIndex_iff
    {p r w : Nat}
    (hr : 2 ≤ r) :
    layoutPosition p r (layoutIndex p r w) = w ↔ InLayoutImage p r w := by
  by_cases hw : w % r = 0
  · have hq : r * (w / r) = w := Nat.mul_div_cancel' (Nat.dvd_of_mod_eq_zero hw)
    have himg : InLayoutImage p r w ↔ w / r < p := by
      constructor
      · rintro (⟨k, hkp, rfl⟩ | h)
        · rwa [Nat.mul_div_cancel _ (by omega)]
        · exact absurd hw h
      · exact fun hk => .inl ⟨w / r, hk, by rw [Nat.mul_comm, hq]⟩
    rw [himg, layoutIndex, if_pos hw]
    by_cases hk : w / r < p
    · simp [layoutPosition, hk, hq]
    · have hmod := (layoutPosition_aux (p := p) (i := w / r) hr (Nat.not_lt.1 hk)).2.1
      refine iff_of_false (fun he => ?_) hk
      rw [he, hw] at hmod
      omega
  · have hs : w % r - 1 < r - 1 := by
      have := Nat.mod_lt w (show 0 < r by omega)
      omega
    obtain ⟨hdiv, hmod⟩ := block_div_mod (r := r - 1) (q := w / r) hs
    simp only [InLayoutImage, hw, ne_eq, not_false_eq_true, or_true, iff_true]
    rw [layoutIndex, if_neg hw, layoutPosition, if_neg (by omega), Nat.add_sub_cancel_left,
      hdiv, hmod]
    have := Nat.div_add_mod w r
    omega

/-- The code returns the layout position wherever it does not divide by
zero, so its `assert_eq!` never fires. -/
theorem indexToWitnessPosition_eq
    {p r i : Nat}
    (hr : 0 < r)
    (h : i < p ∨ 2 ≤ r) :
    indexToWitnessPosition p r i = some (layoutPosition p r i) := by
  simp only [indexToWitnessPosition, witnessPositionOf_eq h, Option.bind_eq_bind,
    Option.some_bind, witnessPositionToIndex_eq hr, layoutIndex_layoutPosition hr h, ↓reduceIte]

theorem indexToWitnessPosition_isSome_iff
    {p r i : Nat} :
    (indexToWitnessPosition p r i).isSome ↔ 0 < r ∧ (i < p ∨ 2 ≤ r) := by
  by_cases hr : 0 < r
  · by_cases h : i < p ∨ 2 ≤ r
    · simp [indexToWitnessPosition_eq hr h, hr, h]
    · have hnone : witnessPositionOf p r i = none :=
        witnessPositionOf_eq_none (by omega) (by omega)
      simp [indexToWitnessPosition, hnone, h]
  · obtain rfl : r = 0 := by omega
    cases hw : witnessPositionOf p 0 i <;> simp [indexToWitnessPosition, hw, witnessPositionToIndex]

theorem indexToWitnessPosition_eq_none
    {p r i : Nat}
    (h : ¬(0 < r ∧ (i < p ∨ 2 ≤ r))) :
    indexToWitnessPosition p r i = none :=
  Option.not_isSome_iff_eq_none.1 (mt indexToWitnessPosition_isSome_iff.1 h)

/-- A public index lies in the first `X` blocks exactly when it is below
`X`. -/
theorem layoutPosition_lt_mul_iff_of_lt
    {p r i X : Nat}
    (hr : 0 < r)
    (hi : i < p) :
    layoutPosition p r i < X * r ↔ i < X := by
  rw [layoutPosition, if_pos hi, Nat.mul_comm X]
  exact Nat.mul_lt_mul_left hr

/-- An auxiliary index lies in the first `X` blocks exactly when fewer than
`(r - 1) * X` auxiliary indices precede it. -/
theorem layoutPosition_lt_mul_iff_of_le
    {p r i X : Nat}
    (hr : 2 ≤ r)
    (hi : p ≤ i) :
    layoutPosition p r i < X * r ↔ i - p < (r - 1) * X := by
  rw [← Nat.div_lt_iff_lt_mul (by omega), (layoutPosition_aux hr hi).1,
    Nat.div_lt_iff_lt_mul (by omega), Nat.mul_comm]

theorem forall_lt_add_iff
    {P : Nat → Prop} {a b : Nat} :
    (∀ t < a + b, P t) ↔ (∀ t < a, P t) ∧ ∀ s < b, P (a + s) := by
  refine ⟨fun h => ⟨fun t ht => h t (by omega), fun s hs => h (a + s) (by omega)⟩,
    fun ⟨ha, hb⟩ t ht => ?_⟩
  by_cases hta : t < a
  · exact ha t hta
  · simpa [Nat.add_sub_cancel' (Nat.not_lt.1 hta)] using hb (t - a) (by omega)

/-- The positions of the public indices `t < p` fit `X * r` exactly when
`p ≤ X`. -/
theorem public_fit_iff
    {p r X : Nat}
    (hp : 0 < p)
    (hr : 0 < r) :
    (∀ t < p, ∃ k, indexToWitnessPosition p r t = some k ∧ k < X * r) ↔ p ≤ X := by
  constructor
  · intro h
    obtain ⟨k, hk, hlt⟩ := h (p - 1) (by omega)
    rw [indexToWitnessPosition_eq hr (.inl (by omega)), Option.some.injEq] at hk
    have := (layoutPosition_lt_mul_iff_of_lt hr (show p - 1 < p by omega)).1 (hk ▸ hlt)
    omega
  · exact fun h t ht => ⟨_, indexToWitnessPosition_eq hr (.inl ht),
      (layoutPosition_lt_mul_iff_of_lt hr ht).2 (by omega)⟩

/-- The positions of `a` auxiliary indices fit `X * r` exactly when
`a ≤ (r - 1) * X`. -/
theorem auxiliary_fit_iff
    {p r X a : Nat}
    (hr : 0 < r) :
    (∀ s < a, ∃ k, indexToWitnessPosition p r (p + s) = some k ∧ k < X * r) ↔
      a ≤ (r - 1) * X := by
  by_cases h2 : 2 ≤ r
  · have hpos : ∀ s, indexToWitnessPosition p r (p + s) = some (layoutPosition p r (p + s)) :=
      fun s => indexToWitnessPosition_eq hr (.inr h2)
    have hfit : ∀ s, layoutPosition p r (p + s) < X * r ↔ s < (r - 1) * X := fun s => by
      rw [layoutPosition_lt_mul_iff_of_le h2 (by omega), Nat.add_sub_cancel_left]
    simp only [hpos, Option.some.injEq, exists_eq_left', hfit]
    exact ⟨fun h => Nat.not_lt.1 fun hc => Nat.lt_irrefl _ (h _ hc), fun h s hs => by omega⟩
  · have hnone : ∀ s, indexToWitnessPosition p r (p + s) = none := fun s =>
      indexToWitnessPosition_eq_none (by omega)
    simp only [hnone, reduceCtorEq, false_and, exists_false, imp_false, Nat.not_lt,
      show r - 1 = 0 by omega, Nat.zero_mul, Nat.le_zero]
    exact ⟨fun h => by have := h 0; omega, fun h s => by omega⟩

/-- What the assertion buys: a returned position maps back to its index. -/
theorem witnessPositionToIndex_of_indexToWitnessPosition
    {p r i w : Nat}
    (h : indexToWitnessPosition p r i = some w) :
    witnessPositionToIndex p r w = some i := by
  simp only [indexToWitnessPosition, Option.bind_eq_bind, Option.bind_eq_some] at h
  obtain ⟨res, -, back, hback, hi⟩ := h
  split at hi
  · next he =>
      cases hi
      rw [hback, he]
  · cases hi

theorem indexToWitnessPosition_injective
    {p r i j w : Nat}
    (hi : indexToWitnessPosition p r i = some w)
    (hj : indexToWitnessPosition p r j = some w) :
    i = j :=
  Option.some.inj ((witnessPositionToIndex_of_indexToWitnessPosition hi).symm.trans
    (witnessPositionToIndex_of_indexToWitnessPosition hj))

/-- The image of the code's map is the image of the layout. -/
theorem exists_indexToWitnessPosition_iff
    {p r w : Nat}
    (hr : 2 ≤ r) :
    (∃ i, indexToWitnessPosition p r i = some w) ↔ InLayoutImage p r w := by
  rw [← layoutPosition_layoutIndex_iff hr]
  constructor
  · rintro ⟨i, hi⟩
    rw [indexToWitnessPosition_eq (by omega) (.inr hr), Option.some.injEq] at hi
    rw [← hi, layoutIndex_layoutPosition (by omega) (.inr hr)]
  · exact fun h => ⟨layoutIndex p r w, by rw [indexToWitnessPosition_eq (by omega) (.inr hr), h]⟩

/-- For `r ≥ 2` the index mapper is total and injective, with
`witness_position_to_index` as left inverse, and its image is
`{k * r | k < p} ∪ {w | w % r ≠ 0}`, which misses the unused leading slots
`k * r`, `k ≥ p`; for `r = 1` the public indices still round-trip. -/
theorem indexToWitnessPosition_round_trip
    (p r : Nat) :
    (2 ≤ r →
      (∀ i, ∃ w, indexToWitnessPosition p r i = some w ∧
        witnessPositionToIndex p r w = some i) ∧
      (∀ i j w, indexToWitnessPosition p r i = some w →
        indexToWitnessPosition p r j = some w → i = j) ∧
      (∀ w, (witnessPositionToIndex p r w).bind (indexToWitnessPosition p r) = some w ↔
        (∃ k < p, w = k * r) ∨ w % r ≠ 0) ∧
      (∀ w, (∃ i, indexToWitnessPosition p r i = some w) ↔
        (∃ k < p, w = k * r) ∨ w % r ≠ 0) ∧
      (∀ k, p ≤ k → ∀ i, indexToWitnessPosition p r i ≠ some (k * r))) ∧
    (r = 1 → ∀ i < p, ∃ w, indexToWitnessPosition p r i = some w ∧
      witnessPositionToIndex p r w = some i) := by
  have total : ∀ i, 0 < r → i < p ∨ 2 ≤ r → ∃ w, indexToWitnessPosition p r i = some w ∧
      witnessPositionToIndex p r w = some i := fun i hr h =>
    ⟨_, indexToWitnessPosition_eq hr h,
      witnessPositionToIndex_of_indexToWitnessPosition (indexToWitnessPosition_eq hr h)⟩
  refine ⟨fun hr => ⟨fun i => total i (by omega) (.inr hr),
    fun i j w => indexToWitnessPosition_injective, fun w => ?_,
    fun w => exists_indexToWitnessPosition_iff hr, fun k hk i hi => ?_⟩,
    fun hr i hi => total i (by omega) (.inl hi)⟩
  · rw [witnessPositionToIndex_eq (by omega), Option.some_bind,
      indexToWitnessPosition_eq (by omega) (.inr hr), Option.some.injEq]
    exact layoutPosition_layoutIndex_iff hr
  · rcases (exists_indexToWitnessPosition_iff hr).1 ⟨i, hi⟩ with ⟨k', hk', he⟩ | hm
    · rw [Nat.mul_right_cancel_iff (by omega)] at he
      omega
    · exact hm (Nat.mul_mod_left k r)

theorem indexToWitnessPosition_round_trip_three :
    (∀ i, ∃ w, indexToWitnessPosition 3 4 i = some w ∧ witnessPositionToIndex 3 4 w = some i) ∧
      ∀ i < 3, ∃ w, indexToWitnessPosition 3 1 i = some w ∧ witnessPositionToIndex 3 1 w = some i :=
  ⟨((indexToWitnessPosition_round_trip 3 4).1 (by decide)).1,
    (indexToWitnessPosition_round_trip 3 1).2 rfl⟩

/-- The spec's block example: `r = 4`, `p = 3`. -/
example :
    [0, 1, 2, 3, 4, 5, 6, 7, 8].map (indexToWitnessPosition 3 4) =
      [some 0, some 4, some 8, some 1, some 2, some 3, some 5, some 6, some 7] := by
  decide

end SnarkyBn382
