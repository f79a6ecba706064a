import SnarkyBn382.CeilPow2
import SnarkyBn382.IndexMapper

/-!
# snarky-bn382: the witness assembler `prepare_witness`

`prepare_witness(domains, primary_input, auxiliary_input)` lays the full
assignment `z = [1] ++ primary ++ auxiliary` out over the witness domain `H`.

**Code.**  It starts from `|H|` zeros, sets position `0` to one, writes the
`i`-th primary input at `(1 + i) * ratio` and the `i`-th auxiliary input at
`ratio * (i / m) + 1 + i % m`, with `ratio = |H| / |X|` and `m = ratio - 1`.
Both loops are `writeEnumerated` with their own position function; an index
out of bounds, a division by zero and the underflow of `ratio - 1` are panics
(`none`).  Of the domains the code reads only the two sizes.

**Results.**
* `prepareWitness_eq_writeEnumerated`: the code is one enumerated write of
  `z` through `index_to_witness_position(|primary| + 1, ratio, .)`, so its
  own loops agree with the index mapper.
* `prepareWitness_layout`: every value of `z` lands at its mapped position,
  no write overwrites another, and every other position stays zero.
* `prepareWitness_isSome_iff`: for powers of two `|X| ≤ |H|` the code
  completes exactly when `|primary| + 1 ≤ |X|` and `|aux| ≤ |H| - |X|`.
-/

namespace SnarkyBn382

variable {F : Type}

/-- `witness[k] = x`; `none` when `k` is out of bounds. -/
def setChecked (witness : List F) (k : Nat) (x : F) : Option (List F) :=
  if k < witness.length then some (witness.set k x) else none

/-- `for (i, x) in xs.iter().enumerate() { witness[position(i)] = x }`,
counting from `i`; `position` is `none` where computing it panics. -/
def writeEnumerated (position : Nat → Option Nat) : List F → Nat → List F → Option (List F)
  | witness, _, [] => some witness
  | witness, i, x :: xs => do
      let k ← position i
      let witness ← setChecked witness k x
      writeEnumerated position witness (i + 1) xs

/-- The position of the `i`-th primary input, `(1 + i) * ratio`. -/
def primaryPosition (ratio i : Nat) : Option Nat :=
  some ((1 + i) * ratio)

/-- The position of the `i`-th auxiliary input; `none` where `i / m`
divides by zero. -/
def auxiliaryPosition (ratio m i : Nat) : Option Nat :=
  if m = 0 then none
  else
    let block := i / m
    let intraBlock := i % m
    some (ratio * block + 1 + intraBlock)

/-- `prepare_witness`, given the sizes `|H|` and `|X|` of its domains. -/
def prepareWitness [Zero F] [One F] (hSize xSize : Nat) (primaryInput auxiliaryInput : List F) :
    Option (List F) := do
  let witness := List.replicate hSize 0
  let ratio ← if xSize = 0 then none else some (hSize / xSize)
  let witness ← setChecked witness 0 1
  let witness ← writeEnumerated (primaryPosition ratio) witness 0 primaryInput
  let m ← if ratio = 0 then none else some (ratio - 1)
  writeEnumerated (auxiliaryPosition ratio m) witness 0 auxiliaryInput

section Write

variable {position : Nat → Option Nat}

@[simp] theorem writeEnumerated_nil
    (witness : List F)
    (i : Nat) :
    writeEnumerated position witness i [] = some witness :=
  rfl

theorem writeEnumerated_cons
    (witness : List F)
    (i : Nat)
    (x : F)
    (xs : List F) :
    writeEnumerated position witness i (x :: xs) =
      (position i).bind fun k =>
        (setChecked witness k x).bind fun witness => writeEnumerated position witness (i + 1) xs :=
  rfl

/-- What one round of the loop does: it computes a position in bounds and
writes there. -/
theorem writeEnumerated_cons_eq_some
    {witness witness' : List F} {i : Nat} {x : F} {xs : List F} :
    writeEnumerated position witness i (x :: xs) = some witness' ↔
      ∃ k, position i = some k ∧ k < witness.length ∧
        writeEnumerated position (witness.set k x) (i + 1) xs = some witness' := by
  simp [writeEnumerated_cons, setChecked, Option.bind_eq_some, Option.ite_none_right_eq_some,
    and_assoc]

theorem writeEnumerated_append :
    ∀ (witness : List F) (i : Nat) (xs ys : List F),
      writeEnumerated position witness i (xs ++ ys) =
        (writeEnumerated position witness i xs).bind fun witness =>
          writeEnumerated position witness (i + xs.length) ys
  | witness, i, [], ys => by simp
  | witness, i, x :: xs, ys => by
      simp only [List.cons_append, writeEnumerated_cons, Option.bind_assoc,
        writeEnumerated_append _ (i + 1) xs ys, List.length_cons, Nat.add_assoc, Nat.add_comm 1]

/-- Two position functions that agree on the counters of a loop run the same
loop. -/
theorem writeEnumerated_congr
    {position' : Nat → Option Nat} :
    ∀ {i i' : Nat} (witness : List F) (xs : List F),
      (∀ t < xs.length, position (i + t) = position' (i' + t)) →
      writeEnumerated position witness i xs = writeEnumerated position' witness i' xs
  | i, i', witness, [], _ => rfl
  | i, i', witness, x :: xs, h => by
      have h0 : position i = position' i' := h 0 (by simp)
      rw [writeEnumerated_cons, writeEnumerated_cons, h0]
      congr 1
      funext k
      congr 1
      funext w
      exact writeEnumerated_congr w xs fun t ht => by
        simpa [Nat.add_assoc, Nat.add_comm 1] using h (t + 1) (by simp; omega)

theorem length_of_writeEnumerated :
    ∀ {witness witness' : List F} {i : Nat} {xs : List F},
      writeEnumerated position witness i xs = some witness' → witness'.length = witness.length
  | _, _, _, [], h => by rw [Option.some.inj h]
  | witness, _, i, x :: xs, h => by
      obtain ⟨k, -, -, h⟩ := writeEnumerated_cons_eq_some.1 h
      rw [length_of_writeEnumerated h, List.length_set]

/-- A loop completes exactly when every position it computes exists and is in
bounds. -/
theorem writeEnumerated_isSome_iff :
    ∀ {witness : List F} {i : Nat} {xs : List F},
      (writeEnumerated position witness i xs).isSome ↔
        ∀ t < xs.length, ∃ k, position (i + t) = some k ∧ k < witness.length
  | witness, i, [] => by simp
  | witness, i, x :: xs => by
      have hshift : ∀ t, i + 1 + t = i + (t + 1) := fun t => by omega
      rw [writeEnumerated_cons]
      cases hk : position i with
      | none =>
          simp only [Option.none_bind, Option.isSome_none, Bool.false_eq_true, false_iff,
            not_forall]
          exact ⟨0, by simp, by simp [hk]⟩
      | some k =>
          by_cases hlt : k < witness.length
          · simp only [Option.some_bind, setChecked, if_pos hlt, writeEnumerated_isSome_iff,
              List.length_set, List.length_cons, hshift]
            constructor
            · intro h t ht
              cases t with
              | zero => exact ⟨k, hk, hlt⟩
              | succ t => exact h t (by omega)
            · exact fun h t ht => h (t + 1) (by omega)
          · simp only [Option.some_bind, setChecked, if_neg hlt, Option.none_bind,
              Option.isSome_none, Bool.false_eq_true, false_iff, not_forall]
            exact ⟨0, by simp, fun ⟨k', hk', hlt'⟩ => hlt (by
              rw [Nat.add_zero, hk, Option.some.injEq] at hk'
              rwa [hk'])⟩

/-- With pairwise distinct positions, a completed loop leaves `xs[t]` at the
position of counter `i + t` and every other entry as it was. -/
theorem writeEnumerated_getD
    [Zero F]
    (hinj : ∀ {a b k}, position a = some k → position b = some k → a = b) :
    ∀ {witness witness' : List F} {i : Nat} {xs : List F},
      writeEnumerated position witness i xs = some witness' →
      (∀ t < xs.length, ∃ k, position (i + t) = some k ∧ witness'.getD k 0 = xs.getD t 0) ∧
      ∀ k, (∀ t < xs.length, position (i + t) ≠ some k) → witness'.getD k 0 = witness.getD k 0
  | _, _, _, [], h => by
      rw [Option.some.inj h]
      exact ⟨fun t ht => absurd ht (Nat.not_lt_zero t), fun _ _ => rfl⟩
  | witness, witness', i, x :: xs, h => by
      have hshift : ∀ t, i + 1 + t = i + (t + 1) := fun t => by omega
      obtain ⟨k0, hk0, hlt, h⟩ := writeEnumerated_cons_eq_some.1 h
      obtain ⟨hwrite, hframe⟩ := writeEnumerated_getD hinj h
      have hgetD : ∀ k, (witness.set k0 x).getD k 0 = if k0 = k then x else witness.getD k 0 :=
        fun k => by
          by_cases he : k0 = k
          · subst he
            simp [hlt]
          · simp [he]
      refine ⟨fun t ht => ?_, fun k hk => ?_⟩
      · cases t with
        | zero =>
            refine ⟨k0, hk0, ?_⟩
            rw [hframe k0 fun t _ ht' => by have := hinj ht' hk0; omega, hgetD, if_pos rfl]
            rfl
        | succ t =>
            obtain ⟨k, hk, hv⟩ := hwrite t (by simpa using ht)
            exact ⟨k, hshift t ▸ hk, by simpa using hv⟩
      · have hne : k0 ≠ k := fun he => hk 0 (by simp) (by rw [Nat.add_zero, hk0, he])
        rw [hframe k fun t ht => by rw [hshift]; exact hk (t + 1) (by simp; omega), hgetD,
          if_neg hne]

end Write

section Assemble

variable [Zero F] [One F]

/-- The refinement: `prepare_witness` writes `z = [1] ++ primary ++ aux`
through `index_to_witness_position(|primary| + 1, |H| / |X|, .)`; its own
two loops compute exactly the index mapper's positions. -/
theorem prepareWitness_eq_writeEnumerated
    (hSize xSize : Nat)
    (primaryInput auxiliaryInput : List F) :
    prepareWitness hSize xSize primaryInput auxiliaryInput =
      writeEnumerated (indexToWitnessPosition (primaryInput.length + 1) (hSize / xSize))
        (List.replicate hSize 0) 0 (1 :: (primaryInput ++ auxiliaryInput)) := by
  rcases Nat.eq_zero_or_pos (hSize / xSize) with hr | hr
  · rw [writeEnumerated_cons, indexToWitnessPosition_eq_none (by omega), Option.none_bind]
    by_cases hx : xSize = 0 <;> simp [prepareWitness, hx, hr]
  · have hx : xSize ≠ 0 := by
      rintro rfl
      simp at hr
    have h0 : indexToWitnessPosition (primaryInput.length + 1) (hSize / xSize) 0 = some 0 := by
      rw [indexToWitnessPosition_eq hr (.inl (by omega)), layoutPosition, if_pos (by omega),
        Nat.mul_zero]
    have hprim : ∀ w : List F, writeEnumerated (primaryPosition (hSize / xSize)) w 0 primaryInput =
        writeEnumerated (indexToWitnessPosition (primaryInput.length + 1) (hSize / xSize)) w
          (0 + 1) primaryInput := fun w =>
      writeEnumerated_congr w primaryInput fun t ht => by
        rw [indexToWitnessPosition_eq hr (.inl (by omega)), layoutPosition, if_pos (by omega),
          primaryPosition, Nat.mul_comm, Nat.zero_add, Nat.zero_add]
    have haux : ∀ w : List F,
        writeEnumerated (auxiliaryPosition (hSize / xSize) (hSize / xSize - 1)) w 0
          auxiliaryInput =
        writeEnumerated (indexToWitnessPosition (primaryInput.length + 1) (hSize / xSize)) w
          (0 + 1 + primaryInput.length) auxiliaryInput := fun w =>
      writeEnumerated_congr w auxiliaryInput fun t _ => by
        by_cases h2 : 2 ≤ hSize / xSize
        · rw [indexToWitnessPosition_eq hr (.inr h2), layoutPosition, if_neg (by omega),
            auxiliaryPosition, if_neg (by omega)]
          simp only [Nat.zero_add, Option.some.injEq]
          rw [show 1 + primaryInput.length + t - (primaryInput.length + 1) = t by omega,
            Nat.add_assoc]
        · rw [indexToWitnessPosition_eq_none (by omega), auxiliaryPosition, if_pos (by omega)]
    simp only [prepareWitness, if_neg hx, Option.some_bind, Option.bind_eq_bind,
      if_neg (Nat.pos_iff_ne_zero.1 hr), hprim, haux]
    rw [writeEnumerated_cons, h0, Option.some_bind]
    simp only [writeEnumerated_append]

/-- A completed `prepare_witness` holds `z[j]` at the mapped position of
every flat index `j` of `z`. -/
theorem getD_of_prepareWitness
    {hSize xSize j k : Nat} {primaryInput auxiliaryInput witness : List F}
    (h : prepareWitness hSize xSize primaryInput auxiliaryInput = some witness)
    (hj : j < primaryInput.length + 1 + auxiliaryInput.length)
    (hk : indexToWitnessPosition (primaryInput.length + 1) (hSize / xSize) j = some k) :
    witness.getD k 0 = (1 :: (primaryInput ++ auxiliaryInput)).getD j 0 := by
  rw [prepareWitness_eq_writeEnumerated] at h
  obtain ⟨k', hk', hv⟩ := (writeEnumerated_getD indexToWitnessPosition_injective h).1 j
    (by simp only [List.length_cons, List.length_append]; omega)
  rw [Nat.zero_add, hk, Option.some.injEq] at hk'
  rw [hk', hv]

/-- A completed `prepare_witness` keeps zero at every position that no flat
index of `z` maps to. -/
theorem getD_of_prepareWitness_of_not_mem
    {hSize xSize k : Nat} {primaryInput auxiliaryInput witness : List F}
    (h : prepareWitness hSize xSize primaryInput auxiliaryInput = some witness)
    (hk : ∀ j < primaryInput.length + 1 + auxiliaryInput.length,
      indexToWitnessPosition (primaryInput.length + 1) (hSize / xSize) j ≠ some k) :
    witness.getD k 0 = 0 := by
  rw [prepareWitness_eq_writeEnumerated] at h
  rw [(writeEnumerated_getD indexToWitnessPosition_injective h).2 k fun t ht => by
      simpa using hk t (by simpa [Nat.add_right_comm] using ht),
    List.getD_eq_getElem?_getD, List.getElem?_getD_replicate_default_eq]

/-- Every value of `z` lands at its mapped position, distinct values at
distinct positions, and every other position keeps its zero. -/
theorem prepareWitness_layout
    {hSize xSize : Nat} {primaryInput auxiliaryInput witness : List F}
    (h : prepareWitness hSize xSize primaryInput auxiliaryInput = some witness) :
    witness.length = hSize ∧
      (∀ j < primaryInput.length + 1 + auxiliaryInput.length,
        ∃ k, indexToWitnessPosition (primaryInput.length + 1) (hSize / xSize) j = some k ∧
          k < hSize ∧ witness.getD k 0 = (1 :: (primaryInput ++ auxiliaryInput)).getD j 0) ∧
      witness.getD 0 0 = 1 ∧
      (∀ j j' k,
        indexToWitnessPosition (primaryInput.length + 1) (hSize / xSize) j = some k →
        indexToWitnessPosition (primaryInput.length + 1) (hSize / xSize) j' = some k → j = j') ∧
      ∀ k, (∀ j < primaryInput.length + 1 + auxiliaryInput.length,
          indexToWitnessPosition (primaryInput.length + 1) (hSize / xSize) j ≠ some k) →
        witness.getD k 0 = 0 := by
  have hw := h
  rw [prepareWitness_eq_writeEnumerated] at hw
  have hsome := writeEnumerated_isSome_iff.1 (Option.isSome_iff_exists.2 ⟨_, hw⟩)
  simp only [List.length_replicate, Nat.zero_add, List.length_cons, List.length_append] at hsome
  have hfit : ∀ j < primaryInput.length + 1 + auxiliaryInput.length,
      ∃ k, indexToWitnessPosition (primaryInput.length + 1) (hSize / xSize) j = some k ∧
        k < hSize := fun j hj => hsome j (by omega)
  refine ⟨by simpa using length_of_writeEnumerated hw, fun j hj => ?_, ?_,
    fun j j' k => indexToWitnessPosition_injective, fun k hk => getD_of_prepareWitness_of_not_mem h hk⟩
  · obtain ⟨k, hk, hlt⟩ := hfit j hj
    exact ⟨k, hk, hlt, getD_of_prepareWitness h hj hk⟩
  · obtain ⟨k, hk, -⟩ := hfit 0 (by omega)
    obtain ⟨hr, -⟩ := indexToWitnessPosition_isSome_iff.1 (Option.isSome_iff_exists.2 ⟨_, hk⟩)
    have h0 := getD_of_prepareWitness h (by omega) hk
    rw [indexToWitnessPosition_eq hr (.inl (by omega)), layoutPosition, if_pos (by omega),
      Nat.mul_zero, Option.some.injEq] at hk
    rw [hk, h0]
    rfl

theorem prepareWitness_layout_four :
    ∃ witness, prepareWitness 4 2 [(5 : Int)] [7, 9] = some witness ∧
      witness.length = 4 ∧ witness.getD 0 0 = 1 :=
  have h : prepareWitness 4 2 [(5 : Int)] [7, 9] = some [1, 7, 5, 9] := by decide
  ⟨_, h, (prepareWitness_layout h).1, (prepareWitness_layout h).2.2.1⟩

/-- For powers of two `|X| ≤ |H|`, `prepare_witness` completes exactly when
the public inputs fit the leading slots of the `|X|` blocks and the auxiliary
inputs fit the `|H| - |X|` other slots. -/
theorem prepareWitness_isSome_iff
    {hSize xSize : Nat}
    (hX : xSize.isPowerOfTwo)
    (hH : hSize.isPowerOfTwo)
    (hle : xSize ≤ hSize)
    (primaryInput auxiliaryInput : List F) :
    (prepareWitness hSize xSize primaryInput auxiliaryInput).isSome ↔
      primaryInput.length + 1 ≤ xSize ∧ auxiliaryInput.length ≤ hSize - xSize := by
  obtain ⟨r, hHr⟩ := dvd_of_isPowerOfTwo hX hH hle
  have hXpos : 0 < xSize := Nat.pos_of_isPowerOfTwo hX
  have hr : hSize / xSize = r := by rw [hHr, Nat.mul_div_cancel_left _ hXpos]
  have hrpos : 0 < r := Nat.pos_of_ne_zero fun h0 => by
    have := Nat.pos_of_isPowerOfTwo hH
    simp [h0] at hHr
    omega
  have hcap : hSize - xSize = (r - 1) * xSize := by rw [hHr, Nat.sub_one_mul, Nat.mul_comm r]
  rw [prepareWitness_eq_writeEnumerated, writeEnumerated_isSome_iff, hr, List.length_replicate,
    hcap, hHr, List.length_cons, List.length_append,
    show primaryInput.length + auxiliaryInput.length + 1 =
      primaryInput.length + 1 + auxiliaryInput.length by omega, forall_lt_add_iff]
  simp only [Nat.zero_add]
  exact and_congr (public_fit_iff (by omega) hrpos) (auxiliary_fit_iff hrpos)

theorem prepareWitness_isSome_iff_four :
    (2 : Nat).isPowerOfTwo ∧ (4 : Nat).isPowerOfTwo ∧ 2 ≤ 4 ∧
      ((prepareWitness 4 2 [(5 : Int)] [7, 9]).isSome ↔
        [(5 : Int)].length + 1 ≤ 2 ∧ [(7 : Int), 9].length ≤ 4 - 2) :=
  ⟨⟨1, rfl⟩, ⟨2, rfl⟩, by decide, prepareWitness_isSome_iff ⟨1, rfl⟩ ⟨2, rfl⟩ (by decide) _ _⟩

example : prepareWitness 4 2 [(5 : Int)] [7, 9] = some [1, 7, 5, 9] := by decide

end Assemble

end SnarkyBn382
