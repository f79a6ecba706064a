import SnarkyBn382.IndexCreate
import SnarkyBn382.WitnessAssembler

/-!
# snarky-bn382: re-indexing preserves every constraint

The index is built from flat-index rows by `rows_to_csmat`, the witness from
the flat assignment `z = [1] ++ primary ++ aux` by `prepare_witness`.  Both
use `ratio = |H| / |X|`.  The protocol evaluates each constraint as an entry
of the matrix-vector product `M * w` over witness positions.

**Results.**
* `rowsToCsmat_mulVec_prepareWitness`: `M` has `ceil_pow2(|v|)` rows and as
  many columns, and entry `k` of `M * w` is the linear
  combination `Σ_j c_j * z[i_j]` of row `v[k]` when `k < |v|`
  (`mulVecEntry_of_lt`), and zero on the padding rows (`mulVecEntry_of_le`).
  The two layouts agree because both go through `index_to_witness_position`:
  the matrix stores row `k` at the mapped columns (`rowsToCsmat_outerView`)
  and the witness holds `z[i]` at the mapped position of `i`
  (`getD_of_prepareWitness`).
* `indexCreate_prepareWitness_satisfied_iff`: the three matrices of the index
  constructors and the witness over the domains they size satisfy
  `(A w)_k * (B w)_k = (C w)_k` at every row exactly when `z` satisfies every
  flat constraint.
-/

namespace SnarkyBn382

open BigOperators

variable {F : Type}

/-- The value of one flat-index row on the flat assignment `z`,
`Σ_j c_j * z[i_j]`. -/
def linearCombination [Semiring F] (row : List Nat × List F) (z : List F) : F :=
  ((row.1.zip row.2).map fun e => e.2 * z.getD e.1 0).sum

/-- Summing over positions `w_j` related to indices `i_j` is summing over the
indices, when each position carries its index's value. -/
theorem sum_zip_of_forall₂
    [Semiring F]
    {f : Nat → Option Nat} {g h : Nat → F} :
    ∀ {is ws : List Nat} {cs : List F},
      List.Forall₂ (fun i w => f i = some w) is ws →
      (∀ i ∈ is, ∀ w, f i = some w → g w = h i) →
      ((ws.zip cs).map fun e => e.2 * g e.1).sum = ((is.zip cs).map fun e => e.2 * h e.1).sum
  | _, _, [], _, _ => by simp
  | _, _, _ :: _, .nil, _ => by simp
  | _, _, c :: cs, .cons (a := i) (b := w) hiw hrest, hgh => by
      simp only [List.zip_cons_cons, List.map_cons, List.sum_cons]
      rw [hgh i (List.mem_cons_self _ _) w hiw,
        sum_zip_of_forall₂ hrest fun j hj => hgh j (List.mem_cons_of_mem _ hj)]

section Entries

variable [Semiring F]
variable {p hSize xSize : Nat} {v : List (List Nat × List F)} {M : CsMat F}
variable {primaryInput auxiliaryInput witness : List F}

/-- Entry `k < |v|` of `M * w` is the linear combination of row `v[k]` on
`z = [1] ++ primary ++ aux`. -/
theorem mulVecEntry_of_lt
    (hp : 1 ≤ p)
    (hprimary : primaryInput.length = p - 1)
    (hlen : ∀ row ∈ v, row.1.length = row.2.length)
    (hidx : ∀ row ∈ v, ∀ i ∈ row.1, i < p + auxiliaryInput.length)
    (hM : rowsToCsmat p (hSize / xSize) v = some M)
    (hw : prepareWitness hSize xSize primaryInput auxiliaryInput = some witness)
    {k : Nat}
    (hk : k < v.length) :
    M.mulVecEntry witness k = linearCombination v[k] (1 :: (primaryInput ++ auxiliaryInput)) := by
  have hp' : primaryInput.length + 1 = p := by omega
  obtain ⟨N, -, ⟨rows, -, hdim, rfl⟩, hview, -⟩ := rowsToCsmat_outerView hM
  obtain ⟨view, hout, pairs, hpairs, hent⟩ := hview k hk
  obtain ⟨ws, hws, rfl⟩ := shifted_eq_some hpairs
  rw [List.take_of_length_le (hlen _ (List.getElem_mem hk)).le] at hws
  rw [CsMat.mulVecEntry_eq_sum_of_wellFormed (CsMat.wellFormed_ofRows hdim), hout, hent,
    ((sortByPosition_perm _).map _).sum_eq, linearCombination]
  exact sum_zip_of_forall₂ hws fun i hi w hiw =>
    getD_of_prepareWitness (j := i) (k := w) hw
      (by have := hidx _ (List.getElem_mem hk) i hi; omega)
      (by rwa [hp'])

/-- The padding rows `k ≥ |v|` of `M * w` are zero. -/
theorem mulVecEntry_of_le
    {r : Nat}
    (hM : rowsToCsmat p r v = some M)
    {k : Nat}
    (hk : v.length ≤ k) :
    M.mulVecEntry witness k = 0 := by
  obtain ⟨N, -, -, -, hpad⟩ := rowsToCsmat_outerView hM
  simp [CsMat.mulVecEntry, CsMat.get, hpad k hk]

end Entries

/-- Re-indexing the rows and re-laying-out the witness preserve every
constraint: `M` is square with `ceil_pow2(|v|)` rows, and entry `k` of `M * w`
is the linear combination of row `v[k]` on `z = [1] ++ primary ++ aux`, and
zero on the padding rows. -/
theorem rowsToCsmat_mulVec_prepareWitness
    [Semiring F]
    {p hSize xSize : Nat} {v : List (List Nat × List F)} {M : CsMat F}
    {primaryInput auxiliaryInput witness : List F}
    (hp : 1 ≤ p)
    (hprimary : primaryInput.length = p - 1)
    (hlen : ∀ row ∈ v, row.1.length = row.2.length)
    (hidx : ∀ row ∈ v, ∀ i ∈ row.1, i < p + auxiliaryInput.length)
    (hM : rowsToCsmat p (hSize / xSize) v = some M)
    (hw : prepareWitness hSize xSize primaryInput auxiliaryInput = some witness) :
    ceilPow2 v.length = some M.nrows ∧ M.ncols = M.nrows ∧
      ∀ k, M.mulVecEntry witness k =
        if hk : k < v.length then
          linearCombination v[k] (1 :: (primaryInput ++ auxiliaryInput))
        else 0 := by
  have hshape : ceilPow2 v.length = some M.nrows ∧ M.ncols = M.nrows := by
    obtain ⟨N, hN, ⟨rows, hrows, -, rfl⟩, -, -⟩ := rowsToCsmat_outerView hM
    exact ⟨hN.trans (congrArg some hrows.symm), hrows.symm⟩
  refine ⟨hshape.1, hshape.2, fun k => ?_⟩
  split
  · next hk => exact mulVecEntry_of_lt hp hprimary hlen hidx hM hw hk
  · next hk => exact mulVecEntry_of_le hM (Nat.not_lt.1 hk)

theorem rowsToCsmat_mulVec_prepareWitness_four :
    ∃ M : CsMat Int, rowsToCsmat 2 (4 / 2) [([0], [1]), ([1], [1]), ([3], [2])] = some M ∧
      M.nrows = 4 ∧ M.mulVecEntry [1, 7, 5, 9] 2 = linearCombination ([3], [2]) [1, 5, 7, 9] ∧
      M.mulVecEntry [1, 7, 5, 9] 3 = 0 := by
  have hN : ceilPow2 3 = some 4 := by decide
  have h0 : indexToWitnessPosition 2 2 0 = some 0 := by decide
  have h1 : indexToWitnessPosition 2 2 1 = some 2 := by decide
  have h3 : indexToWitnessPosition 2 2 3 = some 3 := by decide
  obtain ⟨M, hM⟩ := Option.isSome_iff_exists.1
    (show (rowsToCsmat 2 (4 / 2) [([0], [(1 : Int)]), ([1], [1]), ([3], [2])]).isSome from
      rowsToCsmat_isSome_iff_rowView.2 ⟨4, hN, by simp [rowView_isSome_iff, h0, h1, h3]⟩)
  have hw : prepareWitness 4 2 [(5 : Int)] [7, 9] = some [1, 7, 5, 9] := by decide
  obtain ⟨hrows, -, hentry⟩ :=
    rowsToCsmat_mulVec_prepareWitness (by decide) (by decide) (by decide) (by decide) hM hw
  exact ⟨M, hM, Option.some.inj (hrows.symm.trans hN), by simpa using hentry 2,
    by simpa using hentry 3⟩

/-- The system the index constructors hand to the prover is the flat one:
with the witness `prepare_witness` lays out over the domains they size, the
three matrices satisfy `(A w)_k * (B w)_k = (C w)_k` at every row exactly when
`z = [1] ++ primary ++ aux` satisfies every flat constraint. -/
theorem indexCreate_prepareWitness_satisfied_iff
    [Semiring F]
    {a b c : List (List Nat × List F)} {vars p : Nat} {A B C : CsMat F}
    {primaryInput auxiliaryInput witness : List F}
    (hindex : indexCreate a b c vars p = some (A, B, C))
    (hw : prepareWitness (computeSizeOfDomain a.length) (computeSizeOfDomain p)
      primaryInput auxiliaryInput = some witness)
    (hprimary : primaryInput.length = p - 1)
    (hb : b.length = a.length)
    (hc : c.length = a.length)
    (hlen : ∀ row ∈ a ++ b ++ c, row.1.length = row.2.length)
    (hidx : ∀ row ∈ a ++ b ++ c, ∀ i ∈ row.1, i < p + auxiliaryInput.length) :
    (∀ k, A.mulVecEntry witness k * B.mulVecEntry witness k = C.mulVecEntry witness k) ↔
      ∀ k (hk : k < a.length),
        linearCombination a[k] (1 :: (primaryInput ++ auxiliaryInput)) *
            linearCombination b[k] (1 :: (primaryInput ++ auxiliaryInput)) =
          linearCombination (c)[k] (1 :: (primaryInput ++ auxiliaryInput)) := by
  obtain ⟨hp, -, hA, hB, hC⟩ := indexCreate_eq_some.1 hindex
  have entry : ∀ {v : List (List Nat × List F)} {M : CsMat F},
      (∀ row ∈ v, row ∈ a ++ b ++ c) → rowsToCsmat p (hToXRatio p a.length) v = some M →
      ∀ k (hk : k < v.length),
        M.mulVecEntry witness k = linearCombination v[k] (1 :: (primaryInput ++ auxiliaryInput)) :=
    fun hsub hM _ hk => mulVecEntry_of_lt hp hprimary (fun row h => hlen row (hsub row h))
      (fun row h => hidx row (hsub row h)) hM hw hk
  have ha := entry (fun row h => by simp [h]) hA
  have hb' := entry (fun row h => by simp [h]) hB
  have hc' := entry (fun row h => by simp [h]) hC
  constructor
  · intro h k hk
    have hk' := h k
    rwa [ha k hk, hb' k (hb ▸ hk), hc' k (hc ▸ hk)] at hk'
  · intro h k
    by_cases hk : k < a.length
    · rw [ha k hk, hb' k (hb ▸ hk), hc' k (hc ▸ hk)]
      exact h k hk
    · rw [mulVecEntry_of_le hA (Nat.not_lt.1 hk), mulVecEntry_of_le hC (by omega), zero_mul]

/-- Constraints `x1 * x1 = 3 x2 + 4`, `(x2 + 1) * 1 = x2 + 1` and
`1 * x2 = x2` over the constant, one public input `x1 = 5` and one auxiliary
variable `x2 = 7`: `|X| = 2`, `|H| = 4`, the ratio is `2`, the second row is
reordered by the sort, and the last matrix row is padding. -/
theorem indexCreate_prepareWitness_satisfied_iff_three :
    ∃ A B C : CsMat Int,
      indexCreate [([1], [1]), ([2, 0], [1, 1]), ([0], [1])] [([1], [1]), ([0], [1]), ([2], [1])]
        [([2, 0], [3, 4]), ([2, 0], [1, 1]), ([2], [1])] 3 2 = some (A, B, C) ∧
      ((∀ k, A.mulVecEntry [1, 7, 5, 0] k * B.mulVecEntry [1, 7, 5, 0] k =
          C.mulVecEntry [1, 7, 5, 0] k) ↔
        ∀ k (hk : k < [([1], [(1 : Int)]), ([2, 0], [1, 1]), ([0], [1])].length),
          linearCombination [([1], [(1 : Int)]), ([2, 0], [1, 1]), ([0], [1])][k] [1, 5, 7] *
              linearCombination [([1], [(1 : Int)]), ([0], [1]), ([2], [1])][k] [1, 5, 7] =
            linearCombination [([2, 0], [(3 : Int), 4]), ([2, 0], [1, 1]), ([2], [1])][k]
              [1, 5, 7]) := by
  have hX : computeSizeOfDomain 2 = 2 := (ceilPow2_eq_some (by decide : ceilPow2 2 = some 2)).symm
  have hH : computeSizeOfDomain 3 = 4 := (ceilPow2_eq_some (by decide : ceilPow2 3 = some 4)).symm
  have hratio : hToXRatio 2 3 = 2 := by rw [hToXRatio, hX, hH]
  have h0 : indexToWitnessPosition 2 2 0 = some 0 := by decide
  have h1 : indexToWitnessPosition 2 2 1 = some 2 := by decide
  have h2 : indexToWitnessPosition 2 2 2 = some 1 := by decide
  have hconv : ∀ v : List (List Nat × List Int), v.length = 3 →
      (∀ row ∈ v, (rowView 2 2 4 row).isSome) → ∃ M, rowsToCsmat 2 (hToXRatio 2 3) v = some M :=
    fun v hv hall => Option.isSome_iff_exists.1 (by
      rw [hratio]
      exact rowsToCsmat_isSome_iff_rowView.2 ⟨4, by rw [hv]; decide, hall⟩)
  obtain ⟨A, hA⟩ := hconv [([1], [1]), ([2, 0], [1, 1]), ([0], [1])] rfl
    (by simp [rowView_isSome_iff, h0, h1, h2])
  obtain ⟨B, hB⟩ := hconv [([1], [1]), ([0], [1]), ([2], [1])] rfl
    (by simp [rowView_isSome_iff, h0, h1, h2])
  obtain ⟨C, hC⟩ := hconv [([2, 0], [3, 4]), ([2, 0], [1, 1]), ([2], [1])] rfl
    (by simp [rowView_isSome_iff, h0, h1, h2])
  have hindex : indexCreate [([1], [(1 : Int)]), ([2, 0], [1, 1]), ([0], [1])]
      [([1], [1]), ([0], [1]), ([2], [1])] [([2, 0], [3, 4]), ([2, 0], [1, 1]), ([2], [1])] 3 2 =
      some (A, B, C) :=
    indexCreate_eq_some.2 ⟨by decide, by decide, hA, hB, hC⟩
  have hw : prepareWitness (computeSizeOfDomain 3) (computeSizeOfDomain 2) [(5 : Int)] [7] =
      some [1, 7, 5, 0] := by
    rw [hX, hH]
    decide
  exact ⟨A, B, C, hindex,
    indexCreate_prepareWitness_satisfied_iff hindex hw rfl rfl rfl (by decide) (by decide)⟩

end SnarkyBn382
