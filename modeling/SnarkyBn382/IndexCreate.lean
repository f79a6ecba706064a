import SnarkyBn382.RowsToCsmat

/-!
# snarky-bn382: the index constructors

`camlsnark_bn382_fp_index_create` and `camlsnark_bn382_fq_index_create` take
the three constraint matrices as flat-index rows, assert
`public_inputs > 0` and `a.len() >= vars`, size the domains `X` and `H` for
`public_inputs` and `a.len()` elements, and convert each matrix with
`rows_to_csmat(public_inputs, |H| / |X|, .)` before the external
`Index::create`.  The two constructors differ only in the field and in that
external call; `indexCreate` is their shared body.

**Capacity.**  The layout of the index mapper has `public_inputs` public
slots and `|H| - |X|` auxiliary ones: the leading slots of the blocks
`public_inputs .. |X| - 1` stay unused.  The assertion `a.len() >= vars`
compares `vars` with `|H|` instead.

**Results.**
* `indexCreate_eq_some`: the constructors return the three matrices exactly
  when both assertions hold and the three conversions succeed.
* `indexPositions_fit_iff`: for `public_inputs ≤ vars ≤ a.len()` every flat
  index below `vars` maps below `|H|` exactly when
  `vars ≤ public_inputs + (|H| - |X|)`.
* `indexCreate_isSome`: under that capacity, rows of distinct indices below
  `vars`, one coefficient per index, never abort the three conversions.
* `indexCreate_eq_none_of_domains_eq`: whenever `|H| = |X|` the ratio is `1`
  and any row that pairs an auxiliary variable with a coefficient makes the
  constructors abort.
* `indexCreate_index_overflow`: three public inputs and four constraints over
  four variables pass both assertions, yet `|X| = |H| = 4`, so the ratio is
  `1` and the auxiliary index `3` divides by zero.
-/

namespace SnarkyBn382

variable {F : Type}

/-- Modelled from the spec: `EvaluationDomain::compute_size_of_domain(n)`
returns the least power of two that is at least `n`. -/
def computeSizeOfDomain (n : Nat) : Nat :=
  leastPow2 n

/-- `h_to_x_ratio`: `|H| / |X|` for `num_constraints` and `public_inputs`
elements. -/
def hToXRatio (publicInputs numConstraints : Nat) : Nat :=
  computeSizeOfDomain numConstraints / computeSizeOfDomain publicInputs

/-- The body shared by the two index constructors up to `Index::create`: the
two assertions and the three `rows_to_csmat` calls. -/
def indexCreate (a b c : List (List Nat × List F)) (vars publicInputs : Nat) :
    Option (CsMat F × CsMat F × CsMat F) :=
  if publicInputs > 0 ∧ a.length ≥ vars then do
    let ratio := hToXRatio publicInputs a.length
    let ma ← rowsToCsmat publicInputs ratio a
    let mb ← rowsToCsmat publicInputs ratio b
    let mc ← rowsToCsmat publicInputs ratio c
    pure (ma, mb, mc)
  else none

/-- The matrices `camlsnark_bn382_fp_index_create` hands to `Index::create`. -/
def camlsnarkBn382FpIndexCreate (a b c : List (List Nat × List F)) (vars publicInputs : Nat) :
    Option (CsMat F × CsMat F × CsMat F) :=
  indexCreate a b c vars publicInputs

/-- The matrices `camlsnark_bn382_fq_index_create` hands to
`DlogIndex::create`. -/
def camlsnarkBn382FqIndexCreate (a b c : List (List Nat × List F)) (vars publicInputs : Nat) :
    Option (CsMat F × CsMat F × CsMat F) :=
  indexCreate a b c vars publicInputs

/-- The spec lemma of the index constructors: both assertions hold and the
three conversions succeed. -/
theorem indexCreate_eq_some
    {a b c : List (List Nat × List F)} {vars p : Nat} {A B C : CsMat F} :
    indexCreate a b c vars p = some (A, B, C) ↔
      0 < p ∧ vars ≤ a.length ∧
        rowsToCsmat p (hToXRatio p a.length) a = some A ∧
        rowsToCsmat p (hToXRatio p a.length) b = some B ∧
        rowsToCsmat p (hToXRatio p a.length) c = some C := by
  unfold indexCreate
  split
  · next h =>
      simp only [Option.bind_eq_bind, Option.bind_eq_some, Option.pure_def, Option.some.injEq,
        Prod.mk.injEq, h, true_and]
      constructor
      · rintro ⟨_, hA, _, hB, _, hC, rfl, rfl, rfl⟩
        exact ⟨hA, hB, hC⟩
      · rintro ⟨hA, hB, hC⟩
        exact ⟨_, hA, _, hB, _, hC, rfl, rfl, rfl⟩
  · next h =>
      simp only [reduceCtorEq, false_iff]
      omega

section Domains

variable {p n : Nat}

/-- `|H|` is `|X|` blocks of `h_to_x_ratio` positions. -/
theorem computeSizeOfDomain_eq_mul
    (h : p ≤ n) :
    computeSizeOfDomain n = computeSizeOfDomain p * hToXRatio p n :=
  (Nat.mul_div_cancel' (dvd_of_isPowerOfTwo (leastPow2_isPowerOfTwo p)
    (leastPow2_isPowerOfTwo n) (leastPow2_mono h))).symm

theorem hToXRatio_pos
    (h : p ≤ n) :
    0 < hToXRatio p n :=
  Nat.div_pos (leastPow2_mono h) (leastPow2_pos p)

/-- The flat indices below `vars` all map below `|H|` exactly when they fit
the `p` public slots and the `|H| - |X|` auxiliary ones. -/
theorem indexPositions_fit_iff
    {vars : Nat}
    (hp : 0 < p)
    (hpv : p ≤ vars)
    (hvn : vars ≤ n) :
    (∀ i < vars, ∃ w, indexToWitnessPosition p (hToXRatio p n) i = some w ∧
        w < computeSizeOfDomain n) ↔
      vars ≤ p + (computeSizeOfDomain n - computeSizeOfDomain p) := by
  have hr := hToXRatio_pos (hpv.trans hvn)
  have hpX : p ≤ computeSizeOfDomain p := le_leastPow2 p
  have hcap : computeSizeOfDomain p * hToXRatio p n - computeSizeOfDomain p =
      (hToXRatio p n - 1) * computeSizeOfDomain p := by
    rw [Nat.sub_one_mul, Nat.mul_comm]
  obtain ⟨a, rfl⟩ := Nat.exists_eq_add_of_le hpv
  rw [computeSizeOfDomain_eq_mul (hpv.trans hvn), forall_lt_add_iff, public_fit_iff hp hr,
    auxiliary_fit_iff hr, hcap]
  simp only [hpX, true_and, Nat.add_le_add_iff_left]

end Domains

/-- A row list whose rows pair every index with a coefficient, with distinct
indices that all map below `ceil_pow2(|v|)`, is converted. -/
theorem rowsToCsmat_isSome_of_fit
    {p r N : Nat} {v : List (List Nat × List F)}
    (hN : ceilPow2 v.length = some N)
    (hrows : ∀ row ∈ v, row.1.length = row.2.length ∧ row.1.Nodup ∧
      ∀ i ∈ row.1, ∃ w, indexToWitnessPosition p r i = some w ∧ w < N) :
    (rowsToCsmat p r v).isSome := by
  refine rowsToCsmat_isSome_iff_rowView.2 ⟨N, hN, fun row hrow => ?_⟩
  obtain ⟨hlen, hnd, hfit⟩ := hrows row hrow
  rw [rowView_isSome_iff, List.take_of_length_le hlen.le]
  exact ⟨hnd, hfit⟩

/-- Below the capacity of the layout, rows of distinct indices below `vars`,
one coefficient per index, never abort the three conversions. -/
theorem indexCreate_isSome
    {a b c : List (List Nat × List F)} {vars p : Nat}
    (hp : 0 < p)
    (hpv : p ≤ vars)
    (hvn : vars ≤ a.length)
    (hn : a.length ≤ 2 ^ 63)
    (hb : b.length = a.length)
    (hc : c.length = a.length)
    (hcap : vars ≤ p + (computeSizeOfDomain a.length - computeSizeOfDomain p))
    (hrows : ∀ row ∈ a ++ b ++ c,
      row.1.length = row.2.length ∧ row.1.Nodup ∧ ∀ i ∈ row.1, i < vars) :
    (indexCreate a b c vars p).isSome := by
  have hfit := (indexPositions_fit_iff hp hpv hvn).2 hcap
  have hconv : ∀ v : List (List Nat × List F), v.length = a.length →
      (∀ row ∈ v, row ∈ a ++ b ++ c) → (rowsToCsmat p (hToXRatio p a.length) v).isSome :=
    fun v hv hsub =>
      rowsToCsmat_isSome_of_fit (by rw [hv]; exact ceilPow2_of_le hn) fun row hrow =>
        have ⟨hlen, hnd, hlt⟩ := hrows row (hsub row hrow)
        ⟨hlen, hnd, fun i hi => hfit i (hlt i hi)⟩
  obtain ⟨ma, hma⟩ := Option.isSome_iff_exists.1 (hconv a rfl fun row h => by simp [h])
  obtain ⟨mb, hmb⟩ := Option.isSome_iff_exists.1 (hconv b hb fun row h => by simp [h])
  obtain ⟨mc, hmc⟩ := Option.isSome_iff_exists.1 (hconv c hc fun row h => by simp [h])
  exact Option.isSome_iff_exists.2 ⟨_, indexCreate_eq_some.2 ⟨hp, hvn, hma, hmb, hmc⟩⟩

theorem indexCreate_isSome_two :
    (indexCreate [([0], [(1 : Int)]), ([1], [1])] [([0], [1]), ([1], [1])]
      [([0], [1]), ([1], [1])] 2 1).isSome :=
  indexCreate_isSome (by decide) (by decide) (by decide) (by decide) rfl rfl
    (by
      rw [computeSizeOfDomain, computeSizeOfDomain, List.length_cons, List.length_singleton,
        ← ceilPow2_eq_some (by decide : ceilPow2 2 = some 2),
        ← ceilPow2_eq_some (by decide : ceilPow2 1 = some 1)])
    (by decide)

/-- Whenever `|H| = |X|`, that is whenever the constraints fit in the power
of two above `public_inputs`, the ratio is `1` and no auxiliary variable has a
position: a row that pairs an index `≥ public_inputs` with a coefficient makes
the constructors abort. -/
theorem indexCreate_eq_none_of_domains_eq
    {a b c : List (List Nat × List F)} {vars p : Nat}
    (hHX : computeSizeOfDomain a.length = computeSizeOfDomain p)
    (hrow : ∃ row ∈ a ++ b ++ c, ∃ i ∈ row.1.take row.2.length, p ≤ i) :
    indexCreate a b c vars p = none := by
  obtain ⟨row, hmem, i, hi, hpi⟩ := hrow
  have hratio : hToXRatio p a.length = 1 := by
    rw [hToXRatio, hHX, Nat.div_self (show 0 < computeSizeOfDomain p from leastPow2_pos p)]
  have hnone : indexToWitnessPosition p 1 i = none := indexToWitnessPosition_eq_none (by omega)
  have hrejects : ∀ {v : List (List Nat × List F)} {M : CsMat F},
      rowsToCsmat p 1 v = some M → row ∉ v := fun hM hrv => by
    obtain ⟨N, -, hall⟩ := rowsToCsmat_isSome_iff_rowView.1 (Option.isSome_iff_exists.2 ⟨_, hM⟩)
    simpa [hnone] using (rowView_isSome_iff.1 (hall row hrv)).2 i hi
  refine Option.not_isSome_iff_eq_none.1 fun h => ?_
  obtain ⟨⟨A, B, C⟩, hABC⟩ := Option.isSome_iff_exists.1 h
  obtain ⟨-, -, hA, hB, hC⟩ := indexCreate_eq_some.1 hABC
  rw [hratio] at hA hB hC
  rcases List.mem_append.1 hmem with hmem | hmem
  · rcases List.mem_append.1 hmem with hmem | hmem
    exacts [hrejects hA hmem, hrejects hB hmem]
  · exact hrejects hC hmem

theorem indexCreate_eq_none_of_domains_eq_four :
    computeSizeOfDomain 4 = computeSizeOfDomain 3 ∧
      indexCreate [([3], [(1 : Int)]), ([], []), ([], []), ([], [])]
        (List.replicate 4 ([], [])) (List.replicate 4 ([], [])) 4 3 = none := by
  have hHX : computeSizeOfDomain 4 = computeSizeOfDomain 3 := by
    rw [computeSizeOfDomain, computeSizeOfDomain, ← ceilPow2_eq_some (by decide : ceilPow2 4 = some 4),
      ← ceilPow2_eq_some (by decide : ceilPow2 3 = some 4)]
  exact ⟨hHX, indexCreate_eq_none_of_domains_eq hHX ⟨([3], [1]), by simp, 3, by simp, le_rfl⟩⟩

/-- Three public inputs and four constraints over four variables pass both
assertions of both constructors, but `|X| = |H| = 4` leaves a ratio of `1`,
and the auxiliary index `3` divides by `h_to_x_ratio - 1 = 0`. -/
theorem indexCreate_index_overflow :
    hToXRatio 3 4 = 1 ∧
      indexToWitnessPosition 3 1 3 = none ∧
      camlsnarkBn382FpIndexCreate [([3], [(1 : Int)]), ([], []), ([], []), ([], [])]
        (List.replicate 4 ([], [])) (List.replicate 4 ([], [])) 4 3 = none ∧
      camlsnarkBn382FqIndexCreate [([3], [(1 : Int)]), ([], []), ([], []), ([], [])]
        (List.replicate 4 ([], [])) (List.replicate 4 ([], [])) 4 3 = none := by
  have hX : 4 = leastPow2 3 := ceilPow2_eq_some (by decide)
  have hH : 4 = leastPow2 4 := ceilPow2_eq_some (by decide)
  have hratio : hToXRatio 3 4 = 1 := by
    rw [hToXRatio, computeSizeOfDomain, computeSizeOfDomain, ← hX, ← hH]
  have hidx : indexToWitnessPosition 3 1 3 = none := by decide
  have ha : rowsToCsmat 3 1 [([3], [(1 : Int)]), ([], []), ([], []), ([], [])] = none :=
    Option.not_isSome_iff_eq_none.1 fun h => by
      obtain ⟨N, -, hall⟩ := rowsToCsmat_isSome_iff_rowView.1 h
      have := (rowView_isSome_iff.1 (hall _ (List.mem_cons_self _ _))).2 3 (by simp)
      simp [hidx] at this
  refine ⟨hratio, hidx, ?_, ?_⟩ <;>
    simp [camlsnarkBn382FpIndexCreate, camlsnarkBn382FqIndexCreate, indexCreate, hratio, ha]

end SnarkyBn382
