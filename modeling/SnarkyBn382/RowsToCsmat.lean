import SnarkyBn382.CeilPow2
import SnarkyBn382.IndexMapper
import SnarkyBn382.SparseMatrix

/-!
# snarky-bn382: the constraint matrix builder `rows_to_csmat`

`rows_to_csmat(public_inputs, h_to_x_ratio, v)` turns one R1CS matrix, given
as a list of rows `(indices, coefficients)` over flat indices, into a square
compressed-row matrix whose columns are witness positions.

**Algorithm.**  With `constraints = ceil_pow2(v.len())`, each row is
* re-indexed and paired: `indices.iter().map(index_to_witness_position)`
  zipped with `coefficients` (`shifted`), which maps only the indices that
  have a coefficient;
* sorted by position (`sortByPosition`, Rust's stable `sort_by`);
* checked by `new_view(constraints, ..)` and appended (`rowView`,
  `appendRows`).
Then `constraints - v.len()` empty rows are appended (`appendEmptyRows`).

**Results.**
* `rowsToCsmat_eq_some_iff`: the matrix is the compressed-row encoding of the
  row views followed by the padding rows.
* `rowsToCsmat_rows`: an `N × N` matrix, `N = ceil_pow2(|v|)`, whose row `k`
  holds exactly the re-indexed pairs of `v[k]` in increasing column order.
* `rowsToCsmat_wellFormed`: the result passes every structure check of
  compressed-row storage (`CsMat.WellFormed`).
* `rowsToCsmat_nnz`: the result stores `min(|indices|, |coefficients|)`
  entries per row.
* `rowsToCsmat_isSome_iff`: exactly which row lists are accepted.  `zip`
  pairs each row's indices with its coefficients up to the shorter of the two
  lists; the entries past it are dropped, not rejected.
-/

namespace SnarkyBn382

variable {F : Type}

section Forall₂

variable {α β : Type} {f : α → Option β}

theorem forall₂_some_mem_iff :
    ∀ {l : List α} {ws : List β},
      List.Forall₂ (fun i w => f i = some w) l ws →
      ∀ {w : β}, w ∈ ws ↔ ∃ i ∈ l, f i = some w
  | _, _, .nil => by simp
  | _, _, .cons (a := a) (b := b) hab h => by
      rw [List.mem_cons, forall₂_some_mem_iff h]
      constructor
      · rintro (rfl | ⟨i, hi, hfi⟩)
        · exact ⟨a, List.mem_cons_self _ _, hab⟩
        · exact ⟨i, List.mem_cons_of_mem _ hi, hfi⟩
      · rintro ⟨i, hi, hfi⟩
        rcases List.mem_cons.1 hi with rfl | hi
        · exact .inl (Option.some.inj (hfi.symm.trans hab))
        · exact .inr ⟨i, hi, hfi⟩

theorem forall₂_some_forall_iff
    {P : β → Prop} :
    ∀ {l : List α} {ws : List β},
      List.Forall₂ (fun i w => f i = some w) l ws →
      ((∀ w ∈ ws, P w) ↔ ∀ i ∈ l, ∃ w, f i = some w ∧ P w)
  | _, _, .nil => by simp
  | _, _, .cons hab h => by
      simp [List.forall_mem_cons, hab, forall₂_some_forall_iff h]

theorem forall₂_some_nodup_iff
    (hinj : ∀ {i j w}, f i = some w → f j = some w → i = j) :
    ∀ {l : List α} {ws : List β},
      List.Forall₂ (fun i w => f i = some w) l ws → (ws.Nodup ↔ l.Nodup)
  | _, _, .nil => by simp
  | _, _, .cons (a := a) (b := b) hab h => by
      have hmem : b ∈ _ ↔ a ∈ _ := (forall₂_some_mem_iff h).trans
        ⟨fun ⟨i, hi, hfi⟩ => hinj hfi hab ▸ hi, fun ha => ⟨a, ha, hab⟩⟩
      rw [List.nodup_cons, List.nodup_cons, hmem, forall₂_some_nodup_iff hinj h]

theorem exists_forall₂_some :
    ∀ {l : List α}, (∀ i ∈ l, (f i).isSome) →
      ∃ ws, List.Forall₂ (fun i w => f i = some w) l ws
  | [], _ => ⟨[], .nil⟩
  | a :: l, h => by
      obtain ⟨b, hb⟩ := Option.isSome_iff_exists.1 (h a (List.mem_cons_self _ _))
      obtain ⟨ws, hws⟩ := exists_forall₂_some fun i hi => h i (List.mem_cons_of_mem _ hi)
      exact ⟨b :: ws, .cons hb hws⟩

end Forall₂

/-- The `shifted` pairs of one row,
`indices.iter().map(index_to_witness_position).zip(coefficients)` collected.
`zip` stops at the shorter list, and the collect calls the mapping closure
only on the indices that are paired with a coefficient. -/
def shifted (publicInputs hToXRatio : Nat) : List Nat → List F → Option (List (Nat × F))
  | [], _ => some []
  | _ :: _, [] => some []
  | i :: indices, c :: coefficients => do
      let w ← indexToWitnessPosition publicInputs hToXRatio i
      let rest ← shifted publicInputs hToXRatio indices coefficients
      pure ((w, c) :: rest)

/-- `shifted.sort_by(|(i, _), (j, _)| i.cmp(j))`: a stable merge sort on the
positions. -/
def sortByPosition (xs : List (Nat × F)) : List (Nat × F) :=
  xs.mergeSort fun a b => a.1 ≤ b.1

/-- The body of the row loop up to `new_view`: one row as a sparse vector of
`constraints` columns. -/
def rowView (publicInputs hToXRatio constraints : Nat) (row : List Nat × List F) :
    Option (CsVec F) := do
  let pairs ← shifted publicInputs hToXRatio row.1 row.2
  let sorted := sortByPosition pairs
  CsVec.newView constraints (sorted.map Prod.fst) (sorted.map Prod.snd)

/-- `for (indices, coefficients) in v.iter() { .. m = m.append_outer_csvec(v) }`. -/
def appendRows (publicInputs hToXRatio constraints : Nat) :
    CsMat F → List (List Nat × List F) → Option (CsMat F)
  | m, [] => some m
  | m, row :: rows => do
      let view ← rowView publicInputs hToXRatio constraints row
      appendRows publicInputs hToXRatio constraints (m.appendOuterCsvec view) rows

/-- `for _ in 0..(constraints - v.len())`: the empty padding rows. -/
def appendEmptyRows (constraints : Nat) : Nat → CsMat F → Option (CsMat F)
  | 0, m => some m
  | k + 1, m => do
      let view ← CsVec.newView constraints [] []
      appendEmptyRows constraints k (m.appendOuterCsvec view)

/-- `rows_to_csmat`. -/
def rowsToCsmat (publicInputs hToXRatio : Nat) (v : List (List Nat × List F)) :
    Option (CsMat F) := do
  let constraints ← ceilPow2 v.length
  let m ← appendRows publicInputs hToXRatio constraints (CsMat.empty constraints) v
  appendEmptyRows constraints (constraints - v.length) m

section Row

variable {p r : Nat}

theorem shifted_isSome_iff :
    ∀ {indices : List Nat} {coefficients : List F},
      (shifted p r indices coefficients).isSome ↔
        ∀ i ∈ indices.take coefficients.length, (indexToWitnessPosition p r i).isSome
  | [], _ => by simp [shifted]
  | _ :: _, [] => by simp [shifted]
  | i :: indices, c :: coefficients => by
      have ih : (shifted p r indices coefficients).isSome ↔ _ := shifted_isSome_iff
      cases hi : indexToWitnessPosition p r i <;>
        cases hs : shifted p r indices coefficients <;>
        simp_all [shifted]

/-- A successful `shifted` pairs the positions of the indices that have a
coefficient with those coefficients. -/
theorem shifted_eq_some :
    ∀ {indices : List Nat} {coefficients : List F} {pairs : List (Nat × F)},
      shifted p r indices coefficients = some pairs →
        ∃ ws, List.Forall₂ (fun i w => indexToWitnessPosition p r i = some w)
          (indices.take coefficients.length) ws ∧ pairs = ws.zip coefficients
  | [], _, _, h => by
      simp only [shifted, Option.some.injEq] at h
      exact ⟨[], by simp, by simp [← h]⟩
  | _ :: _, [], _, h => by
      simp only [shifted, Option.some.injEq] at h
      exact ⟨[], by simp, by simp [← h]⟩
  | i :: indices, c :: coefficients, pairs, h => by
      simp only [shifted, Option.bind_eq_bind, Option.bind_eq_some, Option.pure_def,
        Option.some.injEq] at h
      obtain ⟨w, hw, rest, hrest, rfl⟩ := h
      obtain ⟨ws, hws, rfl⟩ := shifted_eq_some hrest
      refine ⟨w :: ws, ?_, rfl⟩
      rw [List.length_cons, List.take_succ_cons]
      exact .cons hw hws

theorem sortByPosition_perm
    (xs : List (Nat × F)) :
    (sortByPosition xs).Perm xs :=
  List.mergeSort_perm _ _

theorem sortByPosition_sorted
    (xs : List (Nat × F)) :
    ((sortByPosition xs).map Prod.fst).Sorted (· ≤ ·) := by
  have h := @List.sorted_mergeSort _ (fun a b : Nat × F => decide (a.1 ≤ b.1))
    (fun a b c hab hbc => by simp only [decide_eq_true_eq] at *; omega)
    (fun a b => by simp only [Bool.or_eq_true, decide_eq_true_eq]; omega) xs
  simpa [List.Sorted, List.pairwise_map] using h

/-- After the sort, `new_view`'s strict order test is a duplicate test. -/
theorem sortByPosition_sorted_lt_iff
    (xs : List (Nat × F)) :
    ((sortByPosition xs).map Prod.fst).Sorted (· < ·) ↔ (xs.map Prod.fst).Nodup := by
  rw [((sortByPosition_perm xs).map Prod.fst).nodup_iff.symm]
  exact ⟨List.Sorted.nodup, (sortByPosition_sorted xs).lt_of_le⟩

theorem rowView_eq_some
    {N : Nat} {row : List Nat × List F} {view : CsVec F}
    (h : rowView p r N row = some view) :
    ∃ pairs, shifted p r row.1 row.2 = some pairs ∧
      view.entries = sortByPosition pairs ∧ view.dim = N := by
  simp only [rowView, Option.bind_eq_bind, Option.bind_eq_some] at h
  obtain ⟨pairs, hp, hv⟩ := h
  obtain ⟨hdim, hidx, hdata⟩ := CsVec.newView_eq_some hv
  refine ⟨pairs, hp, ?_, hdim⟩
  rw [CsVec.entries, hidx, hdata, ← List.unzip_fst, ← List.unzip_snd, List.zip_unzip]

/-- A row is accepted exactly when the indices paired with a coefficient are
distinct and map to positions below `N`. -/
theorem rowView_isSome_iff
    {N : Nat} {row : List Nat × List F} :
    (rowView p r N row).isSome ↔
      (row.1.take row.2.length).Nodup ∧
      ∀ i ∈ row.1.take row.2.length, ∃ w, indexToWitnessPosition p r i = some w ∧ w < N := by
  cases hs : shifted p r row.1 row.2 with
  | none =>
      simp only [rowView, hs, Option.bind_eq_bind, Option.none_bind, Option.isSome_none,
        Bool.false_eq_true, false_iff, not_and]
      intro _ hall
      have h : (shifted p r row.1 row.2).isSome := shifted_isSome_iff.2 fun i hi => by
        obtain ⟨w, hw, -⟩ := hall i hi
        simp [hw]
      simp [hs] at h
  | some pairs =>
      obtain ⟨ws, hws, rfl⟩ := shifted_eq_some hs
      have hkeys : (ws.zip row.2).map Prod.fst = ws :=
        List.map_fst_zip _ _ (by rw [← hws.length_eq]; simp)
      have hmem : ∀ i, i ∈ (sortByPosition (ws.zip row.2)).map Prod.fst ↔ i ∈ ws := fun i => by
        rw [((sortByPosition_perm _).map Prod.fst).mem_iff, hkeys]
      simp only [rowView, hs, Option.bind_eq_bind, Option.some_bind, CsVec.newView_isSome_iff,
        List.length_map, sortByPosition_sorted_lt_iff, hkeys, hmem, Option.isSome_some,
        true_and, forall₂_some_nodup_iff indexToWitnessPosition_injective hws,
        forall₂_some_forall_iff hws]

/-- A row view stores one entry per index that `zip` pairs with a
coefficient. -/
theorem rowView_nnz
    {N : Nat} {row : List Nat × List F} {view : CsVec F}
    (h : rowView p r N row = some view) :
    view.indices.length = min row.1.length row.2.length := by
  obtain ⟨pairs, hp, hent, -⟩ := rowView_eq_some h
  obtain ⟨ws, hws, rfl⟩ := shifted_eq_some hp
  rw [← CsVec.length_entries, hent, (sortByPosition_perm _).length_eq, List.length_zip,
    ← hws.length_eq, List.length_take]
  omega

end Row

section Loop

variable {p r N : Nat}

/-- The row loop appends the row views, and stops at the first rejected
row. -/
theorem appendRows_ofRows_eq_some_iff :
    ∀ {rows : List (CsVec F)} {v : List (List Nat × List F)} {M : CsMat F},
      appendRows p r N (CsMat.ofRows N rows) v = some M ↔
        ∃ views, List.Forall₂ (fun row view => rowView p r N row = some view) v views ∧
          M = CsMat.ofRows N (rows ++ views)
  | rows, [], M => by
      simp [appendRows, eq_comm]
  | rows, row :: v, M => by
      simp only [appendRows, Option.bind_eq_bind, Option.bind_eq_some,
        CsMat.appendOuterCsvec_ofRows, appendRows_ofRows_eq_some_iff, List.forall₂_cons_left_iff]
      constructor
      · rintro ⟨view, hview, views, hviews, rfl⟩
        exact ⟨view :: views, ⟨view, views, hview, hviews, rfl⟩, by simp⟩
      · rintro ⟨_, ⟨view, views, hview, hviews, rfl⟩, rfl⟩
        exact ⟨view, hview, views, hviews, by simp⟩

theorem appendEmptyRows_ofRows :
    ∀ (k : Nat) (rows : List (CsVec F)),
      appendEmptyRows N k (CsMat.ofRows N rows) =
        some (CsMat.ofRows N (rows ++ List.replicate k (CsVec.empty N)))
  | 0, rows => by
      simp [appendEmptyRows]
  | k + 1, rows => by
      simp only [appendEmptyRows, CsVec.newView_nil, Option.bind_eq_bind, Option.some_bind,
        CsMat.appendOuterCsvec_ofRows, appendEmptyRows_ofRows k, List.append_assoc,
        List.singleton_append, List.replicate_succ]

/-- The spec lemma of `rows_to_csmat`: the matrix encodes the row views,
padded with empty rows to `ceil_pow2(v.len())` rows. -/
theorem rowsToCsmat_eq_some_iff
    {v : List (List Nat × List F)} {M : CsMat F} :
    rowsToCsmat p r v = some M ↔
      ∃ N, ceilPow2 v.length = some N ∧
        ∃ views, List.Forall₂ (fun row view => rowView p r N row = some view) v views ∧
          M = CsMat.ofRows N (views ++ List.replicate (N - v.length) (CsVec.empty N)) := by
  simp only [rowsToCsmat, Option.bind_eq_bind, Option.bind_eq_some, CsMat.empty_eq_ofRows,
    appendRows_ofRows_eq_some_iff]
  constructor
  · rintro ⟨N, hN, _, ⟨views, hviews, rfl⟩, hM⟩
    rw [appendEmptyRows_ofRows, Option.some.injEq, List.nil_append] at hM
    exact ⟨N, hN, views, hviews, hM.symm⟩
  · rintro ⟨N, hN, views, hviews, rfl⟩
    exact ⟨N, hN, _, ⟨views, hviews, rfl⟩, by rw [appendEmptyRows_ofRows, List.nil_append]⟩

theorem rowsToCsmat_isSome_iff_rowView
    {v : List (List Nat × List F)} :
    (rowsToCsmat p r v).isSome ↔
      ∃ N, ceilPow2 v.length = some N ∧ ∀ row ∈ v, (rowView p r N row).isSome := by
  constructor
  · intro h
    obtain ⟨M, hM⟩ := Option.isSome_iff_exists.1 h
    obtain ⟨N, hN, views, hviews, -⟩ := rowsToCsmat_eq_some_iff.1 hM
    refine ⟨N, hN, fun row hrow => ?_⟩
    obtain ⟨view, hview, -⟩ :=
      (forall₂_some_forall_iff (P := fun _ => True) hviews).1 (fun _ _ => trivial) row hrow
    simp [hview]
  · rintro ⟨N, hN, hall⟩
    obtain ⟨views, hviews⟩ := exists_forall₂_some hall
    rw [Option.isSome_iff_exists]
    exact ⟨_, rowsToCsmat_eq_some_iff.2 ⟨N, hN, views, hviews, rfl⟩⟩

end Loop

/-- Row `k < |v|` of the built matrix is the sorted re-indexed row `v[k]`,
and the rows past `|v|` are empty; the matrix encodes `ceil_pow2(|v|)` rows
of `ceil_pow2(|v|)` columns. -/
theorem rowsToCsmat_outerView
    {p r : Nat} {v : List (List Nat × List F)} {M : CsMat F}
    (h : rowsToCsmat p r v = some M) :
    ∃ N, ceilPow2 v.length = some N ∧
      (∃ rows : List (CsVec F), rows.length = N ∧ (∀ view ∈ rows, view.dim = N) ∧
        M = CsMat.ofRows N rows) ∧
      (∀ k (hk : k < v.length), ∃ view : CsVec F, M.outerView k = view.entries ∧
        ∃ pairs, shifted p r v[k].1 v[k].2 = some pairs ∧ view.entries = sortByPosition pairs) ∧
      ∀ k, v.length ≤ k → M.outerView k = [] := by
  obtain ⟨N, hN, views, hviews, rfl⟩ := rowsToCsmat_eq_some_iff.1 h
  have hle : v.length ≤ N := ceilPow2_eq_some hN ▸ le_leastPow2 _
  have hvl : views.length = v.length := hviews.length_eq.symm
  have hdim : ∀ view ∈ views ++ List.replicate (N - v.length) (CsVec.empty N), view.dim = N := by
    intro view hv
    rcases List.mem_append.1 hv with hv | hv
    · obtain ⟨row, -, hrow⟩ := (forall₂_some_mem_iff hviews).1 hv
      obtain ⟨-, -, -, hdim⟩ := rowView_eq_some hrow
      exact hdim
    · rw [List.eq_of_mem_replicate hv]
      rfl
  refine ⟨N, hN, ⟨_, by simp only [List.length_append, List.length_replicate]; omega, hdim, rfl⟩,
    fun k hk => ?_, fun k hk => ?_⟩
  · have hkv : k < views.length := hvl ▸ hk
    have hrow : rowView p r N v[k] = some views[k] := by
      simpa using (List.forall₂_iff_get.1 hviews).2 k hk hkv
    obtain ⟨pairs, hp, hent, -⟩ := rowView_eq_some hrow
    refine ⟨views[k], ?_, pairs, hp, hent⟩
    rw [CsMat.outerView_ofRows (by simp; omega), List.getElem_append_left hkv]
  · by_cases hkN : k < N
    · rw [CsMat.outerView_ofRows (by simp; omega), List.getElem_append_right (by omega),
        List.getElem_replicate, CsVec.entries_empty]
    · exact CsMat.outerView_ofRows_of_le (by simp; omega)

/-- `rows_to_csmat` returns an `N × N` compressed-row matrix,
`N = ceil_pow2(|v|)`, whose row `k < |v|` holds exactly the pairs
`(index_to_witness_position(i_j), c_j)` of `v[k]` in strictly increasing
column order, and whose other rows are empty. -/
theorem rowsToCsmat_rows
    {p r : Nat} {v : List (List Nat × List F)} {M : CsMat F}
    (hlen : ∀ row ∈ v, row.1.length = row.2.length)
    (h : rowsToCsmat p r v = some M) :
    ∃ N, ceilPow2 v.length = some N ∧
      (∃ rows : List (CsVec F), rows.length = N ∧ M = CsMat.ofRows N rows) ∧
      M.nrows = N ∧ M.ncols = N ∧
      (∀ k (hk : k < v.length),
        ((M.outerView k).map Prod.fst).Sorted (· < ·) ∧
        ∃ ws, List.Forall₂ (fun i w => indexToWitnessPosition p r i = some w) v[k].1 ws ∧
          (M.outerView k).Perm (ws.zip v[k].2)) ∧
      ∀ k, v.length ≤ k → M.outerView k = [] := by
  obtain ⟨N, hN, ⟨rows, hrows, -, rfl⟩, hview, hpad⟩ := rowsToCsmat_outerView h
  refine ⟨N, hN, ⟨rows, hrows, rfl⟩, hrows, rfl, fun k hk => ?_, hpad⟩
  obtain ⟨view, hout, pairs, hp, hent⟩ := hview k hk
  obtain ⟨ws, hws, rfl⟩ := shifted_eq_some hp
  rw [List.take_of_length_le (hlen _ (List.getElem_mem hk)).le] at hws
  refine ⟨?_, ws, hws, ?_⟩
  · rw [hout, CsVec.map_fst_entries]
    exact view.sorted
  · rw [hout, hent]
    exact sortByPosition_perm _

/-- Three rows for four matrix rows: the first row is reordered by the sort,
and row `3` is padding. -/
theorem rowsToCsmat_rows_three :
    (∀ row ∈ [([2, 0], [(5 : Int), 3]), ([1], [4]), ([0, 1, 2], [1, 1, 1])],
        row.1.length = row.2.length) ∧
      ∃ M, rowsToCsmat 1 2 [([2, 0], [(5 : Int), 3]), ([1], [4]), ([0, 1, 2], [1, 1, 1])] =
          some M ∧
        M.nrows = 4 ∧ M.ncols = 4 ∧ ((M.outerView 0).map Prod.fst).Sorted (· < ·) ∧
        M.outerView 3 = [] := by
  have hN : ceilPow2 3 = some 4 := by decide
  have h0 : indexToWitnessPosition 1 2 0 = some 0 := by decide
  have h1 : indexToWitnessPosition 1 2 1 = some 1 := by decide
  have h2 : indexToWitnessPosition 1 2 2 = some 3 := by decide
  obtain ⟨M, hM⟩ := Option.isSome_iff_exists.1
    (show (rowsToCsmat 1 2 [([2, 0], [(5 : Int), 3]), ([1], [4]), ([0, 1, 2], [1, 1, 1])]).isSome
      from rowsToCsmat_isSome_iff_rowView.2 ⟨4, hN, by simp [rowView_isSome_iff, h0, h1, h2]⟩)
  obtain ⟨N, hN', -, hr, hc, hrows, hpad⟩ := rowsToCsmat_rows (by decide) hM
  obtain rfl : N = 4 := Option.some.inj (hN'.symm.trans hN)
  exact ⟨by decide, M, hM, hr, hc, (hrows 0 (by decide)).1, hpad 3 (by decide)⟩

/-- Every matrix `rows_to_csmat` returns passes the structure checks of
compressed-row storage, and is square with `ceil_pow2(|v|)` rows. -/
theorem rowsToCsmat_wellFormed
    {p r : Nat} {v : List (List Nat × List F)} {M : CsMat F}
    (h : rowsToCsmat p r v = some M) :
    M.WellFormed ∧ M.nrows = M.ncols ∧ ceilPow2 v.length = some M.nrows := by
  obtain ⟨N, hN, ⟨rows, hlen, hdim, rfl⟩, -, -⟩ := rowsToCsmat_outerView h
  exact ⟨CsMat.wellFormed_ofRows hdim, hlen, hN.trans (congrArg some hlen.symm)⟩

theorem rowsToCsmat_wellFormed_three :
    ∃ M, rowsToCsmat 1 2 [([2, 0], [(5 : Int), 3]), ([1], [4]), ([0, 1, 2], [1, 1, 1])] = some M ∧
      M.WellFormed ∧ M.nrows = M.ncols ∧ ceilPow2 3 = some M.nrows := by
  have hN : ceilPow2 3 = some 4 := by decide
  have h0 : indexToWitnessPosition 1 2 0 = some 0 := by decide
  have h1 : indexToWitnessPosition 1 2 1 = some 1 := by decide
  have h2 : indexToWitnessPosition 1 2 2 = some 3 := by decide
  obtain ⟨M, hM⟩ := Option.isSome_iff_exists.1
    (show (rowsToCsmat 1 2 [([2, 0], [(5 : Int), 3]), ([1], [4]), ([0, 1, 2], [1, 1, 1])]).isSome
      from rowsToCsmat_isSome_iff_rowView.2 ⟨4, hN, by simp [rowView_isSome_iff, h0, h1, h2]⟩)
  exact ⟨M, hM, rowsToCsmat_wellFormed hM⟩

/-- The matrix stores, over all rows, one entry per index that `zip` pairs
with a coefficient: `min(|indices|, |coefficients|)` entries for each row. -/
theorem rowsToCsmat_nnz
    {p r : Nat} {v : List (List Nat × List F)} {M : CsMat F}
    (h : rowsToCsmat p r v = some M) :
    M.indices.length = (v.map fun row => min row.1.length row.2.length).sum := by
  obtain ⟨N, -, views, hviews, rfl⟩ := rowsToCsmat_eq_some_iff.1 h
  have hmap : views.map (fun view => view.indices.length) =
      v.map fun row => min row.1.length row.2.length := by
    have := hviews.flip.imp fun view row hrow => rowView_nnz hrow
    rw [← List.forall₂_eq_eq_eq]
    exact List.forall₂_map_left_iff.2 (List.forall₂_map_right_iff.2 this)
  rw [CsMat.length_indices_ofRows, List.map_append, List.sum_append, hmap]
  simp [CsVec.empty]

/-- The first row has two indices and one coefficient: one entry is stored
for it. -/
theorem rowsToCsmat_nnz_two :
    ∃ M, rowsToCsmat 1 2 [([0, 1], [(3 : Int)]), ([1], [5])] = some M ∧
      M.indices.length = 2 := by
  have hN : ceilPow2 2 = some 2 := by decide
  have h0 : indexToWitnessPosition 1 2 0 = some 0 := by decide
  have h1 : indexToWitnessPosition 1 2 1 = some 1 := by decide
  obtain ⟨M, hM⟩ := Option.isSome_iff_exists.1
    (show (rowsToCsmat 1 2 [([0, 1], [(3 : Int)]), ([1], [5])]).isSome from
      rowsToCsmat_isSome_iff_rowView.2 ⟨2, hN, by simp [rowView_isSome_iff, h0, h1]⟩)
  exact ⟨M, hM, rowsToCsmat_nnz hM⟩

/-- `rows_to_csmat` returns a matrix exactly when `ceil_pow2(|v|)` does and,
in every row, the indices paired with a coefficient are distinct and map
below `ceil_pow2(|v|)`.  Indices or coefficients past the shorter of the two
lists are dropped, unmapped. -/
theorem rowsToCsmat_isSome_iff
    (p r : Nat)
    (v : List (List Nat × List F)) :
    (rowsToCsmat p r v).isSome ↔
      ∃ N, ceilPow2 v.length = some N ∧
        ∀ row ∈ v,
          (row.1.take row.2.length).Nodup ∧
          ∀ i ∈ row.1.take row.2.length,
            ∃ w, indexToWitnessPosition p r i = some w ∧ w < N := by
  simp only [rowsToCsmat_isSome_iff_rowView, rowView_isSome_iff]

/-- A row with a coefficient and no index is accepted: `zip` drops the
coefficient. -/
theorem rowsToCsmat_drops_unpaired_coefficient :
    (rowsToCsmat 1 1 [(([] : List Nat), [(7 : Int)])]).isSome ∧
      ∃ row ∈ [(([] : List Nat), [(7 : Int)])], row.1.length ≠ row.2.length :=
  ⟨by simp [rowsToCsmat, appendRows, appendEmptyRows, rowView, shifted, sortByPosition,
      ceilPow2_of_le, leastPow2, Nat.clog_one_right],
    ⟨_, List.mem_singleton_self _, by decide⟩⟩

end SnarkyBn382
