import Mathlib

/-!
# snarky-bn382: compressed sparse row matrices

`rows_to_csmat` builds its matrices with the `sprs` crate: `CsMat::empty`,
`CsVecView::new_view` and `append_outer_csvec`.  That crate is not part of the
repository; this module models the three calls from their contracts and the
spec's compressed-row form (row pointers, column indices, coefficients).

**Layers.**
* `CsVec`: a sparse row that carries its own well-formedness (strictly
  increasing indices below the dimension, as many values as indices);
  `CsVec.newView` is the checked constructor.
* `CsMat`: the raw compressed-row arrays, as `sprs` stores them.
* `CsMat.ofRows`: the arrays that encode a list of rows, the abstract view of
  a matrix.  `appendOuterCsvec_ofRows` is the simulation: appending a row to
  the arrays encodes the row list with that row appended.

**Results.**
* `wellFormed_ofRows`: the encoding of rows of `n` columns passes the
  structure checks of compressed-row storage (`WellFormed`).
* `outerView_ofRows`, `outerView_ofRows_of_le`: row `k` of the encoding is
  the `k`-th row of the list, and is empty past the list.
* `mulVecEntry_eq_sum`: entry `k` of the dense product of the matrix with a
  vector is the sum over the stored entries of row `k` (`sum_lookup_mul`);
  `mulVecEntry_eq_sum_of_wellFormed`: every well-formed matrix meets its
  hypotheses (`WellFormed.nodup_outerView`,
  `WellFormed.lt_ncols_of_mem_outerView`).
-/

namespace SnarkyBn382

open BigOperators

variable {F : Type}

/-- A sparse vector of `sprs` (a `CsVecView`), well formed by construction. -/
structure CsVec (F : Type) where
  dim : Nat
  indices : List Nat
  data : List F
  length_eq : indices.length = data.length
  sorted : indices.Sorted (· < ·)
  lt_dim : ∀ i ∈ indices, i < dim

namespace CsVec

/-- Modelled from the spec: `CsVecView::new_view(n, indices, data)` of `sprs`
checks that adjacent indices increase and that they lie below `n`;
`rows_to_csmat` panics when it fails (the spec's duplicate and out-of-range
columns).  Both of the crate's calls pass lists of equal length. -/
def newView (n : Nat) (indices : List Nat) (data : List F) : Option (CsVec F) :=
  if h : indices.length = data.length ∧ indices.Chain' (· < ·) ∧ ∀ i ∈ indices, i < n then
    some ⟨n, indices, data, h.1, List.chain'_iff_pairwise.1 h.2.1, h.2.2⟩
  else
    none

/-- The row with no stored entry. -/
def empty (n : Nat) : CsVec F :=
  ⟨n, [], [], rfl, List.sorted_nil, fun _ h => absurd h (List.not_mem_nil _)⟩

/-- The `(index, value)` entries of a sparse vector. -/
def entries (v : CsVec F) : List (Nat × F) :=
  v.indices.zip v.data

theorem newView_isSome_iff
    {n : Nat} {indices : List Nat} {data : List F} :
    (newView n indices data).isSome ↔
      indices.length = data.length ∧ indices.Sorted (· < ·) ∧ ∀ i ∈ indices, i < n := by
  rw [List.Sorted, ← List.chain'_iff_pairwise, newView]
  split <;> simp_all

theorem newView_eq_some
    {n : Nat} {indices : List Nat} {data : List F} {v : CsVec F}
    (h : newView n indices data = some v) :
    v.dim = n ∧ v.indices = indices ∧ v.data = data := by
  rw [newView] at h
  split at h
  · cases h
    exact ⟨rfl, rfl, rfl⟩
  · cases h

@[simp] theorem newView_nil
    (n : Nat) :
    newView n [] ([] : List F) = some (empty n) := by
  simp [newView, empty]

@[simp] theorem entries_empty
    (n : Nat) :
    (empty n : CsVec F).entries = [] :=
  rfl

@[simp] theorem length_entries
    (v : CsVec F) :
    v.entries.length = v.indices.length := by
  simp [entries, v.length_eq]

theorem map_fst_entries
    (v : CsVec F) :
    v.entries.map Prod.fst = v.indices :=
  List.map_fst_zip _ _ (le_of_eq v.length_eq)

end CsVec

/-- The compressed-row arrays of a `sprs` matrix (`CsMat` with `CSR`
storage): row `k` is stored at positions `indptr[k] .. indptr[k + 1]` of
`indices` and `data`. -/
structure CsMat (F : Type) where
  nrows : Nat
  ncols : Nat
  indptr : List Nat
  indices : List Nat
  data : List F

namespace CsMat

/-- Modelled from the spec: `CsMat::empty(CSR, n)`, no rows and `n`
columns. -/
def empty (n : Nat) : CsMat F :=
  ⟨0, n, [0], [], []⟩

/-- Modelled from the spec: `m.append_outer_csvec(v)` pushes the entries of
`v` and closes the new row in `indptr`.  Its assertion that `v` has `ncols`
columns holds at every call of the crate, which passes `constraints` to both. -/
def appendOuterCsvec (m : CsMat F) (v : CsVec F) : CsMat F where
  nrows := m.nrows + 1
  ncols := m.ncols
  indptr := m.indptr ++ [m.indices.length + v.indices.length]
  indices := m.indices ++ v.indices
  data := m.data ++ v.data

/-- The `(column, value)` entries of row `k`; empty past the last row. -/
def outerView (m : CsMat F) (k : Nat) : List (Nat × F) :=
  ((m.indices.zip m.data).take (m.indptr.getD (k + 1) 0)).drop (m.indptr.getD k 0)

/-- The stored value at row `k`, column `col`; a structural zero is `0`. -/
def get [Zero F] (m : CsMat F) (k col : Nat) : F :=
  ((m.outerView k).lookup col).getD 0

/-- Entry `k` of the product of `m` with the dense vector `w`. -/
def mulVecEntry [Semiring F] (m : CsMat F) (w : List F) (k : Nat) : F :=
  ∑ col in Finset.range m.ncols, m.get k col * w.getD col 0

/-- The number of stored entries in the first `k` rows. -/
def rowStart (rows : List (CsVec F)) (k : Nat) : Nat :=
  ((rows.take k).map fun v => v.indices.length).sum

/-- The compressed-row arrays that encode `rows`, with `n` columns. -/
def ofRows (n : Nat) (rows : List (CsVec F)) : CsMat F where
  nrows := rows.length
  ncols := n
  indptr := (List.range (rows.length + 1)).map (rowStart rows)
  indices := (rows.map CsVec.indices).flatten
  data := (rows.map CsVec.data).flatten

theorem empty_eq_ofRows
    (n : Nat) :
    (empty n : CsMat F) = ofRows n [] :=
  rfl

theorem rowStart_append_of_le
    {rows : List (CsVec F)} {k : Nat}
    (v : CsVec F)
    (hk : k ≤ rows.length) :
    rowStart (rows ++ [v]) k = rowStart rows k := by
  rw [rowStart, List.take_append_of_le_length hk, rowStart]

theorem rowStart_length
    (rows : List (CsVec F)) :
    rowStart rows rows.length = ((rows.map CsVec.indices).flatten).length := by
  simp [rowStart, List.length_flatten, Function.comp_def]

/-- Appending a row to the arrays encodes the appended row list. -/
theorem appendOuterCsvec_ofRows
    (n : Nat)
    (rows : List (CsVec F))
    (v : CsVec F) :
    (ofRows n rows).appendOuterCsvec v = ofRows n (rows ++ [v]) := by
  have hptr : (List.range (rows.length + 1)).map (rowStart rows) ++
      [((rows.map CsVec.indices).flatten).length + v.indices.length] =
      (List.range (rows.length + 1 + 1)).map (rowStart (rows ++ [v])) := by
    rw [List.range_succ (rows.length + 1), List.map_append, List.map_singleton]
    congr 1
    · refine List.map_congr_left fun k hk => (rowStart_append_of_le v ?_).symm
      exact Nat.lt_succ_iff.1 (List.mem_range.1 hk)
    · rw [← rowStart_length]
      simp [rowStart, List.take_of_length_le]
  simp only [appendOuterCsvec, ofRows]
  rw [hptr]
  simp

theorem zip_flatten
    (rows : List (CsVec F)) :
    ((rows.map CsVec.indices).flatten).zip ((rows.map CsVec.data).flatten) =
      (rows.map CsVec.entries).flatten := by
  induction rows with
  | nil =>
      rfl
  | cons v rows ih =>
      simp only [List.map_cons, List.flatten_cons]
      rw [List.zip_append v.length_eq, ih, CsVec.entries]

theorem rowStart_eq_entries
    (rows : List (CsVec F))
    (k : Nat) :
    rowStart rows k = (((rows.map CsVec.entries).map List.length).take k).sum := by
  simp [rowStart, List.map_take, Function.comp_def]

theorem indptr_getD_ofRows
    {n k : Nat} {rows : List (CsVec F)}
    (hk : k ≤ rows.length) :
    (ofRows n rows).indptr.getD k 0 = rowStart rows k := by
  simp [ofRows, List.getD_eq_getElem?_getD, Nat.lt_succ_iff.2 hk]

/-- Row `k` of the encoding of `rows` is `rows[k]`. -/
theorem outerView_ofRows
    {n k : Nat} {rows : List (CsVec F)}
    (hk : k < rows.length) :
    (ofRows n rows).outerView k = rows[k].entries := by
  have hkE : k < (rows.map CsVec.entries).length := by simpa using hk
  have htake : ((rows.map CsVec.entries).map List.length).take k =
      (((rows.map CsVec.entries).take (k + 1)).map List.length).take k := by
    rw [List.map_take, List.take_take, Nat.min_eq_left (Nat.le_succ k)]
  rw [outerView, indptr_getD_ofRows (k := k) hk.le, indptr_getD_ofRows (k := k + 1) hk,
    rowStart_eq_entries, rowStart_eq_entries]
  simp only [ofRows]
  rw [zip_flatten, List.take_sum_flatten, htake, List.drop_sum_flatten, List.drop_take,
    List.drop_eq_getElem_cons hkE, Nat.add_sub_cancel_left]
  simp

/-- Past the encoded rows, a row has no entry. -/
theorem outerView_ofRows_of_le
    {n k : Nat} {rows : List (CsVec F)}
    (hk : rows.length ≤ k) :
    (ofRows n rows).outerView k = [] := by
  have h : (ofRows n rows).indptr.getD (k + 1) 0 = 0 :=
    List.getD_eq_default _ _ (by simp [ofRows, hk])
  rw [outerView, h, List.take_zero, List.drop_nil]

/-- Summing a row against a dense vector only sees its stored entries. -/
theorem sum_lookup_mul
    [Semiring F] {n : Nat} (w : Nat → F) :
    ∀ (es : List (Nat × F)), (es.map Prod.fst).Nodup → (∀ e ∈ es, e.1 < n) →
      ∑ col in Finset.range n, (es.lookup col).getD 0 * w col =
        (es.map fun e => e.2 * w e.1).sum
  | [], _, _ => by simp
  | (c, x) :: es, hnd, hlt => by
      have hnd' := List.nodup_cons.1 hnd
      have hnone : es.lookup c = none := by
        rw [List.lookup_eq_none_iff]
        exact fun q hq => bne_iff_ne.2 fun h =>
          hnd'.1 (show c ∈ _ from h ▸ List.mem_map_of_mem Prod.fst hq)
      have hsplit : ∀ col ∈ Finset.range n, (((c, x) :: es).lookup col).getD 0 * w col =
          (if col = c then x * w col else 0) + (es.lookup col).getD 0 * w col := by
        intro col _
        by_cases h : col = c
        · subst h
          simp [hnone]
        · have hne : (col == c) = false := by simpa using h
          simp [List.lookup_cons, hne, h]
      rw [Finset.sum_congr rfl hsplit, Finset.sum_add_distrib, Finset.sum_ite_eq',
        if_pos (Finset.mem_range.2 (hlt _ (List.mem_cons_self _ _))),
        sum_lookup_mul w es hnd'.2 (fun q hq => hlt q (List.mem_cons_of_mem _ hq))]
      simp

/-- The structure checks of compressed-row storage: `indptr` has a pointer
per row and one past the last, starts at `0`, ends at `nnz` and never
decreases; values and column indices come in pairs; every column is below
`ncols`; and each row lists its columns in strictly increasing order. -/
structure WellFormed (m : CsMat F) : Prop where
  /-- One row pointer per row, and one past the last row. -/
  length_indptr : m.indptr.length = m.nrows + 1
  /-- The first row starts at position `0`. -/
  indptr_zero : m.indptr.getD 0 0 = 0
  /-- The last row ends at `nnz`. -/
  indptr_last : m.indptr.getD m.nrows 0 = m.indices.length
  /-- Rows have a non-negative number of entries. -/
  indptr_mono : ∀ k < m.nrows, m.indptr.getD k 0 ≤ m.indptr.getD (k + 1) 0
  /-- Every stored column index has its value. -/
  length_data : m.data.length = m.indices.length
  /-- Every stored column is a column of the matrix. -/
  lt_ncols : ∀ i ∈ m.indices, i < m.ncols
  /-- Within a row the columns strictly increase. -/
  row_sorted : ∀ k < m.nrows, ((m.outerView k).map Prod.fst).Sorted (· < ·)

theorem rowStart_le_succ
    (rows : List (CsVec F))
    (k : Nat) :
    rowStart rows k ≤ rowStart rows (k + 1) := by
  simp [rowStart, List.take_succ]

/-- The encoding of rows of `n` columns passes every structure check. -/
theorem wellFormed_ofRows
    {n : Nat} {rows : List (CsVec F)}
    (hdim : ∀ v ∈ rows, v.dim = n) :
    (ofRows n rows).WellFormed where
  length_indptr := by simp [ofRows]
  indptr_zero := by rw [indptr_getD_ofRows (Nat.zero_le _)]; rfl
  indptr_last := (indptr_getD_ofRows le_rfl).trans (rowStart_length rows)
  indptr_mono k hk := by
    rw [indptr_getD_ofRows hk.le, indptr_getD_ofRows hk]
    exact rowStart_le_succ rows k
  length_data := by simp [ofRows, List.length_flatten, Function.comp_def, CsVec.length_eq]
  lt_ncols i hi := by
    simp only [ofRows, List.mem_flatten, List.mem_map] at hi
    obtain ⟨_, ⟨v, hv, rfl⟩, hi⟩ := hi
    exact hdim v hv ▸ v.lt_dim i hi
  row_sorted k hk := by
    rw [outerView_ofRows hk, CsVec.map_fst_entries]
    exact rows[k].sorted

/-- The number of stored entries of an encoding is the sum of its rows'. -/
theorem length_indices_ofRows
    (n : Nat)
    (rows : List (CsVec F)) :
    (ofRows n rows).indices.length = (rows.map fun v => v.indices.length).sum := by
  simp [ofRows, List.length_flatten, Function.comp_def]

/-- Entry `k` of `m * w` is the sum over the stored entries of row `k`. -/
theorem mulVecEntry_eq_sum
    [Semiring F] {m : CsMat F} {w : List F} {k : Nat}
    (hnd : ((m.outerView k).map Prod.fst).Nodup)
    (hlt : ∀ e ∈ m.outerView k, e.1 < m.ncols) :
    m.mulVecEntry w k = ((m.outerView k).map fun e => e.2 * w.getD e.1 0).sum :=
  sum_lookup_mul (fun col => w.getD col 0) _ hnd hlt

namespace WellFormed

variable {m : CsMat F}

/-- Past the last row a well-formed matrix stores nothing. -/
theorem outerView_of_le
    (hm : m.WellFormed)
    {k : Nat}
    (hk : m.nrows ≤ k) :
    m.outerView k = [] := by
  have h : m.indptr.getD (k + 1) 0 = 0 :=
    List.getD_eq_default _ _ (by rw [hm.length_indptr]; omega)
  rw [outerView, h, List.take_zero, List.drop_nil]

theorem lt_ncols_of_mem_outerView
    (hm : m.WellFormed)
    {k : Nat} {e : Nat × F}
    (he : e ∈ m.outerView k) :
    e.1 < m.ncols :=
  hm.lt_ncols _ (List.of_mem_zip (List.mem_of_mem_take (List.mem_of_mem_drop he))).1

theorem nodup_outerView
    (hm : m.WellFormed)
    (k : Nat) :
    ((m.outerView k).map Prod.fst).Nodup := by
  rcases lt_or_le k m.nrows with hk | hk
  · exact (hm.row_sorted k hk).nodup
  · simp [hm.outerView_of_le hk]

end WellFormed

/-- Over a well-formed matrix the sparse product, which visits the stored
entries of a row, agrees with the dense one. -/
theorem mulVecEntry_eq_sum_of_wellFormed
    [Semiring F] {m : CsMat F}
    (hm : m.WellFormed)
    (w : List F)
    (k : Nat) :
    m.mulVecEntry w k = ((m.outerView k).map fun e => e.2 * w.getD e.1 0).sum :=
  mulVecEntry_eq_sum (hm.nodup_outerView k) fun _ he => hm.lt_ncols_of_mem_outerView he

end CsMat

end SnarkyBn382
