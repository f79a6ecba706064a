import Mathlib

/-!
# snarky-bn382: regrouping the previous challenges

`camlsnark_bn382_fq_proof_create` and `camlsnark_bn382_fq_proof_make` receive
the challenges of the previous accumulators as one flat vector and regroup
them, one chunk per previous `sg` point, with the same block of code:

    let challenges_per_sg = prev_challenges.len() / prev_sgs.len();
    prev_sgs.iter().enumerate().map(|(i, sg)|
      (prev_challenges[(i * challenges_per_sg)..(i+1)*challenges_per_sg] .., sg))

A range slice out of bounds and the division are panics (`none`).

**Results.**
* `prevOfChallenges_spec`: with `s ≥ 1` points and `k * s` challenges the
  block yields `s` pairs whose chunks have `k` challenges each, concatenate
  to the flat vector, and keep the points in order.
* `prevOfChallenges_truncates`: with `s ≥ 1` points and any number `n` of
  challenges the block completes with chunks of `n / s` challenges; the last
  `n % s` challenges are dropped.
* `prevOfChallenges_nil`: with no previous point the block divides by zero,
  in both functions.
-/

namespace SnarkyBn382

variable {α β : Type}

/-- `v[start..stop]`; `none` unless `start ≤ stop ≤ v.len()`. -/
def sliceRange (v : List α) (start stop : Nat) : Option (List α) :=
  if start ≤ stop ∧ stop ≤ v.length then some ((v.drop start).take (stop - start)) else none

/-- The `map` over `prev_sgs.iter().enumerate()`, counting from `i`. -/
def chunkChallenges (prevChallenges : List α) (challengesPerSg : Nat) :
    Nat → List β → Option (List (List α × β))
  | _, [] => some []
  | i, sg :: sgs => do
      let chunk ← sliceRange prevChallenges (i * challengesPerSg) ((i + 1) * challengesPerSg)
      let rest ← chunkChallenges prevChallenges challengesPerSg (i + 1) sgs
      pure ((chunk, sg) :: rest)

/-- The `prev` block shared by the two functions; `none` where
`prev_challenges.len() / prev_sgs.len()` divides by zero. -/
def prevOfChallenges (prevChallenges : List α) (prevSgs : List β) :
    Option (List (List α × β)) := do
  let challengesPerSg ←
    if prevSgs.length = 0 then none else some (prevChallenges.length / prevSgs.length)
  chunkChallenges prevChallenges challengesPerSg 0 prevSgs

/-- The `prev` that `camlsnark_bn382_fq_proof_create` passes to
`DlogProof::create`. -/
def camlsnarkBn382FqProofCreatePrev (prevChallenges : List α) (prevSgs : List β) :
    Option (List (List α × β)) :=
  prevOfChallenges prevChallenges prevSgs

/-- The `prev_challenges` field that `camlsnark_bn382_fq_proof_make` stores in
the proof. -/
def camlsnarkBn382FqProofMakePrev (prevChallenges : List α) (prevSgs : List β) :
    Option (List (List α × β)) :=
  prevOfChallenges prevChallenges prevSgs

theorem sliceRange_eq
    {v : List α} {start stop : Nat}
    (h : start ≤ stop)
    (hv : stop ≤ v.length) :
    sliceRange v start stop = some ((v.drop start).take (stop - start)) := by
  rw [sliceRange, if_pos ⟨h, hv⟩]

/-- From counter `i`, the loop cuts consecutive chunks of `k` challenges, one
per point, as long as the challenges last. -/
theorem chunkChallenges_spec
    (prevChallenges : List α)
    (k : Nat) :
    ∀ (i : Nat) (sgs : List β), (i + sgs.length) * k ≤ prevChallenges.length →
      ∃ prev, chunkChallenges prevChallenges k i sgs = some prev ∧
        prev.map Prod.snd = sgs ∧
        (prev.map Prod.fst).flatten = (prevChallenges.drop (i * k)).take (sgs.length * k) ∧
        ∀ chunk ∈ prev.map Prod.fst, chunk.length = k
  | i, [], _ => ⟨[], rfl, rfl, by simp, by simp⟩
  | i, sg :: sgs, h => by
      have hlen : (i + 1) * k ≤ prevChallenges.length := by
        simp only [List.length_cons] at h
        exact le_trans (Nat.mul_le_mul_right k (by omega)) h
      obtain ⟨rest, hrest, hsnd, hflat, hchunk⟩ :=
        chunkChallenges_spec prevChallenges k (i + 1) sgs (by simpa [Nat.add_right_comm] using h)
      refine ⟨((prevChallenges.drop (i * k)).take k, sg) :: rest, ?_, by simp [hsnd], ?_, ?_⟩
      · rw [chunkChallenges, sliceRange_eq (Nat.mul_le_mul_right k (Nat.le_succ i)) hlen, hrest]
        simp [Nat.succ_mul]
      · rw [List.map_cons, List.flatten_cons, hflat, List.length_cons, Nat.succ_mul sgs.length,
          Nat.add_comm _ k, List.take_add, List.drop_drop, Nat.succ_mul i]
      · simp only [List.map_cons, List.mem_cons, forall_eq_or_imp, List.length_take,
          List.length_drop]
        refine ⟨?_, hchunk⟩
        have : i * k + k ≤ prevChallenges.length := by rwa [← Nat.succ_mul]
        omega

/-- With `s ≥ 1` previous points and `k * s` challenges, the regrouping yields
`s` pairs: the `i`-th chunk has `k` challenges, the chunks concatenate back to
the flat vector, and the points keep their order. -/
theorem prevOfChallenges_spec
    {prevChallenges : List α} {prevSgs : List β} {k : Nat}
    (hs : 0 < prevSgs.length)
    (hk : prevChallenges.length = k * prevSgs.length) :
    ∃ prev, prevOfChallenges prevChallenges prevSgs = some prev ∧
      prev.map Prod.snd = prevSgs ∧
      (prev.map Prod.fst).flatten = prevChallenges ∧
      ∀ chunk ∈ prev.map Prod.fst, chunk.length = k := by
  have hdiv : prevChallenges.length / prevSgs.length = k := by
    rw [hk, Nat.mul_div_cancel _ hs]
  obtain ⟨prev, hprev, hsnd, hflat, hchunk⟩ :=
    chunkChallenges_spec prevChallenges k 0 prevSgs (by rw [hk, Nat.zero_add, Nat.mul_comm])
  refine ⟨prev, ?_, hsnd, ?_, hchunk⟩
  · simp [prevOfChallenges, Nat.pos_iff_ne_zero.1 hs, hdiv, hprev]
  · rw [hflat, Nat.zero_mul, List.drop_zero, Nat.mul_comm, ← hk, List.take_length]

theorem prevOfChallenges_spec_two :
    ∃ prev, prevOfChallenges [1, 2, 3, 4] [5, 6] = some prev ∧
      prev.map Prod.snd = [5, 6] ∧
      (prev.map Prod.fst).flatten = [1, 2, 3, 4] ∧
      ∀ chunk ∈ prev.map Prod.fst, chunk.length = 2 :=
  @prevOfChallenges_spec Nat Nat [1, 2, 3, 4] [5, 6] 2 (by decide) (by decide)

example : prevOfChallenges [1, 2, 3, 4] [5, 6] = some [([1, 2], 5), ([3, 4], 6)] := by decide

/-- With `s ≥ 1` points the regrouping never panics, whatever the number `n`
of challenges: each chunk has `n / s` of them, and the `n % s` challenges past
the last chunk are dropped without an error. -/
theorem prevOfChallenges_truncates
    {prevChallenges : List α} {prevSgs : List β}
    (hs : 0 < prevSgs.length) :
    ∃ prev, prevOfChallenges prevChallenges prevSgs = some prev ∧
      prev.map Prod.snd = prevSgs ∧
      (prev.map Prod.fst).flatten =
        prevChallenges.take (prevSgs.length * (prevChallenges.length / prevSgs.length)) ∧
      ∀ chunk ∈ prev.map Prod.fst, chunk.length = prevChallenges.length / prevSgs.length := by
  obtain ⟨prev, hprev, hsnd, hflat, hchunk⟩ :=
    chunkChallenges_spec prevChallenges (prevChallenges.length / prevSgs.length) 0 prevSgs
      (by rw [Nat.zero_add, Nat.mul_comm]; exact Nat.div_mul_le_self _ _)
  refine ⟨prev, ?_, hsnd, ?_, hchunk⟩
  · simp [prevOfChallenges, Nat.pos_iff_ne_zero.1 hs, hprev]
  · rw [hflat, Nat.zero_mul, List.drop_zero]

theorem prevOfChallenges_truncates_two :
    ∃ prev, prevOfChallenges [1, 2, 3, 4, 5] [6, 7] = some prev ∧
      prev.map Prod.snd = [6, 7] ∧
      (prev.map Prod.fst).flatten = [1, 2, 3, 4, 5].take (2 * (5 / 2)) ∧
      ∀ chunk ∈ prev.map Prod.fst, chunk.length = 5 / 2 :=
  @prevOfChallenges_truncates Nat Nat [1, 2, 3, 4, 5] [6, 7] (by decide)

/-- With no previous accumulator, both functions divide by
`prev_sgs.len() = 0` instead of regrouping nothing. -/
theorem prevOfChallenges_nil :
    camlsnarkBn382FqProofCreatePrev ([] : List Int) ([] : List Int) = none ∧
      camlsnarkBn382FqProofMakePrev ([] : List Int) ([] : List Int) = none :=
  ⟨rfl, rfl⟩

end SnarkyBn382
